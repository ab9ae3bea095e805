import Brine.Parameter.Registry
import Brine.Proofs.Success

namespace Brine.Proofs.Registries
open Registry Success

variable {r r' : Registry} {t : ParameterType}

theorem bind_run {α β : Type} (m : Action α) (f : α → Action β) (r : Registry) :
    (m >>= f) r = match m r with
      | (.ok a, r') => f a r'
      | (.error e, r') => (.error e, r') := by
  simp only [bind, ExceptT.bind, ExceptT.mk, StateT.bind, ExceptT.bindCont]
  rcases m r with ⟨_ | _, r'⟩ <;> rfl

theorem tryCatch_run {α : Type} (m : Action α) (f : ParameterError → Action α) (r : Registry) :
    tryCatch m f r = match m r with
      | (.ok a, r') => (.ok a, r')
      | (.error e, r') => f e r' := by
  simp only [tryCatch, tryCatchThe, MonadExceptOf.tryCatch, ExceptT.tryCatch, ExceptT.mk, bind,
    StateT.bind]
  rcases m r with ⟨_ | _, r'⟩ <;> rfl

/-- The index has the position of each type under its name, and nothing else. -/
def Indexed (r : Registry) : Prop :=
  ∀ name i, r.index.lookup name = some i ↔ ∃ t, r.types[i]? = some t ∧ t.name = name

theorem lookup_insert {name : String} : (r.insert t).index.lookup name =
    if name = t.name then some r.types.length else r.index.lookup name := by
  rw [Registry.insert, List.lookup_cons]
  split <;> split <;> simp_all

theorem Indexed.insert (h : Indexed r) (hn : r.index.lookup t.name = none) :
    Indexed (r.insert t) := by
  intro name i
  rw [lookup_insert]
  have htypes : (r.insert t).types[i]? =
      if i < r.types.length then r.types[i]? else [t][i - r.types.length]? := by
    exact List.getElem?_append
  rw [htypes]
  by_cases hname : name = t.name
  · subst hname
    rw [if_pos rfl]
    constructor
    · intro hi
      cases hi
      exact ⟨t, by simp, rfl⟩
    · intro ht
      obtain ⟨t', ht, he⟩ := ht
      split at ht
      · have := (h t.name i).mpr ⟨t', ht, he⟩
        rw [hn] at this
        contradiction
      · rename_i hi
        obtain ⟨hlt, -⟩ := List.getElem?_eq_some_iff.mp ht
        rw [List.length_singleton] at hlt
        congr 1
        omega
  · rw [if_neg hname, h name i]
    constructor
    · intro ht
      obtain ⟨t', ht, he⟩ := ht
      obtain ⟨hlt, -⟩ := List.getElem?_eq_some_iff.mp ht
      exact ⟨t', by rw [if_pos hlt, ht], he⟩
    · intro ht
      obtain ⟨t', ht, he⟩ := ht
      split at ht
      · exact ⟨t', ht, he⟩
      · obtain rfl : t' = t := List.mem_singleton.mp (List.mem_of_getElem? ht)
        exact absurd he.symm hname

/-- Each name has one type. -/
theorem Indexed.nodup (h : Indexed r) : (r.types.map ParameterType.name).Nodup := by
  have hlookup (i : Nat) (hi : i < r.types.length) : r.index.lookup r.types[i].name = some i :=
    (h _ i).mpr ⟨r.types[i], List.getElem?_eq_getElem hi, rfl⟩
  rw [List.nodup_iff_pairwise_ne, List.pairwise_iff_getElem]
  intro i j hi hj hij he
  rw [List.length_map] at hi hj
  rw [List.getElem_map, List.getElem_map] at he
  have hsame := hlookup i hi
  rw [he, hlookup j hj, Option.some.injEq] at hsame
  omega

theorem Indexed.get?_eq_some (h : Indexed r) {name : String} :
    r.get? name = some t ↔ t ∈ r.types ∧ t.name = name := by
  have hget : r.get? name = some t ↔ ∃ i, r.index.lookup name = some i ∧ r.types[i]? = some t :=
    Option.bind_eq_some_iff
  rw [hget]
  constructor
  · intro hi
    obtain ⟨i, hi, ht⟩ := hi
    obtain ⟨t', ht', he⟩ := (h name i).mp hi
    obtain rfl : t' = t := Option.some.inj (ht'.symm.trans ht)
    exact ⟨List.mem_of_getElem? ht, he⟩
  · intro ht
    obtain ⟨hmem, he⟩ := ht
    obtain ⟨i, hi⟩ := List.mem_iff_getElem?.mp hmem
    exact ⟨i, (h name i).mpr ⟨t, hi, he⟩, hi⟩

theorem empty_indexed : Indexed Registry.empty := by
  intro name i
  simp [Registry.empty, ParameterType.positions]

theorem builtins_eq : ParameterType.builtins.foldl Registry.insert .empty = {} :=
  rfl

/-- Types with names of their own are added one after the other. -/
theorem Indexed.insertAll (h : Indexed r) {ts : List ParameterType}
    (hn : ((r.types ++ ts).map ParameterType.name).Nodup) :
    Indexed (ts.foldl Registry.insert r) := by
  induction ts generalizing r with
  | nil => exact h
  | cons t ts ih =>
    have hnew : r.index.lookup t.name = none := by
      cases hi : r.index.lookup t.name with
      | none => rfl
      | some i =>
        obtain ⟨t', ht', he⟩ := (h t.name i).mp hi
        rw [List.map_append, List.nodup_append] at hn
        have hne := hn.2.2 t'.name (List.mem_map_of_mem (List.mem_of_getElem? ht')) t.name (by simp)
        exact absurd he hne
    refine ih (h.insert hnew) ?_
    simpa [Registry.insert] using hn

/-- Each type can be found under its name, and the name can stand between the braces of a
parameter. -/
structure Named (r : Registry) : Prop where
  indexed : Indexed r
  legal : ∀ t ∈ r.types, ∀ c ∈ t.name.toList, isIllegalInName c = false

theorem checkName_ok {name : String} (h : checkName name = .ok ()) :
    ∀ c ∈ name.toList, isIllegalInName c = false := by
  unfold checkName at h
  split at h
  · contradiction
  · split at h
    · contradiction
    · rename_i hf
      simpa using hf

theorem Named.insert (h : Named r) (hc : checkName t.name = .ok ())
    (hn : r.index.lookup t.name = none) : Named (r.insert t) where
  indexed := h.indexed.insert hn
  legal := by
    intro t' ht'
    rcases List.mem_append.mp ht' with ht' | ht'
    · exact h.legal t' ht'
    · rw [List.mem_singleton.mp ht']
      exact checkName_ok hc

theorem empty_named : Named Registry.empty :=
  ⟨empty_indexed, by simp [Registry.empty]⟩

theorem builtins_named : Named {} := by
  have hlegal : ParameterType.builtins.all
      (fun t => t.name.toList.all fun c => !isIllegalInName c) = true := by decide
  refine ⟨?_, by simpa using hlegal⟩
  rw [← builtins_eq]
  exact empty_indexed.insertAll (by decide)

/-- A type is found under its name. -/
theorem Named.get? (h : Named r) (ht : t ∈ r.types) : r.get? t.name = some t :=
  h.indexed.get?_eq_some.mpr ⟨ht, rfl⟩

variable [Regex.Engine]

/-- Types are defined one after the other, in a registry that is empty at first or has the types
that are there from the start. -/
inductive Reached : Registry → Prop
  | empty : Reached Registry.empty
  | builtins : Reached {}
  | define {r r' : Registry} {t : ParameterType} : Reached r → r.define t = .ok r' → Reached r'

/-- A type is added if it passes the check and its name is new, and nothing is done otherwise. -/
theorem store_eq (t : ParameterType) (r : Registry) :
    store t r = match check t with
      | .error e => (.error e, r)
      | .ok () =>
        if (r.index.lookup t.name).isSome then (.error (.duplicate t.name), r)
        else (.ok (), r.insert t) := by
  have hcheck : (liftM (check t) : Action Unit) r = (check t, r) := rfl
  rw [store, bind_run, hcheck]
  cases check t with
  | error e => rfl
  | ok u =>
    change (if (r.index.lookup t.name).isSome then throw (.duplicate t.name)
      else set (r.insert t) : Action Unit) r = _
    split <;> rfl

theorem store_ok (h : store t r = (.ok (), r')) :
    check t = .ok () ∧ r.index.lookup t.name = none ∧ r' = r.insert t := by
  rw [store_eq] at h
  split at h
  · cases h
  · rename_i hc
    split at h
    · cases h
    · rename_i hn
      cases h
      exact ⟨hc, by simpa only [Option.isSome_iff_ne_none, ne_eq, not_not] using hn, rfl⟩

theorem define_ok (h : r.define t = .ok r') : store t r = (.ok (), r') := by
  unfold Registry.define at h
  split at h
  · rename_i hs
    cases h
    exact hs
  · cases h

theorem checkRegexps_ok {name : String} {regexps : List String}
    (h : checkRegexps name regexps = .ok ()) :
    regexps ≠ [] ∧ ∀ regexp ∈ regexps, ∃ regex, Regex.compile regexp.toList = .ok regex := by
  unfold checkRegexps at h
  split at h
  · contradiction
  · rename_i hne
    refine ⟨by simpa using hne, ?_⟩
    clear hne
    induction regexps with
    | nil => simp
    | cons regexp regexps ih =>
      rw [List.forM, bind_eq_ok] at h
      obtain ⟨⟨⟩, hthis, hrest⟩ := h
      refine List.forall_mem_cons.mpr ⟨?_, ih hrest⟩
      cases hc : Regex.compile regexp.toList with
      | ok regex => exact ⟨regex, rfl⟩
      | error e => simp [hc] at hthis

theorem check_ok (h : check t = .ok ()) :
    checkName t.name = .ok () ∧ checkRegexps t.name t.regexps = .ok () := by
  rw [check, bind_eq_ok] at h
  obtain ⟨⟨⟩, hn, hr⟩ := h
  exact ⟨hn, hr⟩

theorem Reached.named (h : Reached r) : Named r := by
  induction h with
  | empty => exact empty_named
  | builtins => exact builtins_named
  | define _ hd ih =>
    obtain ⟨hc, hn, rfl⟩ := store_ok (define_ok hd)
    exact ih.insert (check_ok hc).1 hn

end Brine.Proofs.Registries
