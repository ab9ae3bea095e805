import Brine.Proofs.ExpressionReading
import Brine.Proofs.Registries

namespace Brine.Proofs.RegistryRuns
open Registry Registries Expression ExpressionReading

inductive Call where
  | define (t : ParameterType)
  | defineOrKeep (t : ParameterType)

/-- The type that is defined. -/
def Call.type : Call → ParameterType
  | .define t | .defineOrKeep t => t

def Call.taken : Call → Except ParameterError Bool
  | .define t => .error (.duplicate t.name)
  | .defineOrKeep _ => .ok false

theorem checkName_error {name other : String} : checkName name ≠ .error (.duplicate other) := by
  unfold checkName
  split
  · simp
  · split <;> simp

theorem scan_name {name : List Char} (h : ∀ c ∈ name, c ≠ '\x7b' ∧ c ≠ '\x7d') (start pos : Nat)
    (run : List Char) : scan (.parameter start) pos run (name ++ ['\x7d']) =
      .ok [.parameter (String.ofList (run.reverse ++ name)) start] := by
  induction name generalizing pos run with
  | nil => simp [scan, flush]
  | cons c name ih =>
    obtain ⟨⟨ho, hc⟩, hn⟩ := List.forall_mem_cons.mp h
    rw [List.cons_append, scan, if_neg hc, if_neg ho, ih hn, List.reverse_cons, List.append_assoc]
    rfl

theorem tokens_name {name : String} (h : ∀ c ∈ name.toList, isIllegalInName c = false) :
    tokens ('\x7b' :: name.toList ++ ['\x7d']) = .ok [.parameter name 0] := by
  have hbraces : ∀ c ∈ name.toList, c ≠ '\x7b' ∧ c ≠ '\x7d' := by
    intro c hc
    have hlegal := h c hc
    constructor <;> intro he <;> subst he <;> revert hlegal <;> decide
  have hscan := scan_name hbraces 0 1 []
  rw [List.reverse_nil, List.nil_append, String.ofList_toList] at hscan
  rw [tokens, List.cons_append, scan_plain (by decide) (.inl rfl), if_neg (by decide), if_pos rfl,
    hscan]
  rfl

variable [Regex.Engine]

/-- What a call answers, `true` for a type that has been added, and the registry after it. -/
def perform (r : Registry) : Call → Except ParameterError Bool × Registry
  | .define t => (do store t; pure true : Action Bool) r
  | .defineOrKeep t => storeOrKeep t r

/-- The registry after some calls. -/
def after (r : Registry) (calls : List Call) : Registry :=
  calls.foldl (fun r call => (perform r call).2) r

/-- The types that some calls add, in their order. -/
def added (r : Registry) : List Call → List ParameterType
  | [] => []
  | call :: calls =>
    let later := added (perform r call).2 calls
    match (perform r call).1 with
    | .ok true => call.type :: later
    | _ => later

variable {r : Registry}

theorem checkRegexps_error {name other : String} {regexps : List String} :
    checkRegexps name regexps ≠ .error (.duplicate other) := by
  unfold checkRegexps
  split
  · simp
  · rename_i h
    clear h
    induction regexps with
    | nil => exact nofun
    | cons regexp regexps ih =>
      rw [List.forM]
      cases Regex.compile regexp.toList with
      | error e => simp [bind, Except.bind]
      | ok _ => exact ih

/-- The check knows nothing of names that are taken. -/
theorem check_error {t : ParameterType} {e : ParameterError} (h : check t = .error e)
    (name : String) : e ≠ .duplicate name := by
  intro he
  subst he
  rw [check] at h
  cases hn : checkName t.name with
  | error e =>
    rw [hn] at h
    cases h
    exact checkName_error hn
  | ok u =>
    rw [hn] at h
    exact checkRegexps_error h

/-- A call adds its type if that passes the check and the name is new, and does nothing
otherwise. -/
theorem perform_eq (r : Registry) (call : Call) :
    perform r call = match check call.type with
      | .error e => (.error e, r)
      | .ok () =>
        if (r.index.lookup call.type.name).isSome then (call.taken, r)
        else (.ok true, r.insert call.type) := by
  cases call with
  | define t =>
    rw [perform, bind_run, store_eq, Call.type]
    cases check t with
    | error e => rfl
    | ok u => cases (r.index.lookup t.name).isSome <;> rfl
  | defineOrKeep t =>
    rw [perform, storeOrKeep, tryCatch_run, bind_run, store_eq, Call.type]
    cases hc : check t with
    | error e =>
      have hne := check_error hc
      cases e with
      | duplicate name => exact absurd rfl (hne name)
      | _ => rfl
    | ok u => cases (r.index.lookup t.name).isSome <;> rfl

/-- A call that does not answer that it has added its type changes nothing. -/
theorem perform_unchanged {call : Call} (h : (perform r call).1 ≠ .ok true) :
    (perform r call).2 = r := by
  rw [perform_eq] at h ⊢
  split
  · rfl
  · rename_i hc
    rw [hc] at h
    split
    · rfl
    · rename_i hn
      exact absurd (by rw [if_neg hn]) h

/-- A call that answers that it has added its type has checked it, and its name was new. -/
theorem perform_added {call : Call} (h : (perform r call).1 = .ok true) :
    check call.type = .ok () ∧ r.index.lookup call.type.name = none ∧
      (perform r call).2 = r.insert call.type := by
  rw [perform_eq] at h ⊢
  split at h
  · cases h
  · rename_i hc
    split at h
    · cases call <;> cases h
    · rename_i hn
      rw [hc, if_neg hn]
      exact ⟨rfl, by simpa only [Option.isSome_iff_ne_none, ne_eq, not_not] using hn, rfl⟩

/-- Both calls do the same, and differ only in the answer for a name that is taken. -/
theorem perform_defineOrKeep (r : Registry) (t : ParameterType) :
    perform r (.defineOrKeep t) = (match (perform r (.define t)).1 with
      | .error (.duplicate _) => .ok false
      | answer => answer, (perform r (.define t)).2) := by
  rw [perform_eq, perform_eq, Call.type, Call.type]
  cases hc : check t with
  | error e =>
    have hne := check_error hc
    cases e with
    | duplicate name => exact absurd rfl (hne name)
    | _ => rfl
  | ok u => cases (r.index.lookup t.name).isSome <;> rfl

theorem after_cons (call : Call) (calls : List Call) :
    after r (call :: calls) = after (perform r call).2 calls :=
  rfl

theorem after_append (calls more : List Call) :
    after r (calls ++ more) = after (after r calls) more :=
  List.foldl_append

theorem named_perform (h : Named r) (call : Call) : Named (perform r call).2 := by
  by_cases ha : (perform r call).1 = .ok true
  · obtain ⟨hc, hn, he⟩ := perform_added ha
    rw [he]
    exact h.insert (check_ok hc).1 hn
  · rw [perform_unchanged ha]
    exact h

theorem named_after (h : Named r) (calls : List Call) : Named (after r calls) := by
  induction calls generalizing r with
  | nil => exact h
  | cons call calls ih => exact ih (named_perform h call)

theorem types_perform (r : Registry) (call : Call) (calls : List Call) :
    r.types ++ added r (call :: calls) =
      (perform r call).2.types ++ added (perform r call).2 calls := by
  rw [added]
  split
  · rename_i hp
    obtain ⟨-, -, he⟩ := perform_added hp
    rw [he, Registry.insert, List.append_assoc, List.singleton_append]
  · rename_i hp
    rw [perform_unchanged hp]

/-- The list of types is what it was, followed by what the calls have added. -/
theorem types_after (r : Registry) (calls : List Call) :
    (after r calls).types = r.types ++ added r calls := by
  induction calls generalizing r with
  | nil => exact (List.append_nil _).symm
  | cons call calls ih => rw [after_cons, ih, types_perform]

theorem runs_named (builtins : Bool) (calls : List Call) :
    Named (after (if builtins then {} else .empty) calls) := by
  refine named_after ?_ calls
  cases builtins with
  | false => exact empty_named
  | true => exact builtins_named

/-- Whatever is called on a registry that is empty at first or has the types that are there from
the start: names stay distinct, the index has the position of each name and nothing else, the list
of types grows only at its end and only by what the calls say they have added, both kinds of calls
agree except on names that are taken, and each name can be used in an expression. -/
theorem runs_keep_index (builtins : Bool) (calls : List Call) :
    let start : Registry := if builtins then {} else .empty
    let r := after start calls
    (r.types.map ParameterType.name).Nodup ∧
    (∀ name i, r.index.lookup name = some i ↔ ∃ t, r.types[i]? = some t ∧ t.name = name) ∧
    (∀ name t, r.get? name = some t ↔ t ∈ r.types ∧ t.name = name) ∧
    r.types = start.types ++ added start calls ∧
    (∀ more, r.types <+: (after start (calls ++ more)).types) ∧
    (∀ call, (perform r call).1 ≠ .ok true → (perform r call).2 = r) ∧
    (∀ t, perform r (.defineOrKeep t) = (match (perform r (.define t)).1 with
      | .error (.duplicate _) => .ok false
      | answer => answer, (perform r (.define t)).2)) ∧
    ∀ t ∈ r.types, tokens ('\x7b' :: t.name.toList ++ ['\x7d']) = .ok [.parameter t.name 0] := by
  intro start r
  have hnamed : Named r := runs_named builtins calls
  refine ⟨hnamed.indexed.nodup, hnamed.indexed, fun name t => hnamed.indexed.get?_eq_some,
    types_after start calls, ?_, fun call => perform_unchanged, perform_defineOrKeep r, ?_⟩
  · intro more
    rw [after_append, types_after (after start calls)]
    exact List.prefix_append _ _
  · intro t ht
    exact tokens_name (hnamed.legal t ht)

end Brine.Proofs.RegistryRuns
