import Brine.Pickle.Placeholder
import Mathlib.Data.List.Basic

namespace Brine.Proofs.PlaceholderFilling
open ExampleValues

def IsName (name : List Char) : Prop :=
  name ≠ [] ∧ '<' ∉ name ∧ '>' ∉ name

/-- A placeholder as it is written. -/
def placeholder (name : List Char) : List Char :=
  '<' :: (name ++ ['>'])

/-- From an index on a text goes on with a placeholder. -/
def PlaceholderAt (text : List Char) (i : Nat) (name : List Char) : Prop :=
  IsName name ∧ placeholder name <+: text.drop i

def ColumnValue (header row : Row) (name value : String) : Prop :=
  ∃ k : Nat, (header.cells.map (·.value))[k]? = some name ∧
    (row.cells.map (·.value))[k]? = some value ∧
    ∀ j < k, (header.cells.map (·.value))[j]? ≠ some name

structure Fills (header row : Row) (text : List Char) (i : Nat) (name : List Char)
    (value : String) : Prop where
  stands : PlaceholderAt text i name
  column : ColumnValue header row (String.ofList name) value

/-- What each place of a text contributes once its placeholders are filled. -/
structure Filled (header row : Row) (text : List Char) (pieces : List (List Char)) : Prop where
  length : pieces.length = text.length
  /-- A placeholder that has a value contributes it where it starts. -/
  value : ∀ i name value, Fills header row text i name value → pieces[i]? = some value.toList
  /-- The rest of the placeholder contributes nothing. -/
  inside : ∀ i j name value, Fills header row text j name value → j < i →
    i < j + (placeholder name).length → pieces[i]? = some []
  /-- All else stays as it is. -/
  kept : ∀ i c, text[i]? = some c →
    (∀ j name value, Fills header row text j name value → j ≤ i →
      j + (placeholder name).length ≤ i) → pieces[i]? = some [c]

@[simp] theorem length_placeholder (name : List Char) :
    (placeholder name).length = name.length + 2 := by
  simp [placeholder]

theorem lookup_zip {keys values : List String} {key value : String} :
    (keys.zip values).lookup key = some value ↔
      ∃ k : Nat, keys[k]? = some key ∧ values[k]? = some value ∧ ∀ j < k, keys[j]? ≠ some key := by
  induction keys generalizing values with
  | nil => simp
  | cons k keys ih =>
    cases values with
    | nil => simp
    | cons v values =>
      rw [List.zip_cons_cons, List.lookup_cons]
      by_cases hk : key = k
      · subst hk
        simp only [beq_self_eq_true, Option.some.injEq]
        constructor
        · intro hv
          exact ⟨0, by simp, by simpa using hv, by simp⟩
        · intro h
          obtain ⟨n, -, hv, hn⟩ := h
          cases n with
          | zero => simpa using hv
          | succ n => exact absurd rfl (hn 0 (by omega))
      · rw [beq_false_of_ne hk]
        constructor
        · intro h
          obtain ⟨n, hn, hv, hf⟩ := ih.mp h
          refine ⟨n + 1, hn, hv, ?_⟩
          intro j hj
          cases j with
          | zero => simpa using Ne.symm hk
          | succ j => exact hf j (by omega)
        · intro h
          obtain ⟨n, hn, hv, hf⟩ := h
          cases n with
          | zero => exact absurd (Option.some.inj hn).symm hk
          | succ n => exact ih.mpr ⟨n, hn, hv, fun j hj => hf (j + 1) (by omega)⟩

theorem columnValue_iff {header row : Row} {name value : String} :
    ColumnValue header row name value ↔ (ofRows header row).lookup name = some value :=
  lookup_zip.symm

section Places

variable {header row : Row} {text rest name name' : List Char} {i j : Nat} {c : Char}
  {value : String}

theorem PlaceholderAt.head (h : PlaceholderAt text i name) : text[i]? = some '<' := by
  obtain ⟨-, rest, hr⟩ := h
  have hi : (text.drop i)[0]? = some '<' := by simp [← hr, placeholder]
  simpa using hi

/-- After its first character a placeholder has no opening bracket. -/
theorem PlaceholderAt.tail (h : PlaceholderAt text i name) (hij : i < j)
    (hj : j < i + (placeholder name).length) : text[j]? ≠ some '<' := by
  obtain ⟨⟨-, hopen, -⟩, rest, hr⟩ := h
  obtain ⟨k, rfl⟩ : ∃ k, j = i + (k + 1) := ⟨j - i - 1, by omega⟩
  have hk : k < (name ++ ['>']).length := by simp at hj ⊢; omega
  have hc : text[i + (k + 1)]? = some (name ++ ['>'])[k] := by
    rw [← List.getElem?_drop, ← hr, placeholder, List.cons_append, List.getElem?_cons_succ,
      List.getElem?_append_left hk, List.getElem?_eq_getElem hk]
  intro he
  have hm : '<' ∈ name ++ ['>'] := by
    rw [← Option.some.inj (hc.symm.trans he)]
    exact List.getElem_mem hk
  simp [hopen] at hm

/-- A placeholder ends before the next one starts. -/
theorem PlaceholderAt.apart (h : PlaceholderAt text i name) (h' : PlaceholderAt text j name')
    (hij : i < j) : i + (placeholder name).length ≤ j := by
  apply Nat.le_of_not_lt
  intro hj
  exact h.tail hij hj h'.head

/-- At one place there are no two placeholders. -/
theorem PlaceholderAt.unique (h : PlaceholderAt text i name) (h' : PlaceholderAt text i name') :
    name = name' := by
  obtain ⟨⟨-, -, hclose⟩, rest, hr⟩ := h
  obtain ⟨⟨-, -, hclose'⟩, rest', hr'⟩ := h'
  have he : name ++ '>' :: rest = name' ++ '>' :: rest' := by
    have := hr.trans hr'.symm
    simpa [placeholder] using this
  have hn (w r : List Char) (hw : '>' ∉ w) : (w ++ '>' :: r).takeWhile (· ≠ '>') = w := by
    rw [List.takeWhile_append_of_pos]
    · simp
    · intro a ha
      simp only [ne_eq, decide_eq_true_eq]
      intro h
      exact hw (h ▸ ha)
  rw [← hn name rest hclose, he, hn name' rest' hclose']

theorem placeholderAt_drop (text : List Char) (k i : Nat) (name : List Char) :
    PlaceholderAt (text.drop k) i name ↔ PlaceholderAt text (k + i) name := by
  rw [PlaceholderAt, PlaceholderAt, List.drop_drop]

theorem fills_drop (k : Nat) :
    Fills header row (text.drop k) i name value ↔ Fills header row text (k + i) name value := by
  constructor
  · intro h
    exact ⟨(placeholderAt_drop text k i name).mp h.stands, h.column⟩
  · intro h
    exact ⟨(placeholderAt_drop text k i name).mpr h.stands, h.column⟩

theorem fills_tail : Fills header row text i name value ↔
    Fills header row (c :: text) (i + 1) name value := by
  rw [Nat.add_comm, ← fills_drop 1, List.drop_one, List.tail_cons]

end Places

section Scan

variable {header row : Row} {values : ExampleValues} {cs rest name : List Char} {c : Char}
  {value : String}

/-- Characters without a bracket. -/
def Plain (cs : List Char) : Prop :=
  '<' ∉ cs ∧ '>' ∉ cs

theorem exists_plain (cs : List Char) : ∃ start rest, cs = start ++ rest ∧ Plain start ∧
    (rest = [] ∨ (∃ after, rest = '<' :: after) ∨ ∃ after, rest = '>' :: after) := by
  induction cs with
  | nil => exact ⟨[], [], rfl, by simp [Plain], .inl rfl⟩
  | cons c cs ih =>
    by_cases ho : c = '<'
    · exact ⟨[], c :: cs, rfl, by simp [Plain], .inr (.inl ⟨cs, by rw [ho]⟩)⟩
    · by_cases hc : c = '>'
      · exact ⟨[], c :: cs, rfl, by simp [Plain], .inr (.inr ⟨cs, by rw [hc]⟩)⟩
      · obtain ⟨start, rest, rfl, hs, hr⟩ := ih
        refine ⟨c :: start, rest, rfl, ?_, hr⟩
        simpa [Plain, Ne.symm ho, Ne.symm hc] using hs

theorem substituteFrom_plain (h : Plain cs) (rest : List Char) :
    substituteFrom values none (cs ++ rest) = cs ++ substituteFrom values none rest := by
  induction cs with
  | nil => rfl
  | cons c cs ih =>
    simp only [Plain, List.mem_cons, not_or] at h
    rw [List.cons_append, substituteFrom, if_neg (Ne.symm h.1.1), ih ⟨h.1.2, h.2.2⟩]
    rfl

theorem substituteFrom_pending (h : Plain cs) (pending rest : List Char) :
    substituteFrom values (some pending) (cs ++ rest) =
      substituteFrom values (some (cs.reverse ++ pending)) rest := by
  induction cs generalizing pending with
  | nil => rfl
  | cons c cs ih =>
    simp only [Plain, List.mem_cons, not_or] at h
    rw [List.cons_append, substituteFrom, if_neg (Ne.symm h.1.1), if_neg (Ne.symm h.2.1),
      ih ⟨h.1.2, h.2.2⟩, List.reverse_cons, List.append_assoc, List.singleton_append]

theorem substituteFrom_placeholder (h : IsName name) (rest : List Char) :
    substituteFrom values none (placeholder name ++ rest) =
      values.fill name ++ substituteFrom values none rest := by
  have hp : name.reverse.isEmpty = false := by simpa using h.1
  rw [placeholder, List.cons_append, List.append_assoc, substituteFrom, if_pos rfl,
    substituteFrom_pending h.2, List.append_nil, List.singleton_append, substituteFrom,
    if_neg (by decide), if_pos rfl, hp, List.reverse_reverse]
  rfl

/-- A placeholder without a value stays as it is. -/
theorem fill_unknown (h : ∀ value, ¬ ColumnValue header row (String.ofList name) value) :
    (ofRows header row).fill name = placeholder name := by
  have hn : (ofRows header row).lookup (String.ofList name) = none := by
    apply Option.eq_none_iff_forall_not_mem.mpr
    intro value hv
    exact h value (columnValue_iff.mpr hv)
  rw [fill, hn]
  rfl

theorem fill_value (h : ColumnValue header row (String.ofList name) value) :
    (ofRows header row).fill name = value.toList := by
  rw [fill, columnValue_iff.mp h]

theorem substituteFrom_fills (h : Fills header row cs 0 name value) :
    ∃ rest, cs = placeholder name ++ rest ∧ substituteFrom (ofRows header row) none cs =
      value.toList ++ substituteFrom (ofRows header row) none rest := by
  obtain ⟨⟨hn, rest, hr⟩, hc⟩ := h
  refine ⟨rest, hr.symm, ?_⟩
  rw [← fill_value hc, ← substituteFrom_placeholder hn, hr]
  rfl

/-- A character at which no placeholder with a value starts stays as it is. -/
theorem substituteFrom_keeps (h : ∀ name value, ¬ Fills header row (c :: cs) 0 name value) :
    substituteFrom (ofRows header row) none (c :: cs) =
      c :: substituteFrom (ofRows header row) none cs := by
  by_cases hc : c = '<'
  · subst hc
    -- What follows up to the next bracket decides whether the opening one belongs to a placeholder.
    obtain ⟨start, rest, rfl, hs, hr⟩ := exists_plain cs
    rw [substituteFrom, if_pos rfl, substituteFrom_pending hs, substituteFrom_plain hs,
      List.append_nil]
    rcases hr with hr | hr | hr
    · subst hr
      simp [substituteFrom]
    · obtain ⟨after, rfl⟩ := hr
      simp [substituteFrom]
    · obtain ⟨after, rfl⟩ := hr
      by_cases he : start = []
      · subst he
        simp [substituteFrom]
      · have hn : IsName start := ⟨he, hs⟩
        have hu : (ofRows header row).fill start = placeholder start := by
          apply fill_unknown
          intro value hv
          exact h start value ⟨⟨hn, after, by simp [placeholder]⟩, hv⟩
        simp [substituteFrom, he, hu, placeholder]
  · rw [substituteFrom, if_neg hc]

end Scan

section Pieces

variable {header row : Row} {text rest name : List Char} {c : Char} {value : String}
  {pieces other : List (List Char)}

theorem Filled.nil : Filled header row [] [] where
  length := rfl
  value i name value h := by simpa using h.stands.head
  inside i j name value h := by simpa using h.stands.head
  kept i c h := by simp at h

theorem Filled.cons (h : Filled header row text pieces)
    (hn : ∀ name value, ¬ Fills header row (c :: text) 0 name value) :
    Filled header row (c :: text) ([c] :: pieces) where
  length := congrArg (· + 1) h.length
  value i name value hf := by
    cases i with
    | zero => exact absurd hf (hn name value)
    | succ i => exact h.value i name value (fills_tail.mpr hf)
  inside i j name value hf hj hi := by
    cases j with
    | zero => exact absurd hf (hn name value)
    | succ j =>
      cases i with
      | zero => omega
      | succ i => exact h.inside i j name value (fills_tail.mpr hf) (by omega) (by omega)
  kept i c' hc hf := by
    cases i with
    | zero =>
      obtain rfl : c = c' := by simpa using hc
      rfl
    | succ i =>
      apply h.kept i c' hc
      intro j name value hj hi
      have hle := hf (j + 1) name value (fills_tail.mp hj) (by omega)
      omega

def filler (name : List Char) (value : String) : List (List Char) :=
  value.toList :: List.replicate (name.length + 1) []

theorem filler_append (k : Nat) (name : List Char) (value : String) (pieces : List (List Char)) :
    (filler name value ++ pieces)[(placeholder name).length + k]? = pieces[k]? := by
  have hl : (filler name value).length = (placeholder name).length := by simp [filler]
  rw [List.getElem?_append_right (by omega), hl, Nat.add_sub_cancel_left]

theorem fills_append (k : Nat) (start rest : List Char) :
    Fills header row rest k name value ↔
      Fills header row (start ++ rest) (start.length + k) name value := by
  rw [← fills_drop, List.drop_left]

theorem Filled.fill (h : Filled header row rest pieces)
    (hf : Fills header row (placeholder name ++ rest) 0 name value) :
    Filled header row (placeholder name ++ rest) (filler name value ++ pieces) where
  length := by
    have hl := h.length
    simp [filler]
    omega
  value i name' value' hf' := by
    by_cases hi : i = 0
    · subst hi
      obtain rfl := hf.stands.unique hf'.stands
      have hv := (columnValue_iff.mp hf.column).symm.trans (columnValue_iff.mp hf'.column)
      rw [Option.some.inj hv]
      rfl
    · have hle := hf.stands.apart hf'.stands (by omega)
      obtain ⟨k, rfl⟩ := Nat.exists_eq_add_of_le hle
      rw [Nat.zero_add] at hf' ⊢
      rw [filler_append]
      exact h.value k name' value' ((fills_append k _ rest).mpr hf')
  inside i j name' value' hf' hj hi := by
    by_cases hj' : j = 0
    · subst hj'
      obtain rfl := hf.stands.unique hf'.stands
      obtain ⟨k, rfl⟩ : ∃ k, i = k + 1 := ⟨i - 1, by omega⟩
      have hk : k < name.length + 1 := by simp at hi; omega
      rw [filler, List.cons_append, List.getElem?_cons_succ,
        List.getElem?_append_left (by simpa using hk), List.getElem?_replicate_of_lt hk]
    · have hle := hf.stands.apart hf'.stands (by omega)
      obtain ⟨k, rfl⟩ := Nat.exists_eq_add_of_le hle
      rw [Nat.zero_add] at hf' hj hi
      obtain ⟨m, rfl⟩ := Nat.exists_eq_add_of_lt hj
      rw [Nat.add_assoc, Nat.add_assoc, filler_append]
      exact h.inside _ k name' value' ((fills_append k _ rest).mpr hf') (by omega) (by omega)
  kept i c hc hn := by
    have hle := hn 0 name value hf (by omega)
    obtain ⟨k, rfl⟩ := Nat.exists_eq_add_of_le hle
    rw [Nat.zero_add] at hc hn ⊢
    rw [filler_append]
    apply h.kept k c
    · rw [← hc, List.getElem?_append_right (by omega), Nat.add_sub_cancel_left]
    · intro j name' value' hj hjk
      have := hn _ name' value' ((fills_append j _ rest).mp hj) (by omega)
      omega

/-- The scan joins what the places of a text contribute. -/
theorem exists_filled (header row : Row) (text : List Char) : ∃ pieces,
    Filled header row text pieces ∧
      substituteFrom (ofRows header row) none text = pieces.flatten := by
  induction hl : text.length using Nat.strongRecOn generalizing text with
  | ind n ih =>
    cases text with
    | nil => exact ⟨[], .nil, rfl⟩
    | cons c text =>
      by_cases hf : ∃ name value, Fills header row (c :: text) 0 name value
      · obtain ⟨name, value, hf⟩ := hf
        obtain ⟨rest, hr, hs⟩ := substituteFrom_fills hf
        obtain ⟨pieces, hp, he⟩ := ih rest.length (by simp [← hl, hr]) rest rfl
        rw [hr] at hf hs
        rw [hr]
        refine ⟨filler name value ++ pieces, hp.fill hf, ?_⟩
        rw [hs, he]
        simp [filler]
      · have hf : ∀ name value, ¬ Fills header row (c :: text) 0 name value := by
          simpa using hf
        obtain ⟨pieces, hp, he⟩ := ih text.length (by simp [← hl]) text rfl
        refine ⟨[c] :: pieces, hp.cons hf, ?_⟩
        rw [substituteFrom_keeps hf, he]
        rfl

/-- What a place contributes is decided by the text alone. -/
theorem Filled.unique (h : Filled header row text pieces) (h' : Filled header row text other) :
    pieces = other := by
  apply List.ext_getElem?
  intro i
  cases hc : text[i]? with
  | none =>
    have hi := List.getElem?_eq_none_iff.mp hc
    rw [List.getElem?_eq_none (h.length ▸ hi), List.getElem?_eq_none (h'.length ▸ hi)]
  | some c =>
    by_cases hf : ∃ j name value, Fills header row text j name value ∧ j ≤ i ∧
        i < j + (placeholder name).length
    · obtain ⟨j, name, value, hf, hj, hi⟩ := hf
      by_cases he : j = i
      · subst he
        rw [h.value j name value hf, h'.value j name value hf]
      · have hj : j < i := by omega
        rw [h.inside i j name value hf hj hi, h'.inside i j name value hf hj hi]
    · have hn : ∀ j name value, Fills header row text j name value → j ≤ i →
          j + (placeholder name).length ≤ i := by
        intro j name value hj hji
        apply Nat.le_of_not_lt
        intro hi
        exact hf ⟨j, name, value, hj, hji, hi⟩
      rw [h.kept i c hc hn, h'.kept i c hc hn]

end Pieces

/-- Substitution is simultaneous. Placeholders do not overlap; each one whose name is that of a
column gives way to the value in the first such column, and each other character stays as it is,
whatever the values are. -/
theorem substitute_pieces (header row : Row) (text : String) :
    (∀ i j name name', PlaceholderAt text.toList i name → PlaceholderAt text.toList j name' →
      i < j → i + (placeholder name).length ≤ j) ∧
    ∃ pieces, Filled header row text.toList pieces ∧
      (∀ other, Filled header row text.toList other → other = pieces) ∧
      (ofRows header row).substitute text = String.ofList pieces.flatten := by
  obtain ⟨pieces, hp, he⟩ := exists_filled header row text.toList
  refine ⟨?_, pieces, hp, ?_, ?_⟩
  · intro i j name name' hi hj hij
    exact hi.apart hj hij
  · intro other ho
    exact ho.unique hp
  · rw [substitute, he]

def sampleRow (values : List String) : Row where
  id := ""
  location := ⟨1, 1⟩
  cells := values.map fun value => ⟨⟨1, 1⟩, value⟩

/-- A value that makes up a placeholder together with the text around it. -/
example : (ofRows (sampleRow ["a", "b", "a"]) (sampleRow ["b>", "2"])).substitute "<<a><c><b>" =
    "<b><c>2" := by
  decide +kernel

end Brine.Proofs.PlaceholderFilling
