import Brine.Line.Reader
import Mathlib.Data.List.Infix

namespace Brine.Proofs.Replacing
open Line Text

section Replace

variable {old new : List Char}

@[simp]
theorem replace_nil : replace old new [] = [] := by
  simp [replace, replaceAfter]

theorem replaceAfter_skip (skipped rest : List Char) :
    replaceAfter old new skipped.length (skipped ++ rest) = replaceAfter old new 0 rest := by
  induction skipped with
  | nil => rfl
  | cons c skipped ih => rw [List.length_cons, List.cons_append, replaceAfter, ih]

/-- An occurrence at the start is replaced. -/
theorem replace_append (ho : old ≠ []) (rest : List Char) :
    replace old new (old ++ rest) = new ++ replace old new rest := by
  obtain ⟨c, skipped, rfl⟩ := List.exists_cons_of_ne_nil ho
  have hp : (c :: skipped).isPrefixOf (c :: (skipped ++ rest)) = true :=
    List.isPrefixOf_iff_prefix.mpr ⟨rest, rfl⟩
  rw [replace, List.cons_append, replaceAfter, if_pos hp, List.length_cons, Nat.add_sub_cancel,
    replaceAfter_skip, replace]

/-- A character at which no occurrence starts stays. -/
theorem replace_cons {c : Char} {rest : List Char} (h : ¬old <+: c :: rest) :
    replace old new (c :: rest) = c :: replace old new rest := by
  have hp : ¬old.isPrefixOf (c :: rest) = true := fun hp => h (List.isPrefixOf_iff_prefix.mp hp)
  rw [replace, replaceAfter, if_neg hp, replace]

/-- A text is read from the left as occurrences of `old` and characters at which none starts. -/
theorem replace_induction {motive : List Char → Prop} (ho : old ≠ []) (nil : motive [])
    (occurrence : ∀ rest, motive rest → motive (old ++ rest))
    (plain : ∀ c rest, ¬old <+: c :: rest → motive rest → motive (c :: rest))
    (text : List Char) : motive text := by
  induction hn : text.length using Nat.strongRecOn generalizing text with
  | ind n ih =>
    cases text with
    | nil => exact nil
    | cons c rest =>
      by_cases h : old <+: c :: rest
      · obtain ⟨rest', he⟩ := h
        have hlt : rest'.length < n := by
          have hlen := congrArg List.length he
          have hpos := List.length_pos_iff.mpr ho
          rw [List.length_append] at hlen
          omega
        rw [← he]
        exact occurrence rest' (ih _ hlt rest' rfl)
      · have hlt : rest.length < n := by
          rw [List.length_cons] at hn
          omega
        exact plain c rest h (ih _ hlt rest rfl)

end Replace

def mark : Delimiter → Char
  | .quotes => '"'
  | .backticks => '\x60'

/-- A text with its delimiters escaped. -/
def escape (d : Delimiter) (text : List Char) : List Char :=
  replace d.chars d.escaped text

def unescape (d : Delimiter) (text : List Char) : List Char :=
  replace d.escaped d.chars text

def pairs (d : Delimiter) (n : Nat) : List Char :=
  (List.replicate n (mark d)).flatMap fun c => ['\\', c]

section Delimiters

variable {d : Delimiter} {c : Char} {text rest p : List Char}

theorem chars_eq (d : Delimiter) : d.chars = List.replicate 3 (mark d) := by
  cases d <;> rfl

theorem escaped_eq (d : Delimiter) : d.escaped = pairs d 3 := by
  rw [Delimiter.escaped, chars_eq, pairs]

theorem mark_ne (d : Delimiter) : mark d ≠ '\\' := by
  cases d <;> decide

theorem chars_ne_nil (d : Delimiter) : d.chars ≠ [] := by
  simp [chars_eq]

theorem escaped_cons (d : Delimiter) : d.escaped = '\\' :: mark d :: pairs d 2 := by
  rw [escaped_eq]
  rfl

theorem escape_append (d : Delimiter) (rest : List Char) :
    escape d (d.chars ++ rest) = d.escaped ++ escape d rest :=
  replace_append (chars_ne_nil d) rest

theorem escape_cons (h : ¬d.chars <+: c :: rest) : escape d (c :: rest) = c :: escape d rest :=
  replace_cons h

/-- Where no delimiter starts, what the escaped text starts with starts the text. -/
theorem starts_plain (hd : ¬d.chars <+: text) (h : c :: p <+: escape d text) :
    ∃ rest, text = c :: rest ∧ p <+: escape d rest := by
  cases text with
  | nil =>
    simp [escape] at h
  | cons a rest =>
    rw [escape_cons hd, List.cons_prefix_cons] at h
    exact ⟨rest, by rw [h.1], h.2⟩

/-- At a mark of the escaped text no delimiter of the text starts. -/
theorem not_prefix_of_mark (h : mark d :: p <+: escape d text) : ¬d.chars <+: text := by
  rintro ⟨rest, rfl⟩
  rw [escape_append, escaped_cons, List.cons_append, List.cons_prefix_cons] at h
  exact mark_ne d h.1

theorem starts_mark (h : mark d :: p <+: escape d text) :
    ∃ rest, text = mark d :: rest ∧ p <+: escape d rest :=
  starts_plain (not_prefix_of_mark h) h

/-- An escaped text does not start with a delimiter. -/
theorem not_prefix_escape (d : Delimiter) (text : List Char) : ¬d.chars <+: escape d text := by
  intro h
  have hc : d.chars = [mark d, mark d, mark d] := chars_eq d
  rw [hc] at h
  obtain ⟨rest₁, h₁, hrest⟩ := starts_mark h
  obtain ⟨rest₂, h₂, hrest⟩ := starts_mark hrest
  obtain ⟨rest₃, h₃, -⟩ := starts_mark hrest
  have hp : text = d.chars ++ rest₃ := by
    rw [h₁, h₂, h₃, hc]
    rfl
  exact not_prefix_of_mark h ⟨rest₃, hp.symm⟩

/-- After a mark at which no delimiter starts, none starts either. -/
theorem not_prefix_tail (h : ¬d.chars <+: mark d :: rest) : ¬d.chars <+: rest := by
  rintro ⟨rest', rfl⟩
  exact h ⟨mark d :: rest', by rw [chars_eq]; rfl⟩

/-- Where no delimiter starts, pairs at the start of the escaped text are pairs of the text. -/
theorem pairs_prefix {n : Nat} (hd : ¬d.chars <+: text) (h : pairs d n <+: escape d text) :
    pairs d n <+: text := by
  induction n generalizing text with
  | zero => exact List.nil_prefix
  | succ n ih =>
    have hp : pairs d (n + 1) = '\\' :: mark d :: pairs d n := by
      simp [pairs, List.replicate_succ]
    rw [hp] at h ⊢
    obtain ⟨rest₁, rfl, h₁⟩ := starts_plain hd h
    have hm := not_prefix_of_mark h₁
    obtain ⟨rest₂, rfl, h₂⟩ := starts_mark h₁
    rw [List.cons_prefix_cons, List.cons_prefix_cons]
    exact ⟨rfl, rfl, ih (not_prefix_tail hm) h₂⟩

/-- Escaping the delimiters of a text can be undone if none of them is escaped in it already. -/
theorem unescape_escape (h : ¬d.escaped <:+: text) : unescape d (escape d text) = text := by
  induction text using replace_induction (chars_ne_nil d) with
  | nil => simp [unescape, escape]
  | occurrence rest ih =>
    have hr : ¬d.escaped <:+: rest := fun hi => h (hi.trans (List.suffix_append _ _).isInfix)
    have he : d.escaped ≠ [] := by simp [escaped_cons]
    rw [escape_append, unescape, replace_append he, ← unescape, ih hr]
  | plain c rest hd ih =>
    have hr : ¬d.escaped <:+: rest := fun hi => h (hi.trans (List.suffix_cons _ _).isInfix)
    have hp : ¬d.escaped <+: c :: escape d rest := by
      intro hp
      rw [← escape_cons hd, escaped_eq] at hp
      have hpairs := pairs_prefix hd hp
      rw [← escaped_eq] at hpairs
      exact h hpairs.isInfix
    rw [escape_cons hd, unescape, replace_cons hp, ← unescape, ih hr]

theorem mem_escape (h : c ∈ escape d text) : c ∈ text ∨ c = '\\' := by
  induction text using replace_induction (chars_ne_nil d) with
  | nil => simp [escape] at h
  | occurrence rest ih =>
    rw [escape_append, List.mem_append, Delimiter.escaped, List.mem_flatMap] at h
    rw [List.mem_append]
    rcases h with ⟨a, ha, h⟩ | h
    · rcases List.mem_cons.mp h with h | h
      · exact .inr h
      · rw [List.mem_singleton.mp h]
        exact .inl (.inl ha)
    · rcases ih h with h | h
      · exact .inl (.inr h)
      · exact .inr h
  | plain a rest hd ih =>
    rw [escape_cons hd] at h
    rcases List.mem_cons.mp h with h | h
    · exact .inl (h ▸ List.mem_cons_self)
    · rcases ih h with h | h
      · exact .inl (List.mem_cons_of_mem a h)
      · exact .inr h

/-- An escaped text ends as the text does. -/
theorem getLast?_escape (d : Delimiter) (text : List Char) :
    (escape d text).getLast? = text.getLast? := by
  induction text using replace_induction (chars_ne_nil d) with
  | nil => simp [escape]
  | occurrence rest ih =>
    have he : d.escaped.getLast? = d.chars.getLast? := by cases d <;> rfl
    rw [escape_append, List.getLast?_append, List.getLast?_append, ih, he]
  | plain c rest hd ih =>
    rw [escape_cons hd, List.getLast?_cons, List.getLast?_cons, ih]

/-- Not even after its indent an escaped text starts with a delimiter. -/
theorem not_prefix_trimStart (d : Delimiter) (text : List Char) :
    ¬d.chars <+: trimStart (escape d text) := by
  induction text using replace_induction (chars_ne_nil d) with
  | nil =>
    rw [escape, replace_nil]
    exact not_prefix_escape d []
  | occurrence rest ih =>
    have ht : trimStart (escape d (d.chars ++ rest)) = escape d (d.chars ++ rest) := by
      rw [escape_append, escaped_cons]
      rfl
    rw [ht]
    exact not_prefix_escape d _
  | plain c rest hd ih =>
    cases hb : isBlank c with
    | true =>
      have ht : trimStart (escape d (c :: rest)) = trimStart (escape d rest) := by
        rw [escape_cons hd, trimStart, List.dropWhile_cons_of_pos hb, trimStart]
      rw [ht]
      exact ih
    | false =>
      have ht : trimStart (escape d (c :: rest)) = escape d (c :: rest) := by
        rw [escape_cons hd, trimStart, List.dropWhile_cons_of_neg (by simp [hb])]
      rw [ht]
      exact not_prefix_escape d _

end Delimiters

end Brine.Proofs.Replacing
