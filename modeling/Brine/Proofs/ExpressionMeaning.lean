import Brine.Proofs.ExpressionPatterns
import Brine.Proofs.PatternNumbers
import Brine.Proofs.RegexMatching

namespace Brine.Proofs.ExpressionMeaning
open Regex Expression RegexMeaning PatternRuns PatternEmbedding ExpressionReading ExpressionChoices
  ExpressionPatterns PatternNumbers RegexThreads RegexMatching

/-- A parameter in a text: its name, what stands before it, and what it stands for. -/
structure Piece where
  name : String
  before : List Char
  raw : List Char

/-- Chosen items make up a text between `before` and `after`, item by item: a character is itself,
an optional text is there or not, and a parameter is what `P` lets it be where it stands. -/
inductive Renders (P : String → (before raw after : List Char) → Prop) :
    List Item → (before text after : List Char) → List Piece → Prop
  | nil {b a : List Char} : Renders P [] b [] a []
  | char {c : Char} {items : List Item} {b text a : List Char} {pieces : List Piece} :
      Renders P items (b ++ [c]) text a pieces → Renders P (.char c :: items) b (c :: text) a pieces
  | absent {t : List Char} {items : List Item} {b text a : List Char} {pieces : List Piece} :
      Renders P items b text a pieces → Renders P (.optional t :: items) b text a pieces
  | present {t : List Char} {items : List Item} {b text a : List Char} {pieces : List Piece} :
      Renders P items (b ++ t) text a pieces →
      Renders P (.optional t :: items) b (t ++ text) a pieces
  | parameter {name : String} {raw : List Char} {items : List Item} {b text a : List Char}
      {pieces : List Piece} : P name b raw (text ++ a) →
      Renders P items (b ++ raw) text a pieces →
      Renders P (.parameter name :: items) b (raw ++ text) a (⟨name, b, raw⟩ :: pieces)

section
variable {P Q : String → List Char → List Char → List Char → Prop} {items items' : List Item}
  {b m m' a : List Char} {pieces pieces' : List Piece} {ms : List Mark}

theorem Renders.append (h : Renders P items b m (m' ++ a) pieces)
    (h' : Renders P items' (b ++ m) m' a pieces') :
    Renders P (items ++ items') b (m ++ m') a (pieces ++ pieces') := by
  generalize ha : m' ++ a = rest at h
  induction h with
  | nil => simpa using h'
  | char _ ih => exact .char (ih (by simpa using h') ha)
  | absent _ ih => exact .absent (ih h' ha)
  | present _ ih =>
    rw [List.append_assoc]
    exact .present (ih (by simpa using h') ha)
  | parameter hp _ ih =>
    subst ha
    rw [List.append_assoc]
    exact .parameter (by simpa using hp) (ih (by simpa using h') rfl)

theorem renders_append : Renders P (items ++ items') b m a pieces ↔
    ∃ m₁ m₂ pieces₁ pieces₂, m = m₁ ++ m₂ ∧ pieces = pieces₁ ++ pieces₂ ∧
      Renders P items b m₁ (m₂ ++ a) pieces₁ ∧ Renders P items' (b ++ m₁) m₂ a pieces₂ := by
  constructor
  · intro h
    induction items generalizing b m pieces with
    | nil => exact ⟨[], m, [], pieces, rfl, rfl, .nil, by simpa using h⟩
    | cons i items ih =>
      cases h with
      | char h =>
        obtain ⟨m₁, m₂, pieces₁, pieces₂, rfl, rfl, h₁, h₂⟩ := ih h
        exact ⟨_ :: m₁, m₂, pieces₁, pieces₂, rfl, rfl, .char h₁, by simpa using h₂⟩
      | absent h =>
        obtain ⟨m₁, m₂, pieces₁, pieces₂, rfl, rfl, h₁, h₂⟩ := ih h
        exact ⟨m₁, m₂, pieces₁, pieces₂, rfl, rfl, .absent h₁, h₂⟩
      | @present t _ _ _ _ _ h =>
        obtain ⟨m₁, m₂, pieces₁, pieces₂, rfl, rfl, h₁, h₂⟩ := ih h
        exact ⟨t ++ m₁, m₂, pieces₁, pieces₂, by simp, rfl, .present h₁, by simpa using h₂⟩
      | @parameter name raw _ _ _ _ _ hp h =>
        obtain ⟨m₁, m₂, pieces₁, pieces₂, rfl, rfl, h₁, h₂⟩ := ih h
        exact ⟨raw ++ m₁, m₂, _ :: pieces₁, pieces₂, by simp, rfl,
          .parameter (by simpa using hp) h₁, by simpa using h₂⟩
  · rintro ⟨m₁, m₂, pieces₁, pieces₂, rfl, rfl, h₁, h₂⟩
    exact h₁.append h₂

theorem Renders.mono (h : Renders P items b m a pieces)
    (hPQ : ∀ name b raw a, P name b raw a → Q name b raw a) : Renders Q items b m a pieces := by
  induction h with
  | nil => exact .nil
  | char _ ih => exact .char ih
  | absent _ ih => exact .absent ih
  | present _ ih => exact .present ih
  | parameter hp _ ih => exact .parameter (hPQ _ _ _ _ hp) ih

theorem renders_text {text : List Char} :
    Renders P (text.map .char) b m a pieces ↔ m = text ∧ pieces = [] := by
  induction text generalizing b m with
  | nil =>
    constructor
    · rintro ⟨⟩
      exact ⟨rfl, rfl⟩
    · rintro ⟨rfl, rfl⟩
      exact .nil
  | cons c text ih =>
    constructor
    · intro h
      cases h with
      | char h =>
        obtain ⟨rfl, rfl⟩ := ih.mp h
        exact ⟨rfl, rfl⟩
    · rintro ⟨rfl, rfl⟩
      exact .char (ih.mpr ⟨rfl, rfl⟩)

theorem renders_optional {t : List Char} :
    Renders P [.optional t] b m a pieces ↔ (m = [] ∨ m = t) ∧ pieces = [] := by
  constructor
  · intro h
    cases h with
    | absent h =>
      cases h
      exact ⟨.inl rfl, rfl⟩
    | present h =>
      cases h
      exact ⟨.inr (by simp), rfl⟩
  · rintro ⟨rfl | rfl, rfl⟩
    · exact .absent .nil
    · have h : Renders P [.optional m] b (m ++ []) a [] := .present .nil
      simpa using h

theorem spans_part (p : Part) :
    Spans (catAll (partExprs p)) b m a ms ↔ Renders P (partItems p) b m a [] ∧ ms = [] := by
  cases p with
  | text t =>
    rw [partExprs, partItems, renders_text, spans_text]
    simp
  | optional t =>
    have ht := @spans_text b m a ms t.toList
    rw [partExprs, partItems, renders_optional, catAll, spans_opt, ht]
    constructor
    · rintro (⟨rfl, rfl⟩ | ⟨rfl, rfl⟩)
      · exact ⟨⟨.inl rfl, rfl⟩, rfl⟩
      · exact ⟨⟨.inr rfl, rfl⟩, rfl⟩
    · rintro ⟨⟨rfl | rfl, -⟩, rfl⟩
      · exact .inl ⟨rfl, rfl⟩
      · exact .inr ⟨rfl, rfl⟩

theorem spans_parts (parts : List Part) :
    Spans (catAll (parts.flatMap partExprs)) b m a ms ↔
      Renders P (parts.flatMap partItems) b m a [] ∧ ms = [] := by
  induction parts generalizing b m ms with
  | nil =>
    rw [List.flatMap_nil, List.flatMap_nil, catAll, spans_empty]
    have h := @renders_text P b m a [] []
    simp only [List.map_nil, and_true] at h
    rw [h]
  | cons p parts ih =>
    rw [List.flatMap_cons, List.flatMap_cons, spans_catAll_append, renders_append]
    constructor
    · rintro ⟨m₁, m₂, ms₁, ms₂, rfl, rfl, h₁, h₂⟩
      obtain ⟨hp, rfl⟩ := (spans_part p).mp h₁
      obtain ⟨hps, rfl⟩ := ih.mp h₂
      exact ⟨⟨m₁, m₂, [], [], rfl, rfl, hp, hps⟩, rfl⟩
    · rintro ⟨⟨m₁, m₂, pieces₁, pieces₂, rfl, hp, h₁, h₂⟩, rfl⟩
      obtain ⟨rfl, rfl⟩ := List.append_eq_nil_iff.mp hp.symm
      exact ⟨m₁, m₂, [], [], rfl, rfl, (spans_part p).mpr ⟨h₁, rfl⟩, ih.mpr ⟨h₂, rfl⟩⟩

theorem spans_choice {alternatives : List (List Part)} (h : alternatives ≠ []) :
    Spans (choiceExpr alternatives) b m a ms ↔
      ∃ parts ∈ alternatives, Renders P (parts.flatMap partItems) b m a [] ∧ ms = [] := by
  rw [choiceExpr, spans_altAll (by simpa using h)]
  constructor
  · rintro ⟨r, hr, hs⟩
    obtain ⟨parts, hp, rfl⟩ := List.mem_map.mp hr
    exact ⟨parts, hp, (spans_parts parts).mp hs⟩
  · rintro ⟨parts, hp, hs⟩
    exact ⟨_, List.mem_map_of_mem hp, (spans_parts parts).mpr hs⟩

theorem Renders.names (h : Renders P items b m a pieces) :
    pieces.map Piece.name = items.filterMap itemName? := by
  induction h with
  | nil => rfl
  | char _ ih => exact ih
  | absent _ ih => exact ih
  | present _ ih => exact ih
  | parameter _ _ ih => simp [itemName?, ih]

/-- A parameter stands where its piece says, and is what it may be there. -/
theorem Renders.placed (h : Renders P items b m a pieces) :
    ∀ p ∈ pieces, ∃ after, p.before ++ (p.raw ++ after) = b ++ (m ++ a) ∧
      P p.name p.before p.raw after := by
  induction h with
  | nil => simp
  | char _ ih | present _ ih => simpa using ih
  | absent _ ih => exact ih
  | parameter hp _ ih =>
    refine List.forall_mem_cons.mpr ⟨⟨_, ?_, hp⟩, ?_⟩
    · simp
    · simpa using ih

theorem Renders.no_pieces (h : Renders P items b m a pieces)
    (hi : items.filterMap itemName? = []) : pieces = [] := by
  rw [← h.names, List.map_eq_nil_iff] at hi
  exact hi

end

structure Noted (ms : List Mark) (i start stop : Nat) : Prop where
  opened : (ms.find? fun k => k.index = i && !k.closing) = some ⟨i, false, start⟩
  closed : (ms.find? fun k => k.index = i && k.closing) = some ⟨i, true, stop⟩

section
variable {ms ms' : List Mark} {i start stop : Nat}

theorem Noted.append (h : Noted ms i start stop) : Noted (ms ++ ms') i start stop where
  opened := by rw [List.find?_append, h.opened, Option.some_or]
  closed := by rw [List.find?_append, h.closed, Option.some_or]

theorem Noted.append_left (h : Noted ms i start stop) (h' : ∀ k ∈ ms', k.index ≠ i) :
    Noted (ms' ++ ms) i start stop where
  opened := by
    have hn : (ms'.find? fun k => k.index = i && !k.closing) = none := by
      simp only [List.find?_eq_none, Bool.and_eq_true, decide_eq_true_eq]
      exact fun k hk hi => h' k hk hi.1
    rw [List.find?_append, hn, Option.none_or, h.opened]
  closed := by
    have hn : (ms'.find? fun k => k.index = i && k.closing) = none := by
      simp only [List.find?_eq_none, Bool.and_eq_true, decide_eq_true_eq]
      exact fun k hk hi => h' k hk hi.1
    rw [List.find?_append, hn, Option.none_or, h.closed]

theorem noted_group (h : ∀ k ∈ ms, k.index ≠ i) :
    Noted (⟨i, true, stop⟩ :: (ms ++ [⟨i, false, start⟩])) i start stop where
  opened := by
    have hn : (ms.find? fun k => k.index = i && !k.closing) = none := by
      simp only [List.find?_eq_none, Bool.and_eq_true, decide_eq_true_eq]
      exact fun k hk hi => h k hk hi.1
    simp [List.find?_append, hn]
  closed := by simp

end

theorem spans_whole {rs : List Regex} {b m a : List Char} {ms : List Mark} :
    Spans (wholeText rs) b m a ms ↔ b = [] ∧ a = [] ∧ Spans (catAll rs) [] m [] ms := by
  rw [wholeText, spans_catAll_cons]
  constructor
  · rintro ⟨m₁, m₂, ms₁, ms₂, rfl, rfl, h₁, h₂⟩
    obtain ⟨m₃, m₄, ms₃, ms₄, rfl, rfl, h₃, h₄⟩ := spans_catAll_append.mp h₂
    cases h₁ with
    | look hb =>
      cases h₄ with
      | look ha =>
        obtain rfl : b = [] := by simpa [Look.holds] using hb
        obtain rfl : a = [] := by simpa [Look.holds] using ha
        simpa using h₃
  · rintro ⟨rfl, rfl, h⟩
    refine ⟨[], m, [], ms, rfl, by simp, .look rfl, ?_⟩
    exact spans_catAll_append.mpr ⟨m, [], ms, [], by simp, by simp, by simpa using h, .look rfl⟩

theorem match?_isSome {e : Expression} {text : String} :
    (e.match? text).isSome = true ↔
      ∃ b m a, b ++ (m ++ a) = text.toList ∧ Matches e.regex b m a := by
  rw [← find_isSome]
  simp [Expression.match?, arguments?]

/-- An expression for whole texts matches a text from its start to its end. -/
theorem match?_wholeText {rs : List Regex} {e : Expression} (h : e.regex = wholeText rs)
    {text : String} : (e.match? text).isSome = true ↔ Matches (catAll rs) [] text.toList [] := by
  rw [match?_isSome, h]
  constructor
  · rintro ⟨b, m, a, ht, ms, hs⟩
    obtain ⟨rfl, rfl, hs'⟩ := spans_whole.mp hs
    obtain rfl : m = text.toList := by simpa using ht
    exact ⟨ms, hs'⟩
  · rintro ⟨ms, hs⟩
    exact ⟨[], text.toList, [], by simp, ms, spans_whole.mpr ⟨rfl, rfl, hs⟩⟩

/-- The marks of a slot are where the parameter stands, and the types agree. -/
def Captured (registry : Registry) (ms : List Mark) (slot : Slot) (piece : Piece) : Prop :=
  registry.get? piece.name = some slot.type ∧ slot.group ≠ 0 ∧
    Noted ms slot.group piece.before.length (piece.before ++ piece.raw).length

variable [Regex.Engine]

/-- The type with this name matches the text where it stands. -/
def Typed (registry : Registry) (name : String) (before raw after : List Char) : Prop :=
  ∃ type r, registry.get? name = some type ∧ type.regex = .ok r ∧ Matches r before raw after

/-- Whether all capturing groups that are written in the pattern of a type are there in its
expression. -/
def keepsGroups (type : ParameterType) : Bool :=
  match type.regex with
  | .ok r => r.groupCount = writtenGroups type.regexSource.toList
  | .error _ => true

/-- No type has a capturing group that is gone from its expression. -/
def Counted (registry : Registry) : Prop :=
  ∀ type ∈ registry.types, keepsGroups type = true

section
variable {registry : Registry} {next group : Nat} {nodes : List Node} {rs : List Regex}
  {slots : List Slot} {b m a : List Char} {ms : List Mark} {chosen : List Item}
  {pieces : List Piece}

/-- What nodes match is made up of what has been chosen, and the groups of the parameters are
marked where they stand. -/
theorem spans_forms (h : Forms registry next group nodes rs slots) (hn : next ≠ 0)
    (hs : Spans (catAll rs) b m a ms) :
    ∃ chosen pieces, Picks nodes chosen ∧ Renders (Typed registry) chosen b m a pieces ∧
      (∀ k ∈ ms, next ≤ k.index) ∧
      (Counted registry → group = next → List.Forall₂ (Captured registry ms) slots pieces) := by
  induction h generalizing b m ms with
  | nil =>
    obtain ⟨rfl, rfl⟩ := spans_empty.mp hs
    exact ⟨[], [], .nil, .nil, by simp, fun _ _ => .nil⟩
  | @part next group p nodes rs slots _ ih =>
    obtain ⟨m₁, m₂, ms₁, ms₂, rfl, rfl, h₁, h₂⟩ := spans_catAll_append.mp hs
    obtain ⟨hp, rfl⟩ := (spans_part p).mp h₁
    obtain ⟨chosen, pieces, hc, hr, hk, hslots⟩ := ih hn h₂
    rw [List.append_nil]
    exact ⟨_, _, .part hc, hp.append hr, hk, hslots⟩
  | @choice next group alternatives nodes rs slots ha _ ih =>
    obtain ⟨m₁, m₂, ms₁, ms₂, rfl, rfl, h₁, h₂⟩ := spans_catAll_cons.mp hs
    obtain ⟨parts, hm, hp, rfl⟩ := (spans_choice ha).mp h₁
    obtain ⟨chosen, pieces, hc, hr, hk, hslots⟩ := ih hn h₂
    rw [List.append_nil]
    exact ⟨_, _, .choice hm hc, hp.append hr, hk, hslots⟩
  | @parameter next group start name type r d nodes rs slots ht hr hd hf _ ih =>
    obtain ⟨m₁, m₂, ms₁, ms₂, rfl, rfl, h₁, h₂⟩ := spans_catAll_cons.mp hs
    obtain ⟨chosen, pieces, hc, hrest, hk, hslots⟩ := ih (by omega) h₂
    cases h₁ with
    | @group _ _ _ _ _ ms₁ h₁ =>
      have hm : Matches r b m₁ (m₂ ++ a) := matches_shift.mp ⟨ms₁, h₁⟩
      -- Groups inside the type's own pattern come after its group.
      have hinner : ∀ k ∈ ms₁, next < k.index := by
        intro k hmem
        obtain ⟨i, hi, he⟩ := mem_indices_shift.mp (h₁.mem_indices k hmem)
        have := indices_pos hd hf i hi
        omega
      refine ⟨_, _, .parameter hc, .parameter ⟨type, r, ht, hr, hm⟩ hrest, ?_, ?_⟩
      · intro k hmem
        simp only [List.mem_append, List.mem_cons, List.not_mem_nil, or_false] at hmem
        rcases hmem with hmem | rfl | hmem | rfl
        · have := hk k hmem
          omega
        · exact Nat.le_refl _
        · exact Nat.le_of_lt (hinner k hmem)
        · exact Nat.le_refl _
      · rintro hcount rfl
        have hgroups : r.groupCount = d.captures := by
          have hkeeps := hcount type (mem_of_get? ht)
          simp only [keepsGroups, hr, decide_eq_true_eq] at hkeeps
          rw [hkeeps, captures_written hd]
        refine .cons ⟨ht, hn, ?_⟩ ((hslots hcount (by rw [hgroups])).imp ?_)
        · refine (noted_group fun k hmem => (hinner k hmem).ne').append_left fun k hmem => ?_
          have := hk k hmem
          omega
        · rintro slot piece ⟨htype, hne, hnoted⟩
          exact ⟨htype, hne, hnoted.append⟩

/-- Nodes match whatever the chosen items make up. -/
theorem matches_forms (h : Forms registry next group nodes rs slots) (hc : Picks nodes chosen)
    (hr : Renders (Typed registry) chosen b m a pieces) : Matches (catAll rs) b m a := by
  induction h generalizing b m chosen pieces with
  | nil =>
    cases hc
    cases hr
    exact ⟨[], .empty⟩
  | @part _ _ p _ _ _ _ ih =>
    cases hc with
    | part hc =>
      obtain ⟨m₁, m₂, pieces₁, pieces₂, rfl, -, h₁, h₂⟩ := renders_append.mp hr
      obtain ⟨ms₂, h₂⟩ := ih hc h₂
      rw [h₁.no_pieces (names_part p)] at h₁
      have hpart := (spans_part p).mpr ⟨h₁, rfl⟩
      exact ⟨_, spans_catAll_append.mpr ⟨m₁, m₂, _, ms₂, rfl, rfl, hpart, h₂⟩⟩
  | choice ha _ ih =>
    cases hc with
    | @choice _ parts _ _ hm hc =>
      obtain ⟨m₁, m₂, pieces₁, pieces₂, rfl, -, h₁, h₂⟩ := renders_append.mp hr
      obtain ⟨ms₂, h₂⟩ := ih hc h₂
      rw [h₁.no_pieces (names_parts parts)] at h₁
      exact ⟨_, spans_catAll_cons.mpr
        ⟨m₁, m₂, _, ms₂, rfl, rfl, (spans_choice ha).mpr ⟨parts, hm, h₁, rfl⟩, h₂⟩⟩
  | @parameter next group start name type r d nodes rs slots ht hr' hd hf _ ih =>
    cases hc with
    | parameter hc =>
      cases hr with
      | @parameter _ raw _ _ text _ _ hp h =>
        obtain ⟨type', r', ht', hr'', hm⟩ := hp
        obtain rfl : type = type' := Option.some.inj (ht.symm.trans ht')
        obtain rfl : r = r' := Except.ok.inj (hr'.symm.trans hr'')
        obtain ⟨ms₁, h₁⟩ := (matches_shift (k := next)).mpr hm
        obtain ⟨ms₂, h₂⟩ := ih hc h
        exact ⟨_, spans_catAll_cons.mpr ⟨raw, text, _, ms₂, rfl, rfl, .group h₁, h₂⟩⟩

end

/-- An expression matches the texts that what it has been compiled to makes up. -/
theorem match?_forms {registry : Registry} {nodes : List Node} {rs : List Regex} {e : Expression}
    (h : Forms registry 1 1 nodes rs e.slots) (he : e.regex = wholeText rs) {text : String} :
    (e.match? text).isSome = true ↔ ∃ chosen pieces, Picks nodes chosen ∧
      Renders (Typed registry) chosen [] text.toList [] pieces := by
  rw [match?_wholeText he]
  constructor
  · rintro ⟨ms, hs⟩
    obtain ⟨chosen, pieces, hc, hr, -⟩ := spans_forms h Nat.one_ne_zero hs
    exact ⟨chosen, pieces, hc, hr⟩
  · rintro ⟨chosen, pieces, hc, hr⟩
    exact matches_forms h hc hr

end Brine.Proofs.ExpressionMeaning
