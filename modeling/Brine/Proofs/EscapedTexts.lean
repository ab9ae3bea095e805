import Brine.Proofs.SnippetMatching

namespace Brine.Proofs.EscapedTexts
open Expression Snippet Success ExpressionReading ExpressionChoices ExpressionPatterns
  Registries SnippetCandidates ItemPatterns SnippetMatching

variable {registry : Registry} {items : List Item} {tokens : List Token} {text : List Char}

theorem literal_injective : Function.Injective literal := by
  intro c d h
  have hs (c : Char) : settled (literal c) = .char c := by simpa using settled_literal [c]
  apply Item.char.inj
  rw [← hs c, ← hs d, h]

/-- What an escaped text stands for is the text. -/
theorem escape_injective : Function.Injective escape := by
  intro text text' h
  have hr := reads_escaped text'
  rw [← h] at hr
  apply List.map_injective_iff.mpr literal_injective
  exact reads_unique hr (reads_escaped text)

/-- Tokens that stand for literal characters are runs of them. -/
theorem runs_of_tokens (h : tokens.flatMap tokenItems = text.map literal) :
    ∃ runs : List String, tokens.filterMap Token.node? = runs.map (.part ∘ .text) ∧
      runs.flatMap String.toList = text := by
  induction tokens generalizing text with
  | nil =>
    have ht : text = [] := by simpa using h
    exact ⟨[], rfl, ht.symm⟩
  | cons t tokens ih =>
    rw [List.flatMap_cons] at h
    obtain ⟨run, rest, rfl, hrun, hrest⟩ := List.map_eq_append_iff.mp h.symm
    obtain ⟨runs, hnodes, hruns⟩ := ih hrest.symm
    -- Settled items are characters, whether they have been blanks or not.
    have hchars := congrArg (List.map settled) hrun
    rw [settled_literal] at hchars
    have hinj : Function.Injective (List.map Item.char) :=
      List.map_injective_iff.mpr fun c d hcd => Item.char.inj hcd
    cases t with
    | text t | space t =>
      have ht : run = t.toList := by
        apply hinj
        rw [hchars, tokenItems, List.map_map]
        rfl
      refine ⟨t :: runs, ?_, ?_⟩
      · rw [List.map_cons, ← hnodes]
        rfl
      · rw [List.flatMap_cons, hruns, ht]
    | parameter name start => cases run <;> simp [tokenItems, settled] at hchars
    | optional t => cases run <;> simp [tokenItems, settled] at hchars
    | slash position => cases run <;> simp [tokenItems, settled] at hchars

/-- The nodes of an escaped text are text. -/
theorem nodes_escape (text : List Char) :
    ∃ runs : List String, Expression.nodes (escape text) = .ok (runs.map (.part ∘ .text)) ∧
      runs.flatMap String.toList = text := by
  obtain ⟨tokens, hitems, hn⟩ := nodes_slashless (reads_escaped text) (slash_not_mem_literal text)
  obtain ⟨runs, hnodes, hruns⟩ := runs_of_tokens hitems
  exact ⟨runs, by rw [hn, hnodes], hruns⟩

/-- The pattern of a suggestion from a place on: a candidate is a group with the pattern of its
type, and the rest is quoted. -/
def snippetPattern (registry : Registry) (text : List Char) (place : Nat) :
    List Snippet.Candidate → List Char
  | [] => Regex.quote (text.drop place)
  | c :: rest =>
    Regex.quote ((text.drop place).take (c.start - place)) ++
      '(' :: typePattern registry c.name ++ ')' :: snippetPattern registry text c.stop rest

theorem pattern_snippetItems {candidates : List Snippet.Candidate} (place : Nat) :
    (snippetItems text place candidates).flatMap (itemPattern registry) =
      snippetPattern registry text place candidates := by
  induction candidates generalizing place with
  | nil => exact pattern_literal _
  | cons c candidates ih =>
    rw [snippetItems, snippetPattern, List.flatMap_append, List.flatMap_cons, pattern_literal, ih]
    simp [itemPattern]

section
variable [Regex.Engine]

/-- A special character takes the next one away or makes the text an error. -/
theorem special_not_literal {c : Char} (h : isSpecial c = true) :
    Source.ofText registry (String.ofList (c :: escape ['a'])) ≠ .ok (literalSource [c, 'a']) := by
  have hc : c ∈ ['\\', '\x7b', '\x7d', '(', ')', '/'] := by simpa [isSpecial] using h
  simp only [List.mem_cons, List.not_mem_nil, or_false] at hc
  rcases hc with rfl | hc
  · have hs : Source.ofText registry (String.ofList ('\\' :: escape ['a'])) =
        .ok (literalSource ['a']) := rfl
    rw [hs]
    simp [literalSource, Regex.quote, Regex.isMeta]
  · have he : ∃ e, Expression.nodes (String.ofList (c :: escape ['a'])).toList = .error e := by
      rcases hc with rfl | rfl | rfl | rfl | rfl <;> exact ⟨_, rfl⟩
    obtain ⟨e, he⟩ := he
    intro hs
    obtain ⟨nodes, hn, -⟩ := bind_eq_ok.mp hs
    rw [he] at hn
    contradiction

theorem isSpecial_eq_false_iff {c : Char} : isSpecial c = false ↔
    ∀ text, Source.ofText registry (String.ofList (c :: escape text)) =
      .ok (literalSource (c :: text)) := by
  constructor
  · intro h text
    have hcons : escape (c :: text) = c :: escape text := by
      rw [escape, List.flatMap_cons, h]
      rfl
    rw [← hcons]
    exact ofText_escape registry (c :: text)
  · intro h
    -- A letter after the character is enough to tell.
    cases hs : isSpecial c with
    | false => rfl
    | true => exact absurd (h ['a']) (special_not_literal hs)

theorem ofText_generate (h : Reached registry) (text : String) :
    ∃ s, Source.ofText registry (generate registry text).source = .ok s ∧
      s.pattern =
        '^' :: snippetPattern registry text.toList 0 (replaced registry text) ++ ['$'] ∧
      s.slots.map (·.type.name) = (generate registry text).names := by
  have hnames : (suggestedItems registry text).filterMap itemName? =
      (generate registry text).names := names_items 0
  obtain ⟨s, hs, hpattern, hslots⟩ := ofText_slashless (reads_generate h.named)
    (slash_not_mem_items 0) (types_suggested h.named)
  refine ⟨s, hs, ?_, ?_⟩
  · rw [hpattern, suggestedItems, pattern_snippetItems]
  · rw [← hnames]
    exact hslots.names h.named.indexed

/-- The characters that are escaped are those that would not stand for themselves. An escaped text
is read as text only, without parameters, optional texts, choices or errors; its pattern is the
quoted text, and no other text has the same escaped text. A suggestion has the parameters of the
candidates only, and what stands between them is quoted. -/
theorem escape_literal :
    Function.Injective escape ∧
      (∀ registry text,
        Source.ofText registry (String.ofList (escape text)) = .ok (literalSource text)) ∧
      (∀ text, ∃ runs : List String,
        Expression.nodes (escape text) = .ok (runs.map (.part ∘ .text)) ∧
          runs.flatMap String.toList = text) ∧
      (∀ registry c, isSpecial c = false ↔
        ∀ text, Source.ofText registry (String.ofList (c :: escape text)) =
          .ok (literalSource (c :: text))) ∧
      ∀ registry, Reached registry → ∀ text, ∃ s,
        Source.ofText registry (generate registry text).source = .ok s ∧
          s.pattern =
            '^' :: snippetPattern registry text.toList 0 (replaced registry text) ++ ['$'] ∧
          s.slots.map (·.type.name) = (generate registry text).names := by
  refine ⟨escape_injective, ofText_escape, nodes_escape, ?_, ?_⟩
  · intro registry c
    exact isSpecial_eq_false_iff
  · intro registry h text
    exact ofText_generate h text

end

/-- Brackets, slashes, blanks and a backslash at the end around a number. -/
theorem escape_literal_sample :
    Reached {} ∧ ∃ s, Source.ofText {} (generate {} "(a)/ 7 \\").source = .ok s ∧
      s.pattern = "^\\(a\\)/ (-?\\d+) \\\\$".toList ∧ s.slots.map (·.type.name) = ["int"] := by
  have hpattern : '^' :: snippetPattern {} "(a)/ 7 \\".toList 0 (replaced {} "(a)/ 7 \\") ++ ['$'] =
      "^\\(a\\)/ (-?\\d+) \\\\$".toList := by
    decide +kernel
  have hnames : (generate {} "(a)/ 7 \\").names = ["int"] := by
    decide +kernel
  obtain ⟨-, -, -, -, hgenerate⟩ := escape_literal
  obtain ⟨s, hs, hp, hn⟩ := hgenerate {} .builtins "(a)/ 7 \\"
  exact ⟨.builtins, s, hs, hp.trans hpattern, hn.trans hnames⟩

end Brine.Proofs.EscapedTexts
