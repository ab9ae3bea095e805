import Brine.Proofs.Registries
import Brine.Proofs.SnippetCandidates

namespace Brine.Proofs.ItemPatterns
open Expression Snippet Success ExpressionReading ExpressionChoices ExpressionPatterns Registries
  SnippetCandidates

variable {registry : Registry} {items : List Item} {tokens : List Token}

theorem reads_literal {c : Char} {rest : List Char} {items : List Item} (h : Reads rest items) :
    Reads ((if isSpecial c then ['\\', c] else [c]) ++ rest) (literal c :: items) := by
  by_cases hs : isSpecial c = true
  · have hb : Text.isBlank c = false := by
      simp only [isSpecial, List.mem_cons, List.not_mem_nil, or_false, decide_eq_true_eq] at hs
      rcases hs with rfl | rfl | rfl | rfl | rfl | rfl <;> decide
    rw [if_pos hs, literal, hb]
    exact .escaped h
  · rw [if_neg hs, literal]
    cases hb : Text.isBlank c with
    | true => exact .blank hb h
    | false => exact .char hb (by simpa [isSpecial] using hs) h

theorem reads_escape {rest : List Char} {items : List Item} (h : Reads rest items)
    (text : List Char) : Reads (escape text ++ rest) (text.map literal ++ items) := by
  induction text with
  | nil => exact h
  | cons c text ih =>
    rw [escape, List.flatMap_cons, List.append_assoc]
    exact reads_literal ih

theorem reads_escaped (text : List Char) : Reads (escape text) (text.map literal) := by
  have hr := reads_escape .nil text
  rwa [List.append_nil, List.append_nil] at hr

theorem slash_not_mem_literal (text : List Char) : .slash ∉ text.map literal := by
  intro hm
  obtain ⟨c, -, hc⟩ := List.mem_map.mp hm
  cases hb : Text.isBlank c <;> simp [literal, hb] at hc

theorem names_literal (text : List Char) : (text.map literal).filterMap itemName? = [] := by
  refine List.filterMap_eq_nil_iff.mpr fun i hi => ?_
  obtain ⟨c, -, rfl⟩ := List.mem_map.mp hi
  cases hb : Text.isBlank c <;> simp [literal, itemName?, hb]

def typePattern (registry : Registry) (name : String) : List Char :=
  (registry.get? name).elim [] (·.regexSource.toList)

def itemPattern (registry : Registry) : Item → List Char
  | .char c | .blank c => Regex.quote [c]
  | .optional t => (Part.optional (String.ofList t)).pattern
  | .parameter name => '(' :: typePattern registry name ++ [')']
  | .slash => []

theorem quote_append (text text' : List Char) :
    Regex.quote (text ++ text') = Regex.quote text ++ Regex.quote text' :=
  List.flatMap_append

theorem pattern_chars {item : Char → Item}
    (h : ∀ c, itemPattern registry (item c) = Regex.quote [c]) (text : List Char) :
    (text.map item).flatMap (itemPattern registry) = Regex.quote text := by
  induction text with
  | nil => rfl
  | cons c text ih =>
    rw [List.map_cons, List.flatMap_cons, h, ih, ← quote_append, List.singleton_append]

theorem pattern_literal (text : List Char) :
    (text.map literal).flatMap (itemPattern registry) = Regex.quote text := by
  refine pattern_chars (fun c => ?_) text
  cases hb : Text.isBlank c <;> simp [literal, hb, itemPattern]

/-- The node of a token has the pattern of the items of the token. -/
theorem pattern_part {t : Token} {p : Part} (h : t.node? = some (.part p)) :
    p.pattern = (tokenItems t).flatMap (itemPattern registry) := by
  cases t with
  | text t | space t =>
    cases h
    exact (pattern_chars (fun _ => rfl) t.toList).symm
  | optional t =>
    cases h
    simp [tokenItems, itemPattern]
  | parameter name start => cases h
  | slash position => cases h

def TypedSlots (registry : Registry) (names : List String) (slots : List Slot) : Prop :=
  List.Forall₂ (fun name slot => registry.get? name = some slot.type) names slots

theorem TypedSlots.names {names : List String} {slots : List Slot}
    (h : TypedSlots registry names slots) (hi : Indexed registry) :
    slots.map (·.type.name) = names := by
  induction h with
  | nil => rfl
  | cons ht _ ih => rw [List.map_cons, ih, (hi.get?_eq_some.mp ht).2]

/-- What a text that stands for itself is compiled to. -/
def literalSource (text : List Char) : Source where
  pattern := '^' :: Regex.quote text ++ ['$']
  slots := []

variable [Regex.Engine]

/-- Nodes that are no choices have the pattern of their items, one after the other. -/
theorem sourceFrom_items {group : Nat} {s : Source}
    (h : Expression.sourceFrom registry group (tokens.filterMap Token.node?) = .ok s) :
    s.pattern = (tokens.flatMap tokenItems).flatMap (itemPattern registry) ∧
      TypedSlots registry ((tokens.flatMap tokenItems).filterMap itemName?) s.slots := by
  induction tokens generalizing group s with
  | nil =>
    cases h
    exact ⟨rfl, .nil⟩
  | cons t tokens ih =>
    have hpart {p : Part} (ht : t.node? = some (.part p)) :
        s.pattern = ((t :: tokens).flatMap tokenItems).flatMap (itemPattern registry) ∧
          TypedSlots registry (((t :: tokens).flatMap tokenItems).filterMap itemName?) s.slots := by
      rw [List.filterMap_cons_some ht, Expression.sourceFrom, bind_eq_ok] at h
      obtain ⟨s', hs, h⟩ := h
      cases h
      obtain ⟨hpattern, hslots⟩ := ih hs
      rw [List.flatMap_cons, List.flatMap_append, List.filterMap_append, names_token, ht]
      exact ⟨by rw [hpattern, pattern_part ht], hslots⟩
    cases t with
    | text t => exact hpart rfl
    | space t => exact hpart rfl
    | optional t => exact hpart rfl
    | slash position => exact ih h
    | parameter name start =>
      have hnode : (Token.parameter name start).node? = some (.parameter name start) := rfl
      rw [List.filterMap_cons_some hnode, Expression.sourceFrom] at h
      split at h
      · contradiction
      · rename_i type htype
        split at h
        · contradiction
        · rw [bind_eq_ok] at h
          obtain ⟨s', hs, h⟩ := h
          cases h
          obtain ⟨hpattern, hslots⟩ := ih hs
          refine ⟨?_, .cons htype hslots⟩
          simp [hpattern, tokenItems, itemPattern, typePattern, htype]

/-- The pattern of an expression without slashes. -/
theorem ofText_slashless {source : String} (hr : Reads source.toList items) (hs : .slash ∉ items)
    (ht : ∀ name ∈ items.filterMap itemName?, ∃ type r, registry.get? name = some type ∧
      type.regex = .ok r) :
    ∃ s, Source.ofText registry source = .ok s ∧
      s.pattern = '^' :: items.flatMap (itemPattern registry) ++ ['$'] ∧
      TypedSlots registry (items.filterMap itemName?) s.slots := by
  obtain ⟨tokens, rfl, hn⟩ := nodes_slashless hr hs
  obtain ⟨items', hr', -, hnames⟩ := picks_nodes hn
  obtain rfl := reads_unique hr hr'
  rw [← hnames] at ht
  obtain ⟨s, hsource⟩ := sourceFrom_ok 1 ht
  obtain ⟨hpattern, hslots⟩ := sourceFrom_items hsource
  refine ⟨{ s with pattern := '^' :: s.pattern ++ ['$'] }, ?_, ?_, hslots⟩
  · simp [Source.ofText, hn, hsource]
  · rw [← hpattern]

theorem ofText_escape (registry : Registry) (text : List Char) :
    Source.ofText registry (String.ofList (escape text)) = .ok (literalSource text) := by
  have hr : Reads (String.ofList (escape text)).toList (text.map literal) := by
    rw [String.toList_ofList]
    exact reads_escaped text
  have ht : ∀ name ∈ (text.map literal).filterMap itemName?, ∃ type r,
      registry.get? name = some type ∧ type.regex = .ok r := by
    rw [names_literal]
    intro name h
    contradiction
  obtain ⟨⟨pattern, slots⟩, hs, hpattern, hslots⟩ :=
    ofText_slashless hr (slash_not_mem_literal text) ht
  rw [names_literal] at hslots
  rw [pattern_literal] at hpattern
  cases hslots
  cases hpattern
  exact hs

end Brine.Proofs.ItemPatterns
