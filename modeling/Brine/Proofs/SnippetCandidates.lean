import Brine.Proofs.ExpressionMeaning
import Brine.Proofs.SnippetSearch

namespace Brine.Proofs.SnippetCandidates
open Regex Snippet RegexMeaning SnippetSearch ExpressionReading ExpressionChoices
  ExpressionMeaning

/-- One of the types matches the text where it stands, and no word is cut. -/
structure Bounded (types : List (String × Regex)) (name : String)
    (before raw after : List Char) : Prop where
  typed : ∃ r, (name, r) ∈ types ∧ Matches r before raw after
  left : isEdge before.getLast? = true
  right : isEdge after.head? = true

variable {types : List (String × Regex)} {r : Regex}

/-- What stands in the rest of a text. -/
theorem stands_rest {b rest : List Char} {start stop : Nat} (h : Stands r (b ++ rest) start stop)
    (hp : b.length ≤ start) :
    ∃ gap m a, rest = gap ++ (m ++ a) ∧ start = (b ++ gap).length ∧ stop = (b ++ gap ++ m).length ∧
      Matches r (b ++ gap) m a ∧ isEdge (b ++ gap).getLast? = true ∧ isEdge a.head? = true := by
  obtain ⟨k, hk, hstop⟩ := h.found
  obtain ⟨b', m, a, htext, hstart, he, hspans⟩ := matchAt_sound hk h.bounds.1
  obtain ⟨gap, rfl⟩ : b <+: b' := by
    refine List.prefix_of_prefix_length_le (List.prefix_append b rest) ?_ (hstart ▸ hp)
    rw [← htext]
    exact List.prefix_append _ _
  have hrest : rest = gap ++ (m ++ a) := by
    rw [List.append_assoc] at htext
    exact (List.append_cancel_left htext).symm
  have hleft : isEdge ((b ++ rest).take start).getLast? = true := h.left
  have hright : isEdge ((b ++ rest).drop stop).head? = true := h.right
  rw [← htext, hstart, List.take_left] at hleft
  rw [← htext, ← hstop, he, ← List.append_assoc, List.drop_left] at hright
  exact ⟨gap, m, a, hrest, hstart, hstop ▸ he, ⟨_, hspans⟩, hleft, hright⟩

/-- The best of candidates is one of them. -/
theorem foldl_best {candidates : List Snippet.Candidate} {init : Option Snippet.Candidate}
    {c : Snippet.Candidate} (h : candidates.foldl pick init = some c) :
    init = some c ∨ c ∈ candidates := by
  induction candidates generalizing init with
  | nil => exact .inl h
  | cons c' candidates ih =>
    rcases ih h with hc | hc
    · unfold pick at hc
      split at hc
      · cases hc
        exact .inr List.mem_cons_self
      · split at hc
        · cases hc
          exact .inr List.mem_cons_self
        · exact .inl hc
    · exact .inr (List.mem_cons_of_mem _ hc)

theorem best?_some {b rest : List Char} {c : Snippet.Candidate}
    (h : best? types (b ++ rest) b.length = some c) :
    ∃ gap m a, rest = gap ++ (m ++ a) ∧ c.start = (b ++ gap).length ∧
      c.stop = (b ++ gap ++ m).length ∧ Bounded types c.name (b ++ gap) m a := by
  have hmem := (foldl_best h).resolve_left (by simp)
  obtain ⟨⟨name, r⟩, ht, hc⟩ := List.mem_filterMap.mp hmem
  obtain ⟨⟨start, stop⟩, hf, rfl⟩ := Option.map_eq_some_iff.mp hc
  obtain ⟨hstart, hstands, -⟩ := firstBounded_some hf
  obtain ⟨gap, m, a, hr, hs, he, hm, hleft, hright⟩ := stands_rest hstands hstart
  exact ⟨gap, m, a, hr, hs, he, ⟨r, ht, hm⟩, hleft, hright⟩

def literal (c : Char) : Item :=
  if Text.isBlank c then .blank c else .char c

def snippetItems (text : List Char) (place : Nat) : List Snippet.Candidate → List Item
  | [] => (text.drop place).map literal
  | c :: rest =>
    ((text.drop place).take (c.start - place)).map literal ++
      .parameter c.name :: snippetItems text c.stop rest

/-- What a candidate stands for. -/
def candidatePiece (text : List Char) (c : Snippet.Candidate) : Piece where
  name := c.name
  before := text.take c.start
  raw := (text.drop c.start).take (c.stop - c.start)

theorem settled_literal (text : List Char) : (text.map literal).map settled = text.map .char := by
  rw [List.map_map]
  refine List.map_congr_left fun c _ => ?_
  cases h : Text.isBlank c <;> simp [literal, settled, h]

/-- The suggestion fits its text: the candidates are bounded values and the rest is itself. -/
theorem renders_candidates {text b rest : List Char} (n : Nat) (h : b ++ rest = text) :
    let candidates := candidatesFrom types text n b.length
    Renders (Bounded types) ((snippetItems text b.length candidates).map settled) b rest []
      (candidates.map (candidatePiece text)) := by
  subst h
  induction n generalizing b rest with
  | zero =>
    simp only [candidatesFrom, snippetItems, List.drop_left, settled_literal]
    exact renders_text.mpr ⟨rfl, rfl⟩
  | succ n ih =>
    rw [candidatesFrom]
    cases hb : best? types (b ++ rest) b.length with
    | none =>
      simp only [snippetItems, List.drop_left, settled_literal]
      exact renders_text.mpr ⟨rfl, rfl⟩
    | some c =>
      obtain ⟨gap, m, a, rfl, hs, he, hbound⟩ := best?_some hb
      have htext : b ++ (gap ++ (m ++ a)) = b ++ gap ++ m ++ a := by simp
      have hrest := @ih (b ++ gap ++ m) a
      rw [← htext, ← he] at hrest
      have hgap : ((b ++ (gap ++ (m ++ a))).drop b.length).take (c.start - b.length) = gap := by
        simp [hs]
      have hpiece : candidatePiece (b ++ (gap ++ (m ++ a))) c = ⟨c.name, b ++ gap, m⟩ := by
        have hassoc : b ++ (gap ++ (m ++ a)) = b ++ gap ++ (m ++ a) := by simp
        simp only [candidatePiece, hs, he, hassoc, List.take_left, List.drop_left, Piece.mk.injEq,
          true_and]
        rw [List.length_append, Nat.add_sub_cancel_left, List.take_left]
      simp only [snippetItems, hgap, List.map_append, settled_literal, List.map_cons, hpiece]
      have hg : Renders (Bounded types) (gap.map .char) b gap (m ++ a ++ []) [] :=
        renders_text.mpr ⟨rfl, rfl⟩
      exact hg.append (.parameter (by simpa using hbound) hrest)

end Brine.Proofs.SnippetCandidates
