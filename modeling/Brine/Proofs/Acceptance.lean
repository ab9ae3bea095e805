import Brine.Proofs.DraftModes

namespace Brine.Proofs.Acceptance
open Line Document Grammar DraftModes DraftSteps LineShapes

/-- The kinds of the lines that count; `inside` says whether a doc string is open. -/
def significant (inside : Bool) : List Token → List Kind
  | [] => []
  | t :: ts =>
    if !inside && isTrivia t.kind then significant inside ts
    else t.kind :: significant (insideAfter inside t.kind) ts

theorem inDoc_next {m m' : Mode} {k : Kind} (h : m.next k = some m') :
    inDoc m' = insideAfter (inDoc m) k := by
  cases m with
  | start | tagged => cases k <;> cases h <;> rfl
  | within seen p =>
    cases p <;> cases k <;> simp [Mode.next, Place.next, opened, Place.block] at h <;>
      grind [inDoc, insideAfter]

variable {d : Draft} {m : Mode} {t : Token} {ts : List Token} {inside : Bool}

theorem significant_trivia (hm : inside = false) (hk : isTrivia t.kind = true) :
    significant inside (t :: ts) = significant inside ts := by
  simp [significant, hm, hk]

theorem significant_cons (hk : inside = true ∨ isTrivia t.kind = false) :
    significant inside (t :: ts) = t.kind :: significant (insideAfter inside t.kind) ts := by
  rcases hk with hk | hk <;> simp [significant, hk]

variable {language uri : String} {eof last : Token} {body : List Token}

/-- A draft takes the lines to come exactly if the automaton does. -/
theorem build_ok_iff (h : Follows d m) (he : eof.kind = .eof)
    (hb : ∀ t ∈ body, t.kind ≠ .eof ∧ t.kind ≠ .language) :
    (∃ doc, d.build language uri last (body ++ [eof]) = .ok doc) ↔
      m.accepts (significant (inDoc m) (body ++ [eof])) := by
  induction body generalizing d m with
  | nil =>
    have hs : significant (inDoc m) [eof] = [.eof] := by
      cases inDoc m <;> simp [significant, he, isTrivia]
    simp only [List.nil_append, Draft.build, he, ↓reduceIte, finish_iff h, hs, Mode.accepts,
      List.isEmpty_nil, Bool.and_true]
  | cons t body ih =>
    obtain ⟨ht, hb⟩ := List.forall_mem_cons.mp hb
    rw [List.cons_append, build_cons ht.1]
    -- A line that counts moves the draft and the automaton; any other moves neither.
    by_cases hk : inDoc m = true ∨ isTrivia t.kind = false
    · have hl := push_leads h hk
      rw [significant_cons hk, Mode.accepts_cons ht.1]
      cases hm : m.next t.kind with
      | some m' =>
        rw [hm] at hl
        obtain ⟨d', hd, hf⟩ := hl
        rw [hd, ← inDoc_next hm]
        exact ih hf hb
      | none =>
        rw [hm] at hl
        obtain ⟨e, hd⟩ := hl
        rw [hd]
        simp [bind, Except.bind]
    · simp only [not_or, Bool.not_eq_true, Bool.not_eq_false] at hk
      obtain ⟨d', hd, hf⟩ := push_trivia h hk.1 hk.2 fun hl => absurd hl ht.2
      rw [hd, significant_trivia hk.1 hk.2]
      exact ih hf hb

/-- Before all lines that count, language lines change nothing. -/
theorem build_leading (language uri : String) (last : Token) (ts : List Token)
    (h : Follows d .start) (hb : ∀ t ∈ body, isTrivia t.kind = true) :
    ∃ d', Follows d' .start ∧
      d.build language uri last (body ++ ts) = d'.build language uri last ts := by
  induction body generalizing d with
  | nil => exact ⟨d, h, rfl⟩
  | cons t body ih =>
    obtain ⟨ht, hb⟩ := List.forall_mem_cons.mp hb
    obtain ⟨d₁, hd, h₁⟩ := push_trivia h rfl ht fun _ => rfl
    obtain ⟨d₂, h₂, hr⟩ := ih h₁ hb
    refine ⟨d₂, h₂, ?_⟩
    have hk : t.kind ≠ .eof := by
      intro hk
      simp [hk, isTrivia] at ht
    rw [List.cons_append, build_cons hk, hd]
    exact hr

theorem significant_leading (hb : ∀ t ∈ body, isTrivia t.kind = true) :
    significant false (body ++ ts) = significant false ts := by
  induction body with
  | nil => rfl
  | cons t body ih =>
    obtain ⟨ht, hb⟩ := List.forall_mem_cons.mp hb
    rw [List.cons_append, significant_trivia rfl ht]
    exact ih hb

/-- Lines of the shape that texts have make up a document exactly if the automaton takes the kinds
of those that count. -/
theorem ofTokens_accepts (source : Tokens) (uri : String) (h : WellShaped source.tokens) :
    (∃ d, ofTokens source uri = .ok d) ↔ Mode.start.accepts (significant false source.tokens) := by
  obtain ⟨leading, body, eof, hs, he, hl, hb⟩ := h.split
  unfold ofTokens
  generalize impliedEnd source.tokens = last
  have hf : Follows {} .start := rfl
  obtain ⟨d, hd, hr⟩ := build_leading source.language uri last (body ++ [eof]) hf hl
  rw [hs, hr, significant_leading hl]
  exact build_ok_iff hd he hb

/-- Lines of the shape that texts have make up a document exactly if the grammar derives the kinds
of those that count. -/
theorem ofTokens_ok_iff (source : Tokens) (uri : String) (h : WellShaped source.tokens) :
    (∃ d, ofTokens source uri = .ok d) ↔ significant false source.tokens ∈ document := by
  rw [ofTokens_accepts source uri h]
  exact accepts_iff_mem_rest

/-- A document that opens with comments and a language line, and has tags, a doc string, a rule and
examples. -/
def sampleLines : List Token :=
  [.comment, .language, .empty, .feature, .other, .comment, .background, .step, .docStringSeparator,
    .docStringContent, .docStringContent, .docStringSeparator, .tags, .empty, .tags, .rule, .tags,
    .scenarioOutline, .step, .tableRow, .step, .tags, .comment, .examples, .tableRow, .eof].map
      fun kind => { kind, location := ⟨1, 1⟩ }

theorem ofTokens_ok_sample :
    WellShaped sampleLines ∧
      ((∃ d, ofTokens ⟨"en", sampleLines⟩ "" = .ok d) ↔
        significant false sampleLines ∈ document) := by
  have h : WellShaped sampleLines :=
    { ends := ⟨sampleLines.dropLast, _, rfl, rfl, by decide⟩
      languages := by decide }
  exact ⟨h, ofTokens_ok_iff ⟨"en", sampleLines⟩ "" h⟩

/-- A blank line between the separators of a doc string. -/
def blankInDoc : List Token :=
  [.feature, .scenario, .step, .docStringSeparator, .empty, .docStringSeparator, .eof].map
    fun kind => { kind, location := ⟨1, 1⟩ }

/-- A doc string has no place for a line that does not count: without it the grammar derives the
lines, and with it they make up no document. -/
theorem blank_in_doc_refused :
    WellShaped blankInDoc ∧
      (blankInDoc.map (·.kind)).filter (fun k => !isTrivia k) ∈ document ∧
      ¬ ∃ d, ofTokens ⟨"en", blankInDoc⟩ "" = .ok d := by
  refine ⟨{ ends := ⟨blankInDoc.dropLast, _, rfl, rfl, by decide⟩, languages := by decide }, ?_, ?_⟩
  · have h : Mode.start.accepts ((blankInDoc.map (·.kind)).filter fun k => !isTrivia k) := by
      decide
    exact accepts_iff_mem_rest.mp h
  · rintro ⟨d, hd⟩
    cases hd

end Brine.Proofs.Acceptance
