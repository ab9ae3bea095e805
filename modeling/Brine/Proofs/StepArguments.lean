import Brine.Proofs.Entries

namespace Brine.Proofs.StepArguments
open Line Entries

def ruleChildSteps : RuleChild → List Step
  | .background b => b.steps
  | .scenario s => s.steps

def featureChildSteps : FeatureChild → List Step
  | .background b => b.steps
  | .scenario s => s.steps
  | .rule r => r.children.flatMap ruleChildSteps

def stepsOf (d : Document) : List Step :=
  d.feature.toList.flatMap fun f => f.children.flatMap featureChildSteps

def Owned (steps : List Step) (location : Location) (keyword text : String) (doc : DocString) :
    Prop :=
  ∃ s ∈ steps, s.location = location ∧ s.keyword = keyword ∧ s.text = text ∧
    s.argument = some (.docString doc)

/-- Where a doc string stands among the entries, the step right before it is one of these steps and
has it as its argument. -/
structure Argued (steps : List Step) (es : List Entry) : Prop where
  head : ∀ doc, es.head? ≠ some (.docString doc)
  step : ∀ before location keyword text doc after,
    es = before ++ .step location keyword text :: .docString doc :: after →
      Owned steps location keyword text doc

def IsOther : Entry → Prop
  | .step .. | .docString _ => False
  | _ => True

section Steps

variable {steps steps' : List Step} {es es' : List Entry}

theorem Owned.mono {location : Location} {keyword text : String} {doc : DocString}
    (h : Owned steps location keyword text doc) (hs : steps ⊆ steps') :
    Owned steps' location keyword text doc := by
  obtain ⟨s, hm, hstep⟩ := h
  exact ⟨s, hs hm, hstep⟩

theorem Argued.append (h : Argued steps es) (h' : Argued steps' es') :
    Argued (steps ++ steps') (es ++ es') where
  head := by
    intro doc hd
    rw [List.head?_append] at hd
    rcases Option.or_eq_some_iff.mp hd with hd | ⟨-, hd⟩
    · exact h.head doc hd
    · exact h'.head doc hd
  step := by
    intro before location keyword text doc after he
    -- The step and its doc string stand in one part: no part starts with a doc string.
    rcases List.append_eq_append_iff.mp he with ⟨c, -, hc⟩ | ⟨c, hb, hc⟩
    · exact (h'.step c location keyword text doc after hc).mono (List.subset_append_right _ _)
    · match c with
      | [] =>
        have howned := h'.step [] location keyword text doc after hc.symm
        exact howned.mono (List.subset_append_right _ _)
      | [e] =>
        have hd : .docString doc :: after = es' := (List.cons.inj hc).2
        exact absurd (by rw [← hd]; rfl) (h'.head doc)
      | e :: e' :: c =>
        obtain ⟨hs, hd⟩ := List.cons.inj hc
        rw [← hs, ← (List.cons.inj hd).1] at hb
        have howned := h.step before location keyword text doc c hb
        exact howned.mono (List.subset_append_left _ _)

theorem Argued.flatMap {α : Type} {f : α → List Step} {g : α → List Entry} {l : List α}
    (h : ∀ a ∈ l, Argued (f a) (g a)) : Argued (l.flatMap f) (l.flatMap g) := by
  induction l with
  | nil => exact ⟨by simp, by simp⟩
  | cons a l ih =>
    obtain ⟨ha, h⟩ := List.forall_mem_cons.mp h
    exact ha.append (ih h)

/-- Entries without steps and doc strings. -/
theorem argued_other (h : ∀ e ∈ es, IsOther e) : Argued [] es where
  head := by
    intro doc hd
    exact h _ (List.mem_of_mem_head? hd)
  step := by
    intro before location keyword text doc after he
    exact (h (.step location keyword text) (by simp [he])).elim

theorem Argued.after_other (h : Argued steps es) (ho : ∀ e ∈ es', IsOther e) :
    Argued steps (es' ++ es) := by
  have happend := (argued_other ho).append h
  rwa [List.nil_append] at happend

theorem Argued.before_other (h : Argued steps es) (ho : ∀ e ∈ es', IsOther e) :
    Argued steps (es ++ es') := by
  have happend := h.append (argued_other ho)
  rwa [List.append_nil] at happend

theorem step_not_mem_ofArgument (a : Option StepArgument) (location : Location)
    (keyword text : String) : .step location keyword text ∉ ofArgument a := by
  match a with
  | none => simp [ofArgument]
  | some (.docString doc) => simp [ofArgument]
  | some (.dataTable table) => simp [ofArgument, ofRow]

theorem eq_docString_of_ofArgument {a : Option StepArgument} {doc : DocString}
    (h : ofArgument a = .docString doc :: es) : a = some (.docString doc) := by
  match a with
  | none => cases h
  | some (.docString doc') =>
    cases h
    rfl
  | some (.dataTable table) =>
    have hm : .docString doc ∈ table.rows.map ofRow := by
      rw [show table.rows.map ofRow = _ from h]
      exact List.mem_cons_self
    simp [ofRow] at hm

theorem argued_ofStep (s : Step) : Argued [s] (ofStep s) where
  head := by simp [ofStep]
  step := by
    intro before location keyword text doc after he
    rw [ofStep] at he
    cases before with
    | nil =>
      obtain ⟨hs, ha⟩ := List.cons.inj he
      cases hs
      exact ⟨s, List.mem_cons_self, rfl, rfl, rfl, eq_docString_of_ofArgument ha⟩
    | cons e before =>
      have hm := step_not_mem_ofArgument s.argument location keyword text
      rw [(List.cons.inj he).2] at hm
      exact absurd (by simp) hm

theorem argued_steps (steps : List Step) : Argued steps (steps.flatMap ofStep) := by
  have h := Argued.flatMap (l := steps) fun s _ => argued_ofStep s
  simpa using h

theorem isOther_tags (tags : List Tag) : ∀ e ∈ tags.map ofTag, IsOther e := by
  simp [ofTag, IsOther]

theorem isOther_rows (rows : List Row) : ∀ e ∈ rows.map ofRow, IsOther e := by
  simp [ofRow, IsOther]

theorem isOther_titled (tags : List Tag) (kind : Kind) (location : Location)
    (keyword name : String) (description : Option String) :
    ∀ e ∈ tags.map ofTag ++ [.heading kind location keyword name description], IsOther e :=
  List.forall_mem_append.mpr ⟨isOther_tags tags, by simp [IsOther]⟩

theorem isOther_examples (es : List Examples) : ∀ e ∈ es.flatMap ofExamples, IsOther e := by
  intro e he
  obtain ⟨x, -, he⟩ := List.mem_flatMap.mp he
  exact List.forall_mem_append.mpr ⟨isOther_titled x.tags _ _ _ _ _, isOther_rows _⟩ e he

theorem argued_background (b : Background) : Argued b.steps (ofBackground b) :=
  (argued_steps b.steps).after_other (isOther_titled [] _ _ _ _ _)

theorem argued_scenario (s : Scenario) : Argued s.steps (ofScenario s) :=
  ((argued_steps s.steps).after_other (isOther_titled s.tags _ _ _ _ _)).before_other
    (isOther_examples s.examples)

theorem argued_ruleChild (c : RuleChild) : Argued (ruleChildSteps c) (ofRuleChild c) := by
  cases c with
  | background b => exact argued_background b
  | scenario s => exact argued_scenario s

theorem argued_featureChild (c : FeatureChild) :
    Argued (featureChildSteps c) (ofFeatureChild c) := by
  cases c with
  | background b => exact argued_background b
  | scenario s => exact argued_scenario s
  | rule r =>
    exact (Argued.flatMap fun c _ => argued_ruleChild c).after_other
      (isOther_titled r.tags _ _ _ _ _)

/-- In a document a doc string belongs to the step right before it. -/
theorem argued_ofDocument (d : Document) : Argued (stepsOf d) (ofDocument d) :=
  Argued.flatMap fun f _ =>
    (Argued.flatMap fun c _ => argued_featureChild c).after_other (isOther_titled f.tags _ _ _ _ _)

end Steps

end Brine.Proofs.StepArguments
