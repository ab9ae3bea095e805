import Brine.Pickle.Stream

namespace Brine.Proofs.PickleStream

def rowsLeft : List Examples → Nat → List ExampleRow
  | [], _ => []
  | block :: rest, row =>
    (match block.header with
      | none => []
      | some header => (block.body.drop row).map fun next => ⟨block, header, next⟩) ++
      rowsLeft rest 0

theorem rowsLeft_examples (s : Scenario) : rowsLeft s.examples 0 = s.exampleRows := by
  unfold Scenario.exampleRows
  induction s.examples with
  | nil => rfl
  | cons block rest ih =>
    cases hb : block.header <;> simp [rowsLeft, ih, hb]

/-- Blocks without a header and blocks that have given all their rows are passed over. -/
theorem rowsLeft_next (blocks : List Examples) (row : Nat) :
    rowsLeft blocks row = match nextRow? blocks row with
      | none => []
      | some (found, blocks', row') => found :: rowsLeft blocks' row' := by
  induction blocks generalizing row with
  | nil => rfl
  | cons block rest ih =>
    cases hh : block.header with
    | none => simpa [rowsLeft, nextRow?, hh] using ih 0
    | some header =>
      cases hr : block.body[row]? with
      | none =>
        have hd : block.body.drop row = [] :=
          List.drop_eq_nil_of_le (List.getElem?_eq_none_iff.mp hr)
        simpa [rowsLeft, nextRow?, hh, hr, hd] using ih 0
      | some next =>
        obtain ⟨hlt, he⟩ := List.getElem?_eq_some_iff.mp hr
        have hd : block.body.drop row = next :: block.body.drop (row + 1) := by
          rw [List.drop_eq_getElem_cons hlt, he]
        simp [rowsLeft, nextRow?, hh, hr, hd]

theorem rowCount_length (blocks : List Examples) (row : Nat) :
    rowCount blocks row = (rowsLeft blocks row).length := by
  induction blocks generalizing row with
  | nil => rfl
  | cons block rest ih => cases hh : block.header <;> simp [rowCount, rowsLeft, hh, ih]

def outlineLeft : Option OutlineCursor → List Plan
  | none => []
  | some o => (rowsLeft o.blocks o.row).map (.ofRow o.inherited o.scenario)

def ruleLeft : Option RuleCursor → List Plan
  | none => []
  | some r => rulePlans r.inherited r.background r.children

def plansLeft (c : Cursor) : List Plan :=
  outlineLeft c.outline ++ (ruleLeft c.rule ++ featurePlans c.tags c.background c.children)

theorem outlineLeft_next (o : OutlineCursor) :
    outlineLeft (some o) = match o.next? with
      | none => []
      | some (plan, o') => plan :: outlineLeft (some o') := by
  simp only [outlineLeft, OutlineCursor.next?, rowsLeft_next o.blocks o.row]
  cases nextRow? o.blocks o.row <;> rfl

/-- Entering a scenario gives its first plan and leaves the others to the rows of the outline. -/
theorem plans_first (i : Inherited) (s : Scenario) :
    s.plans i = match s.firstPlan? i with
      | none => []
      | some (plan, outline) => plan :: outlineLeft outline := by
  unfold Scenario.plans Scenario.firstPlan?
  split
  · have h := outlineLeft_next { inherited := i, scenario := s, blocks := s.examples }
    simp only [outlineLeft, rowsLeft_examples] at h
    rw [h]
    dsimp only
    cases OutlineCursor.next? { inherited := i, scenario := s, blocks := s.examples } <;> rfl
  · rfl

theorem rulePlans_next (i : Inherited) (background : List Step) (children : List RuleChild) :
    rulePlans i background children = match nextInRule? i background children with
      | none => []
      | some (plan, rule, outline) => plan :: (outlineLeft outline ++ ruleLeft (some rule)) := by
  induction children generalizing background with
  | nil => rfl
  | cons child rest ih =>
    cases child with
    | background b => exact ih b.steps
    | scenario s =>
      simp only [rulePlans, nextInRule?, plans_first]
      cases s.firstPlan? { i with steps := i.steps ++ background } with
      | none => exact ih background
      | some first => rfl

/-- Where no child gives a plan any more, the place that is reached has none left either. -/
theorem featurePlans_next (tags : List Tag) (background : List Step)
    (children : List FeatureChild) :
    match nextInFeature tags background children with
      | (none, c) => featurePlans tags background children = [] ∧ plansLeft c = []
      | (some plan, c) => featurePlans tags background children = plan :: plansLeft c := by
  induction children generalizing background with
  | nil => exact ⟨rfl, rfl⟩
  | cons child rest ih =>
    cases child with
    | background b => exact ih b.steps
    | scenario s =>
      simp only [featurePlans, nextInFeature, plans_first]
      cases s.firstPlan? ⟨tags, background⟩ with
      | none => exact ih background
      | some first => rfl
    | rule r =>
      simp only [featurePlans, nextInFeature, rulePlans_next]
      cases nextInRule? ⟨tags ++ r.tags, background⟩ [] r.children with
      | none => exact ih background
      | some first => simp only [plansLeft, List.cons_append, List.append_assoc]

/-- The innermost of the three places that has a plan left gives it. -/
theorem plansLeft_next (c : Cursor) :
    match c.next with
      | (none, c') => plansLeft c = [] ∧ plansLeft c' = []
      | (some plan, c') => plansLeft c = plan :: plansLeft c' := by
  have ho : outlineLeft c.outline = match c.outline >>= (·.next?) with
      | none => []
      | some (plan, o') => plan :: outlineLeft (some o') := by
    cases c.outline with
    | none => rfl
    | some o => exact outlineLeft_next o
  have hr : ruleLeft c.rule =
      match c.rule >>= fun r => nextInRule? r.inherited r.background r.children with
      | none => []
      | some (plan, rule, outline) => plan :: (outlineLeft outline ++ ruleLeft (some rule)) := by
    cases c.rule with
    | none => rfl
    | some r => exact rulePlans_next r.inherited r.background r.children
  have hf := featurePlans_next c.tags c.background c.children
  unfold Cursor.next
  cases hn : c.outline >>= (·.next?) with
  | some next => simp [plansLeft, ho, hn]
  | none =>
    cases hm : c.rule >>= fun r => nextInRule? r.inherited r.background r.children with
    | some next => simp [plansLeft, ho, hn, hr, hm]
    | none => simpa [plansLeft, ho, hn, hr, hm] using hf

def picklesLeft (s : Stream) : List Pickle :=
  numberPlans s.uri s.language s.ids (plansLeft s.cursor)

theorem picklesLeft_ofDocument (d : Document) : picklesLeft (.ofDocument d) = d.pickles := by
  cases hf : d.feature <;>
    simp [picklesLeft, Stream.ofDocument, Document.pickles, Document.plans, plansLeft,
      outlineLeft, ruleLeft, featurePlans, hf]

/-- A call gives the first pickle that is left and leaves the others. -/
theorem next_head_tail (s : Stream) :
    s.next.1 = (picklesLeft s).head? ∧ picklesLeft s.next.2 = (picklesLeft s).tail := by
  have h := plansLeft_next s.cursor
  unfold Stream.next
  cases hc : s.cursor.next with
  | mk plan cursor =>
    rw [hc] at h
    cases plan with
    | none => simp [picklesLeft, h.1, h.2, numberPlans]
    | some plan =>
      have hl : plansLeft s.cursor = plan :: plansLeft cursor := h
      simp [picklesLeft, hl, numberPlans]

/-- What the call number `k`, counted from 0, gives. -/
def call (s : Stream) : Nat → Option Pickle
  | 0 => s.next.1
  | k + 1 => call s.next.2 k

theorem call_picklesLeft (s : Stream) (k : Nat) : call s k = (picklesLeft s)[k]? := by
  induction k generalizing s with
  | zero => rw [call, (next_head_tail s).1, List.head?_eq_getElem?]
  | succ k ih => rw [call, ih, (next_head_tail s).2, List.getElem?_tail]

theorem take_picklesLeft (s : Stream) (n : Nat) : (s.take n).1 = (picklesLeft s).take n := by
  induction n generalizing s with
  | zero => rfl
  | succ n ih =>
    obtain ⟨hh, ht⟩ := next_head_tail s
    unfold Stream.take
    cases hn : s.next with
    | mk pickle s' =>
      rw [hn] at hh ht
      cases hl : picklesLeft s with
      | nil =>
        have hp : pickle = none := by simpa [hl] using hh
        simp [hp]
      | cons p rest =>
        have hp : pickle = some p := by simpa [hl] using hh
        have hr : picklesLeft s' = rest := by simpa [hl] using ht
        simp [hp, ih, hr]

theorem numberPlans_length (uri language : String) (ids : IdSource) (plans : List Plan) :
    (numberPlans uri language ids plans).length = plans.length := by
  induction plans generalizing ids with
  | nil => rfl
  | cons p rest ih => simp [numberPlans, ih]

theorem pickleCount_length (i : Inherited) (s : Scenario) :
    s.pickleCount = (s.plans i).length := by
  unfold Scenario.pickleCount Scenario.plans
  split <;> simp [rowCount_length, rowsLeft_examples]

theorem rulePickleCount_length (i : Inherited) (background : List Step)
    (children : List RuleChild) :
    rulePickleCount children = (rulePlans i background children).length := by
  induction children generalizing background with
  | nil => rfl
  | cons child rest ih =>
    cases child with
    | background b => exact ih b.steps
    | scenario s =>
      simp only [rulePickleCount, rulePlans, List.length_append, ← ih background,
        ← pickleCount_length]

theorem featurePickleCount_length (tags : List Tag) (background : List Step)
    (children : List FeatureChild) :
    featurePickleCount children = (featurePlans tags background children).length := by
  induction children generalizing background with
  | nil => rfl
  | cons child rest ih =>
    cases child with
    | background b => exact ih b.steps
    | scenario s =>
      simp only [featurePickleCount, featurePlans, List.length_append, ← ih background,
        ← pickleCount_length]
    | rule r =>
      simp only [featurePickleCount, featurePlans, List.length_append, ← ih background,
        ← rulePickleCount_length]

theorem remaining_length (s : Stream) : s.remaining = (picklesLeft s).length := by
  unfold picklesLeft plansLeft Stream.remaining
  rw [numberPlans_length, List.length_append, List.length_append,
    ← featurePickleCount_length]
  cases s.cursor.outline <;> cases s.cursor.rule <;>
    simp [outlineLeft, ruleLeft, rowCount_length, ← rulePickleCount_length, Nat.add_assoc]

theorem takeAll_picklesLeft (s : Stream) : s.takeAll.1 = picklesLeft s := by
  rw [Stream.takeAll, take_picklesLeft, remaining_length, List.take_length]

end Brine.Proofs.PickleStream
