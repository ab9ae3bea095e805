import Brine.Proofs.NodeIds
import Brine.Proofs.PickleExpansion
import Mathlib.Algebra.Group.Nat.Defs
import Mathlib.Data.List.Forall2

namespace Brine.Proofs.PickleSources
open Line Document LineShapes Entries Conservation NodeIds PickleExpansion

/-- A scenario with the backgrounds that stand before it in its feature and its rule. -/
structure Placed where
  scenario : Scenario
  backgrounds : List Background

def rulePlaced (before : List Background) : List RuleChild → List Placed
  | [] => []
  | .background b :: rest => rulePlaced (before ++ [b]) rest
  | .scenario s :: rest => ⟨s, before⟩ :: rulePlaced before rest

def featurePlaced (before : List Background) : List FeatureChild → List Placed
  | [] => []
  | .background b :: rest => featurePlaced (before ++ [b]) rest
  | .scenario s :: rest => ⟨s, before⟩ :: featurePlaced before rest
  | .rule r :: rest => rulePlaced before r.children ++ featurePlaced before rest

/-- The scenarios of a document. -/
def placed (d : Document) : List Placed :=
  d.feature.toList.flatMap fun f => featurePlaced [] f.children

def Names (doc : Document) (id : String) (n : Node) : Prop :=
  (nodes doc).filter (·.id = id) = [n]

/-- A pickle comes from a scenario: it names the scenario, if that is an outline together with a row
of its examples, and each step of the pickle names a step of a background before the scenario, or of
the scenario itself and then the row too. -/
structure Traces (doc : Document) (place : Placed) (p : Pickle) : Prop where
  plain : place.scenario.isOutline = false →
    List.Forall₂ (Names doc) p.sources [.scenario place.scenario]
  outline : place.scenario.isOutline = true → ∃ block ∈ place.scenario.examples,
    ∃ row ∈ block.body, List.Forall₂ (Names doc) p.sources [.scenario place.scenario, .row row]
  steps : ∀ st ∈ p.steps, ∃ s : Step,
    ((∃ b ∈ place.backgrounds, s ∈ b.steps) ∧ List.Forall₂ (Names doc) st.sources [.step s]) ∨
    (s ∈ place.scenario.steps ∧ Names doc s.id (.step s) ∧ st.sources = s.id :: p.sources.tail)

theorem filter_id_of_mem {ns : List Node} (h : (ns.map Node.id).Nodup) {n : Node} (hn : n ∈ ns) :
    ns.filter (·.id = n.id) = [n] := by
  induction ns with
  | nil => cases hn
  | cons m ns ih =>
    rw [List.map_cons, List.nodup_cons] at h
    rcases List.mem_cons.mp hn with rfl | hn
    · have hf : ns.filter (·.id = n.id) = [] := by
        rw [List.filter_eq_nil_iff]
        intro m hm he
        exact h.1 (List.mem_map.mpr ⟨m, hm, of_decide_eq_true he⟩)
      simp [hf]
    · have hne : m.id ≠ n.id := by
        intro he
        exact h.1 (List.mem_map.mpr ⟨n, hn, he.symm⟩)
      simp only [List.filter_cons, hne, decide_false, Bool.false_eq_true, ↓reduceIte]
      exact ih h.2 hn

theorem step_mem_scenario {s : Scenario} {st : Step} (h : st ∈ s.steps) :
    .step st ∈ scenarioNodes s := by
  have hs : .step st ∈ s.steps.flatMap stepNodes :=
    List.mem_flatMap.mpr ⟨st, h, by simp [stepNodes]⟩
  simp [scenarioNodes, hs]

theorem row_mem_scenario {s : Scenario} {e : Examples} {r : Row} (he : e ∈ s.examples)
    (hr : r ∈ e.body) : .row r ∈ scenarioNodes s := by
  have hs : .row r ∈ s.examples.flatMap examplesNodes :=
    List.mem_flatMap.mpr ⟨e, he, by simp [examplesNodes, hr]⟩
  simp [scenarioNodes, hs]

theorem mem_exampleRows {s : Scenario} {e : ExampleRow} (h : e ∈ s.exampleRows) :
    e.block ∈ s.examples ∧ e.row ∈ e.block.body := by
  obtain ⟨block, hb, h⟩ := List.mem_flatMap.mp h
  split at h
  · cases h
  · obtain ⟨row, hr, rfl⟩ := List.mem_map.mp h
    exact ⟨hb, hr⟩

def placedNodes (place : Placed) : List Node :=
  scenarioNodes place.scenario ++ place.backgrounds.flatMap backgroundNodes

section Placing

variable {place : Placed} {before : List Background} {n : Node}

theorem rulePlaced_nodes {children : List RuleChild} (h : place ∈ rulePlaced before children)
    (hn : n ∈ placedNodes place) :
    n ∈ before.flatMap backgroundNodes ∨ n ∈ children.flatMap ruleChildNodes := by
  induction children generalizing before with
  | nil => cases h
  | cons child rest ih =>
    rw [List.flatMap_cons, List.mem_append]
    cases child with
    | background b =>
      have hm := ih h
      rw [List.flatMap_append, List.flatMap_singleton, List.mem_append, or_assoc] at hm
      exact hm
    | scenario s =>
      rcases List.mem_cons.mp h with rfl | h
      · exact (List.mem_append.mp hn).symm.imp_right .inl
      · exact (ih h).imp_right .inr

theorem featurePlaced_nodes {children : List FeatureChild}
    (h : place ∈ featurePlaced before children) (hn : n ∈ placedNodes place) :
    n ∈ before.flatMap backgroundNodes ∨ n ∈ children.flatMap featureChildNodes := by
  induction children generalizing before with
  | nil => cases h
  | cons child rest ih =>
    rw [List.flatMap_cons, List.mem_append]
    cases child with
    | background b =>
      have hm := ih h
      rw [List.flatMap_append, List.flatMap_singleton, List.mem_append, or_assoc] at hm
      exact hm
    | scenario s =>
      rcases List.mem_cons.mp h with rfl | h
      · exact (List.mem_append.mp hn).symm.imp_right .inl
      · exact (ih h).imp_right .inr
    | rule r =>
      rcases List.mem_append.mp h with h | h
      · rcases rulePlaced_nodes h hn with hm | hm
        · exact .inl hm
        · refine .inr (.inl ?_)
          simp [featureChildNodes, ruleNodes, hm]
      · exact (ih h).imp_right .inr

theorem placed_nodes {doc : Document} (h : place ∈ placed doc) (hn : n ∈ placedNodes place) :
    n ∈ nodes doc := by
  obtain ⟨f, hf, h⟩ := List.mem_flatMap.mp h
  refine List.mem_flatMap.mpr ⟨f, hf, ?_⟩
  rcases featurePlaced_nodes h hn with hm | hm
  · cases hm
  · exact List.mem_append_right _ hm

end Placing

/-- Steps of backgrounds. -/
def StepsOf (before : List Background) (steps : List Step) : Prop :=
  ∀ s ∈ steps, ∃ b ∈ before, s ∈ b.steps

/-- A plan of a scenario that inherits steps of backgrounds before it. -/
def PlanOf (place : Placed) (p : Plan) : Prop :=
  ∃ i : Inherited, p ∈ place.scenario.plans i ∧ StepsOf place.backgrounds i.steps

section Plans

variable {before : List Background} {background : List Step} {p : Plan}

theorem StepsOf.append {more : List Background} {steps : List Step} (h : StepsOf before steps) :
    StepsOf (before ++ more) steps := by
  intro s hs
  obtain ⟨b, hb, hm⟩ := h s hs
  exact ⟨b, List.mem_append_left _ hb, hm⟩

theorem stepsOf_nil (before : List Background) : StepsOf before [] := by
  intro s hs
  cases hs

theorem stepsOf_last (before : List Background) (b : Background) :
    StepsOf (before ++ [b]) b.steps :=
  fun s hs => ⟨b, by simp, hs⟩

theorem rulePlans_placed {i : Inherited} {children : List RuleChild} (hi : StepsOf before i.steps)
    (hb : StepsOf before background) (h : p ∈ rulePlans i background children) :
    ∃ place ∈ rulePlaced before children, PlanOf place p := by
  induction children generalizing before background with
  | nil => cases h
  | cons child rest ih =>
    cases child with
    | background b => exact ih hi.append (stepsOf_last before b) h
    | scenario s =>
      rcases List.mem_append.mp h with h | h
      · refine ⟨⟨s, before⟩, List.mem_cons_self, _, h, ?_⟩
        intro st hst
        rcases List.mem_append.mp hst with hst | hst
        · exact hi st hst
        · exact hb st hst
      · obtain ⟨place, hm, hp⟩ := ih hi hb h
        exact ⟨place, List.mem_cons_of_mem _ hm, hp⟩

theorem featurePlans_placed {tags : List Tag} {children : List FeatureChild}
    (hb : StepsOf before background) (h : p ∈ featurePlans tags background children) :
    ∃ place ∈ featurePlaced before children, PlanOf place p := by
  induction children generalizing before background with
  | nil => cases h
  | cons child rest ih =>
    cases child with
    | background b => exact ih (stepsOf_last before b) h
    | scenario s =>
      rcases List.mem_append.mp h with h | h
      · exact ⟨⟨s, before⟩, List.mem_cons_self, _, h, hb⟩
      · obtain ⟨place, hm, hp⟩ := ih hb h
        exact ⟨place, List.mem_cons_of_mem _ hm, hp⟩
    | rule r =>
      rcases List.mem_append.mp h with h | h
      · obtain ⟨place, hm, hp⟩ := rulePlans_placed hb (stepsOf_nil before) h
        exact ⟨place, List.mem_append_left _ hm, hp⟩
      · obtain ⟨place, hm, hp⟩ := ih hb h
        exact ⟨place, List.mem_append_right _ hm, hp⟩

theorem plans_placed {doc : Document} (h : p ∈ doc.plans) :
    ∃ place ∈ placed doc, PlanOf place p := by
  unfold Document.plans at h
  split at h
  · cases h
  · rename_i f hf
    obtain ⟨place, hm, hp⟩ := featurePlans_placed (stepsOf_nil []) h
    exact ⟨place, by simpa [placed, hf] using hm, hp⟩

end Plans

section Walks

variable {α : Type} {key : Plan → α}

theorem exampleRows_sublist {g : Row → α} {ofBlock : Examples → List α}
    (h : ∀ e : Examples, (e.body.map g).Sublist (ofBlock e)) (s : Scenario) :
    (s.exampleRows.map fun e => g e.row).Sublist (s.examples.flatMap ofBlock) := by
  unfold Scenario.exampleRows
  induction s.examples with
  | nil => exact .slnil
  | cons block rest ih =>
    rw [List.flatMap_cons, List.flatMap_cons, List.map_append]
    refine List.Sublist.append ?_ ih
    cases block.header with
    | none => exact List.nil_sublist _
    | some header =>
      rw [List.map_map]
      exact h block

/-- What plans are looked at for follows the children, if it does so for each scenario. -/
theorem rulePlans_sublist {ofChild : RuleChild → List α}
    (hs : ∀ (i : Inherited) (s : Scenario), ((s.plans i).map key).Sublist (ofChild (.scenario s)))
    (i : Inherited) (background : List Step) (children : List RuleChild) :
    ((rulePlans i background children).map key).Sublist (children.flatMap ofChild) := by
  induction children generalizing background with
  | nil => exact .slnil
  | cons child rest ih =>
    rw [List.flatMap_cons]
    cases child with
    | background b => exact (ih b.steps).trans (List.sublist_append_right _ _)
    | scenario s =>
      rw [rulePlans, List.map_append]
      exact (hs _ s).append (ih background)

theorem featurePlans_sublist (ofRuleChild : RuleChild → List α) (ofChild : FeatureChild → List α)
    (hr : ∀ (i : Inherited) (s : Scenario),
      ((s.plans i).map key).Sublist (ofRuleChild (.scenario s)))
    (hc : ∀ r : Rule, (r.children.flatMap ofRuleChild).Sublist (ofChild (.rule r)))
    (hs : ∀ (i : Inherited) (s : Scenario), ((s.plans i).map key).Sublist (ofChild (.scenario s)))
    (tags : List Tag) (background : List Step) (children : List FeatureChild) :
    ((featurePlans tags background children).map key).Sublist (children.flatMap ofChild) := by
  induction children generalizing background with
  | nil => exact .slnil
  | cons child rest ih =>
    rw [List.flatMap_cons]
    cases child with
    | background b => exact (ih b.steps).trans (List.sublist_append_right _ _)
    | scenario s =>
      rw [featurePlans, List.map_append]
      exact (hs _ s).append (ih background)
    | rule r =>
      rw [featurePlans, List.map_append]
      exact ((rulePlans_sublist hr _ _ _).trans (hc r)).append (ih background)

end Walks

def line? : Entry → Option Nat
  | .heading _ location _ _ _ => some location.line
  | .row location _ => some location.line
  | _ => none

/-- A line has at most one heading or row. -/
theorem lineEntries_line (t : Token) (rest : List Token) :
    ((lineEntries t rest).filterMap line?).Sublist [t.location.line] := by
  unfold lineEntries
  split
  case h_7 => simp [tagEntries, line?, List.filterMap_map, Function.comp_def]
  all_goals simp [line?]

theorem ofLines_lines (inside : Bool) (ts : List Token) :
    ((ofLines inside ts).filterMap line?).Sublist (ts.map (·.location.line)) := by
  induction ts generalizing inside with
  | nil => exact .slnil
  | cons t ts ih =>
    rw [ofLines, List.filterMap_append, List.map_cons, ← List.singleton_append]
    refine List.Sublist.append ?_ (ih _)
    split
    · exact List.nil_sublist _
    · exact lineEntries_line t ts

section Reading

variable (table : Table) (settings : Settings) (r : Reader) (number : Nat)

theorem keywordLine_location (d : Dialect) (location : Location) (line trimmed : List Char) :
    (keywordLine d location line trimmed).location = location := by
  unfold keywordLine
  split
  · rfl
  · split <;> rfl

theorem read_line (line : List Char) :
    (r.read table settings number line).1.location.line = number := by
  unfold Reader.read
  cases r.docString with
  | some doc =>
    simp only [Reader.readDocLine]
    split <;> rfl
  | none =>
    simp only [Reader.readPlain]
    split
    · rfl
    · unfold Reader.readComment
      split <;> rfl
    · rfl
    · split
      · rfl
      · split
        · rfl
        · rw [keywordLine_location]

/-- Lines are numbered one by one. -/
theorem readAll_lines (ls : List (List Char)) :
    (r.readAll table settings number ls).1.map (·.location.line) =
      List.range' number (ls.length + 1) := by
  induction ls generalizing r number with
  | nil => rfl
  | cons line ls ih =>
    rw [readAll_cons, List.map_cons, read_line, ih, ← List.range'_succ, List.length_cons]

end Reading

theorem scenario_lines (i : Inherited) (s : Scenario) :
    ((s.plans i).map (·.location.line)).Sublist ((ofScenario s).filterMap line?) := by
  unfold Scenario.plans
  split
  · have hb (e : Examples) :
        (e.body.map (·.location.line)).Sublist ((ofExamples e).filterMap line?) := by
      simp only [ofExamples, List.map_append, List.filterMap_append, List.filterMap_map]
      refine List.Sublist.trans ?_ (List.sublist_append_right _ _)
      refine List.Sublist.trans ?_ (List.sublist_append_right _ _)
      simp [ofRow, line?, Function.comp_def]
    have h := exampleRows_sublist hb s
    rw [List.map_map]
    refine h.trans ?_
    rw [← List.filterMap_flatMap, ofScenario, List.filterMap_append]
    exact List.sublist_append_right _ _
  · rw [List.map_singleton, List.singleton_sublist]
    simp [ofScenario, line?, Plan.ofScenario]

/-- The lines of plans follow the lines of headings and rows. -/
theorem plans_lines (doc : Document) :
    (doc.plans.map (·.location.line)).Sublist ((ofDocument doc).filterMap line?) := by
  unfold Document.plans ofDocument
  cases doc.feature with
  | none => exact .slnil
  | some f =>
    have hr (r : Rule) : (r.children.flatMap fun c => (ofRuleChild c).filterMap line?).Sublist
        ((ofFeatureChild (.rule r)).filterMap line?) := by
      rw [← List.filterMap_flatMap, ofFeatureChild, ofRule, List.filterMap_append]
      exact List.sublist_append_right _ _
    have h := featurePlans_sublist (fun c => (ofRuleChild c).filterMap line?)
      (fun c => (ofFeatureChild c).filterMap line?) scenario_lines hr scenario_lines f.tags []
      f.children
    rw [← List.filterMap_flatMap] at h
    refine h.trans ?_
    rw [Option.toList_some, List.flatMap_singleton, ofFeature, List.filterMap_append]
    exact List.sublist_append_right _ _

def origin (p : Plan) : String :=
  p.sources.getLastD ""

theorem scenario_origins (i : Inherited) (s : Scenario) :
    ((s.plans i).map origin).Sublist ((scenarioNodes s).map Node.id) := by
  unfold Scenario.plans
  split
  · have hb (e : Examples) : (e.body.map (·.id)).Sublist ((examplesNodes e).map Node.id) := by
      have hm : e.body.map (·.id) = (e.body.map Node.row).map Node.id := by
        simp [Node.id, Function.comp_def]
      rw [hm, examplesNodes, List.map_append (f := Node.row)]
      apply List.Sublist.map
      refine List.Sublist.trans ?_ (List.sublist_append_left _ _)
      refine List.Sublist.trans ?_ (List.sublist_append_right _ _)
      exact List.sublist_append_right _ _
    have h := exampleRows_sublist hb s
    rw [List.map_map]
    refine h.trans ?_
    rw [← List.map_flatMap, scenarioNodes]
    apply List.Sublist.map
    refine List.Sublist.trans ?_ (List.sublist_append_left _ _)
    exact List.sublist_append_right _ _
  · rw [List.map_singleton, List.singleton_sublist]
    simp [scenarioNodes, origin, Plan.ofScenario, Node.id]

/-- What plans stand for follows the nodes of the document. -/
theorem plans_origins (doc : Document) :
    (doc.plans.map origin).Sublist ((nodes doc).map Node.id) := by
  unfold Document.plans nodes
  cases doc.feature with
  | none => exact .slnil
  | some f =>
    have hr (r : Rule) : (r.children.flatMap fun c => (ruleChildNodes c).map Node.id).Sublist
        ((featureChildNodes (.rule r)).map Node.id) := by
      rw [← List.map_flatMap, featureChildNodes, ruleNodes]
      apply List.Sublist.map
      refine List.Sublist.trans ?_ (List.sublist_append_left _ _)
      exact List.sublist_append_right _ _
    have h := featurePlans_sublist (fun c => (ruleChildNodes c).map Node.id)
      (fun c => (featureChildNodes c).map Node.id) scenario_origins hr scenario_origins f.tags []
      f.children
    rw [← List.map_flatMap] at h
    refine h.trans ?_
    rw [Option.toList_some, List.flatMap_singleton, featureNodes]
    apply List.Sublist.map
    exact List.sublist_append_right _ _

/-- The pickles of a document are its plans with identifiers. -/
theorem pickles_plans (doc : Document) :
    doc.pickles.map (fun p => (content p).toPlan) = doc.plans := by
  have h := congrArg (List.map (·.toPlan))
    (content_numberPlans doc.uri doc.language pickleIds doc.plans)
  rw [List.map_map, List.map_map] at h
  rw [Document.pickles]
  exact h.trans (List.map_id _)

section Documents

variable {doc : Document} (hu : ((nodes doc).map Node.id).Nodup) {place : Placed} {p : Pickle}

include hu

theorem names_of_mem {n : Node} (hn : n ∈ nodes doc) : Names doc n.id n :=
  filter_id_of_mem hu hn

/-- A step of a pickle is one that the scenario inherits or one of its own. -/
theorem traces_steps {i : Inherited} {own : Step → StepPlan} (hm : place ∈ placed doc)
    (hi : StepsOf place.backgrounds i.steps)
    (hp : (content p).steps = i.steps.map .ofStep ++ place.scenario.steps.map own)
    (ho : ∀ s, (own s).sources = s.id :: p.sources.tail) :
    ∀ st ∈ p.steps, ∃ s : Step,
      ((∃ b ∈ place.backgrounds, s ∈ b.steps) ∧ List.Forall₂ (Names doc) st.sources [.step s]) ∨
      (s ∈ place.scenario.steps ∧ Names doc s.id (.step s) ∧
        st.sources = s.id :: p.sources.tail) := by
  intro st hst
  have hs : st.toStepPlan ∈ i.steps.map .ofStep ++ place.scenario.steps.map own := by
    rw [← hp]
    exact List.mem_map.mpr ⟨st, hst, rfl⟩
  rcases List.mem_append.mp hs with hs | hs
  · obtain ⟨s, hs, he⟩ := List.mem_map.mp hs
    obtain ⟨b, hb, hsb⟩ := hi s hs
    have hn : .step s ∈ backgroundNodes b := by
      have hf : .step s ∈ b.steps.flatMap stepNodes :=
        List.mem_flatMap.mpr ⟨s, hsb, by simp [stepNodes]⟩
      simp [backgroundNodes, hf]
    have hm : .step s ∈ nodes doc :=
      placed_nodes hm (List.mem_append_right _ (List.mem_flatMap.mpr ⟨b, hb, hn⟩))
    refine ⟨s, .inl ⟨⟨b, hb, hsb⟩, ?_⟩⟩
    rw [← he]
    exact .cons (names_of_mem hu hm) .nil
  · obtain ⟨s, hs, he⟩ := List.mem_map.mp hs
    have hm : .step s ∈ nodes doc :=
      placed_nodes hm (List.mem_append_left _ (step_mem_scenario hs))
    refine ⟨s, .inr ⟨hs, names_of_mem hu hm, ?_⟩⟩
    rw [← he]
    exact ho s

/-- A pickle comes from the scenario that its plan is one of. -/
theorem traces_of_plan (hm : place ∈ placed doc) (h : PlanOf place (content p).toPlan) :
    Traces doc place p := by
  obtain ⟨i, hp, hi⟩ := h
  have hn {n : Node} (h : n ∈ scenarioNodes place.scenario) : Names doc n.id n :=
    names_of_mem hu (placed_nodes hm (List.mem_append_left _ h))
  have hs : Names doc place.scenario.id (.scenario place.scenario) :=
    hn (n := .scenario place.scenario) (by simp [scenarioNodes])
  unfold Scenario.plans at hp
  split at hp
  · rename_i ho
    obtain ⟨e, he, hc⟩ := List.mem_map.mp hp
    have hsources : p.sources = [place.scenario.id, e.row.id] := congrArg Plan.sources hc.symm
    obtain ⟨hb, hr⟩ := mem_exampleRows he
    constructor
    · intro hf
      simp [hf] at ho
    · intro _
      refine ⟨e.block, hb, e.row, hr, ?_⟩
      rw [hsources]
      exact .cons hs (.cons (hn (row_mem_scenario hb hr)) .nil)
    · refine traces_steps hu hm hi (congrArg Plan.steps hc.symm) ?_
      intro s
      rw [hsources]
      rfl
  · rename_i ho
    have hc := List.mem_singleton.mp hp
    have hsources : p.sources = [place.scenario.id] := congrArg Plan.sources hc
    constructor
    · intro _
      rw [hsources]
      exact .cons hs .nil
    · intro hf
      exact absurd hf ho
    · refine traces_steps hu hm hi (congrArg Plan.steps hc) ?_
      intro s
      rw [hsources]
      rfl

end Documents

/-- Pickles trace back to their sources: their lines go up, no two of them name the same sources,
and each comes from a scenario. -/
theorem parse_traces {table : Table} {settings : Settings} {requested : Option String}
    {uri source : String} {doc : Document}
    (h : parse table settings requested uri source = .ok doc)
    (hl : (nodes doc).length < 2 ^ 64) :
    (doc.pickles.map (·.location.line)).Pairwise (· < ·) ∧
      (doc.pickles.map (·.sources)).Nodup ∧
      ∀ p ∈ doc.pickles, ∃ place ∈ placed doc, Traces doc place p := by
  have hp := pickles_plans doc
  have hu : ((nodes doc).map Node.id).Nodup :=
    ids_nodup h (by simp only [IdSource.greatest]; omega)
  refine ⟨?_, ?_, ?_⟩
  · obtain ⟨he, -⟩ := ofTokens_entries
      (tokenize_wellShaped table settings (settings.initialLanguage requested) source)
      (tokenize_text table settings (settings.initialLanguage requested) source) h
    have hs := plans_lines doc
    rw [← hp, List.map_map, he] at hs
    have ht : (tokenize table settings (settings.initialLanguage requested) source).tokens.map
        (·.location.line) = List.range' 1 ((Text.lines source.toList).length + 1) :=
      readAll_lines table settings _ 1 _
    have hlines := hs.trans (ofLines_lines false _)
    rw [ht] at hlines
    exact List.Pairwise.sublist hlines (List.pairwise_lt_range' 1)
  · have hs := plans_origins doc
    rw [← hp, List.map_map] at hs
    have hd : ((doc.pickles.map (·.sources)).map (·.getLastD "")).Nodup := by
      rw [List.map_map]
      exact hs.nodup hu
    exact hd.of_map _
  · intro p hm
    have hplan : (content p).toPlan ∈ doc.plans := by
      rw [← hp]
      exact List.mem_map.mpr ⟨p, hm, rfl⟩
    obtain ⟨place, hplace, hof⟩ := plans_placed hplan
    exact ⟨place, hplace, traces_of_plan hu hplace hof⟩

def tracedText : String :=
  "@a\nFeature:\nBackground:\nGiven b\nScenario:\nGiven x\n|1|\nRule:\nOutline:\nGiven y\n" ++
    "Examples:\n|v|\n|1|\n|2|\n"

theorem parse_traces_sample :
    ∃ doc, parse sampleTable {} none "" tracedText = .ok doc ∧ (nodes doc).length < 2 ^ 64 ∧
      (doc.pickles.map (·.location.line)).Pairwise (· < ·) ∧
      (doc.pickles.map (·.sources)).Nodup ∧
      ∀ p ∈ doc.pickles, ∃ place ∈ placed doc, Traces doc place p := by
  have ho : (parse sampleTable {} none "" tracedText).toOption.any
      (fun doc => (nodes doc).length < 2 ^ 64) = true := by decide +kernel
  cases h : parse sampleTable {} none "" tracedText with
  | error e => simp [h, Except.toOption] at ho
  | ok doc =>
    have hl : (nodes doc).length < 2 ^ 64 := by simpa [h, Except.toOption] using ho
    exact ⟨doc, rfl, hl, parse_traces h hl⟩

end Brine.Proofs.PickleSources
