import Brine.Proofs.NodeIds
import Brine.Proofs.PickleStream

namespace Brine.Proofs.PickleIds
open NodeIds PickleStream

/-- The identifiers in a pickle in the order in which they are drawn. -/
def idsOf (p : Pickle) : List String :=
  p.steps.map (·.id) ++ [p.id]

/-- What the first `k` calls of a stream give, and the stream after them. -/
def calls (s : Stream) : Nat → List Pickle × Stream
  | 0 => ([], s)
  | k + 1 => ((calls s k).1 ++ (calls s k).2.next.1.toList, (calls s k).2.next.2)

theorem numberSteps_draws (ids : IdSource) (steps : List StepPlan) :
    Draws ids ((numberSteps ids steps).1.map (·.id)) (numberSteps ids steps).2 := by
  induction steps generalizing ids with
  | nil => exact .done ids
  | cons s rest ih => exact .next (ih _)

theorem number_draws (uri language : String) (p : Plan) (ids : IdSource) :
    Draws ids (idsOf (p.number uri language ids).1) (p.number uri language ids).2 :=
  (numberSteps_draws ids p.steps).append (.next (.done _))

/-- What is passed over on the way to the next pickle draws nothing. -/
theorem next_draws (s : Stream) : Draws s.ids (s.next.1.toList.flatMap idsOf) s.next.2.ids := by
  unfold Stream.next
  cases s.cursor.next with
  | mk plan cursor =>
    cases plan with
    | none => exact .done s.ids
    | some plan =>
      have h := number_draws s.uri s.language plan s.ids
      simpa only [Option.toList_some, List.flatMap_cons, List.flatMap_nil, List.append_nil] using h

theorem calls_draws (s : Stream) (k : Nat) :
    Draws s.ids ((calls s k).1.flatMap idsOf) (calls s k).2.ids := by
  induction k with
  | zero => exact .done s.ids
  | succ k ih =>
    rw [calls, List.flatMap_append]
    exact ih.append (next_draws _)

theorem calls_picklesLeft (s : Stream) (k : Nat) :
    (calls s k).1 = (picklesLeft s).take k ∧
      picklesLeft (calls s k).2 = (picklesLeft s).drop k := by
  induction k with
  | zero => exact ⟨rfl, rfl⟩
  | succ k ih =>
    obtain ⟨hgiven, hleft⟩ := ih
    obtain ⟨hhead, htail⟩ := next_head_tail (calls s k).2
    rw [calls, hgiven, hhead, htail, hleft, List.head?_drop, List.tail_drop]
    exact ⟨List.take_add_one.symm, rfl⟩

/-- The calls of a stream so far have given the first pickles of the document, whose identifiers,
those of the steps of a pickle before its own, are the numbers from 0 on; the next call goes on with
the number after them. -/
theorem calls_number (d : Document) (k : Nat)
    (h : ((calls (.ofDocument d) k).1.flatMap idsOf).length < 2 ^ 64) :
    let given := (calls (.ofDocument d) k).1
    let ids := given.flatMap idsOf
    given = d.pickles.take k ∧
      ids = (List.range ids.length).map (fun i => "pickle-" ++ i.repr) ∧
      ids.Nodup ∧
      (calls (.ofDocument d) k).2.ids = { stem := "pickle-", next := ids.length } := by
  have hd := calls_draws (.ofDocument d) k
  obtain ⟨hids, hafter⟩ := hd.counts rfl h
  refine ⟨?_, hids, ?_, hafter⟩
  · rw [(calls_picklesLeft _ k).1, picklesLeft_ofDocument]
  · exact hd.nodup rfl (by simp only [IdSource.greatest]; omega)

def sparseText : String :=
  "Feature:\nBackground:\nGiven b\nScenario:\nGiven x\nOutline:\nGiven y\nScenario:\nRule:\n" ++
    "Rule:\nOutline:\nGiven z\nExamples:\n|v|\n|1|\n|2|\n"

theorem calls_number_sample :
    ∃ d, Document.parse Conservation.sampleTable {} none "" sparseText = .ok d ∧
      ((calls (.ofDocument d) 3).1.flatMap idsOf).length < 2 ^ 64 ∧
      let given := (calls (.ofDocument d) 3).1
      let ids := given.flatMap idsOf
      given = d.pickles.take 3 ∧
        ids = (List.range ids.length).map (fun i => "pickle-" ++ i.repr) ∧
        ids.Nodup ∧
        (calls (.ofDocument d) 3).2.ids = { stem := "pickle-", next := ids.length } := by
  have ho : (Document.parse Conservation.sampleTable {} none "" sparseText).toOption.any
      (fun d => ((calls (.ofDocument d) 3).1.flatMap idsOf).length < 2 ^ 64) = true := by
    decide +kernel
  cases h : Document.parse Conservation.sampleTable {} none "" sparseText with
  | error e => simp [h, Except.toOption] at ho
  | ok d =>
    have hl : ((calls (.ofDocument d) 3).1.flatMap idsOf).length < 2 ^ 64 := by
      simpa [h, Except.toOption] using ho
    exact ⟨d, rfl, hl, calls_number d 3 hl⟩

end Brine.Proofs.PickleIds
