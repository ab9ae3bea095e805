import Brine.Line.Token
import Mathlib.Computability.Language

open scoped Computability

namespace Brine.Proofs.Grammar
open Line

/-- One line of a kind. -/
def line (k : Kind) : Language Kind := {[k]}

def argument : Language Kind :=
  1 + line .tableRow * (line .tableRow)∗ +
    line .docStringSeparator * (line .docStringContent)∗ * line .docStringSeparator

def step : Language Kind :=
  line .step * argument

def background : Language Kind :=
  line .background * (line .other)∗ * step∗

def examples : Language Kind :=
  (line .tags)∗ * line .examples * (line .other)∗ * (line .tableRow)∗

def scenario : Language Kind :=
  (line .tags)∗ * (line .scenario + line .scenarioOutline) * (line .other)∗ * step∗ * examples∗

def body : Language Kind :=
  scenario∗ + scenario∗ * background * scenario∗

def rule : Language Kind :=
  (line .tags)∗ * line .rule * (line .other)∗ * body

def document : Language Kind :=
  line .eof + (line .tags)∗ * line .feature * (line .other)∗ * body * rule∗ * line .eof

inductive Block where
  | background
  | scenario
deriving DecidableEq

/-- What the last line inside a feature has left open, blank lines and comments aside. -/
inductive Place where
  /-- The heading of the feature or of a rule, or its description. -/
  | scope
  /-- The heading of a block, or its description. -/
  | heading (b : Block)
  /-- A step without an argument. -/
  | step (b : Block)
  /-- A row of the table of a step. -/
  | table (b : Block)
  /-- A doc string that is still open. -/
  | doc (b : Block)
  /-- A doc string that has been closed. -/
  | closed (b : Block)
  /-- The heading of an examples block, or its description. -/
  | examples
  /-- A row of examples. -/
  | rows
  /-- Tags, which can belong to examples if they follow a scenario. -/
  | tags (b : Option Block)
deriving DecidableEq

/-- What the lines so far have left open. Inside a feature it counts whether the scope, which is the
feature or its last rule, has had its background. -/
inductive Mode where
  | start
  | tagged
  | within (seen : Bool) (place : Place)
deriving DecidableEq

def Place.block : Place → Option Block
  | .scope => none
  | .heading b | .step b | .table b | .doc b | .closed b => some b
  | .examples | .rows => some .scenario
  | .tags b => b

def opened (seen : Bool) (b : Option Block) : Kind → Option Mode
  | .tags => some (.within seen (.tags b))
  | .scenario | .scenarioOutline => some (.within seen (.heading .scenario))
  | .rule => some (.within false .scope)
  | .examples => if b = some .scenario then some (.within seen .examples) else none
  | .background => if seen then none else some (.within true (.heading .background))
  | _ => none

def Place.next (seen : Bool) (p : Place) (k : Kind) : Option Mode :=
  match p, k with
  | .scope, .other => some (.within seen .scope)
  | .heading b, .other => some (.within seen (.heading b))
  | .examples, .other => some (.within seen .examples)
  | .heading b, .step | .step b, .step | .table b, .step | .closed b, .step =>
    some (.within seen (.step b))
  | .step b, .tableRow | .table b, .tableRow => some (.within seen (.table b))
  | .examples, .tableRow | .rows, .tableRow => some (.within seen .rows)
  | .step b, .docStringSeparator => some (.within seen (.doc b))
  | .doc b, .docStringContent => some (.within seen (.doc b))
  | .doc b, .docStringSeparator => some (.within seen (.closed b))
  | .doc _, _ => none
  | .tags _, .background => none
  | p, k => opened seen p.block k

def Mode.next : Mode → Kind → Option Mode
  | .start, .tags | .tagged, .tags => some .tagged
  | .start, .feature | .tagged, .feature => some (.within false .scope)
  | .start, _ | .tagged, _ => none
  | .within seen p, k => p.next seen k

def Mode.mayEnd : Mode → Bool
  | .start => true
  | .tagged | .within _ (.doc _) | .within _ (.tags _) => false
  | .within _ _ => true

def Mode.accepts (m : Mode) : List Kind → Bool
  | [] => false
  | .eof :: ks => m.mayEnd && ks.isEmpty
  | k :: ks =>
    match m.next k with
    | some m => m.accepts ks
    | none => false

def following (seen : Bool) : Language Kind :=
  (if seen then scenario∗ else body) * (rule∗ * line .eof)

def afterSteps (seen : Bool) : Option Block → Language Kind
  | some .scenario => examples∗ * following seen
  | _ => following seen

def scenarioRest (seen : Bool) : Language Kind :=
  (line .other)∗ * (step∗ * afterSteps seen (some .scenario))

def examplesRest (seen : Bool) : Language Kind :=
  (line .other)∗ * ((line .tableRow)∗ * afterSteps seen (some .scenario))

def ruleRest : Language Kind :=
  (line .other)∗ * afterSteps false none

def tagged (seen : Bool) (b : Option Block) : Language Kind :=
  line .scenario * scenarioRest seen + line .scenarioOutline * scenarioRest seen +
    line .rule * ruleRest + if b = some .scenario then line .examples * examplesRest seen else 0

def restAt (seen : Bool) : Place → Language Kind
  | .scope => (line .other)∗ * afterSteps seen none
  | .heading b => (line .other)∗ * (step∗ * afterSteps seen (some b))
  | .step b => argument * (step∗ * afterSteps seen (some b))
  | .table b => (line .tableRow)∗ * (step∗ * afterSteps seen (some b))
  | .doc b =>
    (line .docStringContent)∗ * (line .docStringSeparator * (step∗ * afterSteps seen (some b)))
  | .closed b => step∗ * afterSteps seen (some b)
  | .examples => examplesRest seen
  | .rows => (line .tableRow)∗ * afterSteps seen (some .scenario)
  | .tags b => (line .tags)∗ * tagged seen b

def rest : Mode → Language Kind
  | .start => document
  | .tagged => (line .tags)∗ * (line .feature * ruleRest)
  | .within seen p => restAt seen p

theorem cons_mem_line_mul {k a : Kind} {ks : List Kind} {l : Language Kind} :
    k :: ks ∈ line a * l ↔ k = a ∧ ks ∈ l := by
  constructor
  · rintro ⟨xs, hx, ys, hy, he⟩
    cases hx
    cases he
    exact ⟨rfl, hy⟩
  · rintro ⟨rfl, h⟩
    exact ⟨[k], rfl, ks, h, rfl⟩

theorem cons_mem_line {k a : Kind} {ks : List Kind} : k :: ks ∈ line a ↔ k = a ∧ ks = [] := by
  constructor
  · intro h
    cases h
    exact ⟨rfl, rfl⟩
  · rintro ⟨rfl, rfl⟩
    rfl

theorem kstar_mul (l m : Language Kind) : l∗ * m = m + l * (l∗ * m) := by
  nth_rw 1 [← Language.one_add_self_mul_kstar_eq_kstar l]
  rw [add_mul, one_mul, mul_assoc]

/-- A body either has its background still to come or starts with it, or starts with a scenario. -/
theorem following_next (seen : Bool) :
    following seen = rule∗ * line .eof + scenario * following seen +
      if seen then 0 else background * following true := by
  have hb : body = scenario∗ * (1 + background * scenario∗) := by
    rw [body, mul_add, mul_one, mul_assoc]
  cases seen with
  | true =>
    simp only [following, ↓reduceIte, add_zero]
    exact kstar_mul _ _
  | false =>
    simp only [following, Bool.false_eq_true, ↓reduceIte, hb]
    calc
      scenario∗ * (1 + background * scenario∗) * (rule∗ * line .eof)
        = (1 + background * scenario∗) * (rule∗ * line .eof) +
            scenario * (scenario∗ * ((1 + background * scenario∗) * (rule∗ * line .eof))) := by
          rw [mul_assoc, ← kstar_mul]
      _ = rule∗ * line .eof +
            scenario * (scenario∗ * (1 + background * scenario∗) * (rule∗ * line .eof)) +
            background * (scenario∗ * (rule∗ * line .eof)) := by
          simp only [add_mul, one_mul, mul_assoc]
          exact add_right_comm _ _ _

theorem rules_next :
    rule∗ * line .eof = line .eof + (line .tags)∗ * (line .rule * ruleRest) := by
  rw [kstar_mul]
  simp only [rule, ruleRest, afterSteps, following, Bool.false_eq_true, ↓reduceIte, mul_assoc]

theorem scenario_next (seen : Bool) :
    scenario * following seen = (line .tags)∗ *
      (line .scenario * scenarioRest seen + line .scenarioOutline * scenarioRest seen) := by
  simp only [scenario, scenarioRest, afterSteps, mul_assoc, add_mul, mul_add]

theorem examples_next (seen : Bool) :
    examples * (examples∗ * following seen) =
      (line .tags)∗ * (line .examples * examplesRest seen) := by
  rw [examplesRest, afterSteps]
  nth_rw 1 [examples]
  simp only [mul_assoc]

theorem following_eq (seen : Bool) :
    following seen = line .eof + (line .tags)∗ *
      (line .scenario * scenarioRest seen + line .scenarioOutline * scenarioRest seen +
        line .rule * ruleRest) +
      if seen then 0 else line .background * restAt true (.heading .background) := by
  rw [following_next, rules_next, scenario_next]
  simp only [background, restAt, afterSteps, mul_assoc, mul_add]
  ac_rfl

/-- What starts something new: tags, what they can belong to, a background, or the end. -/
theorem afterSteps_next (seen : Bool) (b : Option Block) :
    afterSteps seen b =
      line .eof + (tagged seen b + line .tags * ((line .tags)∗ * tagged seen b)) +
        if seen then 0 else line .background * restAt true (.heading .background) := by
  rw [← kstar_mul]
  match b with
  | none => simp only [afterSteps, following_eq seen, tagged, reduceCtorEq, ↓reduceIte, add_zero]
  | some .background =>
    simp only [afterSteps, following_eq seen, tagged, Option.some.injEq, reduceCtorEq, ↓reduceIte,
      add_zero]
  | some .scenario =>
    rw [afterSteps, kstar_mul, examples_next, following_eq]
    simp only [tagged, ↓reduceIte, mul_add]
    ac_rfl

theorem steps_next (l : Language Kind) :
    step∗ * l = l + line .step * (argument * (step∗ * l)) := by
  calc
    step∗ * l = l + step * (step∗ * l) := kstar_mul step l
    _ = l + line .step * (argument * (step∗ * l)) := by
      nth_rw 1 [step]
      rw [mul_assoc]

theorem argument_next (l : Language Kind) :
    argument * l = l + line .tableRow * ((line .tableRow)∗ * l) +
      line .docStringSeparator * ((line .docStringContent)∗ * (line .docStringSeparator * l)) := by
  simp only [argument, add_mul, one_mul, mul_assoc]

theorem cons_mem_tagged {seen : Bool} {b : Option Block} {k : Kind} {ks : List Kind} :
    k :: ks ∈ tagged seen b ↔
      k ≠ .tags ∧ k ≠ .background ∧ ∃ m, opened seen b k = some m ∧ ks ∈ rest m := by
  unfold tagged
  split
  · rename_i hb
    simp only [Language.mem_add, cons_mem_line_mul]
    cases k <;> simp [opened, rest, restAt, scenarioRest, ruleRest, hb]
  · rename_i hb
    simp only [add_zero, Language.mem_add, cons_mem_line_mul]
    cases k <;> simp [opened, rest, restAt, scenarioRest, ruleRest, hb]

theorem cons_mem_afterSteps {seen : Bool} {b : Option Block} {k : Kind} {ks : List Kind} :
    k :: ks ∈ afterSteps seen b ↔
      k = .eof ∧ ks = [] ∨ ∃ m, opened seen b k = some m ∧ ks ∈ rest m := by
  rw [afterSteps_next]
  cases seen
  · simp only [Bool.false_eq_true, ↓reduceIte, Language.mem_add, cons_mem_line, cons_mem_line_mul,
      cons_mem_tagged]
    cases k <;> simp [opened, rest, restAt]
  · simp only [↓reduceIte, add_zero, Language.mem_add, cons_mem_line, cons_mem_line_mul,
      cons_mem_tagged]
    cases k <;> simp [opened, rest, restAt]

/-- Taking one line off what may follow at a place. -/
theorem cons_mem_restAt {seen : Bool} {p : Place} {k : Kind} {ks : List Kind} :
    k :: ks ∈ restAt seen p ↔
      k = .eof ∧ (Mode.within seen p).mayEnd ∧ ks = [] ∨
        ∃ m, p.next seen k = some m ∧ ks ∈ rest m := by
  cases p with
  | scope =>
    rw [restAt, kstar_mul]
    simp only [Language.mem_add, cons_mem_afterSteps, cons_mem_line_mul]
    cases k <;> simp [Place.next, Place.block, Mode.mayEnd, opened, rest, restAt]
  | heading b =>
    rw [restAt, kstar_mul]
    nth_rw 1 [steps_next]
    simp only [Language.mem_add, cons_mem_afterSteps, cons_mem_line_mul]
    cases k <;> simp [Place.next, Place.block, Mode.mayEnd, opened, rest, restAt]
  | step b =>
    rw [restAt, argument_next]
    nth_rw 1 [steps_next]
    simp only [Language.mem_add, cons_mem_afterSteps, cons_mem_line_mul]
    cases k <;> simp [Place.next, Place.block, Mode.mayEnd, opened, rest, restAt]
  | table b =>
    rw [restAt, kstar_mul]
    nth_rw 1 [steps_next]
    simp only [Language.mem_add, cons_mem_afterSteps, cons_mem_line_mul]
    cases k <;> simp [Place.next, Place.block, Mode.mayEnd, opened, rest, restAt]
  | doc b =>
    rw [restAt, kstar_mul]
    simp only [Language.mem_add, cons_mem_line_mul]
    cases k <;> simp [Place.next, Mode.mayEnd, rest, restAt]
  | closed b =>
    rw [restAt, steps_next]
    simp only [Language.mem_add, cons_mem_afterSteps, cons_mem_line_mul]
    cases k <;> simp [Place.next, Place.block, Mode.mayEnd, opened, rest, restAt]
  | examples =>
    rw [restAt, examplesRest, kstar_mul]
    nth_rw 1 [kstar_mul (line .tableRow)]
    simp only [Language.mem_add, cons_mem_afterSteps, cons_mem_line_mul]
    cases k <;> simp [Place.next, Place.block, Mode.mayEnd, opened, rest, restAt, examplesRest]
  | rows =>
    rw [restAt, kstar_mul]
    simp only [Language.mem_add, cons_mem_afterSteps, cons_mem_line_mul]
    cases k <;> simp [Place.next, Place.block, Mode.mayEnd, opened, rest, restAt]
  | tags b =>
    rw [restAt, kstar_mul]
    simp only [Language.mem_add, cons_mem_tagged, cons_mem_line_mul]
    by_cases hb : b = some .scenario <;> cases k <;>
      simp [Place.next, Place.block, Mode.mayEnd, opened, rest, restAt, hb]

/-- Taking one line off what may follow in a mode. -/
theorem cons_mem_rest {m : Mode} {k : Kind} {ks : List Kind} :
    k :: ks ∈ rest m ↔
      k = .eof ∧ m.mayEnd ∧ ks = [] ∨ ∃ m', m.next k = some m' ∧ ks ∈ rest m' := by
  have hd : document = line .eof + (line .feature * ruleRest +
      line .tags * ((line .tags)∗ * (line .feature * ruleRest))) := by
    rw [← kstar_mul]
    simp only [document, ruleRest, afterSteps, following, Bool.false_eq_true, ↓reduceIte, mul_assoc]
  cases m with
  | start =>
    rw [rest, hd]
    simp only [Language.mem_add, cons_mem_line, cons_mem_line_mul]
    cases k <;> simp [Mode.next, Mode.mayEnd, rest, restAt, ruleRest]
  | tagged =>
    rw [rest, kstar_mul]
    simp only [Language.mem_add, cons_mem_line_mul]
    cases k <;> simp [Mode.next, Mode.mayEnd, rest, restAt, ruleRest]
  | within seen p => exact cons_mem_restAt

/-- All that may follow ends with the end of the text. -/
theorem nil_not_mem_rest (m : Mode) : [] ∉ rest m := by
  have hm (l l' : Language Kind) (h : [] ∉ l') : [] ∉ l * l' := by
    rintro ⟨xs, hx, ys, hy, he⟩
    obtain ⟨rfl, rfl⟩ := List.append_eq_nil_iff.mp he
    exact h hy
  have he (k : Kind) : [] ∉ line k := by
    intro h
    cases h
  have hf (seen : Bool) : [] ∉ following seen := hm _ _ (hm _ _ (he .eof))
  have ha (seen : Bool) (b : Option Block) : [] ∉ afterSteps seen b := by
    unfold afterSteps
    split
    · exact hm _ _ (hf seen)
    · exact hf seen
  have hr : [] ∉ ruleRest := hm _ _ (ha false none)
  have hs (seen : Bool) : [] ∉ scenarioRest seen := hm _ _ (hm _ _ (ha seen _))
  have hx (seen : Bool) : [] ∉ examplesRest seen := hm _ _ (hm _ _ (ha seen _))
  have ht (seen : Bool) (b : Option Block) : [] ∉ tagged seen b := by
    unfold tagged
    simp only [Language.mem_add, not_or]
    refine ⟨⟨⟨hm _ _ (hs seen), hm _ _ (hs seen)⟩, hm _ _ hr⟩, ?_⟩
    split
    · exact hm _ _ (hx seen)
    · exact Language.notMem_zero []
  cases m with
  | start =>
    rw [rest, document, Language.mem_add, not_or]
    exact ⟨he .eof, hm _ _ (he .eof)⟩
  | tagged => exact hm _ _ (hm _ _ hr)
  | within seen p =>
    cases p with
    | scope => exact hm _ _ (ha seen _)
    | heading b | step b | table b => exact hm _ _ (hm _ _ (ha seen _))
    | doc b => exact hm _ _ (hm _ _ (hm _ _ (ha seen _)))
    | closed b | rows => exact hm _ _ (ha seen _)
    | examples => exact hx seen
    | tags b => exact hm _ _ (ht seen b)

theorem Mode.accepts_cons {m : Mode} {k : Kind} {ks : List Kind} (hk : k ≠ .eof) :
    m.accepts (k :: ks) =
      match m.next k with
      | some m => m.accepts ks
      | none => false := by
  rw [Mode.accepts.eq_def]
  simp only

/-- The automaton accepts in each mode exactly what may follow there. -/
theorem accepts_iff_mem_rest {m : Mode} {ks : List Kind} : m.accepts ks ↔ ks ∈ rest m := by
  induction ks generalizing m with
  | nil => simp [Mode.accepts, nil_not_mem_rest]
  | cons k ks ih =>
    have hn : m.next .eof = none := by
      match m with
      | .start | .tagged => rfl
      | .within seen p => cases p <;> rfl
    rw [cons_mem_rest]
    by_cases hk : k = .eof
    · subst hk
      simp [Mode.accepts, hn]
    · rw [Mode.accepts_cons hk]
      simp only [hk, false_and, false_or]
      cases hm : m.next k with
      | none => simp
      | some m' => simp [ih]

end Brine.Proofs.Grammar
