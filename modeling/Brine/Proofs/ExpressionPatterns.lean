import Brine.Expression.Compile
import Brine.Proofs.ExpressionChoices
import Brine.Proofs.PatternEmbedding
import Mathlib.Tactic.FinCases

namespace Brine.Proofs.ExpressionPatterns
open Regex Expression Success ExpressionChoices
open PatternReaders PatternTokens PatternRuns PatternEmbedding

variable {around : List Flags} {extra : List Char} {d : Draft}

def add (d : Draft) (rs : List Regex) : Draft :=
  { d with group := { d.group with pieces := (rs.map some).reverse ++ d.group.pieces } }

@[simp] theorem add_add {rs rs' : List Regex} : add (add d rs) rs' = add d (rs ++ rs') := by
  simp [add]

theorem add_push {r : Regex} : { d with group := d.group.push r } = add d [r] := rfl

theorem charEscape_meta {c : Char} (h : isMeta c = true) :
    charEscape {} c = .ok (.char c false) := by
  have hc : c ∈ ['\\', '.', '+', '*', '?', '(', ')', '|', '[', ']', '\x7b', '\x7d', '^', '$', '#',
      '&', '-', '~'] := by simpa [isMeta] using h
  fin_cases hc <;> rfl

/-- No letter with a longer escape has a meaning by itself. -/
theorem isMeta_plain {c : Char} (h : isMeta c = true) :
    hexLength? c = none ∧ c ≠ 'b' ∧ propertySign? c = none := by
  have hc : c ∈ ['\\', '.', '+', '*', '?', '(', ')', '|', '[', ']', '\x7b', '\x7d', '^', '$', '#',
      '&', '-', '~'] := by simpa [isMeta] using h
  fin_cases hc <;> decide

/-- Quoted text does not change what comes before it. -/
theorem ends_quote (h : Ends extra) (text : List Char) : Ends (quote text ++ extra) := by
  cases text with
  | nil => exact h
  | cons c text =>
    have hq : quote (c :: text) ++ extra =
        (if isMeta c then ['\\', c] else [c]) ++ (quote text ++ extra) := by
      simp [quote]
    rw [hq]
    cases hm : isMeta c with
    | true => simp [Ends]
    | false =>
      have h₁ : c ≠ '?' := by
        rintro rfl
        contradiction
      have h₂ : c ≠ '\x7b' := by
        rintro rfl
        contradiction
      simp [Ends, h₁, h₂]

def partExprs : Part → List Regex
  | .text t => t.toList.map fun c => .set (.single c)
  | .optional t => [.opt true (catAll (t.toList.map fun c => .set (.single c)))]

theorem ends_part (h : Ends extra) (p : Part) : Ends (p.pattern ++ extra) := by
  cases p with
  | text t => exact ends_quote h t.toList
  | optional t => simp [Ends, Part.pattern]

def branched (g : OpenGroup) : List (List Part) → OpenGroup
  | [] => g
  | [parts] => { g with pieces := ((parts.flatMap partExprs).map some).reverse }
  | parts :: rest =>
    branched { g with branches := catAll (parts.flatMap partExprs) :: g.branches, pieces := [] }
      rest

theorem branched_index (g : OpenGroup) (alternatives : List (List Part)) :
    (branched g alternatives).index = g.index := by
  fun_induction branched g alternatives with
  | case1 => rfl
  | case2 => rfl
  | case3 g parts rest _ ih => exact ih

theorem branched_branches {g : OpenGroup} {alternatives : List (List Part)}
    (h : alternatives ≠ []) :
    ((branched g alternatives).branch :: (branched g alternatives).branches).reverse =
      g.branches.reverse ++ alternatives.map fun parts => catAll (parts.flatMap partExprs) := by
  fun_induction branched g alternatives with
  | case1 => contradiction
  | case2 g parts => simp [OpenGroup.branch, List.filterMap_map]
  | case3 g parts rest hne ih =>
    rw [ih (by simpa using hne)]
    simp

def choiceExpr (alternatives : List (List Part)) : Regex :=
  altAll (alternatives.map fun parts => catAll (parts.flatMap partExprs))

theorem mem_of_get? {registry : Registry} {name : String} {type : ParameterType}
    (h : registry.get? name = some type) : type ∈ registry.types := by
  obtain ⟨position, -, h⟩ := Option.bind_eq_some_iff.mp h
  exact List.mem_of_getElem? h

def wholeText (rs : List Regex) : Regex :=
  catAll (.look .textStart :: (rs ++ [.look .textEnd]))

variable [Engine]

theorem taken_char {c : Char} (h : isMeta c = false) {rest : List Char} :
    Taken {} c rest (.atom (.set (.single c))) {} rest := by
  have hne : ∀ d, isMeta d = true → c ≠ d := by
    rintro d hd rfl
    simp [h] at hd
  refine .char ?_ ?_ ?_
  · simp [isMark, hne '(' rfl, hne ')' rfl, hne '|' rfl, hne '[' rfl, hne '\x7b' rfl, hne '\\' rfl]
  · unfold signCounts?
    split
    · exact absurd rfl (hne _ rfl)
    · exact absurd rfl (hne _ rfl)
    · exact absurd rfl (hne _ rfl)
    · rfl
  · unfold charAtom
    split
    · exact absurd rfl (hne _ rfl)
    · exact absurd rfl (hne _ rfl)
    · exact absurd rfl (hne _ rfl)
    · rfl

/-- A quoted character is read as itself. -/
theorem step_char {c : Char} :
    Reading.Step ⟨⟨{}, around, (if isMeta c then ['\\', c] else [c]) ++ extra⟩, d⟩
      ⟨⟨{}, around, extra⟩, add d [.set (.single c)]⟩ := by
  cases hm : isMeta c with
  | true =>
    obtain ⟨hn, hb, hp⟩ := isMeta_plain hm
    have he : escape {} (c :: extra) = .ok (.char c false, extra) := by
      rw [escape_plain hn hb hp, charEscape_meta hm]
      rfl
    exact .mk rfl (.escaped he rfl) rfl
  | false => exact .mk rfl (taken_char hm) rfl

theorem steps_quote (text : List Char) :
    Steps ⟨⟨{}, around, quote text ++ extra⟩, d⟩
      ⟨⟨{}, around, extra⟩, add d (text.map fun c => .set (.single c))⟩ := by
  induction text generalizing d with
  | nil => exact .refl
  | cons c text ih =>
    have hq : quote (c :: text) ++ extra =
        (if isMeta c then ['\\', c] else [c]) ++ (quote text ++ extra) := by
      simp [quote]
    rw [hq]
    have hrest := @ih (add d [.set (.single c)])
    rw [add_add] at hrest
    exact .head step_char hrest

/-- The opening of a group that does not capture. -/
theorem step_open : Reading.Step ⟨⟨{}, around, '(' :: '?' :: ':' :: extra⟩, d⟩
    ⟨⟨{}, {} :: around, extra⟩, { d with group := {}, outer := d.group :: d.outer }⟩ := by
  have ho : opening {} ('?' :: ':' :: extra) = .ok (.openPlain, {}, extra) := rfl
  exact .mk rfl (.opening ho) rfl

theorem step_close {f : Flags} {group parent : OpenGroup} {outer : List OpenGroup}
    {names : List String} {captures : Nat} (hf : f.verbose = false) :
    Reading.Step ⟨⟨f, {} :: around, ')' :: extra⟩, ⟨group, parent :: outer, names, captures⟩⟩
      ⟨⟨{}, around, extra⟩, ⟨parent.push group.close, outer, names, captures⟩⟩ :=
  .mk hf .close rfl

theorem steps_part (h : Ends extra) (p : Part) :
    Steps ⟨⟨{}, around, p.pattern ++ extra⟩, d⟩
      ⟨⟨{}, around, extra⟩, add d (partExprs p)⟩ := by
  cases p with
  | text t => exact steps_quote t.toList
  | optional t =>
    have hp : (Part.optional t).pattern ++ extra =
        '(' :: '?' :: ':' :: (quote t.toList ++ ')' :: '?' :: extra) := by
      simp [Part.pattern]
    have hq : quantified {} 0 (some 1) extra = .ok (.quantifier 0 (some 1) true, {}, extra) := by
      unfold quantified
      split
      · simp [Ends] at h
      · rfl
    rw [hp]
    refine .head step_open (.trans (steps_quote _) (.head (step_close rfl) (.single ?_)))
    refine .mk rfl (.sign rfl rfl hq) ?_
    simp [Draft.push, OpenGroup.repeatLast, OpenGroup.push, OpenGroup.close, OpenGroup.branch, add,
      repeated, atMost, catAll, altAll, partExprs, List.filterMap_map]

theorem steps_parts (h : Ends extra) (parts : List Part) :
    Steps ⟨⟨{}, around, parts.flatMap Part.pattern ++ extra⟩, d⟩
      ⟨⟨{}, around, extra⟩, add d (parts.flatMap partExprs)⟩ := by
  induction parts generalizing d with
  | nil => exact .refl
  | cons p parts ih =>
    have he : Ends (parts.flatMap Part.pattern ++ extra) := by
      clear ih
      induction parts with
      | nil => exact h
      | cons p parts ih => simpa using ends_part ih p
    have hrest := @ih (add d (partExprs p))
    rw [add_add] at hrest
    rw [List.flatMap_cons, List.append_assoc]
    exact .trans (steps_part he p) hrest

theorem steps_branches {g : OpenGroup} {outer : List OpenGroup} {names : List String}
    {captures : Nat} {alternatives : List (List Part)} (h : alternatives ≠ [])
    (hg : g.pieces = []) :
    Steps ⟨⟨{}, around, List.intercalate ['|'] (alternatives.map (·.flatMap Part.pattern)) ++
        ')' :: extra⟩, ⟨g, outer, names, captures⟩⟩
      ⟨⟨{}, around, ')' :: extra⟩, ⟨branched g alternatives, outer, names, captures⟩⟩ := by
  fun_induction branched g alternatives with
  | case1 => contradiction
  | case2 g parts =>
    have hs :=
      @steps_parts around (')' :: extra) ⟨g, outer, names, captures⟩ _ (by simp [Ends]) parts
    simpa [add, hg] using hs
  | case3 g parts rest hne ih =>
    have hrest : rest ≠ [] := by simpa using hne
    have hsplit : List.intercalate ['|'] ((parts :: rest).map (·.flatMap Part.pattern)) ++
        ')' :: extra = parts.flatMap Part.pattern ++ '|' ::
          (List.intercalate ['|'] (rest.map (·.flatMap Part.pattern)) ++ ')' :: extra) := by
      obtain ⟨parts', rest', rfl⟩ := List.exists_cons_of_ne_nil hrest
      simp [List.intercalate_cons_cons]
    have hbar : Reading.Step ⟨⟨{}, around, '|' ::
          (List.intercalate ['|'] (rest.map (·.flatMap Part.pattern)) ++ ')' :: extra)⟩,
        add ⟨g, outer, names, captures⟩ (parts.flatMap partExprs)⟩
        ⟨⟨{}, around, List.intercalate ['|'] (rest.map (·.flatMap Part.pattern)) ++ ')' :: extra⟩,
          ⟨{ g with branches := catAll (parts.flatMap partExprs) :: g.branches, pieces := [] },
            outer, names, captures⟩⟩ := by
      have hp : (add ⟨g, outer, names, captures⟩ (parts.flatMap partExprs)).push .bar =
          .ok ⟨{ g with branches := catAll (parts.flatMap partExprs) :: g.branches, pieces := [] },
            outer, names, captures⟩ := by
        simp [Draft.push, OpenGroup.split, OpenGroup.branch, add, hg, List.filterMap_map]
      exact .mk rfl .bar hp
    rw [hsplit]
    exact .trans (steps_parts (by simp [Ends]) parts) (.head hbar (ih hrest rfl))

theorem steps_choice {alternatives : List (List Part)} (h : alternatives ≠ []) :
    Steps ⟨⟨{}, around, choicePattern alternatives ++ extra⟩, d⟩
      ⟨⟨{}, around, extra⟩, add d [choiceExpr alternatives]⟩ := by
  have hp : choicePattern alternatives ++ extra = '(' :: '?' :: ':' ::
      (List.intercalate ['|'] (alternatives.map (·.flatMap Part.pattern)) ++ ')' :: extra) := by
    simp [choicePattern]
  have hc : (branched {} alternatives).close = choiceExpr alternatives := by
    unfold OpenGroup.close
    rw [branched_branches h, branched_index]
    rfl
  rw [hp]
  refine .head step_open (.tail (steps_branches h rfl) ?_)
  rw [← add_push, ← hc]
  exact step_close rfl

/-- The expressions of nodes in the pattern of an expression, where the next group has the number
`next`, and the slots of its parameters, where the next one is taken to be `group`. -/
inductive Forms (registry : Registry) :
    (next group : Nat) → List Node → List Regex → List Slot → Prop
  | nil {next group : Nat} : Forms registry next group [] [] []
  | part {next group : Nat} {p : Part} {nodes : List Node} {rs : List Regex} {slots : List Slot} :
      Forms registry next group nodes rs slots →
      Forms registry next group (.part p :: nodes) (partExprs p ++ rs) slots
  | choice {next group : Nat} {alternatives : List (List Part)} {nodes : List Node}
      {rs : List Regex} {slots : List Slot} : alternatives ≠ [] →
      Forms registry next group nodes rs slots →
      Forms registry next group (.choice alternatives :: nodes)
        (choiceExpr alternatives :: rs) slots
  | parameter {next group start : Nat} {name : String} {type : ParameterType} {r : Regex}
      {d : Draft} {nodes : List Node} {rs : List Regex} {slots : List Slot} :
      registry.get? name = some type → type.regex = .ok r →
      Drafts type.regexSource.toList d → d.finish = .ok r →
      Forms registry (next + 1 + d.captures) (group + 1 + r.groupCount) nodes rs slots →
      Forms registry next group (.parameter name start :: nodes) (.group next (shift next r) :: rs)
        (⟨type, group⟩ :: slots)

/-- No pattern of a type turns the verbose flag on. -/
def Terse (registry : Registry) : Prop :=
  ∀ type ∈ registry.types, isTerse type.regexSource.toList = true

def Nameless (registry : Registry) : Prop :=
  ∀ type ∈ registry.types, ∀ d, Drafts type.regexSource.toList d → d.names = []

section
variable {registry : Registry} {group : Nat} {nodes : List Node} {s : Source}

/-- Nodes have a pattern if their parameters have types. -/
theorem sourceFrom_ok (group : Nat)
    (h : ∀ name ∈ nodes.filterMap nodeName?, ∃ type r, registry.get? name = some type ∧
      type.regex = .ok r) : ∃ s, sourceFrom registry group nodes = .ok s := by
  induction nodes generalizing group with
  | nil => exact ⟨_, rfl⟩
  | cons node nodes ih =>
    cases node with
    | part p =>
      obtain ⟨s, hs⟩ := ih group h
      exact ⟨_, by rw [sourceFrom, hs, ok_bind]; rfl⟩
    | choice alternatives =>
      obtain ⟨s, hs⟩ := ih group h
      exact ⟨_, by rw [sourceFrom, hs, ok_bind]; rfl⟩
    | parameter name start =>
      obtain ⟨⟨type, r, ht, hr⟩, hrest⟩ := List.forall_mem_cons.mp h
      obtain ⟨s, hs⟩ := ih (group + 1 + r.groupCount) hrest
      exact ⟨_, by rw [sourceFrom, ht]; simp only [hr, hs, ok_bind]; rfl⟩

theorem ends_nodes (he : Ends extra) (h : sourceFrom registry group nodes = .ok s) :
    Ends (s.pattern ++ extra) := by
  fun_induction sourceFrom registry group nodes generalizing s with
  | case1 =>
    cases h
    exact he
  | case2 group p rest ih =>
    simp only [bind_eq_ok, pure_eq_ok] at h
    obtain ⟨s', hs, rfl⟩ := h
    rw [List.append_assoc]
    exact ends_part (ih hs) p
  | case3 group alternatives rest ih =>
    simp only [bind_eq_ok, pure_eq_ok] at h
    obtain ⟨s', hs, rfl⟩ := h
    simp [Ends, choicePattern]
  | case4 => contradiction
  | case5 => contradiction
  | case6 group name start rest type ht regex hr ih =>
    simp only [bind_eq_ok, pure_eq_ok] at h
    obtain ⟨s', hs, rfl⟩ := h
    simp [Ends]

theorem steps_nodes (ht : Terse registry) (hp : Proper nodes)
    (h : sourceFrom registry group nodes = .ok s) (he : Ends extra)
    (hn : d.names = [] ∧ Nameless registry ∨
      ∃ e, Finishes ⟨⟨{}, around, s.pattern ++ extra⟩, d⟩ e) :
    ∃ rs d', Forms registry (d.captures + 1) group nodes rs s.slots ∧
      Steps ⟨⟨{}, around, s.pattern ++ extra⟩, d⟩ ⟨⟨{}, around, extra⟩, d'⟩ ∧
      d'.group = (add d rs).group ∧ d'.outer = d.outer := by
  fun_induction sourceFrom registry group nodes generalizing s d with
  | case1 =>
    cases h
    exact ⟨[], d, .nil, .refl, rfl, rfl⟩
  | case2 group p rest ih =>
    simp only [bind_eq_ok, pure_eq_ok] at h
    obtain ⟨s', hs, rfl⟩ := h
    have hp : Proper rest := fun alts hm => hp alts (List.mem_cons_of_mem _ hm)
    have hpart := @steps_part around (s'.pattern ++ extra) d _ (ends_nodes he hs) p
    rw [List.append_assoc] at hn ⊢
    obtain ⟨rs, d', hforms, hsteps, hg, ho⟩ := @ih (add d (partExprs p)) s' hp hs
      (hn.imp_right (Exists.imp fun e hf => hf.steps hpart))
    rw [add_add] at hg
    exact ⟨_, d', .part hforms, hpart.trans hsteps, hg, ho⟩
  | case3 group alternatives rest ih =>
    simp only [bind_eq_ok, pure_eq_ok] at h
    obtain ⟨s', hs, rfl⟩ := h
    have hne := hp alternatives List.mem_cons_self
    have hp : Proper rest := fun alts hm => hp alts (List.mem_cons_of_mem _ hm)
    have hchoice := @steps_choice around (s'.pattern ++ extra) d _ alternatives hne
    rw [List.append_assoc] at hn ⊢
    obtain ⟨rs, d', hforms, hsteps, hg, ho⟩ := @ih (add d [choiceExpr alternatives]) s' hp hs
      (hn.imp_right (Exists.imp fun e hf => hf.steps hchoice))
    rw [add_add] at hg
    exact ⟨_, d', .choice hne hforms, hchoice.trans hsteps, hg, ho⟩
  | case4 => contradiction
  | case5 => contradiction
  | case6 group name start rest type htype regex hr ih =>
    simp only [bind_eq_ok, pure_eq_ok] at h
    obtain ⟨s', hs, rfl⟩ := h
    have hp : Proper rest := fun alts hm => hp alts (List.mem_cons_of_mem _ hm)
    have hmem := mem_of_get? htype
    obtain ⟨dt, hdt, hft⟩ := drafts_of_parse (ht type hmem) (compile_eq_ok.mp hr).1
    have hsplit : ('(' :: type.regexSource.toList ++ ')' :: s'.pattern) ++ extra =
        '(' :: (type.regexSource.toList ++ ')' :: (s'.pattern ++ extra)) := by simp
    rw [hsplit] at hn ⊢
    have hgroup := @steps_group regex dt _ type.regexSource.toList (s'.pattern ++ extra) d around
      hdt hft (hn.imp_left And.left)
    obtain ⟨rs, d', hforms, hsteps, hg, ho⟩ := @ih (grouped d dt regex) s' hp hs
      (hn.imp (fun h => ⟨by simp [grouped, h.1, h.2 type hmem dt hdt], h.2⟩)
        (Exists.imp fun e hf => hf.steps hgroup))
    have hnext : (grouped d dt regex).captures + 1 = d.captures + 1 + 1 + dt.captures := by
      simp only [grouped]
      omega
    rw [hnext] at hforms
    refine ⟨_, d', .parameter htype hr hdt hft hforms, hgroup.trans hsteps, ?_, ho⟩
    rw [hg]
    simp [add, grouped, OpenGroup.push]

end

theorem steps_whole {registry : Registry} {nodes : List Node} {s : Source}
    (ht : Terse registry) (hp : Proper nodes) (h : sourceFrom registry 1 nodes = .ok s)
    (hn : Nameless registry ∨ ∃ e, Finishes ⟨{ rest := '^' :: s.pattern ++ ['$'] }, {}⟩ e) :
    ∃ rs d, Forms registry 1 1 nodes rs s.slots ∧ d.finish = .ok (wholeText rs) ∧
      Steps ⟨{ rest := '^' :: s.pattern ++ ['$'] }, {}⟩ ⟨{ rest := [] }, d⟩ := by
  have hstart : Reading.Step ⟨{ rest := '^' :: s.pattern ++ ['$'] }, {}⟩
      ⟨⟨{}, [], s.pattern ++ ['$']⟩, add {} [.look .textStart]⟩ :=
    .mk rfl (.char rfl rfl rfl) rfl
  have hends : Ends ['$'] := by simp [Ends]
  obtain ⟨rs, d, hforms, hsteps, hg, ho⟩ := steps_nodes (d := add {} [.look .textStart])
    ht hp h hends (hn.imp (fun hless => ⟨rfl, hless⟩) (Exists.imp fun e hf => hf.step hstart))
  have hstop : Reading.Step ⟨⟨{}, [], ['$']⟩, d⟩ ⟨{ rest := [] }, add d [.look .textEnd]⟩ :=
    .mk rfl (.char rfl rfl rfl) rfl
  refine ⟨rs, add d [.look .textEnd], hforms, ?_, .head hstart (hsteps.tail hstop)⟩
  have ho' : (add d [.look .textEnd]).outer = [] := ho
  have hg' : (add d [.look .textEnd]).group =
      { pieces := (([look .textStart] ++ rs ++ [look .textEnd]).map some).reverse } := by
    simp [add, hg]
  simp [Draft.finish, ho', hg', OpenGroup.close, OpenGroup.branch, altAll, wholeText,
    List.filterMap_map]

/-- What an expression has been compiled to. -/
theorem compile_forms {registry : Registry} {source : String} {e : Expression}
    (ht : Terse registry) (h : Expression.compile registry source = .ok e) :
    ∃ nodes rs, Expression.nodes source.toList = .ok nodes ∧
      Forms registry 1 1 nodes rs e.slots ∧ e.regex = wholeText rs := by
  simp only [Expression.compile, Source.ofText, bind_eq_ok, pure_eq_ok] at h
  obtain ⟨_, ⟨nodes, hnodes, s, hs, rfl⟩, h⟩ := h
  split at h
  · rename_i regex hr
    cases h
    obtain ⟨d, hf, hfin⟩ := finishes_of_parse (compile_eq_ok.mp hr).1
    obtain ⟨rs, d', hforms, hfin', hsteps⟩ := steps_whole ht (proper_nodes hnodes) hs (.inr ⟨d, hf⟩)
    have hd : d = d' := (hf.steps hsteps).eq rfl
    subst hd
    rw [hfin] at hfin'
    exact ⟨nodes, rs, hnodes, hforms, Except.ok.inj hfin'⟩
  · contradiction

/-- Without names of groups that could clash the pattern of an expression can always be read. -/
theorem parse_nameless {registry : Registry} {nodes : List Node} {s : Source}
    (ht : Terse registry) (hless : Nameless registry) (hp : Proper nodes)
    (hs : sourceFrom registry 1 nodes = .ok s) :
    ∃ r, parse ('^' :: s.pattern ++ ['$']) = .ok r := by
  obtain ⟨rs, d, -, hfin, hsteps⟩ := steps_whole ht hp hs (.inl hless)
  exact ⟨wholeText rs, parse_of_steps hsteps rfl hfin⟩

/-- An expression whose pattern can be read compiles if the engine admits the pattern. -/
theorem compile_of_parse {registry : Registry} {text : String} {s : Source} {r : Regex}
    (hs : Source.ofText registry text = .ok s) (hr : parse s.pattern = .ok r) :
    Expression.compile registry text =
      if Engine.admits s.pattern then .ok ⟨text, r, s.slots⟩
      else .error (.regex .beyondLimits) := by
  rw [Expression.compile, hs, ok_bind, Regex.compile, hr, ok_bind]
  cases Engine.admits s.pattern <;> rfl

end Brine.Proofs.ExpressionPatterns
