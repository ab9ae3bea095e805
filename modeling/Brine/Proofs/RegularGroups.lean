import Brine.Pattern.Regular
import Brine.Proofs.PatternGroups
import Mathlib.Data.List.Forall2

namespace Brine.Proofs.RegularGroups
open Regex Success PatternTokens PatternRuns PatternNumbers PatternGroups

variable {d d' d₁ d₂ d₃ : Draft} {gs gs' : List Written} {drop later : Bool}

/-- A group of an expression is the one that is written there: it has its number, and in it is what
its tokens make. -/
def Makes (w : Written) (x : Nat × Regex) : Prop :=
  ∃ d d' : Draft, d.captures = w.index ∧ d.group = { index := some w.index } ∧
    w.inner.foldlM Draft.push d = .ok d' ∧ d'.outer = d.outer ∧ x = (w.index, body d'.group)

/-- These are the groups that are written and kept. -/
structure Keeps (gs : List Written) (xs : List (Nat × Regex)) : Prop where
  only : ∀ x ∈ xs, ∃ w ∈ gs, w.kept = true ∧ Makes w x
  all : ∀ w ∈ gs, w.kept = true → ∃ x ∈ xs, Makes w x

/-- A draft after tokens: the open groups are the same, and the innermost one has got groups; its
last piece may have been dropped. -/
structure Gains (drop : Bool) (gs : List Written) (d d' : Draft) : Prop where
  outer : d'.outer = d.outer
  index : d'.group.index = d.group.index
  only : ∀ x, Holds false d'.group x →
    Holds false (shed drop d.group) x ∨ ∃ w ∈ gs, w.kept = true ∧ Makes w x
  before : ∀ x, Holds false (shed drop d.group) x → Holds false d'.group x
  all : ∀ w ∈ gs, w.kept = true → ∃ x, Holds false d'.group x ∧ Makes w x

theorem Gains.refl : Gains false [] d d :=
  ⟨rfl, rfl, fun _ h => .inl h, fun _ h => h, by simp⟩

theorem Gains.keeps (h : Gains drop gs d d') (hd : d.group.pieces = [] ∧ d.group.branches = []) :
    Keeps gs (collect false (body d'.group)) := by
  have hnone (x) : ¬Holds false (shed drop d.group) x := by
    cases drop <;> simp [shed, Holds, hd]
  constructor
  · intro x hx
    exact (h.only x (mem_collect_body.mp hx)).resolve_left (hnone x)
  · intro w hw hk
    obtain ⟨x, hx, hm⟩ := h.all w hw hk
    exact ⟨x, mem_collect_body.mpr hx, hm⟩

/-- A token that is no parenthesis brings no group. -/
theorem Gains.plain {t : Token} (ht : isParenthesis t = false)
    (hr : ∀ r, t = .atom r → r.indices = []) (h : d.push t = .ok d₁) (h' : Gains later gs d₁ d') :
    Gains (drops t later) gs d d' := by
  obtain ⟨houter, hindex⟩ : d₁.outer = d.outer ∧ d₁.group.index = d.group.index := by
    have hg := PatternEmbedding.push_groups h
    cases t with
    | openPlain | openCapture | close => contradiction
    | _ => exact hg
  have hholds (x) : Holds false (shed later d₁.group) x ↔
      Holds false (shed (drops t later) d.group) x := push_holds ht hr h
  refine ⟨h'.outer.trans houter, h'.index.trans hindex, fun x hx => ?_, fun x hx => ?_, h'.all⟩
  · rw [← hholds x]
    exact h'.only x hx
  · exact h'.before x ((hholds x).mpr hx)

/-- A piece brings its groups, unless it is dropped later. -/
theorem Gains.piece {r : Regex} (ho : d₁.outer = d.outer) (hg : d₁.group = d.group.push r)
    (hk : Keeps gs (collect false r)) (h : Gains later gs' d₁ d') :
    Gains false (gs.map (Written.within later) ++ gs') d d' := by
  have hholds (x) : Holds false (shed later d₁.group) x ↔
      Holds false d.group x ∨ later = false ∧ x ∈ collect false r := by
    rw [hg]
    exact holds_shed_push
  refine ⟨h.outer.trans ho, ?_, fun x hx => ?_, fun x hx => ?_, fun w hw hkept => ?_⟩
  · rw [h.index, hg]
    rfl
  · rcases h.only x hx with hx | ⟨w, hw, hm⟩
    · rcases (hholds x).mp hx with hx | ⟨rfl, hr⟩
      · exact .inl hx
      · obtain ⟨w, hw, hkept, hm⟩ := hk.only x hr
        refine .inr ⟨w.within false, List.mem_append_left _ (List.mem_map_of_mem hw), ?_, hm⟩
        simp [Written.within, hkept]
    · exact .inr ⟨w, List.mem_append_right _ hw, hm⟩
  · exact h.before x ((hholds x).mpr (.inl hx))
  · rcases List.mem_append.mp hw with hw | hw
    · obtain ⟨w, hmem, rfl⟩ := List.mem_map.mp hw
      simp only [Written.within, Bool.and_eq_true, Bool.not_eq_true'] at hkept
      obtain ⟨x, hx, hm⟩ := hk.all w hmem hkept.1
      exact ⟨x, h.before x ((hholds x).mpr (.inr ⟨hkept.2, hx⟩)), hm⟩
    · exact h.all w hw hkept

theorem push_close (h : d.push .close = .ok d') {g : OpenGroup} {outer : List OpenGroup}
    (ho : d.outer = g :: outer) : d'.outer = outer ∧ d'.group = g.push d.group.close := by
  cases push_iff.mp h with
  | close ho' =>
    cases ho.symm.trans ho'
    exact ⟨rfl, rfl⟩

/-- A group that does not capture hands its groups on. -/
theorem Gains.uncaptured (ho : d.push .openPlain = .ok d₁) (h : Gains drop gs d₁ d₂)
    (hc : d₂.push .close = .ok d₃) (h' : Gains later gs' d₃ d') :
    Gains false (gs.map (Written.within later) ++ gs') d d' := by
  cases ho
  obtain ⟨houter, hgroup⟩ := push_close hc h.outer
  rw [close_none h.index] at hgroup
  exact .piece houter hgroup (h.keeps ⟨rfl, rfl⟩) h'

/-- A group that captures hides its groups, and is one itself. -/
theorem Gains.captured {name : Option String} {source : List Char} {ts : List Token}
    (ho : d.push (.openCapture name) = .ok d₁) (hd : ts.foldlM Draft.push d₁ = .ok d₂)
    (h : Gains drop gs d₁ d₂) (hc : d₂.push .close = .ok d₃) (h' : Gains later gs' d₃ d') :
    Gains false (⟨d.captures + 1, source, ts, !later⟩ :: gs') d d' := by
  cases push_iff.mp ho
  obtain ⟨houter, hgroup⟩ := push_close hc h.outer
  rw [close_some h.index] at hgroup
  have hmakes : Makes ⟨d.captures + 1, source, ts, true⟩ (d.captures + 1, body d₂.group) :=
    ⟨_, d₂, rfl, rfl, hd, h.outer, rfl⟩
  have hkeeps : Keeps [⟨d.captures + 1, source, ts, true⟩]
      (collect false (.group (d.captures + 1) (body d₂.group))) := by
    constructor <;> simpa [collect] using hmakes
  exact .piece houter hgroup hkeeps h'

theorem foldlM_around {t u : Token} {ts ts' : List Token}
    (h : (t :: (ts ++ u :: ts')).foldlM Draft.push d = .ok d') :
    ∃ d₁ d₂ d₃, d.push t = .ok d₁ ∧ ts.foldlM Draft.push d₁ = .ok d₂ ∧ d₂.push u = .ok d₃ ∧
      ts'.foldlM Draft.push d₃ = .ok d' := by
  simp only [List.foldlM_cons, List.foldlM_append, bind_eq_ok] at h
  obtain ⟨d₁, h₁, d₂, h₂, d₃, h₃, h⟩ := h
  exact ⟨d₁, d₂, d₃, h₁, h₂, h₃, h⟩

/-- What well-nested tokens add to a draft are the groups that are written in them. -/
theorem groups_gains {n n' : Nat} {ts : List Located} (h : Groups n ts gs n')
    (hr : ∀ t ∈ ts, ∀ r, t.token = .atom r → r.indices = []) (hn : d.captures = n)
    (hd : (ts.map Located.token).foldlM Draft.push d = .ok d') :
    d'.captures = n' ∧ Gains (dropped ts) gs d d' := by
  induction h generalizing d d' with
  | nil =>
    cases hd
    exact ⟨hn, .refl⟩
  | @plain n n' t ts gs hk _ ih =>
    obtain ⟨hr₀, hr⟩ := List.forall_mem_cons.mp hr
    rw [List.map_cons, List.foldlM_cons, bind_eq_ok] at hd
    obtain ⟨d₁, hd₁, hd⟩ := hd
    have hcaptures : d₁.captures = d.captures := by
      have hc := push_captures hd₁
      cases ht : t.token <;> simp_all [isCapture, isParenthesis]
    obtain ⟨hc, hgains⟩ := ih hr (hcaptures.trans hn) hd
    exact ⟨hc, .plain hk hr₀ hd₁ hgains⟩
  | @uncaptured n n₁ n' text inner after ts ts' gs gs' _ _ ih₁ ih₂ =>
    simp only [List.forall_mem_cons, List.forall_mem_append] at hr
    obtain ⟨-, hr₁, -, hr₂⟩ := hr
    rw [List.map_cons, List.map_append, List.map_cons] at hd
    obtain ⟨d₁, d₂, d₃, hopen, hd₁, hclose, hd⟩ := foldlM_around hd
    have hc₁ : d₁.captures = d.captures := push_captures hopen
    have hc₃ : d₃.captures = d₂.captures := push_captures hclose
    obtain ⟨hc₂, hin⟩ := ih₁ hr₁ (hc₁.trans hn) hd₁
    obtain ⟨hc, hafter⟩ := ih₂ hr₂ (hc₃.trans hc₂) hd
    exact ⟨hc, .uncaptured hopen hin hclose hafter⟩
  | @captured n n₁ n' name text source after ts ts' gs gs' _ _ ih₁ ih₂ =>
    simp only [List.forall_mem_cons, List.forall_mem_append] at hr
    obtain ⟨-, hr₁, -, hr₂⟩ := hr
    rw [List.map_cons, List.map_append, List.map_cons] at hd
    obtain ⟨d₁, d₂, d₃, hopen, hd₁, hclose, hd⟩ := foldlM_around hd
    subst hn
    have hc₁ : d₁.captures = d.captures + 1 := push_captures hopen
    have hc₃ : d₃.captures = d₂.captures := push_captures hclose
    obtain ⟨hc₂, hin⟩ := ih₁ hr₁ hc₁ hd₁
    obtain ⟨hc, hafter⟩ := ih₂ hr₂ (hc₃.trans hc₂) hd
    exact ⟨hc, .captured hopen hd₁ hin hclose hafter⟩

/-- A type has this pattern, as one of its own or as all of them joined. -/
def Fits (type : ParameterType) (source : String) : Prop :=
  source ∈ type.regexps ∨ type.regexSource = source

/-- The type of a group with this source: the first one that has it as a pattern and is preferred,
or else the first one that has it. -/
inductive Binds (types : List ParameterType) (source : String) : Option ParameterType → Prop
  | preferred {before after : List ParameterType} {type : ParameterType} :
      types = before ++ type :: after → Fits type source → type.preferred = true →
      (∀ other ∈ before, Fits other source → other.preferred = false) →
      Binds types source (some type)
  | first {before after : List ParameterType} {type : ParameterType} :
      types = before ++ type :: after → Fits type source →
      (∀ other ∈ before, ¬Fits other source) →
      (∀ other ∈ types, Fits other source → other.preferred = false) →
      Binds types source (some type)
  | none : (∀ other ∈ types, ¬Fits other source) → Binds types source none

theorem hasRegexp_iff {type : ParameterType} {source : String} :
    type.hasRegexp source = true ↔ Fits type source := by
  simp [ParameterType.hasRegexp, Fits]

theorem lookupByRegexp_binds (registry : Registry) (source : String) :
    Binds registry.types source (registry.lookupByRegexp source) := by
  simp only [Registry.lookupByRegexp, List.head?_filter, List.find?_filter]
  cases hp : registry.types.find? fun type =>
    decide (type.hasRegexp source = true ∧ type.preferred = true) with
  | some type =>
    obtain ⟨hfits, before, after, he, hbefore⟩ := List.find?_eq_some_iff_append.mp hp
    rw [decide_eq_true_eq, hasRegexp_iff] at hfits
    refine .preferred he hfits.1 hfits.2 fun other ho hfit => ?_
    simpa [hasRegexp_iff.mpr hfit] using hbefore other ho
  | none =>
    have hnone : ∀ other ∈ registry.types, Fits other source → other.preferred = false := by
      intro other ho hfit
      simpa [hasRegexp_iff.mpr hfit] using List.find?_eq_none.mp hp other ho
    cases hf : registry.types.find? fun type => type.hasRegexp source with
    | some type =>
      obtain ⟨hfits, before, after, he, hbefore⟩ := List.find?_eq_some_iff_append.mp hf
      refine .first he (hasRegexp_iff.mp hfits) (fun other ho hfit => ?_) hnone
      simpa [hasRegexp_iff.mpr hfit] using hbefore other ho
    | none =>
      refine .none fun other ho hfit => ?_
      exact List.find?_eq_none.mp hf other ho (hasRegexp_iff.mpr hfit)

/-- The written groups have the numbers after those of the groups before, in ascending order. -/
theorem groups_ascend {n n' : Nat} {ts : List Located} (h : Groups n ts gs n') :
    n ≤ n' ∧ (∀ i ∈ gs.map Written.index, n < i ∧ i ≤ n') ∧
      (gs.map Written.index).Pairwise (· < ·) := by
  induction h with
  | nil => simp
  | plain _ _ ih => exact ih
  | @uncaptured n n₁ n' text inner after ts ts' gs gs' _ _ ih₁ ih₂ =>
    obtain ⟨hn₁, hin₁, hlt₁⟩ := ih₁
    obtain ⟨hn₂, hin₂, hlt₂⟩ := ih₂
    have hsame : (gs.map (Written.within (dropped ts'))).map Written.index =
        gs.map Written.index := by
      rw [List.map_map]
      rfl
    rw [List.map_append, hsame, List.forall_mem_append, List.pairwise_append]
    refine ⟨by omega, ⟨fun i hi => ?_, fun i hi => ?_⟩, hlt₁, hlt₂, fun i hi j hj => ?_⟩
    · have := hin₁ i hi
      omega
    · have := hin₂ i hi
      omega
    · have := hin₁ i hi
      have := hin₂ j hj
      omega
  | @captured n n₁ n' name text source after ts ts' gs gs' _ _ ih₁ ih₂ =>
    obtain ⟨hn₁, -, -⟩ := ih₁
    obtain ⟨hn₂, hin₂, hlt₂⟩ := ih₂
    simp only [List.map_cons, List.forall_mem_cons, List.pairwise_cons]
    refine ⟨by omega, ⟨by omega, fun i hi => ?_⟩, fun i hi => ?_, hlt₂⟩
    · have := hin₂ i hi
      omega
    · have := hin₂ i hi
      omega

section
variable [Engine]

theorem reads_leaf {s : Scanner} {ts : List Located} (h : Reads s ts) :
    ∀ t ∈ ts, ∀ r, t.token = .atom r → r.indices = [] := by
  induction h with
  | nil => simp
  | cons hs _ ih =>
    obtain ⟨c, cs, f', -, ht⟩ := next_taken hs
    refine List.forall_mem_cons.mpr ⟨?_, ih⟩
    rintro r rfl
    exact PatternEmbedding.taken_leaf ht

theorem lexes_leaf {s : Scanner} {ts : List Located} (h : Lexes s ts) :
    ∀ t ∈ ts, ∀ r, t.token = .atom r → r.indices = [] :=
  reads_leaf h.reads

theorem compile_ok (registry : Registry) {source : String} {r : Regex}
    (h : Regex.compile source.toList = .ok r) : RegularPattern.compile registry source = .ok
      { source, regex := r,
        groups := ((Pattern.groups source.toList).filter (·.depth = 0)).map fun g =>
          (g.index, registry.lookupByRegexp g.source) } := by
  rw [RegularPattern.compile, h]
  rfl

/-- The arguments of a regular expression are its outermost groups as they are written, in the order
of their numbers, and the type of each one goes by its source. The expression has those of them that
are kept, and no others. -/
theorem compile_groups {registry : Registry} {source : String} {r : Regex}
    (h : Regex.compile source.toList = .ok r) (ht : isTerse source.toList = true)
    (hf : meets isFairAt source.toList = true) :
    ∃ p ts gs n, RegularPattern.compile registry source = .ok p ∧ p.regex = r ∧
      Lexes { rest := source.toList } ts ∧ Groups 0 ts gs n ∧
      (gs.map Written.index).Pairwise (· < ·) ∧
      List.Forall₂ (fun group w => group.1 = w.index ∧
        Binds registry.types (String.ofList w.source) group.2) p.groups gs ∧
      Keeps gs (collect false r) := by
  have hp := compile_ok registry h
  have h := (compile_eq_ok.mp h).1
  simp only [parse, tokens, bind_eq_ok] at h
  obtain ⟨tokens, hs, d, hd, hfinish⟩ := h
  have hterse : meetsFor (!·.flags.verbose) (source.toList.length + 1)
      { rest := source.toList } = true := ht
  obtain ⟨ts, hl, rfl⟩ := scan_lexes (Nat.lt_succ_self _) hterse hs
  obtain ⟨houter, rfl⟩ := finish_ok hfinish
  obtain ⟨gs, n, hg⟩ := groups_of_lexes hl hd houter
  obtain ⟨-, hgains⟩ := groups_gains hg (lexes_leaf hl) rfl hd
  have hkeeps := hgains.keeps ⟨rfl, rfl⟩
  rw [← close_none hgains.index] at hkeeps
  refine ⟨_, ts, gs, n, hp, rfl, hl, hg, (groups_ascend hg).2.2, ?_, hkeeps⟩
  rw [groups_outermost hl hg hf, List.map_map, List.forall₂_map_left_iff]
  refine List.forall₂_same.mpr fun w _ => ⟨rfl, ?_⟩
  exact lookupByRegexp_binds registry _

end

def payment : String :=
  "(?P<who>[^](]+) pays? (-?\\d+)(?: to (\\w+|\\((x)\\)))?"

theorem compile_groups_sample :
    ∃ r p ts gs n, Regex.compile payment.toList = .ok r ∧
      RegularPattern.compile {} payment = .ok p ∧ p.regex = r ∧
      Lexes { rest := payment.toList } ts ∧ Groups 0 ts gs n ∧
      (gs.map Written.index).Pairwise (· < ·) ∧
      List.Forall₂ (fun group w => group.1 = w.index ∧
        Binds ParameterType.builtins (String.ofList w.source) group.2) p.groups gs ∧
      Keeps gs (collect false r) := by
  have hsome : (Regex.compile payment.toList).toOption.isSome = true := by decide +kernel
  cases hr : Regex.compile payment.toList with
  | error e =>
    rw [hr] at hsome
    contradiction
  | ok r =>
    obtain ⟨p, ts, gs, n, h⟩ :=
      @compile_groups _ {} payment r hr (by decide +kernel) (by decide +kernel)
    exact ⟨r, p, ts, gs, n, rfl, h⟩

/-- A group that is repeated for zero times is an argument, but the expression does not have it. -/
theorem compile_dropped_group :
    isTerse "(a)\x7b0\x7db".toList = true ∧ meets isFairAt "(a)\x7b0\x7db".toList = true ∧
      (RegularPattern.compile {} "(a)\x7b0\x7db").toOption.map (fun p =>
        (p.groups.map Prod.fst, (collect false p.regex).map Prod.fst)) = some ([1], []) := by
  decide +kernel

end Brine.Proofs.RegularGroups
