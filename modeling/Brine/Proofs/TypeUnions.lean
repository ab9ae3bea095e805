import Brine.Proofs.ExpressionMeaning
import Brine.Proofs.UsableTypes

namespace Brine.Proofs.TypeUnions
open Regex RegexMeaning Success PatternRuns PatternEmbedding PatternWalks PatternNesting
open RegexMatching UsableTypes ExpressionPatterns ExpressionMeaning Registries RegistryRuns

variable {r : Regex} {rs : List Regex} {g : OpenGroup} {d d' D D' : Draft} {ts : List Token}
variable {tss : List (List Token)} {p : List Char} {ps : List (List Char)} {b m a : List Char}

theorem matches_altAll (h : rs ≠ []) :
    Matches (altAll rs) b m a ↔ ∃ r ∈ rs, Matches r b m a := by
  constructor
  · rintro ⟨ms, hs⟩
    obtain ⟨r, hr, hs⟩ := (spans_altAll h).mp hs
    exact ⟨r, hr, ms, hs⟩
  · rintro ⟨r, hr, ms, hs⟩
    exact ⟨ms, (spans_altAll h).mpr ⟨r, hr, hs⟩⟩

theorem matches_group {i : Nat} : Matches (.group i r) b m a ↔ Matches r b m a := by
  constructor
  · rintro ⟨_, h⟩
    cases h with
    | group h => exact ⟨_, h⟩
  · rintro ⟨_, h⟩
    exact ⟨_, .group h⟩

def Offers (g : OpenGroup) (b m a : List Char) : Prop :=
  ∃ r ∈ g.branch :: g.branches, Matches r b m a

theorem offers_iff : Offers g b m a ↔
    Matches g.branch b m a ∨ ∃ r ∈ g.branches, Matches r b m a := by
  simp [Offers]

theorem matches_close : Matches g.close b m a ↔ Offers g b m a := by
  have hbody : Matches (altAll (g.branch :: g.branches).reverse) b m a ↔ Offers g b m a := by
    rw [matches_altAll (by simp)]
    simp only [List.mem_reverse, Offers]
  unfold OpenGroup.close
  cases g.index with
  | none => exact hbody
  | some i => exact matches_group.trans hbody

/-- A pattern that has gone on in an open group to its end adds what it matches to what the branches
before it match. -/
theorem offers_resume (ho : d.outer = []) :
    Offers (resume D d).group b m a ↔
      (∃ r ∈ D.group.branches, Matches r b m a) ∨ Offers d.group b m a := by
  have hb : (resume D d).group.branch = shift D.captures d.group.branch := onto_branch
  have hbs : (resume D d).group.branches =
      d.group.branches.map (shift D.captures) ++ D.group.branches := by
    simp [resume, onto, lift, ho]
  have hsplit : (∃ r ∈ (resume D d).group.branches, Matches r b m a) ↔
      (∃ r ∈ d.group.branches, Matches r b m a) ∨ ∃ r ∈ D.group.branches, Matches r b m a := by
    simp [hbs, or_and_right, exists_or, matches_shift]
  rw [offers_iff, offers_iff, hb, matches_shift, hsplit, ← or_assoc, or_comm]

theorem foldlM_resume (hl : Leaves ts) (h : ts.foldlM Draft.push d = .ok d')
    (h' : ts.foldlM Draft.push (resume D d) = .ok D') : D' = resume D d' := by
  induction ts generalizing d with
  | nil =>
    cases h
    cases h'
    rfl
  | cons t ts ih =>
    rw [List.foldlM_cons, bind_eq_ok] at h h'
    obtain ⟨d₁, hd₁, h⟩ := h
    obtain ⟨D₁, hD₁, h'⟩ := h'
    have hport : Portable D.names t :=
      portable_of_push (fun r ht => hl r (ht ▸ List.mem_cons_self))
        (List.subset_append_right _ _) hD₁
    obtain rfl : D₁ = resume D d₁ := Except.ok.inj (hD₁.symm.trans (push_resume hport hd₁))
    exact ih (fun r hm => hl r (List.mem_cons_of_mem _ hm)) h h'

theorem resume_start (h : D.group.pieces = []) : resume D {} = D := by
  obtain ⟨⟨index, branches, pieces⟩, outer, names, captures⟩ := D
  obtain rfl : pieces = [] := h
  simp [resume, onto, ontoAll, lift]

section
variable [Engine]

def Accepts (p b m a : List Char) : Prop :=
  ∃ r, Regex.compile p = .ok r ∧ Matches r b m a

structure Spelled (p : List Char) (ts : List Token) : Prop where
  balanced : ∃ g, Balanced { rest := p } false ts g
  compiles : ∃ r, Regex.compile p = .ok r

theorem exists_spelled (h : ∀ p ∈ ps, ∃ r, Regex.compile p = .ok r) :
    ∃ tss, List.Forall₂ Spelled ps tss := by
  induction ps with
  | nil => exact ⟨[], .nil⟩
  | cons p ps ih =>
    obtain ⟨hp, h⟩ := List.forall_mem_cons.mp h
    obtain ⟨ts, g, hb, -⟩ := balanced_of_parse (compile_eq_ok.mp hp.choose_spec).1
    obtain ⟨tss, htss⟩ := ih h
    exact ⟨ts :: tss, .cons ⟨⟨g, hb⟩, hp⟩ htss⟩

theorem parse_tokens (h : tokens p = .ok ts) :
    parse p = .ok r ↔ ∃ d, ts.foldlM Draft.push {} = .ok d ∧ d.finish = .ok r := by
  simp [parse, h]

theorem Spelled.draft (h : Spelled p ts) : ∃ d, ts.foldlM Draft.push {} = .ok d ∧ d.outer = [] ∧
    ∀ b m a, Offers d.group b m a ↔ Accepts p b m a := by
  obtain ⟨⟨g, hb⟩, r, hr⟩ := h
  obtain ⟨d, hd, hf⟩ := (parse_tokens hb.tokens).mp (compile_eq_ok.mp hr).1
  obtain ⟨ho, hclose⟩ := finish_ok hf
  refine ⟨d, hd, ho, fun b m a => ?_⟩
  rw [← matches_close, hclose]
  constructor
  · exact fun hm => ⟨r, hr, hm⟩
  · rintro ⟨r', hr', hm⟩
    obtain rfl : r = r' := Except.ok.inj (hr.symm.trans hr')
    exact hm

/-- The tokens of patterns, with bars between them, add to the branches of an open group what the
patterns match alone. -/
theorem foldlM_bars (h : List.Forall₂ Spelled ps tss) (hne : ps ≠ []) (hp : D.group.pieces = [])
    (hf : (List.intercalate [.bar] tss).foldlM Draft.push D = .ok D') :
    D'.outer = D.outer ∧ ∀ b m a, Offers D'.group b m a ↔
      (∃ r ∈ D.group.branches, Matches r b m a) ∨ ∃ p ∈ ps, Accepts p b m a := by
  induction h generalizing D with
  | nil => contradiction
  | @cons p ts ps tss hspelled hrest ih =>
    obtain ⟨d, hd, ho, hoffers⟩ := hspelled.draft
    obtain ⟨g, hb⟩ := hspelled.balanced
    -- The first pattern goes on where the group stands.
    have hfirst {D₁ : Draft} (hD₁ : ts.foldlM Draft.push D = .ok D₁) : D₁ = resume D d :=
      foldlM_resume hb.leaves hd (by rwa [resume_start hp])
    have houter : (resume D d).outer = D.outer := by simp [resume, ho, ontoAll]
    cases hrest with
    | nil =>
      rw [List.intercalate_singleton] at hf
      obtain rfl := hfirst hf
      refine ⟨houter, fun b m a => ?_⟩
      simp [offers_resume ho, hoffers]
    | cons _ _ =>
      rw [List.intercalate_cons_cons, List.foldlM_append, List.foldlM_append] at hf
      simp only [bind_eq_ok] at hf
      obtain ⟨_, ⟨D₁, hD₁, hbar⟩, hf⟩ := hf
      obtain rfl := hfirst hD₁
      cases hbar
      obtain ⟨houter', hoffers'⟩ := ih (by simp) rfl hf
      refine ⟨houter'.trans houter, fun b m a => ?_⟩
      have hsplit : (∃ r ∈ (resume D d).group.split.branches, Matches r b m a) ↔
          Offers (resume D d).group b m a := Iff.rfl
      rw [hoffers', hsplit, offers_resume ho, hoffers, or_assoc, List.exists_mem_cons_iff _ p]

/-- The whole pattern of a parameter whose type has several patterns, each but the last of which
keeps the flags. -/
theorem compile_bars (hne : ps ≠ []) (hall : ∀ p ∈ ps, ∃ r, Regex.compile p = .ok r)
    (hkeep : ∀ p ∈ ps.dropLast, keepsFlags p = true)
    (hhead : (List.intercalate ['|'] ps).head? ≠ some '?')
    (h : Regex.compile ('^' :: '(' :: (List.intercalate ['|'] ps ++ ')' :: ['$'])) = .ok r) :
    ∃ body, r = wholeText [body] ∧ ∀ b m a, Matches body b m a ↔ ∃ p ∈ ps, Accepts p b m a := by
  obtain ⟨tss, htss⟩ := exists_spelled hall
  obtain ⟨us, g, hb⟩ := balanced_parameter hhead h
  have hwalk := walk_bars (htss.imp fun _ _ h => h.balanced) hne hkeep (by simp) (by simp) hb
    {} [] ['$']
  have hgroup : Balanced _ true _ {} :=
    .cons (next_open hhead [] ['$']) trivial (hwalk.balanced (balanced_stop _))
  have hwhole : Balanced _ false _ {} := .cons (next_start [] _) trivial hgroup
  obtain ⟨d, hd, hf⟩ := (parse_tokens hwhole.tokens).mp (compile_eq_ok.mp h).1
  simp only [List.foldlM_cons, List.foldlM_append, List.foldlM_nil, bind_eq_ok, pure_eq_ok] at hd
  obtain ⟨_, hstart, _, hopen, D', ⟨D₁, hbars, D₂, hclose, rfl⟩, D₃, hstop, rfl⟩ := hd
  cases hstart
  cases hopen
  obtain ⟨houter, hoffers⟩ := foldlM_bars htss hne rfl hbars
  simp only [Draft.push, houter] at hclose
  cases hclose
  cases hstop
  refine ⟨D₁.group.close, (finish_ok hf).2.symm, fun b m a => ?_⟩
  simp [matches_close, hoffers]

variable {registry : Registry} {type : ParameterType} {e : Expression}

/-- A type with several patterns stands for what one of them matches. Whatever is defined in a
registry that is empty at first or has the types that are there from the start: if the expression
that is just a parameter of a type compiles, it matches exactly the texts that one of the type's
patterns matches alone and in full, provided each pattern but the last leaves the flags at its end
as they were at its start. -/
theorem match?_union (builtins : Bool) (calls : List Call) :
    let registry := after (if builtins then {} else .empty) calls
    ∀ type ∈ registry.types,
      (∀ regexp ∈ type.regexps.dropLast, keepsFlags regexp.toList = true) →
      ∀ e, Expression.compile registry ("\x7b" ++ type.name ++ "\x7d") = .ok e →
        ∀ text, (e.match? text).isSome = true ↔ ∃ regexp ∈ type.regexps, ∃ r,
          Regex.compile regexp.toList = .ok r ∧ Matches r [] text.toList [] := by
  intro registry type htype hkeep e he text
  have hnamed : Named registry := runs_named builtins calls
  have hlegal := hnamed.legal type htype
  have hget := hnamed.get? htype
  obtain ⟨hne, hall⟩ := after_checked builtins calls type htype
  obtain ⟨r, hr⟩ := regex_of_usable hlegal hget ⟨e, he⟩
  have hcompile := regex_of_compile (ofText_name hlegal hget hr) he
  have hhead := (alone_of_compile hr).head?
  rw [regexSource_toList] at hcompile hhead
  have hkeep' : ∀ p ∈ (type.regexps.map String.toList).dropLast, keepsFlags p = true := by
    rw [← List.map_dropLast]
    exact List.forall_mem_map.mpr hkeep
  obtain ⟨body, hbody, hmatches⟩ := compile_bars (by simpa using hne)
    (List.forall_mem_map.mpr hall) hkeep' hhead (by simpa using hcompile)
  rw [match?_wholeText hbody, catAll, hmatches]
  simp [Accepts]

end

def sampleUnion : ParameterType where
  name := "t"
  regexps := ["^a|b$", "(?i:c)", "(?x) d # e\n"]

theorem match?_union_sample : ∃ e,
    Expression.compile (after .empty [.define sampleUnion]) "\x7bt\x7d" = .ok e ∧
      (e.match? "C").isSome = true := by
  have hok : (Expression.compile (after .empty [.define sampleUnion]) "\x7bt\x7d").isOk = true := by
    decide +kernel
  have hc : Regex.compile "(?i:c)".toList =
      .ok (.set (fold { caseless := true } (.single 'c'))) := by decide +kernel
  have hunion := match?_union false [.define sampleUnion] sampleUnion List.mem_cons_self (by decide)
  rw [if_neg Bool.false_ne_true] at hunion
  cases he : Expression.compile (after .empty [.define sampleUnion]) "\x7bt\x7d" with
  | error _ => simp [he, Except.isOk, Except.toBool] at hok
  | ok e =>
    refine ⟨e, rfl, (hunion e he "C").mpr ⟨"(?i:c)", by decide, _, hc, [], .set ?_⟩⟩
    decide +kernel

/-- Whether the expression that is just a parameter of a type matches a text, if it compiles when
the type has been defined. -/
def answer (type : ParameterType) (text : String) : Option Bool :=
  (Expression.compile (after .empty [.define type]) ("\x7b" ++ type.name ++ "\x7d")).toOption.map
    fun e => (e.match? text).isSome

/-- A flag that one pattern turns on is on in the next one: there case does not matter, or blanks
are passed over. -/
theorem flag_reaches_next :
    (answer { name := "t", regexps := ["(?i)a", "b"] } "B" = some true ∧
      ∀ regexp ∈ ["(?i)a", "b"], ∀ r, Regex.compile regexp.toList = .ok r →
        ¬Matches r [] "B".toList []) ∧
    answer { name := "t", regexps := ["(?x)a", " b"] } " b" = some false ∧
      ∃ r, Regex.compile " b".toList = .ok r ∧ Matches r [] " b".toList [] := by
  refine ⟨⟨by decide +kernel, ?_⟩, by decide +kernel, ?_⟩
  · have hnone : ∀ regexp ∈ ["(?i)a", "b"],
        (Regex.compile regexp.toList).toOption.bind (·.find "B".toList) = none := by decide +kernel
    intro regexp hregexp r hr hm
    have hfound : (r.find "B".toList).isSome = true :=
      find_isSome.mpr ⟨[], "B".toList, [], by simp, hm⟩
    have hfind : r.find "B".toList = none := by
      simpa [hr, Except.toOption] using hnone regexp hregexp
    rw [hfind] at hfound
    exact absurd hfound Bool.false_ne_true
  · have hb : Regex.compile " b".toList =
        .ok (catAll (" b".toList.map fun c => .set (.single c))) := by decide +kernel
    exact ⟨_, hb, [], spans_text.mpr ⟨rfl, rfl⟩⟩

end Brine.Proofs.TypeUnions
