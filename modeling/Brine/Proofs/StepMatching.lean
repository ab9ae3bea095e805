import Brine.Definition.Catalog
import Mathlib.Data.List.Forall2

namespace Brine.Proofs.StepMatching

variable {α : Type}

def rank (c : Candidate α) : Nat :=
  c.definition.pattern.tier.rank

def lowest (candidates : List (Candidate α)) : List (Candidate α) :=
  candidates.filter fun a => ∀ b ∈ candidates, rank a ≤ rank b

def IsLowest (n : Nat) (candidates : List (Candidate α)) : Prop :=
  (∃ c ∈ candidates, rank c = n) ∧ ∀ c ∈ candidates, n ≤ rank c

theorem lowest_eq_filter {n : Nat} {candidates : List (Candidate α)}
    (h : IsLowest n candidates) : lowest candidates = candidates.filter fun c => rank c = n := by
  obtain ⟨⟨least, hm, he⟩, hn⟩ := h
  apply List.filter_congr
  intro c hc
  apply decide_eq_decide.mpr
  constructor
  · intro hall
    exact Nat.le_antisymm (he ▸ hall least hm) (hn c hc)
  · intro hr b hb
    exact hr ▸ hn b hb

theorem exists_lowest {candidates : List (Candidate α)} (h : candidates ≠ []) :
    ∃ n, IsLowest n candidates := by
  induction candidates with
  | nil => contradiction
  | cons c rest ih =>
    by_cases hr : rest = []
    · exact ⟨rank c, by simp [IsLowest, hr]⟩
    · obtain ⟨n, ⟨least, hm, he⟩, hn⟩ := ih hr
      rcases Nat.le_total (rank c) n with hle | hle
      · refine ⟨rank c, ⟨c, List.mem_cons_self, rfl⟩, ?_⟩
        intro b hb
        rcases List.mem_cons.mp hb with rfl | hb
        · exact Nat.le_refl _
        · exact Nat.le_trans hle (hn b hb)
      · refine ⟨n, ⟨least, List.mem_cons_of_mem _ hm, he⟩, ?_⟩
        intro b hb
        rcases List.mem_cons.mp hb with rfl | hb
        · exact hle
        · exact hn b hb

theorem lowest_eq_nil {candidates : List (Candidate α)} :
    lowest candidates = [] ↔ candidates = [] := by
  constructor
  · intro h
    by_contra hne
    obtain ⟨n, hn⟩ := exists_lowest hne
    obtain ⟨least, hm, he⟩ := hn.1
    have hl : least ∈ lowest candidates := by
      rw [lowest_eq_filter hn]
      exact List.mem_filter.mpr ⟨hm, by simp [he]⟩
    rw [h] at hl
    contradiction
  · rintro rfl
    rfl

theorem lowest_perm {cs cs' : List (Candidate α)} (h : cs.Perm cs') :
    (lowest cs).Perm (lowest cs') := by
  have he : lowest cs' = cs'.filter fun a => ∀ b ∈ cs, rank a ≤ rank b := by
    apply List.filter_congr
    intro a _
    exact decide_eq_decide.mpr (forall_congr' fun b => imp_congr_left h.mem_iff.symm)
  rw [he]
  exact h.filter _

structure Found (candidates : List (Candidate α)) (b : Best α) : Prop where
  kept : b.candidates = lowest candidates
  unset : b.tier = none → candidates = []
  least : ∀ tier, b.tier = some tier → IsLowest tier.rank candidates

theorem Found.start : Found [] ({} : Best α) :=
  ⟨rfl, fun _ => rfl, by simp⟩

/-- A candidate of a higher tier than the lowest one changes nothing. -/
theorem Found.skip {candidates : List (Candidate α)} {b : Best α} {tier : Tier} {c : Candidate α}
    (h : Found candidates b) (ht : b.tier = some tier) (hc : tier.rank < rank c) :
    Found (candidates ++ [c]) b := by
  have hl := h.least tier ht
  have hl' : IsLowest tier.rank (candidates ++ [c]) := by
    obtain ⟨⟨least, hm, he⟩, hn⟩ := hl
    refine ⟨⟨least, List.mem_append_left _ hm, he⟩, ?_⟩
    intro a ha
    rcases List.mem_append.mp ha with ha | ha
    · exact hn a ha
    · rw [List.mem_singleton.mp ha]
      omega
  refine ⟨?_, by simp [ht], ?_⟩
  · rw [h.kept, lowest_eq_filter hl, lowest_eq_filter hl', List.filter_append]
    have hne : ¬ rank c = tier.rank := by omega
    simp [hne]
  · intro t he
    rw [ht] at he
    exact Option.some.inj he ▸ hl'

/-- A candidate of the lowest tier comes after the others. -/
theorem Found.join {candidates : List (Candidate α)} {b : Best α} {tier : Tier} {c : Candidate α}
    (h : Found candidates b) (ht : b.tier = some tier) (hc : rank c = tier.rank) :
    Found (candidates ++ [c]) { b with candidates := b.candidates ++ [c] } := by
  have hl := h.least tier ht
  have hl' : IsLowest tier.rank (candidates ++ [c]) := by
    refine ⟨⟨c, by simp, hc⟩, ?_⟩
    intro a ha
    rcases List.mem_append.mp ha with ha | ha
    · exact hl.2 a ha
    · exact Nat.le_of_eq (by rw [List.mem_singleton.mp ha, hc])
  refine ⟨?_, by simp [ht], ?_⟩
  · rw [lowest_eq_filter hl', List.filter_append, h.kept, lowest_eq_filter hl]
    simp [hc]
  · intro t he
    rw [ht] at he
    exact Option.some.inj he ▸ hl'

/-- A candidate of a lower tier than all others stands alone. -/
theorem Found.replace {candidates : List (Candidate α)} {b : Best α} {tier : Tier}
    {c : Candidate α} (h : Found candidates b) (hc : rank c = tier.rank)
    (ht : ∀ t, b.tier = some t → tier.rank < t.rank) :
    Found (candidates ++ [c]) ⟨some tier, [c]⟩ := by
  have hlt : ∀ a ∈ candidates, tier.rank < rank a := by
    intro a ha
    cases hb : b.tier with
    | none => simp [h.unset hb] at ha
    | some t => exact Nat.lt_of_lt_of_le (ht t hb) ((h.least t hb).2 a ha)
  have hl : IsLowest tier.rank (candidates ++ [c]) := by
    refine ⟨⟨c, by simp, hc⟩, ?_⟩
    intro a ha
    rcases List.mem_append.mp ha with ha | ha
    · exact Nat.le_of_lt (hlt a ha)
    · exact Nat.le_of_eq (by rw [List.mem_singleton.mp ha, hc])
  have hnone : candidates.filter (fun a => rank a = tier.rank) = [] := by
    apply List.filter_eq_nil_iff.mpr
    intro a ha
    have := hlt a ha
    simp
    omega
  refine ⟨?_, by simp, ?_⟩
  · rw [lowest_eq_filter hl, List.filter_append, hnone]
    simp [hc]
  · intro t he
    cases he
    exact hl

/-- Arguments are converted in their order, up to the first one that cannot be. -/
theorem mapM_value_cons (a : Argument) (rest : List Argument) :
    (a :: rest).mapM Argument.value = match a.value with
      | .error e => .error e
      | .ok v => (rest.mapM Argument.value).map (v :: ·) := by
  rw [List.mapM_cons]
  cases a.value with
  | error e => rfl
  | ok v => cases rest.mapM Argument.value <;> rfl

theorem mapM_value_ok {arguments : List Argument} {values : List Value} :
    arguments.mapM Argument.value = .ok values ↔
      List.Forall₂ (fun a v => a.value = .ok v) arguments values := by
  constructor
  · intro h
    induction arguments generalizing values with
    | nil =>
      cases h
      exact .nil
    | cons a rest ih =>
      rw [mapM_value_cons] at h
      split at h
      · contradiction
      · rename_i v hv
        cases hr : rest.mapM Argument.value with
        | error e =>
          rw [hr] at h
          contradiction
        | ok vs =>
          rw [hr] at h
          cases h
          exact .cons hv (ih hr)
  · intro h
    induction h with
    | nil => rfl
    | cons hv _ ih =>
      rw [mapM_value_cons, hv, ih]
      rfl

theorem mapM_value_error {arguments : List Argument} {e : ParameterError} :
    arguments.mapM Argument.value = .error e ↔
      ∃ before a after, arguments = before ++ a :: after ∧
        (∀ b ∈ before, ∃ v, b.value = .ok v) ∧ a.value = .error e := by
  constructor
  · intro h
    induction arguments with
    | nil => cases h
    | cons first rest ih =>
      rw [mapM_value_cons] at h
      split at h
      · rename_i e' hv
        cases h
        exact ⟨[], first, rest, rfl, by simp, hv⟩
      · rename_i v hv
        cases hr : rest.mapM Argument.value with
        | ok vs =>
          rw [hr] at h
          cases h
        | error e' =>
          rw [hr] at h
          cases h
          obtain ⟨before, a, after, he, hb, ha⟩ := ih hr
          refine ⟨first :: before, a, after, by rw [he]; rfl, ?_, ha⟩
          intro b hm
          rcases List.mem_cons.mp hm with rfl | hm
          · exact ⟨v, hv⟩
          · exact hb b hm
  · rintro ⟨before, a, after, rfl, hb, ha⟩
    induction before with
    | nil =>
      rw [List.nil_append, mapM_value_cons, ha]
    | cons b before ih =>
      obtain ⟨v, hv⟩ := hb b List.mem_cons_self
      have hr := ih fun c hc => hb c (List.mem_cons_of_mem _ hc)
      rw [List.cons_append, mapM_value_cons, hv, hr]
      rfl

/-- Equal results, except that candidates of an ambiguous text may be listed in another order. -/
inductive SameUpToOrder : Except StepError (StepMatch α) → Except StepError (StepMatch α) → Prop
  | same (r : Except StepError (StepMatch α)) : SameUpToOrder r r
  | reordered (text : String) {labels labels' : List String} : labels.Perm labels' →
      SameUpToOrder (.error (.ambiguous text labels)) (.error (.ambiguous text labels'))

variable [Regex.Engine]

/-- The definitions whose pattern can be used and matches the text. -/
def matching (registry : Registry) (definitions : List (Definition α)) (text : String) :
    List (Candidate α) :=
  definitions.filterMap fun d =>
    match CompiledPattern.compile registry d.pattern with
    | .ok p => (p.match? text).map fun arguments => ⟨d, arguments⟩
    | .error _ => none

theorem compile_tier {registry : Registry} {source : PatternSource} {p : CompiledPattern}
    (h : CompiledPattern.compile registry source = .ok p) : p.tier = source.tier := by
  cases source with
  | exact text =>
    cases h
    rfl
  | expression text =>
    simp only [CompiledPattern.compile] at h
    split at h
    · cases h
      rfl
    · contradiction
  | regex text =>
    simp only [CompiledPattern.compile] at h
    split at h
    · cases h
      rfl
    · contradiction

/-- One step of the pass. -/
theorem add_found {registry : Registry} {text : String} {seen : List (Definition α)} {b : Best α}
    (h : Found (matching registry seen text) b) (d : Definition α) :
    Found (matching registry (seen ++ [d]) text)
      (b.add text ⟨d, CompiledPattern.compile registry d.pattern⟩) := by
  unfold Best.add
  simp only [matching, List.filterMap_append] at h ⊢
  cases hp : CompiledPattern.compile registry d.pattern with
  | error e => simpa [hp] using h
  | ok p =>
    have htier := compile_tier hp
    cases hm : p.match? text with
    | none => simpa [hp, hm] using h
    | some arguments =>
      -- The pass compares tiers before it matches, so all three orders of the tiers come up.
      have hr : rank (⟨d, arguments⟩ : Candidate α) = p.tier.rank := by rw [htier]; rfl
      simp only [hp, hm, List.filterMap_cons, List.filterMap_nil, Option.map_some]
      cases hb : b.tier with
      | none => simpa [hb] using h.replace hr (by simp [hb])
      | some tier =>
        rcases Nat.lt_trichotomy tier.rank p.tier.rank with hlt | heq | hgt
        · simpa [hlt] using h.skip hb (hr ▸ hlt)
        · simpa [heq, hb] using h.join hb (hr.trans heq.symm)
        · have hng : ¬ tier.rank < p.tier.rank := by omega
          simpa [hgt, hng] using h.replace hr (by simp [hb, hgt])

/-- The whole pass. -/
theorem foldl_found {registry : Registry} {text : String} (seen rest : List (Definition α))
    {b : Best α} (h : Found (matching registry seen text) b) :
    Found (matching registry (seen ++ rest) text)
      ((Catalog.ofDefinitions registry rest).entries.foldl (Best.add text) b) := by
  induction rest generalizing seen b with
  | nil => simpa [Catalog.ofDefinitions] using h
  | cons d rest ih => simpa [Catalog.ofDefinitions] using ih (seen ++ [d]) (add_found h d)

theorem best_candidates (registry : Registry) (definitions : List (Definition α))
    (text : String) :
    ((Catalog.ofDefinitions registry definitions).best text).candidates =
      lowest (matching registry definitions text) :=
  (foldl_found [] definitions Found.start).kept

/-- What a text is resolved to, by the definitions that match it. -/
inductive Outcome (registry : Registry) (definitions : List (Definition α)) (text : String) :
    Except StepError (StepMatch α) → Prop
  | undefined : matching registry definitions text = [] →
      Outcome registry definitions text
        (.error (.undefined text (Snippet.generate registry text)))
  | ambiguous : 2 ≤ (lowest (matching registry definitions text)).length →
      Outcome registry definitions text
        (.error (.ambiguous text
          ((lowest (matching registry definitions text)).map (·.definition.label))))
  | found (c : Candidate α) (values : List Value) :
      lowest (matching registry definitions text) = [c] →
      List.Forall₂ (fun a v => a.value = .ok v) c.arguments values →
      Outcome registry definitions text (.ok ⟨c.definition, c.arguments, values⟩)
  | rejected (c : Candidate α) (before : List Argument) (a : Argument) (after : List Argument)
      (e : ParameterError) :
      lowest (matching registry definitions text) = [c] →
      c.arguments = before ++ a :: after → (∀ b ∈ before, ∃ v, b.value = .ok v) →
      a.value = .error e →
      Outcome registry definitions text
        (.error (.transform text c.definition.pattern c.definition.location e))

theorem matchText_outcome (registry : Registry) (definitions : List (Definition α))
    (text : String) (r : Except StepError (StepMatch α)) :
    (Catalog.ofDefinitions registry definitions).matchText text = r ↔
      Outcome registry definitions text r := by
  have hb := best_candidates registry definitions text
  unfold Catalog.matchText
  rw [hb]
  constructor
  · rintro rfl
    cases hl : lowest (matching registry definitions text) with
    | nil => exact .undefined (lowest_eq_nil.mp hl)
    | cons c rest =>
      cases rest with
      | nil =>
        dsimp only
        cases hv : c.arguments.mapM Argument.value with
        | ok values => exact .found c values hl (mapM_value_ok.mp hv)
        | error e =>
          obtain ⟨before, a, after, he, hb, ha⟩ := mapM_value_error.mp hv
          exact .rejected c before a after e hl he hb ha
      | cons c' rest =>
        have h : Outcome registry definitions text _ := .ambiguous (by rw [hl]; simp)
        rwa [hl] at h
  · rintro (h | h | ⟨c, values, hl, hv⟩ | ⟨c, before, a, after, e, hl, he, hb, ha⟩)
    · rw [lowest_eq_nil.mpr h]
      rfl
    · cases hl : lowest (matching registry definitions text) with
      | nil => simp [hl] at h
      | cons c rest =>
        cases rest with
        | nil => simp [hl] at h
        | cons c' rest => rfl
    · simp only [hl, mapM_value_ok.mpr hv]
    · simp only [hl, mapM_value_error.mpr ⟨before, a, after, he, hb, ha⟩]

theorem matching_perm {ds ds' : List (Definition α)} (h : ds.Perm ds') (registry : Registry)
    (text : String) : (matching registry ds text).Perm (matching registry ds' text) :=
  h.filterMap _

theorem matchText_perm {ds ds' : List (Definition α)} (h : ds.Perm ds') (registry : Registry)
    (text : String) :
    SameUpToOrder ((Catalog.ofDefinitions registry ds).matchText text)
      ((Catalog.ofDefinitions registry ds').matchText text) := by
  have hl := lowest_perm (matching_perm h registry text)
  have ho := (matchText_outcome registry ds text _).mp rfl
  generalize (Catalog.ofDefinitions registry ds).matchText text = r at ho ⊢
  cases ho with
  | undefined hm =>
    have hm' : matching registry ds' text = [] := by
      have hp := matching_perm h registry text
      rw [hm] at hp
      exact hp.nil_eq.symm
    rw [(matchText_outcome registry ds' text _).mpr (.undefined hm')]
    exact .same _
  | ambiguous ha =>
    rw [(matchText_outcome registry ds' text _).mpr (.ambiguous (hl.length_eq ▸ ha))]
    exact .reordered text (hl.map _)
  | found c values hc hv =>
    rw [hc] at hl
    rw [(matchText_outcome registry ds' text _).mpr
      (.found c values (List.perm_singleton.mp hl.symm) hv)]
    exact .same _
  | rejected c before a after e hc he hb hv =>
    rw [hc] at hl
    rw [(matchText_outcome registry ds' text _).mpr
      (.rejected c before a after e (List.perm_singleton.mp hl.symm) he hb hv)]
    exact .same _

def usable (registry : Registry) (d : Definition α) : Bool :=
  (CompiledPattern.compile registry d.pattern).isOk

theorem matching_usable (registry : Registry) (definitions : List (Definition α))
    (text : String) :
    matching registry (definitions.filter (usable registry)) text =
      matching registry definitions text := by
  induction definitions with
  | nil => rfl
  | cons d rest ih =>
    simp only [matching] at ih
    cases hp : CompiledPattern.compile registry d.pattern with
    | ok p => simp [matching, usable, hp, Except.isOk, Except.toBool, List.filterMap_cons, ih]
    | error e => simp [matching, usable, hp, Except.isOk, Except.toBool, ih]

theorem matchText_usable {ds ds' : List (Definition α)} {registry : Registry}
    (h : ds'.filter (usable registry) = ds.filter (usable registry)) (text : String) :
    (Catalog.ofDefinitions registry ds').matchText text =
      (Catalog.ofDefinitions registry ds).matchText text := by
  have hm : matching registry ds' text = matching registry ds text := by
    rw [← matching_usable, h, matching_usable]
  unfold Catalog.matchText
  rw [best_candidates, best_candidates, hm]
  rfl

/-- The failure that is listed for a definition. -/
def FailsAs (registry : Registry) (d : Definition α) (f : CompileFailure) : Prop :=
  f.pattern = d.pattern ∧ f.location = d.location ∧
    CompiledPattern.compile registry d.pattern = .error f.error

theorem failures_forall (registry : Registry) (definitions : List (Definition α)) :
    List.Forall₂ (FailsAs registry) (definitions.filter fun d => !usable registry d)
      (Catalog.ofDefinitions registry definitions).failures := by
  induction definitions with
  | nil => exact .nil
  | cons d rest ih =>
    simp only [Catalog.failures, Catalog.ofDefinitions, List.map_cons] at ih ⊢
    cases hp : CompiledPattern.compile registry d.pattern with
    | ok p => simpa [usable, hp, Except.isOk, Except.toBool] using ih
    | error e => simpa [usable, hp, Except.isOk, Except.toBool, FailsAs] using ih

/-- A text is resolved by the definitions that match it and by their tiers alone. Their order only
shows in the list of an ambiguous text, and definitions whose pattern cannot be used show nowhere
but in the list of failures. -/
theorem matchText_by_tiers (registry : Registry) (definitions : List (Definition α))
    (text : String) :
    (∀ r, (Catalog.ofDefinitions registry definitions).matchText text = r ↔
      Outcome registry definitions text r) ∧
    (∀ ds', definitions.Perm ds' →
      SameUpToOrder ((Catalog.ofDefinitions registry definitions).matchText text)
        ((Catalog.ofDefinitions registry ds').matchText text)) ∧
    (∀ ds', ds'.filter (usable registry) = definitions.filter (usable registry) →
      (Catalog.ofDefinitions registry ds').matchText text =
        (Catalog.ofDefinitions registry definitions).matchText text) ∧
    List.Forall₂ (FailsAs registry) (definitions.filter fun d => !usable registry d)
      (Catalog.ofDefinitions registry definitions).failures :=
  ⟨matchText_outcome registry definitions text, fun _ h => matchText_perm h registry text,
    fun _ h => matchText_usable h text, failures_forall registry definitions⟩

end Brine.Proofs.StepMatching
