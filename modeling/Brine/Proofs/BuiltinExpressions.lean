import Brine.Proofs.ExpressionMeaning

namespace Brine.Proofs.BuiltinExpressions
open Regex RegexMeaning PatternRuns ExpressionReading ExpressionChoices ExpressionPatterns
  ExpressionMeaning

theorem toOption_eq_some {x : Except Regex.Error Regex} {r : Regex} :
    x.toOption = some r ↔ x = .ok r := by
  cases x <;> simp [Except.toOption]

theorem lookless_altAll {rs : List Regex} (h : lookless (altAll rs) = true) :
    ∀ r ∈ rs, lookless r = true := by
  induction rs with
  | nil => simp
  | cons r rs ih =>
    cases rs with
    | nil => simpa [altAll] using h
    | cons r' rs =>
      have h : (lookless r && lookless (altAll (r' :: rs))) = true := h
      rw [Bool.and_eq_true] at h
      exact List.forall_mem_cons.mpr ⟨h.1, ih h.2⟩

def builtinPatterns : List String :=
  ParameterType.builtins.flatMap fun type => type.regexSource :: type.regexps

section
variable [Engine]

/-- Every engine admits these patterns. -/
theorem compile_builtin {regexp : String} (h : regexp ∈ builtinPatterns) :
    Regex.compile regexp.toList = parse regexp.toList := by
  have hall : ∀ regexp ∈ builtinPatterns,
      regexp.toList.length ≤ 64 ∧ '\x7b' ∉ regexp.toList := by decide +kernel
  obtain ⟨hlen, hbrace⟩ := hall regexp h
  rw [Regex.compile, Engine.admits_short _ hlen hbrace]
  cases parse regexp.toList <;> rfl

def fragments (type : ParameterType) : List Regex :=
  type.regexps.filterMap fun regexp => (Regex.compile regexp.toList).toOption

/-- Whether the expression of a type is the choice between those of its patterns, and looks at
nothing around what it matches. -/
def isPlainChoice (type : ParameterType) : Bool :=
  !(fragments type).isEmpty && lookless (altAll (fragments type)) &&
    type.regex.toOption = some (altAll (fragments type))

section
variable {type : ParameterType} (h : type ∈ ParameterType.builtins)
include h

theorem regex_builtin : type.regex = parse type.regexSource.toList :=
  compile_builtin (List.mem_flatMap.mpr ⟨type, h, List.mem_cons_self⟩)

theorem fragments_builtin : fragments type =
    type.regexps.filterMap fun regexp => (parse regexp.toList).toOption := by
  refine List.filterMap_congr fun regexp hr => ?_
  rw [compile_builtin (List.mem_flatMap.mpr ⟨type, h, List.mem_cons_of_mem _ hr⟩)]

theorem builtin_plain : isPlainChoice type = true := by
  have hall : ParameterType.builtins.all (fun type =>
      let rs := type.regexps.filterMap fun regexp => (parse regexp.toList).toOption
      !rs.isEmpty && lookless (altAll rs) &&
        (parse type.regexSource.toList).toOption = some (altAll rs)) = true := rfl
  rw [isPlainChoice, fragments_builtin h, regex_builtin h]
  exact List.all_eq_true.mp hall type h

end

theorem builtins_terse : Terse {} := by
  have h : ParameterType.builtins.all (fun type => isTerse type.regexSource.toList) = true := rfl
  exact List.all_eq_true.mp h

theorem builtins_counted : Counted {} := by
  have hall : ParameterType.builtins.all (fun type =>
      (parse type.regexSource.toList).toOption.all fun r =>
        r.groupCount = PatternNumbers.writtenGroups type.regexSource.toList) = true := rfl
  intro type h
  have hcount := List.all_eq_true.mp hall type h
  rw [keepsGroups, regex_builtin h]
  cases hr : parse type.regexSource.toList with
  | error e => rfl
  | ok r => simpa [hr, Except.toOption] using hcount

def groupNames (pattern : List Char) : List String :=
  match tokens pattern with
  | .error _ => []
  | .ok ts =>
    match ts.foldlM Draft.push {} with
    | .error _ => []
    | .ok d => d.names

theorem builtins_nameless : Nameless {} := by
  have h : ParameterType.builtins.all (fun type => (groupNames type.regexSource.toList).isEmpty) =
      true := rfl
  intro type ht d hd
  obtain ⟨ts, hts, hfold⟩ := drafts_tokens hd
  have hnames := List.all_eq_true.mp h type ht
  simpa [groupNames, hts, hfold] using hnames

/-- A text that one of the patterns of the type matches in full. -/
def Admits (registry : Registry) (name : String) (raw : List Char) : Prop :=
  ∃ type, registry.get? name = some type ∧
    ∃ regexp ∈ type.regexps, ∃ r, Regex.compile regexp.toList = .ok r ∧ Matches r [] raw []

theorem matches_plainChoice {type : ParameterType} {r : Regex} {b m a : List Char}
    (h : isPlainChoice type = true) (hr : type.regex = .ok r) :
    Matches r b m a ↔ ∃ regexp ∈ type.regexps, ∃ r', Regex.compile regexp.toList = .ok r' ∧
      Matches r' [] m [] := by
  simp only [isPlainChoice, Bool.and_eq_true, Bool.not_eq_true', List.isEmpty_eq_false_iff,
    decide_eq_true_eq, toOption_eq_some, hr, Except.ok.injEq] at h
  obtain ⟨⟨hne, hl⟩, rfl⟩ := h
  constructor
  · rintro ⟨ms, hs⟩
    obtain ⟨r', hm, hs⟩ := (spans_altAll hne).mp hs
    obtain ⟨regexp, hp, hc⟩ := List.mem_filterMap.mp hm
    exact ⟨regexp, hp, r', toOption_eq_some.mp hc,
      matches_of_lookless hs (lookless_altAll hl r' hm) [] []⟩
  · rintro ⟨regexp, hp, r', hc, ms, hs⟩
    have hm : r' ∈ fragments type := List.mem_filterMap.mpr ⟨regexp, hp, toOption_eq_some.mpr hc⟩
    obtain ⟨ms', hs'⟩ := matches_of_lookless hs (lookless_altAll hl r' hm) b a
    exact ⟨ms', (spans_altAll hne).mpr ⟨r', hm, hs'⟩⟩

theorem typed_builtin {name : String} {b raw a : List Char} :
    Typed {} name b raw a ↔ Admits {} name raw := by
  constructor
  · rintro ⟨type, r, ht, hr, hm⟩
    exact ⟨type, ht, (matches_plainChoice (builtin_plain (mem_of_get? ht)) hr).mp hm⟩
  · rintro ⟨type, ht, hm⟩
    have hp := builtin_plain (mem_of_get? ht)
    have hr : type.regex = .ok (altAll (fragments type)) := by
      simp only [isPlainChoice, Bool.and_eq_true, decide_eq_true_eq, toOption_eq_some] at hp
      exact hp.2
    exact ⟨type, _, ht, hr, (matches_plainChoice hp hr).mpr hm⟩

/-- An expression matches exactly the texts that its source stands for: its source reads in one way,
and the text is made up, item by item, of what has been chosen. -/
theorem match?_iff_renders {source : String} {e : Expression}
    (h : Expression.compile {} source = .ok e) :
    ∃ items, Reads source.toList items ∧ (∀ items', Reads source.toList items' → items' = items) ∧
      ∀ text : String, (e.match? text).isSome = true ↔
        ∃ chosen pieces, Chooses items chosen ∧
          Renders (fun name _ raw _ => Admits {} name raw) chosen [] text.toList [] pieces := by
  obtain ⟨nodes, rs, hnodes, hforms, he⟩ := compile_forms builtins_terse h
  obtain ⟨items, hreads, hpicks, -⟩ := picks_nodes hnodes
  refine ⟨items, hreads, fun items' h' => reads_unique hreads h', fun text => ?_⟩
  rw [match?_forms hforms he]
  constructor
  · rintro ⟨chosen, pieces, hc, hr⟩
    exact ⟨chosen, pieces, (hpicks chosen).mp hc, hr.mono fun _ _ _ _ => typed_builtin.mp⟩
  · rintro ⟨chosen, pieces, hc, hr⟩
    exact ⟨chosen, pieces, (hpicks chosen).mpr hc, hr.mono fun _ _ _ _ => typed_builtin.mpr⟩

end

theorem match?_iff_renders_sample :
    ∃ e items, Expression.compile {} "\x7bint\x7d cup(s)/mug \\/" = .ok e ∧
      Reads "\x7bint\x7d cup(s)/mug \\/".toList items ∧
      ∀ text : String, (e.match? text).isSome = true ↔
        ∃ chosen pieces, Chooses items chosen ∧
          Renders (fun name _ raw _ => Admits {} name raw) chosen [] text.toList [] pieces := by
  have hok : (Expression.compile {} "\x7bint\x7d cup(s)/mug \\/").toOption.isSome = true := by
    decide +kernel
  cases hc : Expression.compile {} "\x7bint\x7d cup(s)/mug \\/" with
  | error e => simp [hc, Except.toOption] at hok
  | ok e =>
    obtain ⟨items, hr, -, hm⟩ := match?_iff_renders hc
    exact ⟨e, items, rfl, hr, hm⟩

end Brine.Proofs.BuiltinExpressions
