import Brine.Proofs.BuiltinExpressions
import Brine.Proofs.ExpressionArguments
import Brine.Proofs.StepMatching
import Brine.Proofs.Success

namespace Brine.Proofs.RejectedTexts
open Success Regex BuiltinExpressions ExpressionArguments StepMatching

variable {α : Type} {text : String} {args : List Argument} {a : Argument} {e : ParameterError}

/-- The argument has been read from the text: its group took part in the match. -/
def Captured (a : Argument) : Prop :=
  a.start ≠ none

/-- The argument is of a group that took no part in the match, and its type asks for a number. -/
structure Missing (a : Argument) : Prop where
  absent : a.start = none
  raw : a.raw = ""
  numeric : a.type = some .int ∨ a.type = some .float

theorem transform_int : ParameterType.int.transform "" =
    .error (.transform "int" "" "cannot parse integer from empty string") := by
  decide

theorem transform_float : ParameterType.float.transform "" =
    .error (.transform "float" "" "cannot parse float from empty string") := by
  decide

/-- Of the types that are there from the start, the numeric ones alone do not accept an empty
text. -/
theorem numeric_of_transform {type : ParameterType} (ht : type ∈ ParameterType.builtins)
    (he : type.transform "" = .error e) : type = .int ∨ type = .float := by
  simp only [ParameterType.builtins, List.mem_cons, List.not_mem_nil, or_false] at ht
  rcases ht with rfl | rfl | rfl | rfl | rfl
  · exact .inl rfl
  · exact .inr rfl
  all_goals cases he

theorem Missing.rejected (h : Missing a) : ∃ e, a.value = .error e := by
  obtain ⟨-, hraw, hnumeric⟩ := h
  rcases hnumeric with ht | ht
  · exact ⟨_, by rw [Argument.value, ht, hraw]; exact transform_int⟩
  · exact ⟨_, by rw [Argument.value, ht, hraw]; exact transform_float⟩

theorem lookupByRegexp_mem {registry : Registry} {source : String} {type : ParameterType}
    (h : registry.lookupByRegexp source = some type) : type ∈ registry.types := by
  rw [Registry.lookupByRegexp, Option.orElse_eq_orElse, Option.orElse_eq_or, Option.or_eq_some_iff]
    at h
  rcases h with h | ⟨-, h⟩
  · exact (List.mem_filter.mp (List.mem_of_find?_eq_some h)).1
  · exact (List.mem_filter.mp (List.mem_of_head? h)).1

/-- The argument of a group is rejected for its text, or because a group that took no part has the
type of a number. -/
theorem rejected_ofGroup {line : List Char} {m : Match} {index : Nat} {source : String}
    (he : (Argument.ofGroup line m index (Registry.lookupByRegexp {} source)).value = .error e) :
    Captured (.ofGroup line m index (Registry.lookupByRegexp {} source)) ∨
      Missing (.ofGroup line m index (Registry.lookupByRegexp {} source)) := by
  cases hg : m.group? index with
  | some place => exact .inl (by simp [Captured, Argument.ofGroup, hg])
  | none =>
    cases ht : Registry.lookupByRegexp {} source with
    | none => simp [Argument.value, Argument.ofGroup, hg, ht] at he
    | some type =>
      have hrejected : type.transform "" = .error e := by
        simpa [Argument.value, Argument.ofGroup, hg, ht] using he
      have hnumeric := numeric_of_transform (lookupByRegexp_mem ht) hrejected
      refine .inr ⟨?_, ?_, ?_⟩ <;> simp [Argument.ofGroup, hg, hnumeric]

def error? (r : Except StepError (StepMatch α)) : Option StepError :=
  match r with
  | .ok _ => none
  | .error e => some e

theorem error?_eq_some {r : Except StepError (StepMatch α)} {e : StepError} :
    error? r = some e ↔ r = .error e := by
  cases r <;> simp [error?]

section
variable [Regex.Engine]

/-- The definition matches the text with these arguments. -/
def Takes (d : Definition α) (text : String) (args : List Argument) : Prop :=
  ∃ pattern, CompiledPattern.compile {} d.pattern = .ok pattern ∧ pattern.match? text = some args

/-- The arguments of an expression have been read from the text. -/
theorem captured_of_expression {source : String} {expression : Expression}
    (h : Expression.compile {} source = .ok expression) (hm : expression.match? text = some args) :
    ∀ a ∈ args, Captured a := by
  obtain ⟨-, -, pieces, -, -, -, -, hgives⟩ :=
    match?_arguments builtins_terse builtins_counted h hm
  have hboth : List.Forall₂ (fun a p => Captured a ∧ Gives {} text a p) args pieces :=
    hgives.imp fun a p hg => ⟨by simp [Captured, hg.start], hg⟩
  exact ((List.forall₂_and_left args pieces).mp hboth).1

theorem rejected_of_regular {source : String} {pattern : RegularPattern}
    (h : RegularPattern.compile {} source = .ok pattern) (hm : pattern.match? text = some args)
    (ha : a ∈ args) (he : a.value = .error e) : Captured a ∨ Missing a := by
  rw [RegularPattern.compile, bind_eq_ok] at h
  obtain ⟨regex, -, hpattern⟩ := h
  cases hpattern
  obtain ⟨m, -, rfl⟩ := Option.map_eq_some_iff.mp hm
  rw [List.map_map] at ha
  obtain ⟨group, -, rfl⟩ := List.mem_map.mp ha
  exact rejected_ofGroup he

/-- An argument that is rejected has been read from the text, but for one of a regular expression
whose group took no part and whose type asks for a number. -/
theorem rejected_of_takes {d : Definition α} (h : Takes d text args) (ha : a ∈ args)
    (he : a.value = .error e) : Captured a ∨ d.pattern.tier = .regex ∧ Missing a := by
  obtain ⟨pattern, hc, hm⟩ := h
  cases hp : d.pattern with
  | exact expected =>
    rw [hp] at hc
    cases hc
    simp only [CompiledPattern.match?] at hm
    split at hm
    · cases hm
      contradiction
    · contradiction
  | expression source =>
    simp only [hp, CompiledPattern.compile] at hc
    split at hc
    · rename_i expression hcompile
      cases hc
      exact .inl (captured_of_expression hcompile hm a ha)
    · contradiction
  | regex source =>
    simp only [hp, CompiledPattern.compile] at hc
    split at hc
    · rename_i regular hcompile
      cases hc
      exact (rejected_of_regular hcompile hm ha he).imp id fun hmissing => ⟨rfl, hmissing⟩
    · contradiction

theorem takes_of_matching {definitions : List (Definition α)} {c : Candidate α}
    (h : c ∈ matching {} definitions text) :
    c.definition ∈ definitions ∧ Takes c.definition text c.arguments := by
  obtain ⟨d, hd, hc⟩ := List.mem_filterMap.mp h
  split at hc
  · rename_i pattern hp
    obtain ⟨args, hm, rfl⟩ := Option.map_eq_some_iff.mp hc
    exact ⟨hd, pattern, hp, hm⟩
  · contradiction

/-- Where a text is resolved to a definition that is rejected, the definition is one of those given
and matches the text, and the error is that of one of its arguments. This argument has been read
from the text, or else the definition is a regular expression and the argument that of a group that
took no part in the match and whose type asks for a number. -/
theorem matchText_rejected {definitions : List (Definition α)} {t : String}
    {p : PatternSource} {l : SourceLocation}
    (h : (Catalog.ofDefinitions {} definitions).matchText text = .error (.transform t p l e)) :
    ∃ d ∈ definitions, ∃ args, Takes d text args ∧
      t = text ∧ p = d.pattern ∧ l = d.location ∧
      ((∃ a ∈ args, Captured a ∧ a.value = .error e) ∨
        d.pattern.tier = .regex ∧ ∃ a ∈ args, Missing a ∧ a.value = .error e) := by
  cases (matchText_outcome {} definitions text _).mp h with
  | rejected c before a after e hl he hb ha =>
    have hc : c ∈ matching {} definitions text := by
      have hlowest : c ∈ lowest (matching {} definitions text) := by simp [hl]
      exact (List.mem_filter.mp hlowest).1
    obtain ⟨hd, htakes⟩ := takes_of_matching hc
    have hmem : a ∈ c.arguments := by simp [he]
    refine ⟨c.definition, hd, c.arguments, htakes, rfl, rfl, rfl, ?_⟩
    rcases rejected_of_takes htakes hmem ha with hcaptured | ⟨htier, hmissing⟩
    · exact .inl ⟨a, hmem, hcaptured, ha⟩
    · exact .inr ⟨htier, a, hmem, hmissing, ha⟩

end

def haveMany : Definition Unit where
  pattern := .expression "I have \x7bint\x7d"
  handler := ()
  location := ⟨"steps.rs", 1⟩

theorem matchText_rejected_sample :
    ∃ t p l e, (Catalog.ofDefinitions {} [haveMany]).matchText "I have 99999999999999999999" =
        .error (.transform t p l e) ∧
      ∃ d ∈ [haveMany], ∃ args, Takes d "I have 99999999999999999999" args ∧
        t = "I have 99999999999999999999" ∧ p = d.pattern ∧ l = d.location ∧
        ((∃ a ∈ args, Captured a ∧ a.value = .error e) ∨
          d.pattern.tier = .regex ∧ ∃ a ∈ args, Missing a ∧ a.value = .error e) := by
  have h : error? ((Catalog.ofDefinitions {} [haveMany]).matchText "I have 99999999999999999999") =
      some (.transform "I have 99999999999999999999" haveMany.pattern haveMany.location
        (.transform "int" "99999999999999999999" "number too large to fit in target type")) := by
    decide +kernel
  exact ⟨_, _, _, _, error?_eq_some.mp h, matchText_rejected (error?_eq_some.mp h)⟩

def takeItems : Definition Unit where
  pattern := .regex "^take(?: (-?\\d+))?$"
  handler := ()
  location := ⟨"steps.rs", 1⟩

/-- A definition is rejected although nothing of the text has been captured: the group that would be
the number takes no part in the match, and its empty text is not a number. -/
theorem missing_number_rejected :
    (Catalog.ofDefinitions {} [takeItems]).matchText "take" =
        .error (.transform "take" takeItems.pattern takeItems.location
          (.transform "int" "" "cannot parse integer from empty string")) ∧
      ∀ args, Takes takeItems "take" args → ∀ a ∈ args, ¬Captured a := by
  constructor
  · rw [← error?_eq_some]
    decide +kernel
  · rintro args ⟨pattern, hc, hm⟩
    have hstarts : ((CompiledPattern.compile {} takeItems.pattern).toOption.bind fun pattern =>
        (pattern.match? "take").map fun args => args.map Argument.start) = some [none] := by
      decide +kernel
    rw [hc] at hstarts
    have hargs : args.map Argument.start = [none] := by
      simpa [Except.toOption, hm] using hstarts
    intro a ha hcaptured
    have hstart : a.start ∈ args.map Argument.start := List.mem_map_of_mem ha
    rw [hargs, List.mem_singleton] at hstart
    exact hcaptured hstart

end Brine.Proofs.RejectedTexts
