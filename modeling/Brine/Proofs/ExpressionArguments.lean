import Brine.Proofs.ExpressionMeaning
import Brine.Proofs.Registries

namespace Brine.Proofs.ExpressionArguments
open Regex Expression RegexMeaning ExpressionReading ExpressionChoices ExpressionPatterns
  ExpressionMeaning RegexThreads Registries PatternRuns Text

/-- The argument is the text of this parameter, at its place and with its type. -/
structure Gives (registry : Registry) (text : String) (arg : Argument) (piece : Piece) : Prop where
  type : ∃ type, registry.get? piece.name = some type ∧ arg.type = some type
  raw : arg.raw.toList = piece.raw
  start : arg.start = some (byteSize piece.before)
  placed : ∃ after, piece.before ++ (piece.raw ++ after) = text.toList

theorem gives_of_captured {registry : Registry} {text : String} {k : Match} {slot : Slot}
    {piece : Piece} (h : Captured registry k.marks slot piece)
    (hp : ∃ after, piece.before ++ (piece.raw ++ after) = text.toList) :
    Gives registry text (.ofGroup text.toList k slot.group (some slot.type)) piece := by
  obtain ⟨ht, hne, hnoted⟩ := h
  obtain ⟨after, hp⟩ := id hp
  have hg : k.group? slot.group =
      some (piece.before.length, (piece.before ++ piece.raw).length) := by
    simp [Match.group?, hne, hnoted.opened, hnoted.closed]
  constructor
  · refine ⟨slot.type, ht, ?_⟩
    simp [Argument.ofGroup, hg]
  · simp [Argument.ofGroup, hg, ← hp]
  · simp [Argument.ofGroup, hg, ← hp, byteOffset]
  · exact ⟨after, hp⟩

section
variable [Regex.Engine]

/-- The pieces of a text that an expression matches give its arguments. -/
theorem match?_gives {registry : Registry} {nodes : List Node} {rs : List Regex} {e : Expression}
    {text : String} {args : List Argument} (hforms : Forms registry 1 1 nodes rs e.slots)
    (he : e.regex = wholeText rs) (hcount : Counted registry) (hm : e.match? text = some args) :
    ∃ chosen pieces, Picks nodes chosen ∧ Renders (Typed registry) chosen [] text.toList [] pieces ∧
      List.Forall₂ (Gives registry text) args pieces := by
  simp only [Expression.match?, arguments?, Option.map_eq_some_iff] at hm
  obtain ⟨k, hk, rfl⟩ := hm
  obtain ⟨b, m, a, htext, -, -, hs⟩ := find_sound hk
  rw [he] at hs
  obtain ⟨rfl, rfl, hs'⟩ := spans_whole.mp hs
  obtain rfl : m = text.toList := by simpa using htext
  obtain ⟨chosen, pieces, hc, hr, -, hslots⟩ := spans_forms hforms Nat.one_ne_zero hs'
  have hplaced : ∀ p ∈ pieces, ∃ after, p.before ++ (p.raw ++ after) = text.toList := by
    intro p hp
    obtain ⟨after, ht, -⟩ := hr.placed p hp
    exact ⟨after, by simpa using ht⟩
  have hboth := (List.forall₂_and_left pieces e.slots).mpr ⟨hplaced, (hslots hcount rfl).flip⟩
  refine ⟨chosen, pieces, hc, hr, ?_⟩
  rw [List.map_map, List.forall₂_map_left_iff]
  refine hboth.flip.imp fun slot piece => ?_
  rintro ⟨hp, hc⟩
  exact gives_of_captured hc hp

/-- A text that an expression matches is made up of the items of its source, and each argument is
the text of its own parameter, provided that no type has a pattern with groups that are gone. -/
theorem match?_arguments {registry : Registry} {source text : String} {e : Expression}
    {args : List Argument} (ht : Terse registry) (hcount : Counted registry)
    (h : Expression.compile registry source = .ok e) (hm : e.match? text = some args) :
    ∃ items chosen pieces, Reads source.toList items ∧ Chooses items chosen ∧
      Renders (Typed registry) chosen [] text.toList [] pieces ∧
      pieces.map Piece.name = items.filterMap itemName? ∧
      List.Forall₂ (Gives registry text) args pieces := by
  obtain ⟨nodes, rs, hnodes, hforms, he⟩ := compile_forms ht h
  obtain ⟨items, hreads, hpicks, hnames⟩ := picks_nodes hnodes
  obtain ⟨chosen, pieces, hc, hr, hgives⟩ := match?_gives hforms he hcount hm
  refine ⟨items, chosen, pieces, hreads, (hpicks chosen).mp hc, hr, ?_, hgives⟩
  rw [hr.names, hc.names, hnames]

end

def point : ParameterType where
  name := "point"
  regexps := ["(\\d+),(\\d+)", "(?<origin>o(rigin)?)"]

theorem match?_arguments_sample :
    ∃ registry e args, Registry.define {} point = .ok registry ∧
      Expression.compile registry "from \x7bpoint\x7d to \x7bint\x7d" = .ok e ∧
      e.match? "from 1,2 to -3" = some args ∧
      ∃ items chosen pieces,
        Reads "from \x7bpoint\x7d to \x7bint\x7d".toList items ∧ Chooses items chosen ∧
        Renders (Typed registry) chosen [] "from 1,2 to -3".toList [] pieces ∧
        pieces.map Piece.name = items.filterMap itemName? ∧
        List.Forall₂ (Gives registry "from 1,2 to -3") args pieces := by
  have hdefine : (Registry.define {} point).toOption.isSome = true := by decide +kernel
  have hmatch : ((Registry.define {} point).toOption.bind fun registry =>
      (Expression.compile registry "from \x7bpoint\x7d to \x7bint\x7d").toOption.bind fun e =>
        e.match? "from 1,2 to -3").isSome = true := by
    decide +kernel
  cases hr : Registry.define {} point with
  | error e => simp [hr, Except.toOption] at hdefine
  | ok registry =>
    have ht : Terse registry := by
      obtain ⟨-, -, rfl⟩ := define_ok hr
      have h : (ParameterType.builtins ++ [point]).all
          (fun type => isTerse type.regexSource.toList) = true := by decide +kernel
      exact List.all_eq_true.mp h
    have hcount : Counted registry := by
      obtain ⟨-, -, rfl⟩ := define_ok hr
      have h : (ParameterType.builtins ++ [point]).all keepsGroups = true := by decide +kernel
      exact List.all_eq_true.mp h
    cases hc : Expression.compile registry "from \x7bpoint\x7d to \x7bint\x7d" with
    | error e => simp [hr, hc, Except.toOption] at hmatch
    | ok e =>
      cases hm : e.match? "from 1,2 to -3" with
      | none => simp [hr, hc, hm, Except.toOption] at hmatch
      | some args => exact ⟨registry, e, args, rfl, hc, hm, match?_arguments ht hcount hc hm⟩

/-- A group that is repeated zero times has a number but is gone from the expression of its type, so
the parameters after it take the number of another group for theirs. -/
theorem dropped_group_shifts :
    ((Registry.define {} { name := "t", regexps := ["x(a)\x7b0\x7d"] }).toOption.bind
      fun registry => (Expression.compile registry "\x7bt\x7d \x7bint\x7d").toOption.bind fun e =>
        (e.match? "x 5").map fun args => args.map fun arg => (arg.raw, arg.start)) =
      some [("x", some 0), ("", none)] := by
  decide +kernel

end Brine.Proofs.ExpressionArguments
