import Brine.Proofs.BuiltinTexts
import Brine.Proofs.ExpressionArguments
import Brine.Proofs.ItemPatterns
import Brine.Proofs.SnippetCandidates
import Brine.Proofs.StepMatching

namespace Brine.Proofs.SnippetMatching
open Expression Snippet Success RegexMeaning ExpressionReading ExpressionChoices
  ExpressionPatterns ExpressionMeaning ExpressionArguments
  BuiltinExpressions BuiltinTexts Registries
  SnippetCandidates ItemPatterns StepMatching

variable {registry : Registry} {text : String}

theorem reads_source {text : List Char} {candidates : List Snippet.Candidate}
    (h : ∀ c ∈ candidates, ∀ d ∈ c.name.toList, d ≠ '\x7b' ∧ d ≠ '\x7d') (place : Nat) :
    Reads (Snippet.sourceFrom text place candidates) (snippetItems text place candidates) := by
  induction candidates generalizing place with
  | nil =>
    have hr := reads_escape .nil (text.drop place)
    simpa [Snippet.sourceFrom, snippetItems] using hr
  | cons c candidates ih =>
    obtain ⟨hc, hrest⟩ := List.forall_mem_cons.mp h
    have hp : Reads
        ('\x7b' :: (c.name.toList ++ '\x7d' :: Snippet.sourceFrom text c.stop candidates))
        (.parameter c.name :: snippetItems text c.stop candidates) := by
      have hr : Reads _ (.parameter (String.ofList c.name.toList) :: _) :=
        .parameter hc (ih hrest c.stop)
      rwa [String.ofList_toList] at hr
    rw [Snippet.sourceFrom, snippetItems, List.append_assoc, List.cons_append]
    exact reads_escape hp _

theorem slash_not_mem_items {text : List Char} {candidates : List Snippet.Candidate} (place : Nat) :
    .slash ∉ snippetItems text place candidates := by
  induction candidates generalizing place with
  | nil => exact slash_not_mem_literal _
  | cons c candidates ih =>
    rw [snippetItems, List.mem_append, List.mem_cons]
    rintro (hm | hm | hm)
    · exact slash_not_mem_literal _ hm
    · contradiction
    · exact ih c.stop hm

theorem names_items {text : List Char} {candidates : List Snippet.Candidate} (place : Nat) :
    (snippetItems text place candidates).filterMap itemName? = candidates.map (·.name) := by
  induction candidates generalizing place with
  | nil => exact names_literal _
  | cons c candidates ih =>
    have hname : itemName? (.parameter c.name) = some c.name := rfl
    rw [snippetItems, List.filterMap_append, names_literal, List.nil_append,
      List.filterMap_cons_some hname, ih, List.map_cons]

theorem optional_not_mem_items {text : List Char} {candidates : List Snippet.Candidate}
    (place : Nat) (t : List Char) :
    .optional t ∉ (snippetItems text place candidates).map settled := by
  have hliteral (l : List Char) : .optional t ∉ (l.map literal).map settled := by
    rw [settled_literal]
    intro hm
    obtain ⟨c, -, hc⟩ := List.mem_map.mp hm
    contradiction
  induction candidates generalizing place with
  | nil => exact hliteral _
  | cons c candidates ih =>
    rw [snippetItems, List.map_append, List.map_cons, List.mem_append, List.mem_cons]
    rintro (hm | hm | hm)
    · exact hliteral _ hm
    · contradiction
    · exact ih c.stop hm

/-- Nothing of a word is next to an edge. -/
theorem not_edge {side : Option Char} {c : Char} (h : isEdge side = true) (hs : side = some c) :
    Text.isAlphanumeric c.toNat = false := by
  subst hs
  simpa [isEdge] using h

section
variable [Regex.Engine]

/-- The candidates that a suggestion replaces. -/
def replaced (registry : Registry) (text : String) : List Snippet.Candidate :=
  candidatesFrom (candidateTypes registry) text.toList (text.toList.length + 1) 0

def suggestedItems (registry : Registry) (text : String) : List Item :=
  snippetItems text.toList 0 (replaced registry text)

theorem renders_suggested : Renders (Bounded (candidateTypes registry))
    ((suggestedItems registry text).map settled) [] text.toList []
    ((replaced registry text).map (candidatePiece text.toList)) :=
  renders_candidates _ (List.nil_append text.toList)

/-- A candidate is a value of its type. -/
theorem typed_of_bounded (hn : Named registry) {name : String} {b raw a : List Char}
    (h : Bounded (candidateTypes registry) name b raw a) : Typed registry name b raw a := by
  obtain ⟨r, hm, hr⟩ := h.typed
  obtain ⟨t, ht, hc⟩ := List.mem_filterMap.mp hm
  split at hc
  · rename_i regex hregex
    cases hc
    exact ⟨t, r, hn.get? (List.mem_of_mem_filter ht), hregex, hr⟩
  · contradiction

theorem typed_of_replaced (hn : Named registry) {c : Snippet.Candidate}
    (h : c ∈ replaced registry text) : ∃ b raw a, Typed registry c.name b raw a := by
  obtain ⟨a, -, hb⟩ := renders_suggested.placed _ (List.mem_map_of_mem h)
  exact ⟨_, _, a, typed_of_bounded hn hb⟩

theorem reads_generate (hn : Named registry) :
    Reads (generate registry text).source.toList (suggestedItems registry text) := by
  rw [generate, String.toList_ofList]
  refine reads_source (fun c hc d hd => ?_) 0
  obtain ⟨_, _, _, type, r, ht, -, -⟩ := typed_of_replaced hn hc
  have hlegal := hn.legal type (mem_of_get? ht) d
  have hname : type.name = c.name := (hn.indexed.get?_eq_some.mp ht).2
  rw [hname] at hlegal
  have hd := hlegal hd
  constructor <;> rintro rfl <;> revert hd <;> decide

/-- The nodes of a suggestion leave nothing to choose. -/
theorem picks_suggested (hn : Named registry) {nodes : List Node}
    (h : Expression.nodes (generate registry text).source.toList = .ok nodes) {chosen : List Item} :
    Picks nodes chosen ↔ chosen = (suggestedItems registry text).map settled := by
  obtain ⟨items, hreads, hpicks, -⟩ := picks_nodes h
  obtain rfl := reads_unique hreads (reads_generate hn)
  rw [hpicks]
  exact chooses_slashless (slash_not_mem_items 0)

/-- A suggestion that compiles matches its text. -/
theorem match?_generate (hn : Named registry) (ht : Terse registry) {e : Expression}
    (h : Expression.compile registry (generate registry text).source = .ok e) :
    (e.match? text).isSome = true := by
  obtain ⟨nodes, rs, hnodes, hforms, he⟩ := compile_forms ht h
  have hr := (@renders_suggested registry text).mono fun _ _ _ _ => typed_of_bounded hn
  exact (match?_forms hforms he).mpr ⟨_, _, (picks_suggested hn hnodes).mpr rfl, hr⟩

/-- The parameters of a suggestion have types with expressions. -/
theorem types_suggested (hn : Named registry) :
    ∀ name ∈ (suggestedItems registry text).filterMap itemName?, ∃ type r,
      registry.get? name = some type ∧ type.regex = .ok r := by
  intro name hname
  rw [suggestedItems, names_items] at hname
  obtain ⟨c, hc, rfl⟩ := List.mem_map.mp hname
  obtain ⟨_, _, _, type, r, ht, hr, -⟩ := typed_of_replaced hn hc
  exact ⟨type, r, ht, hr⟩

/-- What the source of a suggestion makes of it is up to the limits of the engine alone. -/
theorem compile_generate : ∃ s r, Source.ofText {} (generate {} text).source = .ok s ∧
    Expression.compile {} (generate {} text).source =
      if Regex.Engine.admits s.pattern then .ok ⟨(generate {} text).source, r, s.slots⟩
      else .error (.regex .beyondLimits) := by
  obtain ⟨tokens, -, hnodes⟩ := nodes_slashless (reads_generate builtins_named)
    (@slash_not_mem_items text.toList (replaced {} text) 0)
  obtain ⟨items, hreads, -, hnames⟩ := picks_nodes hnodes
  obtain rfl := reads_unique hreads (reads_generate builtins_named)
  have htypes := @types_suggested {} text _ builtins_named
  rw [← hnames] at htypes
  obtain ⟨s, hs⟩ := sourceFrom_ok 1 htypes
  obtain ⟨r, hr⟩ := parse_nameless builtins_terse builtins_nameless (proper_nodes hnodes) hs
  have hsource : Source.ofText {} (generate {} text).source =
      .ok { s with pattern := '^' :: s.pattern ++ ['$'] } := by
    rw [Source.ofText, hnodes, ok_bind, hs, ok_bind]
    rfl
  exact ⟨_, r, hsource, compile_of_parse hsource hr⟩

theorem candidateTypes_names : (candidateTypes {}).map Prod.fst = ["int", "float", "string"] := by
  have hparsed : candidateTypes {} =
      (ParameterType.builtins.filter (·.forSnippets)).filterMap fun type =>
        (Regex.parse type.regexSource.toList).toOption.map (Prod.mk type.name) := by
    refine List.filterMap_congr fun type ht => ?_
    have hregex := regex_builtin (List.mem_of_mem_filter ht)
    cases hr : Regex.parse type.regexSource.toList <;>
      simp [hregex, hr, Except.toOption]
  rw [hparsed]
  rfl

theorem admits_of_bounded {name : String} {b raw a : List Char}
    (h : Bounded (candidateTypes {}) name b raw a) :
    name ∈ ["int", "float", "string"] ∧ Admits {} name raw := by
  obtain ⟨r, hm, -⟩ := h.typed
  constructor
  · rw [← candidateTypes_names]
    exact List.mem_map_of_mem hm
  · exact typed_builtin.mp (typed_of_bounded builtins_named h)

/-- A text without digits, points and quotes has no candidates. -/
theorem replaced_eq_nil (h : ∀ c ∈ text.toList, isDigit c = false ∧ c ∉ ['.', '"', '\'']) :
    replaced {} text = [] := by
  refine List.eq_nil_iff_forall_not_mem.mpr fun c hc => ?_
  obtain ⟨a, htext, hb⟩ := renders_suggested.placed _ (List.mem_map_of_mem hc)
  rw [List.nil_append, List.append_nil] at htext
  obtain ⟨hname, hadmits⟩ := admits_of_bounded hb
  obtain ⟨d, hd, hmarked⟩ := admits_marked hname hadmits
  have hplain := h d (htext ▸ List.mem_append_right _ (List.mem_append_left a hd))
  simp [hplain] at hmarked

/-- A candidate and another text of its type differ by letters and digits, if one of them starts
with the other. -/
theorem bounded_extends {name : String} {b raw raw' a ext : List Char}
    (h : Bounded (candidateTypes {}) name b raw a) (h' : Admits {} name raw')
    (he : raw' = raw ++ ext ∨ raw = raw' ++ ext) :
    ∀ c ∈ ext, Text.isAlphanumeric c.toNat = true := by
  obtain ⟨hname, hraw⟩ := admits_of_bounded h
  intro c hc
  have hd : Text.decimalDigits.holds c.toNat = true := by
    rcases he with rfl | rfl
    · exact admits_extends hname hraw h' c hc
    · exact admits_extends hname h' hraw c hc
  simp [Text.isAlphanumeric, hd]

/-- The candidates are the only way to make up the text. -/
theorem renders_unique {items : List Item} {b m a : List Char} {pieces pieces' : List Piece}
    (h : Renders (Bounded (candidateTypes {})) items b m a pieces)
    (h' : Renders (fun name _ raw _ => Admits {} name raw) items b m a pieces')
    (ho : ∀ t, .optional t ∉ items) : pieces' = pieces := by
  induction h generalizing pieces' with
  | nil =>
    cases h'
    rfl
  | char _ ih =>
    cases h' with
    | char h' => exact ih h' fun t ht => ho t (List.mem_cons_of_mem _ ht)
  | absent _ _ => exact absurd List.mem_cons_self (ho _)
  | present _ _ => exact absurd List.mem_cons_self (ho _)
  | @parameter name raw items b t a pieces hp hrest ih =>
    have hright := hp.right
    generalize hm : raw ++ t = m at h'
    cases h' with
    | @parameter _ raw' _ _ t' _ pieces' hraw' hrest' =>
      rcases List.append_eq_append_iff.mp hm with ⟨ext, rfl, rfl⟩ | ⟨ext, rfl, rfl⟩
      · cases ext with
        | nil =>
          rw [List.append_nil] at hrest' ⊢
          rw [ih hrest' fun t ht => ho t (List.mem_cons_of_mem _ ht)]
        | cons c ext =>
          -- The text would go on, but there is an edge behind it.
          have hc := bounded_extends hp hraw' (.inl rfl) c List.mem_cons_self
          simp [not_edge hright rfl] at hc
      · cases ext with
        | nil =>
          rw [List.append_nil] at hrest ih ⊢
          rw [ih hrest' fun t ht => ho t (List.mem_cons_of_mem _ ht)]
        | cons c ext =>
          -- The text would stop short, and what follows would have to start inside of it.
          have hall := bounded_extends hp hraw' (.inr rfl)
          cases hrest with
          | nil => cases hrest'
          | char _ =>
            cases hrest' with
            | char _ =>
              have hc := hall _ List.mem_cons_self
              simp [not_edge hright rfl] at hc
          | absent _ => exact absurd (List.mem_cons_of_mem _ List.mem_cons_self) (ho _)
          | present _ => exact absurd (List.mem_cons_of_mem _ List.mem_cons_self) (ho _)
          | parameter hnext _ =>
            have hlast : (b ++ (raw' ++ c :: ext)).getLast? =
                some ((c :: ext).getLast (by simp)) := by
              simp [List.getLast?_eq_some_getLast]
            have hc := hall _ (List.getLast_mem (List.cons_ne_nil c ext))
            simp [not_edge hnext.left hlast] at hc

/-- The arguments of a suggestion are the texts that it has replaced. -/
theorem generate_arguments {e : Expression} {args : List Argument}
    (h : Expression.compile {} (generate {} text).source = .ok e) (hm : e.match? text = some args) :
    List.Forall₂ (Gives {} text) args ((replaced {} text).map (candidatePiece text.toList)) := by
  obtain ⟨nodes, rs, hnodes, hforms, he⟩ := compile_forms builtins_terse h
  obtain ⟨chosen, pieces, hc, hr, hgives⟩ := match?_gives hforms he builtins_counted hm
  obtain rfl := (picks_suggested builtins_named hnodes).mp hc
  have hpieces := renders_unique renders_suggested (hr.mono fun _ _ _ _ => typed_builtin.mp)
    (optional_not_mem_items 0)
  rwa [hpieces] at hgives

/-- The text is resolved to this definition, with these arguments: either they have values, or one
of them is rejected by its type. -/
def ResolvesTo {α : Type} (definitions : List (Definition α)) (text : String) (d : Definition α)
    (args : List Argument) : Prop :=
  (∃ values, (Catalog.ofDefinitions {} definitions).matchText text = .ok ⟨d, args, values⟩) ∨
    ∃ e, (Catalog.ofDefinitions {} definitions).matchText text =
      .error (.transform text d.pattern d.location e)

theorem matching_append {α : Type} (ds ds' : List (Definition α)) :
    matching registry (ds ++ ds') text = matching registry ds text ++ matching registry ds' text :=
  List.filterMap_append

theorem resolvesTo_of_matching {α : Type} {definitions : List (Definition α)} {d : Definition α}
    {args : List Argument} (h : matching {} definitions text = [⟨d, args⟩]) :
    ResolvesTo definitions text d args := by
  have hl : lowest (matching {} definitions text) = [⟨d, args⟩] := by simp [h, lowest]
  cases hv : args.mapM Argument.value with
  | ok values =>
    exact .inl ⟨values, (matchText_outcome {} definitions text _).mpr
      (.found ⟨d, args⟩ values hl (mapM_value_ok.mp hv))⟩
  | error e =>
    obtain ⟨before, a, after, ha, hb, he⟩ := mapM_value_error.mp hv
    exact .inr ⟨e, (matchText_outcome {} definitions text _).mpr
      (.rejected ⟨d, args⟩ before a after e hl ha hb he)⟩

theorem undefined_ok {α : Type} {definitions : List (Definition α)} {snippet : Snippet}
    (h : (Catalog.ofDefinitions registry definitions).matchText text =
      .error (.undefined text snippet)) :
    matching registry definitions text = [] ∧ snippet = generate registry text := by
  have ho := (matchText_outcome registry definitions text _).mp h
  generalize hr : (.error (.undefined text snippet) : Except StepError (StepMatch α)) = r at ho
  cases ho with
  | undefined hm =>
    simp only [Except.error.injEq, StepError.undefined.injEq, true_and] at hr
    exact ⟨hm, hr⟩
  | ambiguous _ => cases hr
  | found _ _ _ _ => cases hr
  | rejected _ _ _ _ _ _ _ _ _ => cases hr

end

/-- The expression that is suggested for an undefined text defines it: it compiles, unless its
pattern is beyond the limits of the engine, and then it matches, its arguments are the texts that
have been replaced, and a definition with it anywhere among the others is the one the text is
resolved to. Over other registries it matches its text if it compiles. -/
theorem generate_defines [Regex.Engine] :
    (∀ (α : Type) (definitions : List (Definition α)) (text : String) (snippet : Snippet),
      (Catalog.ofDefinitions {} definitions).matchText text = .error (.undefined text snippet) →
      snippet.source = String.ofList (Snippet.sourceFrom text.toList 0 (replaced {} text)) ∧
      snippet.names = (replaced {} text).map (·.name) ∧
      ∃ s, Source.ofText {} snippet.source = .ok s ∧
        (Regex.Engine.admits s.pattern = false →
          Expression.compile {} snippet.source = .error (.regex .beyondLimits)) ∧
        (Regex.Engine.admits s.pattern = true →
          ∃ e args, Expression.compile {} snippet.source = .ok e ∧ e.match? text = some args ∧
            args.length = snippet.names.length ∧
            List.Forall₂ (Gives {} text) args
              ((replaced {} text).map (candidatePiece text.toList)) ∧
            ∀ before after d, definitions = before ++ after →
              d.pattern = .expression snippet.source →
              ResolvesTo (before ++ d :: after) text d args)) ∧
    ∀ registry, Reached registry → Terse registry → ∀ text e,
      Expression.compile registry (generate registry text).source = .ok e →
      (e.match? text).isSome = true := by
  constructor
  · intro α definitions text snippet hu
    obtain ⟨hnone, rfl⟩ := undefined_ok hu
    obtain ⟨s, r, hs, hcompile⟩ := @compile_generate text _
    refine ⟨rfl, rfl, s, hs, fun hlimit => by simpa [hlimit] using hcompile, fun hadmits => ?_⟩
    rw [if_pos hadmits] at hcompile
    obtain ⟨args, hm⟩ := Option.isSome_iff_exists.mp
      (match?_generate builtins_named builtins_terse hcompile)
    have hgives := generate_arguments hcompile hm
    have hlength : args.length = (generate {} text).names.length := by
      rw [hgives.length_eq]
      simp [generate, replaced]
    refine ⟨_, args, hcompile, hm, hlength, hgives, ?_⟩
    rintro before after d rfl hd
    apply resolvesTo_of_matching
    rw [matching_append, List.append_eq_nil_iff] at hnone
    rw [← List.singleton_append, matching_append, matching_append, hnone.1, hnone.2]
    simp [matching, hd, CompiledPattern.compile, hcompile, CompiledPattern.match?, hm]
  · intro registry hr ht text e he
    exact match?_generate hr.named ht he

theorem escape_letters (n : Nat) :
    escape (List.replicate n 'a') = List.replicate n 'a' := by
  rw [escape, List.flatMap_replicate]
  simp [isSpecial]

theorem generate_letters [Regex.Engine] (n : Nat) :
    generate {} (String.ofList (List.replicate n 'a')) =
      ⟨String.ofList (List.replicate n 'a'), []⟩ := by
  have hnone : replaced {} (String.ofList (List.replicate n 'a')) = [] := by
    refine replaced_eq_nil fun c hc => ?_
    rw [String.toList_ofList] at hc
    rw [List.eq_of_mem_replicate hc]
    decide
  rw [replaced, String.toList_ofList] at hnone
  simp only [generate, String.toList_ofList, hnone, List.map_nil, Snippet.sourceFrom,
    List.drop_zero, escape_letters]

theorem length_le_byteSize (l : List Char) : l.length ≤ Text.byteSize l := by
  induction l with
  | nil => exact Nat.le_refl _
  | cons c l ih =>
    have hc := c.utf8Size_pos
    simp only [List.length_cons, Text.byteSize]
    omega

/-- The pattern of a text of letters has a state for each of them. -/
theorem le_states_letters (n : Nat) :
    n ≤ Regex.Engine.states (literalSource (List.replicate n 'a')).pattern := by
  have hquote : Regex.quote (List.replicate n 'a') = List.replicate n 'a' := by
    rw [Regex.quote, List.flatMap_replicate]
    simp [Regex.isMeta]
  have hstates : Regex.Engine.states (literalSource (List.replicate n 'a')).pattern =
      Text.byteSize ('^' :: List.replicate n 'a' ++ ['$']) := by
    simp [literalSource, hquote, Regex.Engine.states]
  have hlength := length_le_byteSize ('^' :: List.replicate n 'a' ++ ['$'])
  simp only [List.length_append, List.length_cons, List.length_replicate] at hlength
  omega

theorem letters_beyond_limits {n : Nat} (h : 327680 < n) :
    Expression.compile {} (String.ofList (List.replicate n 'a')) =
      .error (.regex .beyondLimits) := by
  obtain ⟨s, r, hs, hcompile⟩ := @compile_generate (String.ofList (List.replicate n 'a')) _
  rw [generate_letters] at hs hcompile
  have hpattern := ofText_escape {} (List.replicate n 'a')
  rw [escape_letters, hs] at hpattern
  cases hpattern
  have hstates := le_states_letters n
  have hlimit : Regex.Engine.admits (literalSource (List.replicate n 'a')).pattern = false := by
    simp only [Regex.Engine.admits, Bool.and_eq_false_iff, decide_eq_false_iff_not]
    omega
  simpa [hlimit] using hcompile

/-- A text that is too long for the expression that is suggested for it: its pattern is beyond the
limits. -/
theorem suggested_too_long :
    (Catalog.ofDefinitions {} ([] : List (Definition Unit))).matchText
        (String.ofList (List.replicate 400000 'a')) =
      .error (.undefined (String.ofList (List.replicate 400000 'a'))
        ⟨String.ofList (List.replicate 400000 'a'), []⟩) ∧
      Expression.compile {} (String.ofList (List.replicate 400000 'a')) =
        .error (.regex .beyondLimits) := by
  refine ⟨?_, letters_beyond_limits (by decide)⟩
  rw [← generate_letters]
  rfl

def mention : ParameterType where
  name := "mention"
  regexps := ["@\\w+"]
  forSnippets := true

/-- A text with candidates of three types, and one with a candidate of a type that is not there from
the start. -/
theorem generate_defines_sample :
    (∃ e args, Expression.compile {} (generate {} "pay -3.50 for 2 \"teas\"").source = .ok e ∧
      e.match? "pay -3.50 for 2 \"teas\"" = some args ∧
      ResolvesTo [⟨.expression (generate {} "pay -3.50 for 2 \"teas\"").source, (), ⟨"steps", 1⟩⟩]
        "pay -3.50 for 2 \"teas\""
        ⟨.expression (generate {} "pay -3.50 for 2 \"teas\"").source, (), ⟨"steps", 1⟩⟩ args) ∧
    ∃ registry e, Registry.define {} mention = .ok registry ∧ Reached registry ∧ Terse registry ∧
      (generate registry "2 cups for @kim").source = "\x7bint\x7d cups for \x7bmention\x7d" ∧
      Expression.compile registry (generate registry "2 cups for @kim").source = .ok e ∧
      (e.match? "2 cups for @kim").isSome = true := by
  constructor
  · have hu : (Catalog.ofDefinitions {} ([] : List (Definition Unit))).matchText
        "pay -3.50 for 2 \"teas\"" =
          .error (.undefined _ (generate {} "pay -3.50 for 2 \"teas\"")) := rfl
    obtain ⟨-, -, s, hs, -, hfits⟩ := generate_defines.1 Unit [] _ _ hu
    have hadmits : (Source.ofText {} (generate {} "pay -3.50 for 2 \"teas\"").source).toOption.map
        (fun s => Regex.Engine.admits s.pattern) = some true := by
      decide +kernel
    rw [hs] at hadmits
    obtain ⟨e, args, he, hm, -, -, hr⟩ := hfits (Option.some.inj hadmits)
    exact ⟨e, args, he, hm, hr [] [] _ rfl rfl⟩
  · have hdefined : (Registry.define {} mention).isOk = true := by
      decide +kernel
    cases hd : Registry.define {} mention with
    | error e => simp [hd, Except.isOk, Except.toBool] at hdefined
    | ok registry =>
      obtain ⟨-, -, rfl⟩ := store_ok (define_ok hd)
      have hall : (Registry.insert {} mention).types.all
          (fun type => PatternRuns.isTerse type.regexSource.toList) = true := by
        decide +kernel
      have hterse : Terse (Registry.insert {} mention) := List.all_eq_true.mp hall
      have hsource : (generate (Registry.insert {} mention) "2 cups for @kim").source =
          "\x7bint\x7d cups for \x7bmention\x7d" := by
        decide +kernel
      have hok : (Expression.compile (Registry.insert {} mention)
          "\x7bint\x7d cups for \x7bmention\x7d").isOk = true := by
        decide +kernel
      cases he : Expression.compile (Registry.insert {} mention)
          (generate (Registry.insert {} mention) "2 cups for @kim").source with
      | error e => simp [← hsource, he, Except.isOk, Except.toBool] at hok
      | ok e =>
        have hreached := Reached.builtins.define hd
        exact ⟨_, e, rfl, hreached, hterse, hsource, he,
          generate_defines.2 _ hreached hterse _ e he⟩

end Brine.Proofs.SnippetMatching
