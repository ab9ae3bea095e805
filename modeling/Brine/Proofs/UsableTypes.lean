import Brine.Proofs.BuiltinExpressions
import Brine.Proofs.FlagAgreement
import Brine.Proofs.PatternComments
import Brine.Proofs.RegistryRuns

namespace Brine.Proofs.UsableTypes
open Regex Success PatternReaders PatternTokens PatternRuns PatternEmbedding
open PatternWalks PatternNesting PatternComments FlagAgreement ExpressionChoices ExpressionPatterns
open BuiltinExpressions Registries RegistryRuns
open Expression (Node sourceFrom)

variable {f b₀ g : Flags} {p q tail : List Char} {ns : List String} {ts us : List Token}
variable {outer : List Flags} {ready : Bool}

variable {registry : Registry} {nodes : List Node} {text : String} {type : ParameterType}

theorem regexSource_toList (type : ParameterType) :
    type.regexSource.toList = List.intercalate ['|'] (type.regexps.map String.toList) := by
  simp [ParameterType.regexSource]

theorem nodes_name (h : ∀ c ∈ type.name.toList, Registry.isIllegalInName c = false) :
    Expression.nodes ("\x7b" ++ type.name ++ "\x7d").toList = .ok [.parameter type.name 0] := by
  have ht : ("\x7b" ++ type.name ++ "\x7d").toList = '\x7b' :: type.name.toList ++ ['\x7d'] := by
    simp
  rw [ht, Expression.nodes, tokens_name h]
  rfl

theorem together_start (h : Agree {} f) (outer : List Flags) (p : List Char) :
    Together ⟨{}, outer, p⟩ ⟨f, outer, p⟩ :=
  ⟨h, List.forall₂_same.mpr fun _ _ => ⟨rfl, rfl⟩, rfl⟩

section
variable [Engine]

/-- A pattern can be read alone with these flags; the groups in it have these names. -/
def Alone (f : Flags) (p : List Char) (ns : List String) : Prop :=
  ∃ ts g, Balanced ⟨f, [], p⟩ false ts g ∧ names ts = ns

def Enclosed (f : Flags) (p : List Char) (ns : List String) : Prop :=
  ∀ b base rest, ∃ ts, names ts = ns ∧
    Walk ⟨f, b :: base, p ++ ')' :: rest⟩ false ts ⟨b, base, rest⟩ true

theorem Alone.writtenNames (h : Alone {} p ns) : writtenNames p = ns := by
  obtain ⟨ts, g, hb, rfl⟩ := h
  exact hb.writtenNames

theorem Alone.parse_iff (h : Alone {} p ns) : (∃ r, parse p = .ok r) ↔ ns.Nodup := by
  obtain ⟨ts, g, hb, rfl⟩ := h
  exact hb.parse_iff

/-- A pattern that can be read alone compiles if no name of a group comes up twice and the engine
has room for it. -/
theorem Alone.compile_iff (h : Alone {} p ns) :
    (∃ r, Regex.compile p = .ok r) ↔ ns.Nodup ∧ Engine.admits p = true := by
  simp only [compile_eq_ok, exists_and_right, h.parse_iff]

theorem alone_of_compile {r : Regex} (h : Regex.compile p = .ok r) :
    Alone {} p (PatternWalks.writtenNames p) := by
  obtain ⟨ts, g, hb, -⟩ := balanced_of_parse (compile_eq_ok.mp h).1
  exact ⟨ts, g, hb, hb.writtenNames.symm⟩

/-- A pattern does not start with a question mark. -/
theorem Alone.head? (h : Alone {} p ns) : p.head? ≠ some '?' := by
  intro hp
  obtain ⟨tail, rfl⟩ := List.head?_eq_some_iff.mp hp
  obtain ⟨ts, g, hb, -⟩ := h
  cases hb with
  | nil hs => exact absurd (next_eq_none.mp hs) (List.cons_ne_nil _ _)
  | cons hs hf =>
    obtain ⟨c, cs, f', rest, hc, ht, -⟩ := next_iff.mp hs
    obtain ⟨rfl, rfl⟩ := List.cons.inj hc
    cases ht with
    | sign _ _ hq =>
      obtain ⟨_, rfl⟩ := quantified_token hq
      exact absurd hf Bool.false_ne_true
    | char _ hsign => exact absurd hsign (by decide)

theorem next_open (h : p.head? ≠ some '?') (outer : List Flags) (rest : List Char) :
    (⟨{}, outer, '(' :: (p ++ ')' :: rest)⟩ : Scanner).next =
      .ok (some (.openCapture none, ⟨{}, {} :: outer, p ++ ')' :: rest⟩)) := by
  have hhead : (p ++ ')' :: rest).head? ≠ some '?' := by
    cases p with
    | nil => simp
    | cons c p => exact h
  exact next_iff.mpr ⟨_, _, _, _, rfl, .opening (opening_bare rfl hhead), rfl⟩

theorem enclosed_of_balanced (hc : ')' ∉ tail) (hb : '\x7d' ∉ tail) (h : Alone f p ns)
    (h' : Balanced ⟨f, [b₀], p ++ ')' :: tail⟩ false us g) : Enclosed f p ns := by
  obtain ⟨ts, g', hbal, rfl⟩ := h
  intro b base rest
  refine ⟨ts ++ [.close], ?_, ?_⟩
  · rw [names_append]
    exact List.append_nil _
  · exact walk_group hc hb hbal h' b base rest

theorem walk_enclosed (h : Enclosed {} p ns) (hp : p.head? ≠ some '?') (rest : List Char) :
    ∃ ts, names ts = ns ∧
      Walk ⟨{}, outer, '(' :: (p ++ ')' :: rest)⟩ ready ts ⟨{}, outer, rest⟩ true := by
  obtain ⟨ts, hnames, hwalk⟩ := h {} outer rest
  exact ⟨_, by rw [names_cons, hnames]; rfl, .cons (next_open hp outer rest) trivial hwalk⟩

/-- A pattern can be read inside of a group with nothing else around. -/
theorem balanced_inside (hp : p.head? ≠ some '?')
    (h : Balanced ⟨{}, outer, '(' :: (p ++ ')' :: tail)⟩ ready ts g) :
    ∃ us, Balanced ⟨{}, {} :: outer, p ++ ')' :: tail⟩ false us g := by
  cases h with
  | nil hs =>
    rw [next_open hp] at hs
    cases hs
  | cons hs _ hb =>
    rw [next_open hp] at hs
    cases hs
    exact ⟨_, hb⟩

theorem next_start (outer : List Flags) (rest : List Char) :
    (⟨{}, outer, '^' :: rest⟩ : Scanner).next =
      .ok (some (.atom (.look .textStart), ⟨{}, outer, rest⟩)) :=
  next_iff.mpr ⟨_, _, _, _, rfl, .char rfl rfl rfl, rfl⟩

theorem balanced_stop (ready : Bool) :
    Balanced ⟨{}, [], ['$']⟩ ready [.atom (.look .textEnd)] {} := by
  have hstop : (⟨{}, [], ['$']⟩ : Scanner).next =
      .ok (some (.atom (.look .textEnd), ⟨{}, [], []⟩)) :=
    next_iff.mpr ⟨_, _, _, _, rfl, .char rfl rfl rfl, rfl⟩
  exact .cons hstop trivial (.nil next_nil rfl)

/-- What is behind the opening parenthesis in the pattern of a single parameter. -/
theorem balanced_parameter {r : Regex} (hp : p.head? ≠ some '?')
    (h : Regex.compile ('^' :: '(' :: (p ++ ')' :: ['$'])) = .ok r) :
    ∃ us g, Balanced ⟨{}, [{}], p ++ ')' :: ['$']⟩ false us g := by
  obtain ⟨ts, g, hb, -⟩ := balanced_of_parse (compile_eq_ok.mp h).1
  cases hb with
  | nil hs =>
    rw [next_start] at hs
    cases hs
  | cons hs _ hb =>
    rw [next_start] at hs
    cases hs
    obtain ⟨us, hb⟩ := balanced_inside hp hb
    exact ⟨us, g, hb⟩

/-- Patterns that can be read one by one can be read with bars between them, if each but the last
leaves the verbose flag off and Unicode mode on and the last one leaves no comment open. -/
theorem joined {ps : List (List Char)} (hne : ps ≠ []) (hf : Agree {} f)
    (hall : ∀ p ∈ ps, Alone {} p (writtenNames p))
    (hplain : ∀ p ∈ ps.dropLast, endsPlain p = true)
    (hlast : ∀ p ∈ ps.getLast?, closesComments p = true) :
    Alone f (List.intercalate ['|'] ps) (ps.flatMap writtenNames) ∧
      Enclosed f (List.intercalate ['|'] ps) (ps.flatMap writtenNames) := by
  induction ps generalizing f with
  | nil => contradiction
  | cons p ps ih =>
    obtain ⟨hp, hall⟩ := List.forall_mem_cons.mp hall
    obtain ⟨ts, g, hb, hnames⟩ := hp
    obtain ⟨ts', g', hb', hnames', hg⟩ := balanced_agree hb (together_start hf [] p)
    rw [hnames] at hnames'
    cases ps with
    | nil =>
      -- The last pattern meets the parenthesis, with the flags that the others have left.
      have halone : Alone f p (writtenNames p) := ⟨ts', g', hb', hnames'⟩
      have hwalk := walk_closed hb (Nat.lt_succ_self _) (hlast p rfl) {} [] []
      have hgroup := hwalk.balanced (.nil next_nil rfl)
      obtain ⟨us, g₂, hgroup, -⟩ := balanced_agree hgroup (together_start hf [{}] _)
      have henclosed := enclosed_of_balanced (by simp) (by simp) halone hgroup
      simpa using ⟨halone, henclosed⟩
    | cons q ps =>
      have hend := balanced_plain hb (hplain p (by simp))
      have hagree : Agree {} g' := ⟨hg.verbose.trans hend.1, hg.unicode.trans hend.2⟩
      obtain ⟨⟨us, g₁, hrest, hus⟩, henclosed⟩ := ih (by simp) hagree hall
        (fun p hm => hplain p (by simpa using .inr hm)) (fun p hm => hlast p (by simpa using hm))
      have hbar (base : List Flags) (rest : List Char) :
          Walk ⟨f, base, p ++ '|' :: rest⟩ false (ts' ++ [.bar]) ⟨g', base, rest⟩ false :=
        walk_branch hb' hagree.verbose base rest
      have hbarNames : names (ts' ++ [.bar]) = writtenNames p := by
        rw [names_append, hnames']
        exact List.append_nil _
      rw [List.intercalate_cons_cons, List.flatMap_cons]
      constructor
      · refine ⟨(ts' ++ [.bar]) ++ us, g₁, ?_, by rw [names_append, hbarNames, hus]⟩
        have hb := (hbar [] (List.intercalate ['|'] (q :: ps))).balanced hrest
        simpa using hb
      · intro b base rest
        obtain ⟨vs, hvs, hwalk⟩ := henclosed b base rest
        refine ⟨(ts' ++ [.bar]) ++ vs, by rw [names_append, hbarNames, hvs], ?_⟩
        have hw := (hbar (b :: base) (List.intercalate ['|'] (q :: ps) ++ ')' :: rest)).append hwalk
        simpa using hw

/-- The names of groups in the patterns of an expression's parameters, for each parameter anew. -/
def parameterNames (registry : Registry) (nodes : List Node) : List String :=
  (nodes.filterMap nodeName?).flatMap fun name =>
    match registry.get? name with
    | some type => writtenNames type.regexSource.toList
    | none => []

structure Groupable (type : ParameterType) (ns : List String) : Prop where
  alone : Alone {} type.regexSource.toList ns
  enclosed : Enclosed {} type.regexSource.toList ns

/-- A run over literal text is a walk without names. -/
theorem walk_literal {a b : List Char} {rs : List Regex}
    (h : Steps ⟨⟨{}, [], a⟩, {}⟩ ⟨⟨{}, [], b⟩, add {} rs⟩) (ready : Bool) :
    ∃ ts ready', names ts = [] ∧ Walk ⟨{}, [], a⟩ ready ts ⟨{}, [], b⟩ ready' := by
  obtain ⟨ts, hw, hn⟩ := walk_of_steps h rfl
  obtain ⟨ready', hw⟩ := hw.of_unready ready
  exact ⟨ts, ready', by simpa [add] using hn.symm, hw⟩

theorem walk_nodes {group : Nat} {s : Expression.Source} {extra : List Char} (hp : Proper nodes)
    (h : sourceFrom registry group nodes = .ok s) (he : Ends extra)
    (ht : ∀ name ∈ nodes.filterMap nodeName?, ∀ type, registry.get? name = some type →
      ∃ ns, Groupable type ns) (ready : Bool) :
    ∃ ts ready', names ts = parameterNames registry nodes ∧
      Walk ⟨{}, [], s.pattern ++ extra⟩ ready ts ⟨{}, [], extra⟩ ready' := by
  fun_induction sourceFrom registry group nodes generalizing s ready with
  | case1 =>
    cases h
    exact ⟨[], ready, rfl, .nil⟩
  | case2 group p rest ih =>
    simp only [bind_eq_ok, pure_eq_ok] at h
    obtain ⟨s', hs, rfl⟩ := h
    obtain ⟨ts, ready₁, hn, hw⟩ := walk_literal (steps_part (ends_nodes he hs) p) ready
    obtain ⟨ts', ready₂, hn', hw'⟩ := ih (fun a hm => hp a (List.mem_cons_of_mem _ hm)) hs ht ready₁
    refine ⟨ts ++ ts', ready₂, by rw [names_append, hn, hn']; rfl, ?_⟩
    rw [List.append_assoc]
    exact hw.append hw'
  | case3 group alternatives rest ih =>
    simp only [bind_eq_ok, pure_eq_ok] at h
    obtain ⟨s', hs, rfl⟩ := h
    have hne := hp alternatives List.mem_cons_self
    obtain ⟨ts, ready₁, hn, hw⟩ := walk_literal (steps_choice hne) ready
    obtain ⟨ts', ready₂, hn', hw'⟩ := ih (fun a hm => hp a (List.mem_cons_of_mem _ hm)) hs ht ready₁
    refine ⟨ts ++ ts', ready₂, by rw [names_append, hn, hn']; rfl, ?_⟩
    rw [List.append_assoc]
    exact hw.append hw'
  | case4 => contradiction
  | case5 => contradiction
  | case6 group name start rest type htype regex hr ih =>
    simp only [bind_eq_ok, pure_eq_ok] at h
    obtain ⟨s', hs, rfl⟩ := h
    obtain ⟨hthis, ht⟩ := List.forall_mem_cons.mp ht
    obtain ⟨ns, hg⟩ := hthis type htype
    obtain ⟨ts, hn, hw⟩ := walk_enclosed hg.enclosed hg.alone.head? (s'.pattern ++ extra)
    obtain ⟨ts', ready₂, hn', hw'⟩ := ih (fun a hm => hp a (List.mem_cons_of_mem _ hm)) hs ht true
    refine ⟨ts ++ ts', ready₂, ?_, ?_⟩
    · rw [names_append, hn, hn', ← hg.alone.writtenNames]
      simp [parameterNames, nodeName?, htype]
    · have hsplit : ('(' :: type.regexSource.toList ++ ')' :: s'.pattern) ++ extra =
          '(' :: (type.regexSource.toList ++ ')' :: (s'.pattern ++ extra)) := by simp
      rw [hsplit]
      exact hw.append hw'

/-- The whole pattern of an expression can be read if its types can be read in groups. -/
theorem alone_whole {s : Expression.Source} (hp : Proper nodes)
    (h : sourceFrom registry 1 nodes = .ok s)
    (ht : ∀ name ∈ nodes.filterMap nodeName?, ∀ type, registry.get? name = some type →
      ∃ ns, Groupable type ns) :
    Alone {} ('^' :: s.pattern ++ ['$']) (parameterNames registry nodes) := by
  have hends : Ends ['$'] := by simp [Ends]
  obtain ⟨ts, ready, hn, hw⟩ := walk_nodes hp h hends ht true
  have hbalanced := hw.balanced (balanced_stop ready)
  refine ⟨_, {}, .cons (next_start _ _) trivial hbalanced, ?_⟩
  rw [names_cons, names_append, hn]
  exact List.append_nil _

theorem regex_of_compile {s : Expression.Source} {e : Expression}
    (hs : Expression.Source.ofText registry text = .ok s)
    (h : Expression.compile registry text = .ok e) : Regex.compile s.pattern = .ok e.regex := by
  rw [Expression.compile, hs, ok_bind] at h
  split at h
  · rename_i r hr
    cases h
    exact hr
  · contradiction

/-- An expression whose pattern can be read alone compiles if no name of a group comes up twice and
the engine has room for the pattern. -/
theorem compile_ok_iff {s : Expression.Source} {ns : List String}
    (hs : Expression.Source.ofText registry text = .ok s) (ha : Alone {} s.pattern ns) :
    (∃ e, Expression.compile registry text = .ok e) ↔
      ns.Nodup ∧ Engine.admits s.pattern = true := by
  rw [← ha.compile_iff, Expression.compile, hs, ok_bind]
  cases Regex.compile s.pattern <;> simp

/-- What an expression of types that can be read in groups is compiled to is up to the names of
groups and the engine. -/
theorem compile_iff_of_groupable (hn : Expression.nodes text.toList = .ok nodes)
    (ht : ∀ name ∈ nodes.filterMap nodeName?, ∃ type ns r, registry.get? name = some type ∧
      Groupable type ns ∧ type.regex = .ok r) :
    ∃ s, Expression.Source.ofText registry text = .ok s ∧
      ((∃ e, Expression.compile registry text = .ok e) ↔
        (parameterNames registry nodes).Nodup ∧ Engine.admits s.pattern = true) := by
  have hregex : ∀ name ∈ nodes.filterMap nodeName?, ∃ type r, registry.get? name = some type ∧
      type.regex = .ok r := by
    intro name hm
    obtain ⟨type, ns, r, hget, -, hr⟩ := ht name hm
    exact ⟨type, r, hget, hr⟩
  obtain ⟨s, hs⟩ := sourceFrom_ok 1 hregex
  have hsource : Expression.Source.ofText registry text =
      .ok { s with pattern := '^' :: s.pattern ++ ['$'] } := by
    rw [Expression.Source.ofText, hn, ok_bind, hs, ok_bind]
    rfl
  refine ⟨_, hsource, compile_ok_iff hsource (alone_whole (proper_nodes hn) hs ?_)⟩
  intro name hm type hget
  obtain ⟨type', ns, r, hget', hg, -⟩ := ht name hm
  obtain rfl : type' = type := Option.some.inj (hget'.symm.trans hget)
  exact ⟨ns, hg⟩

/-- A type can be used alone: there is an expression that is just a parameter of it. -/
def Usable (registry : Registry) (type : ParameterType) : Prop :=
  ∃ e, Expression.compile registry ("\x7b" ++ type.name ++ "\x7d") = .ok e

theorem ofText_name {r : Regex}
    (hlegal : ∀ c ∈ type.name.toList, Registry.isIllegalInName c = false)
    (hget : registry.get? type.name = some type) (hr : type.regex = .ok r) :
    Expression.Source.ofText registry ("\x7b" ++ type.name ++ "\x7d") =
      .ok ⟨'^' :: '(' :: type.regexSource.toList ++ [')', '$'], [⟨type, 1⟩]⟩ := by
  rw [Expression.Source.ofText, nodes_name hlegal, ok_bind]
  simp [sourceFrom, hget, hr]

theorem regex_of_usable (hlegal : ∀ c ∈ type.name.toList, Registry.isIllegalInName c = false)
    (hget : registry.get? type.name = some type) (h : Usable registry type) :
    ∃ r, type.regex = .ok r := by
  obtain ⟨e, h⟩ := h
  simp only [Expression.compile, Expression.Source.ofText, nodes_name hlegal, ok_bind,
    bind_eq_ok] at h
  obtain ⟨s, ⟨s', hs, -⟩, -⟩ := h
  simp only [sourceFrom, hget] at hs
  split at hs
  · contradiction
  · rename_i r hr
    exact ⟨r, hr⟩

/-- A type that can be used alone can be used anywhere. -/
theorem groupable_of_usable (hlegal : ∀ c ∈ type.name.toList, Registry.isIllegalInName c = false)
    (hget : registry.get? type.name = some type) (h : Usable registry type) :
    ∃ ns r, Groupable type ns ∧ type.regex = .ok r := by
  obtain ⟨r, hr⟩ := regex_of_usable hlegal hget h
  have halone := alone_of_compile hr
  obtain ⟨e, he⟩ := h
  have hregex := regex_of_compile (ofText_name hlegal hget hr) he
  obtain ⟨us, g, hb⟩ := balanced_parameter halone.head? (by simpa using hregex)
  exact ⟨_, r, ⟨halone, enclosed_of_balanced (by simp) (by simp) halone hb⟩, hr⟩

/-- A type that can be used in groups can be used alone if no name of a group comes up twice and the
engine has room for its patterns, alone and as a parameter. -/
theorem usable_iff_of_groupable {ns : List String}
    (hlegal : ∀ c ∈ type.name.toList, Registry.isIllegalInName c = false)
    (hget : registry.get? type.name = some type) (hg : Groupable type ns) :
    Usable registry type ↔ ns.Nodup ∧ Engine.admits type.regexSource.toList = true ∧
      Engine.admits ('^' :: '(' :: type.regexSource.toList ++ [')', '$']) = true := by
  have hcompile {r : Regex} (hr : type.regex = .ok r) : Usable registry type ↔ ns.Nodup ∧
      Engine.admits ('^' :: '(' :: type.regexSource.toList ++ [')', '$']) = true := by
    have hs := ofText_name hlegal hget hr
    obtain ⟨s, hs', hiff⟩ := compile_iff_of_groupable (nodes_name hlegal)
      (fun name hm => by
        obtain rfl : name = type.name := by simpa [nodeName?] using hm
        exact ⟨type, ns, r, hget, hg, hr⟩)
    rw [hs] at hs'
    cases hs'
    simpa [Usable, parameterNames, nodeName?, hget, hg.alone.writtenNames] using hiff
  constructor
  · intro hu
    obtain ⟨r, hr⟩ := regex_of_usable hlegal hget hu
    obtain ⟨hnodup, hadmits⟩ := hg.alone.compile_iff.mp ⟨r, hr⟩
    exact ⟨hnodup, hadmits, ((hcompile hr).mp hu).2⟩
  · rintro ⟨hnodup, hadmits, hwhole⟩
    obtain ⟨r, hr⟩ := hg.alone.compile_iff.mpr ⟨hnodup, hadmits⟩
    exact (hcompile hr).mpr ⟨hnodup, hwhole⟩

def Checked (type : ParameterType) : Prop :=
  type.regexps ≠ [] ∧ ∀ regexp ∈ type.regexps, ∃ r, Regex.compile regexp.toList = .ok r

theorem builtins_checked : ∀ type ∈ ParameterType.builtins, Checked type := by
  have hall : ParameterType.builtins.all (fun type => !type.regexps.isEmpty &&
      type.regexps.all fun regexp => (parse regexp.toList).toOption.isSome) = true := rfl
  intro type hm
  have h := List.all_eq_true.mp hall type hm
  rw [Bool.and_eq_true, List.all_eq_true] at h
  refine ⟨by simpa using h.1, fun regexp hr => ?_⟩
  obtain ⟨r, hr'⟩ := Option.isSome_iff_exists.mp (h.2 regexp hr)
  rw [compile_builtin (List.mem_flatMap.mpr ⟨type, hm, List.mem_cons_of_mem _ hr⟩)]
  exact ⟨r, toOption_eq_some.mp hr'⟩

theorem added_checked {r : Registry} {calls : List Call} (h : type ∈ added r calls) :
    Checked type := by
  induction calls generalizing r with
  | nil => simp [added] at h
  | cons call calls ih =>
    rw [added] at h
    split at h
    · rename_i hp
      rcases List.mem_cons.mp h with rfl | h
      · exact checkRegexps_ok (check_ok (perform_added hp).1).2
      · exact ih h
    · exact ih h

theorem after_checked (builtins : Bool) (calls : List Call) :
    ∀ type ∈ (after (if builtins then {} else .empty) calls).types, Checked type := by
  intro type hm
  rw [types_after] at hm
  rcases List.mem_append.mp hm with hm | hm
  · cases builtins with
    | true => exact builtins_checked type hm
    | false => simp [Registry.empty] at hm
  · exact added_checked hm

/-- The patterns of a type, joined, can be read in groups if each but the last leaves the verbose
flag off and Unicode mode on, and the last one leaves no comment open. -/
theorem groupable_of_checked (h : Checked type)
    (hplain : ∀ regexp ∈ type.regexps.dropLast, endsPlain regexp.toList = true)
    (hlast : ∀ regexp ∈ type.regexps.getLast?, closesComments regexp.toList = true) :
    Groupable type (type.regexps.flatMap fun regexp => writtenNames regexp.toList) := by
  have hne : type.regexps.map String.toList ≠ [] := by simpa using h.1
  have hagree : Agree ({} : Flags) {} := ⟨rfl, rfl⟩
  obtain ⟨halone, henclosed⟩ := joined hne hagree
    (by
      intro p hp
      obtain ⟨regexp, hm, rfl⟩ := List.mem_map.mp hp
      obtain ⟨r, hr⟩ := h.2 regexp hm
      exact alone_of_compile hr)
    (by
      intro p hp
      rw [← List.map_dropLast] at hp
      obtain ⟨regexp, hm, rfl⟩ := List.mem_map.mp hp
      exact hplain regexp hm)
    (by
      intro p hp
      rw [List.getLast?_map] at hp
      obtain ⟨regexp, hm, rfl⟩ := Option.map_eq_some_iff.mp hp
      exact hlast regexp hm)
  rw [List.flatMap_map, ← regexSource_toList] at halone henclosed
  exact ⟨halone, henclosed⟩

end

/-- What has been defined can be used. Whatever is defined in a registry that is empty at first or
has the types that are there from the start: an expression whose parameters have types that can be
used alone compiles exactly if no name of a group is written twice in the patterns of its parameters
and its pattern is within the limits of the engine. And a type can be used alone exactly if no name
is written twice in its own patterns and they are within the limits, joined and as a parameter,
provided each of them but the last leaves the verbose flag off and Unicode mode on, and the last one
has no comment that is open at its end. -/
theorem compiles_iff_distinct [Engine] (builtins : Bool) (calls : List Call) :
    let registry := after (if builtins then {} else .empty) calls
    (∀ text nodes, Expression.nodes text.toList = .ok nodes →
      (∀ name ∈ nodes.filterMap nodeName?, ∃ type, registry.get? name = some type ∧
        Usable registry type) →
      ∃ s, Expression.Source.ofText registry text = .ok s ∧
        ((∃ e, Expression.compile registry text = .ok e) ↔
          (parameterNames registry nodes).Nodup ∧ Engine.admits s.pattern = true)) ∧
    ∀ type ∈ registry.types,
      (∀ regexp ∈ type.regexps.dropLast, endsPlain regexp.toList = true) →
      (∀ regexp ∈ type.regexps.getLast?, closesComments regexp.toList = true) →
      (Usable registry type ↔
        (type.regexps.flatMap fun regexp => writtenNames regexp.toList).Nodup ∧
          Engine.admits type.regexSource.toList = true ∧
          Engine.admits ('^' :: '(' :: type.regexSource.toList ++ [')', '$']) = true) := by
  intro registry
  have hnamed : Named registry := runs_named builtins calls
  constructor
  · intro text nodes hn ht
    refine compile_iff_of_groupable hn fun name hm => ?_
    obtain ⟨type, hget, hu⟩ := ht name hm
    obtain ⟨htype, rfl⟩ := hnamed.indexed.get?_eq_some.mp hget
    obtain ⟨ns, r, hg, hr⟩ := groupable_of_usable (hnamed.legal type htype) hget hu
    exact ⟨type, ns, r, hget, hg, hr⟩
  · intro type htype hplain hlast
    have hg := groupable_of_checked (after_checked builtins calls type htype) hplain hlast
    exact usable_iff_of_groupable (hnamed.legal type htype) (hnamed.get? htype) hg

def sampleType : ParameterType where
  name := "t"
  regexps := ["(?i)(?P<n>a)", "(?x) b # c\n"]

theorem compiles_iff_distinct_sample :
    Usable (after .empty [.define sampleType]) sampleType ∧
      (∃ e, Expression.compile (after .empty [.define sampleType]) "\x7bt\x7d b" = .ok e) ∧
      ¬ ∃ e, Expression.compile (after .empty [.define sampleType]) "\x7bt\x7d \x7bt\x7d" =
        .ok e := by
  have htypes : (after .empty [.define sampleType]).types = [sampleType] := rfl
  have hget : (after .empty [.define sampleType]).get? "t" = some sampleType := rfl
  have hnames : writtenNames sampleType.regexSource.toList = ["n"] := by decide +kernel
  have hone : Expression.nodes "\x7bt\x7d b".toList =
      .ok [.parameter "t" 0, .part (.text " "), .part (.text "b")] := by decide +kernel
  have htwo : Expression.nodes "\x7bt\x7d \x7bt\x7d".toList =
      .ok [.parameter "t" 0, .part (.text " "), .parameter "t" 4] := by decide +kernel
  have hadmits : (Expression.Source.ofText (after .empty [.define sampleType])
      "\x7bt\x7d b").toOption.map (fun s => Engine.admits s.pattern) = some true := by
    decide +kernel
  obtain ⟨hexpr, htype⟩ := compiles_iff_distinct false [.define sampleType]
  rw [if_neg Bool.false_ne_true] at hexpr htype
  -- From here on it does not matter how the registry came about.
  generalize after .empty [.define sampleType] = registry at *
  have husable : Usable registry sampleType := by
    refine (htype sampleType (by simp [htypes]) (by decide) ?_).mpr
      ⟨by decide, by decide, by decide⟩
    intro regexp hm
    cases hm
    decide
  obtain ⟨s, hs, honce⟩ := hexpr _ _ hone fun name hm => by
    obtain rfl : name = "t" := by simpa [nodeName?] using hm
    exact ⟨sampleType, hget, husable⟩
  obtain ⟨_, -, htwice⟩ := hexpr _ _ htwo fun name hm => by
    obtain rfl : name = "t" := by simpa [nodeName?, eq_comm] using hm
    exact ⟨sampleType, hget, husable⟩
  rw [hs] at hadmits
  refine ⟨husable, honce.mpr ⟨?_, Option.some.inj hadmits⟩, fun he => ?_⟩
  · simp [parameterNames, nodeName?, List.filterMap_cons, hget, hnames]
  · have hnodup := (htwice.mp he).1
    simp [parameterNames, nodeName?, hget, hnames] at hnodup

/-- A type is defined without an error, but an expression that is well-formed and names only types
that are there does not compile. -/
def Fails (type : ParameterType) (text : String) (nodes : List Node) : Prop :=
  (perform .empty (.define type)).1 = .ok true ∧
    Expression.nodes text.toList = .ok nodes ∧
    (∀ name ∈ nodes.filterMap nodeName?, ((after .empty [.define type]).get? name).isSome) ∧
    (Expression.compile (after .empty [.define type]) text).isOk = false

/-- A name comes up twice, a comment swallows a parenthesis, a flag is left behind. -/
theorem defined_fails :
    Fails { name := "t", regexps := ["(?P<n>a)"] } "\x7bt\x7d \x7bt\x7d"
        [.parameter "t" 0, .part (.text " "), .parameter "t" 4] ∧
      Fails { name := "t", regexps := ["(?x)a#"] } "\x7bt\x7d" [.parameter "t" 0] ∧
      Fails { name := "t", regexps := ["(?-u)a", "."] } "\x7bt\x7d" [.parameter "t" 0] := by
  unfold Fails
  decide +kernel

end Brine.Proofs.UsableTypes
