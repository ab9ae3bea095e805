import Brine.Proofs.ExpressionPatterns
import Brine.Proofs.ExpressionPositions
import Mathlib.Data.List.Basic

namespace Brine.Proofs.ExpressionGrammar
open Expression Success ExpressionReading ExpressionChoices ExpressionPatterns ExpressionPositions

def HasChar (items : List Item) : Prop :=
  ∃ c, .char c ∈ items

/-- Items that may stand between two blanks: if there is a slash then there is no parameter, and
each of the alternatives that the slashes separate has a character. -/
def Allowed (run : List Item) : Prop :=
  .slash ∈ run → (∀ name, .parameter name ∉ run) ∧
    ∀ alternative ∈ run.splitOn .slash, HasChar alternative

def AllowedRuns (items : List Item) : Prop :=
  ∀ run ∈ items.splitOnP isSpace, Allowed run

variable {source : List Char} {items run before after : List Item}
  {segment tokens us vs : List Token}

theorem splitOn_slash (before after : List Item) : (before ++ .slash :: after).splitOn .slash =
    before.splitOn .slash ++ after.splitOn .slash :=
  List.splitOnP_append_cons _ _ (by simp)

/-- The first alternative goes up to the first slash. -/
theorem splitOn_head (items : List Item) :
    ∃ more, items.splitOn .slash = items.takeWhile (· ≠ .slash) :: more := by
  induction items with
  | nil => exact ⟨[], rfl⟩
  | cons i items ih =>
    obtain ⟨more, ih⟩ := ih
    rw [List.splitOn_cons_eq_if_modifyHead, ih]
    by_cases hi : i = .slash
    · rw [if_pos (by simpa using hi)]
      exact ⟨items.takeWhile (· ≠ .slash) :: more, by simp [hi]⟩
    · rw [if_neg (by simpa using hi)]
      exact ⟨more, by simp [hi]⟩

theorem allowedRuns_single (h : ∀ i ∈ run, isSpace i = false) : AllowedRuns run ↔ Allowed run := by
  rw [AllowedRuns, List.splitOnP_eq_singleton h]
  simp

/-- A stretch of blanks. -/
theorem allowedRuns_blanks (h : ∀ i ∈ run, isSpace i = false) {blanks : List Char}
    (hb : blanks ≠ []) : AllowedRuns (run ++ (blanks.map .blank ++ items)) ↔
      Allowed run ∧ AllowedRuns items := by
  induction blanks generalizing run with
  | nil => contradiction
  | cons c blanks ih =>
    rw [AllowedRuns, List.map_cons, List.cons_append,
      List.splitOnP_append_cons_of_forall_mem h _ rfl, List.forall_mem_cons]
    cases blanks with
    | nil => rfl
    | cons c' blanks =>
      -- Between two blanks there is nothing, so nothing is wrong.
      have hmore : AllowedRuns ((c' :: blanks).map .blank ++ items) ↔ AllowedRuns items := by
        have h := @ih [] (by simp) (by simp)
        simpa [Allowed] using h
      rw [← AllowedRuns, hmore]

/-- No token is empty. -/
def Filled (tokens : List Token) : Prop :=
  ∀ t ∈ tokens, tokenItems t ≠ []

theorem tokens_filled (h : Expression.tokens source = .ok tokens) : Filled tokens := by
  have hat : ResultAt source (.ok tokens) := h ▸ tokens_at source
  intro t ht
  have h := hat t ht
  cases t with
  | text t | space t =>
    have h : t.toList ≠ [] := h
    simpa [tokenItems] using h
  | parameter name start | optional t | slash position => simp [tokenItems]

theorem slash_mem_items : .slash ∈ segment.flatMap tokenItems ↔
    segment.filterMap Token.slash? ≠ [] := by
  induction segment with
  | nil => simp
  | cons t segment ih =>
    rw [List.flatMap_cons, List.mem_append, ih]
    cases t <;> simp [tokenItems, Token.slash?]

theorem items_slash (us vs : List Token) (p : Nat) : (us ++ .slash p :: vs).flatMap tokenItems =
    us.flatMap tokenItems ++ .slash :: vs.flatMap tokenItems := by
  simp [tokenItems]

theorem parameter_mem_items {name : String} : .parameter name ∈ segment.flatMap tokenItems ↔
    ∃ start, .parameter name start ∈ segment := by
  induction segment with
  | nil => simp
  | cons t segment ih =>
    rw [List.flatMap_cons, List.mem_append, ih]
    cases t <;> simp [tokenItems, exists_or]

theorem alternatives_filled {first : List Part} {more : List (List Part)} (h : Filled segment)
    (ha : alternatives segment = .ok (first, more)) :
    ∀ parts ∈ first :: more, ∀ p ∈ parts, partItems p ≠ [] := by
  induction segment generalizing first more with
  | nil =>
    cases ha
    simp
  | cons t segment ih =>
    obtain ⟨ht, hrest⟩ := List.forall_mem_cons.mp h
    cases t with
    | parameter name start => contradiction
    | slash position =>
      simp only [alternatives, bind_eq_ok, pure_eq_ok, Prod.exists, Prod.mk.injEq] at ha
      obtain ⟨first', more', ha, rfl, rfl⟩ := ha
      exact List.forall_mem_cons.mpr ⟨by simp, ih hrest ha⟩
    | optional t =>
      simp only [alternatives, bind_eq_ok, pure_eq_ok, Prod.exists, Prod.mk.injEq] at ha
      obtain ⟨first', more', ha, rfl, rfl⟩ := ha
      obtain ⟨hfirst, hmore⟩ := List.forall_mem_cons.mp (ih hrest ha)
      exact List.forall_mem_cons.mpr ⟨List.forall_mem_cons.mpr ⟨ht, hfirst⟩, hmore⟩
    | text t | space t =>
      simp only [alternatives, bind_eq_ok, pure_eq_ok, Prod.exists, Prod.mk.injEq] at ha
      obtain ⟨first', more', ha, rfl, rfl⟩ := ha
      obtain ⟨hfirst, hmore⟩ := List.forall_mem_cons.mp (ih hrest ha)
      refine List.forall_mem_cons.mpr ⟨List.forall_mem_cons.mpr ⟨?_, hfirst⟩, hmore⟩
      simpa [partItems, tokenItems] using ht

theorem alternatives_error {e : Error} (h : alternatives segment = .error e) :
    ∃ name start, .parameter name start ∈ segment ∧ e = .parameterInAlternation start := by
  induction segment with
  | nil => contradiction
  | cons t segment ih =>
    cases t with
    | parameter name start =>
      cases h
      exact ⟨name, start, List.mem_cons_self, rfl⟩
    | slash position | text t | space t | optional t =>
      have h : alternatives segment = .error e := by
        rw [alternatives] at h
        cases ha : alternatives segment with
        | error e' =>
          rw [ha] at h
          exact h
        | ok result =>
          rw [ha] at h
          cases h
      obtain ⟨name, start, hm, he⟩ := ih h
      exact ⟨name, start, List.mem_cons_of_mem _ hm, he⟩

theorem hasChar_parts {parts : List Part} (h : ∀ p ∈ parts, partItems p ≠ []) :
    parts.any Part.isText = true ↔ HasChar (parts.flatMap partItems) := by
  rw [List.any_eq_true]
  constructor
  · intro hp
    obtain ⟨p, hm, hp⟩ := hp
    cases p with
    | optional t => contradiction
    | text t =>
      have hne : t.toList ≠ [] := by simpa [partItems] using h _ hm
      obtain ⟨c, hc⟩ := List.exists_mem_of_ne_nil _ hne
      exact ⟨c, List.mem_flatMap.mpr ⟨_, hm, List.mem_map_of_mem hc⟩⟩
  · intro hc
    obtain ⟨c, hc⟩ := hc
    obtain ⟨p, hm, hc⟩ := List.mem_flatMap.mp hc
    cases p with
    | text t => exact ⟨_, hm, rfl⟩
    | optional t => simp [partItems] at hc

/-- The slash between `before` and `after` bounds the first alternative that has no character: that
alternative stands before it and is the first of all, or stands after it. -/
inductive Bounds (before after : List Item) : Prop
  | first : .slash ∉ before → ¬HasChar before → Bounds before after
  | next : (∀ alternative ∈ before.splitOn .slash, HasChar alternative) →
      ¬HasChar (after.takeWhile (· ≠ .slash)) → Bounds before after

theorem Bounds.not_allowed (h : Bounds before after) : ¬Allowed (before ++ .slash :: after) := by
  intro ha
  obtain ⟨-, ha⟩ := ha (by simp)
  rw [splitOn_slash] at ha
  cases h with
  | first hslash hc =>
    rw [List.splitOn_eq_singleton hslash] at ha
    exact hc (ha before (by simp))
  | next _ hc =>
    obtain ⟨more, hhead⟩ := splitOn_head after
    exact hc (ha _ (by simp [hhead]))

inductive Refused (segment : List Token) : Error → Prop
  | parameter {name : String} {start : Nat} : segment.filterMap Token.slash? ≠ [] →
      .parameter name start ∈ segment → Refused segment (.parameterInAlternation start)
  | alternative {us vs : List Token} {p : Nat} : segment = us ++ .slash p :: vs →
      Bounds (us.flatMap tokenItems) (vs.flatMap tokenItems) → Refused segment (.emptyAlternative p)

theorem Refused.not_allowed {e : Error} (h : Refused segment e) :
    ¬Allowed (segment.flatMap tokenItems) := by
  cases h with
  | parameter hslash hm =>
    intro ha
    exact (ha (slash_mem_items.mpr hslash)).1 _ (parameter_mem_items.mpr ⟨_, hm⟩)
  | alternative hs hb =>
    rw [hs, items_slash]
    exact hb.not_allowed

/-- Slashes separate one alternative more than there are slashes. -/
theorem length_splitOn (segment : List Token) :
    ((segment.flatMap tokenItems).splitOn .slash).length =
      (segment.filterMap Token.slash?).length + 1 := by
  induction segment with
  | nil => rfl
  | cons t segment ih =>
    cases t with
    | slash position =>
      have hcons := items_slash [] segment position
      rw [List.nil_append] at hcons
      rw [hcons, splitOn_slash, List.length_append, ih]
      simp [Token.slash?, Nat.add_comm]
    | parameter name start | optional t | text t | space t =>
      rw [List.flatMap_cons, splitOn_append (by simp [tokenItems]), List.length_modifyHead, ih]
      rfl

/-- The slash with some number among those of a list. -/
theorem slash_split {k p : Nat} (h : (segment.filterMap Token.slash?)[k]? = some p) :
    ∃ us vs, segment = us ++ .slash p :: vs ∧ (us.filterMap Token.slash?).length = k := by
  induction segment generalizing k with
  | nil => simp at h
  | cons t segment ih =>
    cases ht : t.slash? with
    | none =>
      rw [List.filterMap_cons_none ht] at h
      obtain ⟨us, vs, rfl, hk⟩ := ih h
      exact ⟨t :: us, vs, rfl, by rw [List.filterMap_cons_none ht, hk]⟩
    | some q =>
      rw [List.filterMap_cons_some ht] at h
      cases k with
      | zero =>
        cases t <;> cases ht
        cases h
        exact ⟨[], segment, rfl, rfl⟩
      | succ k =>
        obtain ⟨us, vs, rfl, hk⟩ := ih h
        exact ⟨t :: us, vs, rfl, by rw [List.filterMap_cons_some ht, List.length_cons, hk]⟩

/-- The first alternative without a character. -/
theorem first_empty {alternatives : List (List Part)} {i : Nat}
    (hf : ∀ parts ∈ alternatives, ∀ p ∈ parts, partItems p ≠ [])
    (h : (alternatives.findIdx? fun parts => !parts.any Part.isText) = some i) :
    ∃ before empty after, alternatives.map (·.flatMap partItems) = before ++ empty :: after ∧
      before.length = i ∧ ¬HasChar empty ∧ ∀ alternative ∈ before, HasChar alternative := by
  induction alternatives generalizing i with
  | nil => simp at h
  | cons parts alternatives ih =>
    obtain ⟨hparts, hrest⟩ := List.forall_mem_cons.mp hf
    rw [List.findIdx?_cons] at h
    have hchar := hasChar_parts hparts
    split at h
    · rename_i hnone
      cases h
      refine ⟨[], _, _, rfl, rfl, ?_, by simp⟩
      rw [← hchar]
      simpa using hnone
    · rename_i hsome
      obtain ⟨i, hi, rfl⟩ := Option.map_eq_some_iff.mp h
      obtain ⟨before, empty, after, hmap, hlength, hempty, hall⟩ := ih hrest hi
      refine ⟨parts.flatMap partItems :: before, empty, after, by simp [hmap], by simp [hlength],
        hempty, List.forall_mem_cons.mpr ⟨hchar.mp ?_, hall⟩⟩
      simpa using hsome

theorem refused_alternative {first : List Part} {more : List (List Part)} {p : Nat}
    (hs : Solid segment) (hf : Filled segment) (hne : segment.filterMap Token.slash? ≠ [])
    (ha : alternatives segment = .ok (first, more))
    (h : emptyAlternative? (segment.filterMap Token.slash?) (first :: more) = some p) :
    Refused segment (.emptyAlternative p) := by
  obtain ⟨i, hi, hp⟩ := Option.map_eq_some_iff.mp h
  obtain ⟨before, empty, after, hmap, rfl, hempty, hall⟩ :=
    first_empty (alternatives_filled hf ha) hi
  rw [alternatives_items hs ha] at hmap
  have hslash : (segment.filterMap Token.slash?)[before.length - 1]? = some p := by
    have hlength := congrArg List.length hmap
    rw [length_splitOn, List.length_append, List.length_cons] at hlength
    have hlt : before.length - 1 < (segment.filterMap Token.slash?).length := by
      have := List.length_pos_of_ne_nil hne
      omega
    rw [← hp, List.getD_eq_getElem?_getD, List.getElem?_eq_getElem hlt, Option.getD_some]
  obtain ⟨us, vs, rfl, hk⟩ := slash_split hslash
  have hlength := length_splitOn us
  rw [items_slash, splitOn_slash] at hmap
  refine .alternative rfl ?_
  cases before with
  | nil =>
    have hnone : us.filterMap Token.slash? = [] := List.eq_nil_of_length_eq_zero hk
    have hus : .slash ∉ us.flatMap tokenItems := fun hm => slash_mem_items.mp hm hnone
    rw [List.splitOn_eq_singleton hus] at hmap
    obtain ⟨rfl, -⟩ := List.cons.inj hmap
    exact .first hus hempty
  | cons alternative before =>
    rw [hk] at hlength
    obtain ⟨hus, hvs⟩ := List.append_inj hmap hlength
    obtain ⟨_, hhead⟩ := splitOn_head (vs.flatMap tokenItems)
    rw [hhead] at hvs
    obtain ⟨rfl, -⟩ := List.cons.inj hvs
    exact .next (hus ▸ hall) hempty

theorem segmentNodes_error {e : Error} (hs : Solid segment) (hf : Filled segment)
    (h : segmentNodes segment = .error e) : Refused segment e := by
  unfold segmentNodes at h
  split at h
  · contradiction
  · rename_i hne
    cases ha : alternatives segment with
    | error e' =>
      rw [ha] at h
      cases h
      obtain ⟨name, start, hm, rfl⟩ := alternatives_error ha
      exact .parameter hne hm
    | ok result =>
      obtain ⟨first, more⟩ := result
      rw [ha, ok_bind] at h
      dsimp only at h
      split at h
      · rename_i hp
        cases h
        exact refused_alternative hs hf hne ha hp
      · contradiction

theorem segmentNodes_allowed {nodes : List Node} (hs : Solid segment) (hf : Filled segment)
    (h : segmentNodes segment = .ok nodes) : Allowed (segment.flatMap tokenItems) := by
  intro hslash
  cases stretchNodes_of_segment h with
  | plain hnone => exact absurd hnone (slash_mem_items.mp hslash)
  | choice _ ha hnone =>
    constructor
    · intro name hm
      have hnames := names_alternatives ha
      rw [List.filterMap_eq_nil_iff] at hnames
      have hn := hnames _ hm
      contradiction
    · rw [← alternatives_items hs ha, List.forall_mem_map]
      intro parts hm
      rw [← hasChar_parts (alternatives_filled hf ha parts hm)]
      rw [emptyAlternative?, Option.map_eq_none_iff, List.findIdx?_eq_none_iff] at hnone
      simpa using hnone parts hm

theorem segmentNodes_ok_iff (hs : Solid segment) (hf : Filled segment) :
    (∃ nodes, segmentNodes segment = .ok nodes) ↔ Allowed (segment.flatMap tokenItems) := by
  constructor
  · intro h
    obtain ⟨nodes, h⟩ := h
    exact segmentNodes_allowed hs hf h
  · intro ha
    cases h : segmentNodes segment with
    | ok nodes => exact ⟨nodes, rfl⟩
    | error e => exact absurd ha (segmentNodes_error hs hf h).not_allowed

variable {registry : Registry}

theorem nodesFrom_ok_iff (h : Solid segment) (hs : Spaced tokens)
    (hf : Filled (segment.reverse ++ tokens)) :
    (∃ nodes, nodesFrom segment tokens = .ok nodes) ↔
      AllowedRuns ((segment.reverse ++ tokens).flatMap tokenItems) := by
  fun_induction nodesFrom segment tokens with
  | case1 segment =>
    rw [List.append_nil] at hf ⊢
    rw [allowedRuns_single (solid_items h.reverse), segmentNodes_ok_iff h.reverse hf]
  | case2 segment t rest ih =>
    have hrest : (∃ nodes, nodesFrom [] rest = .ok nodes) ↔
        AllowedRuns (rest.flatMap tokenItems) :=
      ih solid_nil (fun u hu => hs u (List.mem_cons_of_mem _ hu))
        fun u hu => hf u (List.mem_append_right _ (List.mem_cons_of_mem _ hu))
    rw [items_space, allowedRuns_blanks (solid_items h.reverse) (hs t List.mem_cons_self),
      ← segmentNodes_ok_iff h.reverse fun u hu => hf u (List.mem_append_left _ hu), ← hrest]
    simp only [bind_eq_ok, pure_eq_ok]
    constructor
    · intro hn
      obtain ⟨_, before, hb, after, ha, rfl⟩ := hn
      exact ⟨⟨before, hb⟩, after, ha⟩
    · intro hn
      obtain ⟨⟨before, hb⟩, after, ha⟩ := hn
      exact ⟨_, before, hb, after, ha, rfl⟩
  | case3 segment t rest ht ih =>
    have hcons : segment.reverse ++ t :: rest = (t :: segment).reverse ++ rest := by simp
    rw [hcons] at hf ⊢
    exact ih (h.cons ht) (fun u hu => hs u (List.mem_cons_of_mem _ hu)) hf

/-- A source has nodes exactly if it stands for items that are allowed between its blanks. -/
theorem nodes_ok_iff : (∃ nodes, Expression.nodes source = .ok nodes) ↔
    ∃ items, Reads source items ∧ AllowedRuns items := by
  have htokens {ts : List Token} (h : Expression.tokens source = .ok ts) :
      (∃ nodes, nodesFrom [] ts = .ok nodes) ↔ AllowedRuns (ts.flatMap tokenItems) :=
    nodesFrom_ok_iff solid_nil (tokens_reads h).2 (tokens_filled h)
  simp only [Expression.nodes, bind_eq_ok]
  constructor
  · intro h
    obtain ⟨nodes, ts, ht, hn⟩ := h
    exact ⟨_, (tokens_reads ht).1, (htokens ht).mp ⟨nodes, hn⟩⟩
  · intro h
    obtain ⟨items, hr, ha⟩ := h
    obtain ⟨ts, ht⟩ := scan_of_reads hr (.inl rfl) 0 []
    rw [← reads_unique hr (tokens_reads ht).1] at ha
    obtain ⟨nodes, hn⟩ := (htokens ht).mpr ha
    exact ⟨nodes, ts, ht, hn⟩

section
variable [Regex.Engine]

theorem sourceFrom_named {nodes : List Node} {group : Nat} {s : Source}
    (h : sourceFrom registry group nodes = .ok s) :
    ∀ name ∈ nodes.filterMap nodeName?, ∃ type, registry.get? name = some type := by
  fun_induction sourceFrom registry group nodes generalizing s with
  | case1 => simp
  | case2 group p rest ih | case3 group alternatives rest ih =>
    simp only [bind_eq_ok, pure_eq_ok] at h
    obtain ⟨s', hs, -⟩ := h
    exact ih hs
  | case4 => contradiction
  | case5 => contradiction
  | case6 group name start rest type htype regex hr ih =>
    simp only [bind_eq_ok, pure_eq_ok] at h
    obtain ⟨s', hs, -⟩ := h
    exact List.forall_mem_cons.mpr ⟨⟨type, htype⟩, ih hs⟩

/-- A text is an expression exactly if it is a sequence of characters, escapes, parameters, optional
texts and slashes, its parameters have types, and whatever stands between two blanks has no slash,
or else no parameter and a character in each of its alternatives. -/
theorem ofText_ok_iff {text : String}
    (h : ∀ type ∈ registry.types, ∃ regex, type.regex = .ok regex) :
    (∃ s, Source.ofText registry text = .ok s) ↔
      ∃ items, Reads text.toList items ∧
        (∀ name, .parameter name ∈ items → ∃ type, registry.get? name = some type) ∧
        ∀ run ∈ items.splitOnP isSpace, Allowed run := by
  have hnames {items : List Item} (name : String) :
      name ∈ items.filterMap itemName? ↔ .parameter name ∈ items := by
    rw [List.mem_filterMap]
    constructor
    · intro hm
      obtain ⟨i, hi, hn⟩ := hm
      cases i <;> cases hn
      exact hi
    · intro hm
      exact ⟨_, hm, rfl⟩
  simp only [Source.ofText, bind_eq_ok, pure_eq_ok]
  constructor
  · intro hs
    obtain ⟨_, nodes, hn, s, hs, -⟩ := hs
    obtain ⟨items, hr, ha⟩ := nodes_ok_iff.mp ⟨nodes, hn⟩
    obtain ⟨items', hr', -, hnodes⟩ := picks_nodes hn
    obtain rfl := reads_unique hr' hr
    refine ⟨items, hr, fun name hm => ?_, ha⟩
    exact sourceFrom_named hs name (hnodes ▸ (hnames name).mpr hm)
  · intro hi
    obtain ⟨items, hr, hget, ha⟩ := hi
    obtain ⟨nodes, hn⟩ := nodes_ok_iff.mpr ⟨items, hr, ha⟩
    obtain ⟨items', hr', -, hnodes⟩ := picks_nodes hn
    obtain rfl := reads_unique hr' hr
    obtain ⟨s, hs⟩ : ∃ s, sourceFrom registry 1 nodes = .ok s := by
      refine sourceFrom_ok 1 fun name hm => ?_
      obtain ⟨type, htype⟩ := hget name ((hnames name).mp (hnodes ▸ hm))
      obtain ⟨regex, hregex⟩ := h type (mem_of_get? htype)
      exact ⟨type, regex, htype, hregex⟩
    exact ⟨_, nodes, hn, s, hs, rfl⟩

end

/-- With the types that are there from the start: a text with a choice, an optional text and an
escaped slash is an expression, and one whose first alternative may be left out is none. -/
theorem ofText_ok_iff_sample :
    (∀ type ∈ ({} : Registry).types, ∃ regex, type.regex = .ok regex) ∧
      (∃ items, Reads "\x7bint\x7d cup(s)/mug \\/".toList items ∧
        (∀ name, .parameter name ∈ items → ∃ type, ({} : Registry).get? name = some type) ∧
        ∀ run ∈ items.splitOnP isSpace, Allowed run) ∧
      ¬∃ items, Reads "\x7bint\x7d (s)/mug".toList items ∧
        (∀ name, .parameter name ∈ items → ∃ type, ({} : Registry).get? name = some type) ∧
        ∀ run ∈ items.splitOnP isSpace, Allowed run := by
  have hall : ParameterType.builtins.all (fun type => type.regex.toOption.isSome) = true := by
    decide +kernel
  have h : ∀ type ∈ ({} : Registry).types, ∃ regex, type.regex = .ok regex := by
    intro type hm
    have hsome := List.all_eq_true.mp hall type hm
    cases hr : type.regex with
    | ok regex => exact ⟨regex, rfl⟩
    | error e => simp [hr, Except.toOption] at hsome
  have hyes : (Source.ofText {} "\x7bint\x7d cup(s)/mug \\/").toOption.isSome = true := by
    decide +kernel
  have hno : (Source.ofText {} "\x7bint\x7d (s)/mug").toOption.isSome = false := by
    decide +kernel
  refine ⟨h, (ofText_ok_iff h).mp ?_, (ofText_ok_iff h).not.mp ?_⟩
  · cases hs : Source.ofText {} "\x7bint\x7d cup(s)/mug \\/" with
    | ok s => exact ⟨s, rfl⟩
    | error e => simp [hs, Except.toOption] at hyes
  · intro hs
    obtain ⟨s, hs⟩ := hs
    simp [hs, Except.toOption] at hno

end Brine.Proofs.ExpressionGrammar
