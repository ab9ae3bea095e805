import Brine.Expression.Node
import Brine.Proofs.ExpressionReading
import Mathlib.Data.List.Basic

namespace Brine.Proofs.ExpressionChoices
open Expression Success ExpressionReading

variable {source : List Char} {items items' : List Item}

def isSpace : Item → Bool
  | .blank _ => true
  | _ => false

/-- Ways to choose: of each stretch between blanks, one of the alternatives that its slashes
separate. Without a slash there is one. -/
inductive Chooses : List Item → List Item → Prop
  | last {segment alternative : List Item} : (∀ i ∈ segment, isSpace i = false) →
      alternative ∈ segment.splitOn .slash → Chooses segment alternative
  | cons {segment alternative items chosen : List Item} {c : Char} :
      (∀ i ∈ segment, isSpace i = false) → alternative ∈ segment.splitOn .slash →
      Chooses items chosen →
      Chooses (segment ++ .blank c :: items) (alternative ++ .char c :: chosen)

section
variable {segment chosen : List Item} {c : Char}

theorem chooses_segment (h : ∀ i ∈ segment, isSpace i = false) :
    Chooses segment chosen ↔ chosen ∈ segment.splitOn .slash := by
  constructor
  · intro hc
    cases hc with
    | last _ ha => exact ha
    | @cons _ _ _ _ c _ _ _ =>
      have hb := h (.blank c) (by simp)
      simp [isSpace] at hb
  · exact .last h

theorem chooses_cons (h : ∀ i ∈ segment, isSpace i = false) :
    Chooses (segment ++ .blank c :: items) chosen ↔
      ∃ alternative chosen', alternative ∈ segment.splitOn .slash ∧ Chooses items chosen' ∧
        chosen = alternative ++ .char c :: chosen' := by
  constructor
  · intro hc
    generalize he : segment ++ .blank c :: items = all at hc
    cases hc with
    | last hs _ =>
      subst he
      exact absurd (hs (.blank c) (by simp)) (by simp [isSpace])
    | cons hs ha hc =>
      obtain ⟨rfl, hc', rfl⟩ := cut_unique (p := (isSpace · = true)) (by simpa using h)
        (by simpa using hs) rfl rfl he
      cases hc'
      exact ⟨_, _, ha, hc, rfl⟩
  · rintro ⟨alternative, chosen', ha, hc, rfl⟩
    exact .cons h ha hc

/-- A stretch of blanks. -/
theorem chooses_blanks (h : ∀ i ∈ segment, isSpace i = false) {blanks : List Char}
    (hb : blanks ≠ []) :
    Chooses (segment ++ (blanks.map .blank ++ items)) chosen ↔
      ∃ alternative chosen', alternative ∈ segment.splitOn .slash ∧ Chooses items chosen' ∧
        chosen = alternative ++ (blanks.map .char ++ chosen') := by
  induction blanks generalizing segment chosen with
  | nil => contradiction
  | cons c blanks ih =>
    rw [List.map_cons, List.cons_append, chooses_cons h]
    cases blanks with
    | nil => simp
    | cons c' blanks =>
      -- Between two blanks there is the empty stretch, with one alternative.
      have hmore (chosen' : List Item) : Chooses ((c' :: blanks).map .blank ++ items) chosen' ↔
          ∃ chosen'', Chooses items chosen'' ∧
            chosen' = (c' :: blanks).map .char ++ chosen'' := by
        have h := @ih [] chosen' (by simp) (by simp)
        simpa using h
      constructor
      · rintro ⟨alternative, chosen', ha, hc, rfl⟩
        obtain ⟨chosen'', hc', rfl⟩ := (hmore chosen').mp hc
        exact ⟨alternative, chosen'', ha, hc', rfl⟩
      · rintro ⟨alternative, chosen'', ha, hc, rfl⟩
        exact ⟨alternative, _, ha, (hmore _).mpr ⟨chosen'', hc, rfl⟩, rfl⟩

end

def partItems : Part → List Item
  | .text t => t.toList.map .char
  | .optional t => [.optional t.toList]

inductive Picks : List Node → List Item → Prop
  | nil : Picks [] []
  | part {p : Part} {nodes : List Node} {chosen : List Item} : Picks nodes chosen →
      Picks (.part p :: nodes) (partItems p ++ chosen)
  | parameter {name : String} {start : Nat} {nodes : List Node} {chosen : List Item} :
      Picks nodes chosen → Picks (.parameter name start :: nodes) (.parameter name :: chosen)
  | choice {alternatives : List (List Part)} {alternative : List Part} {nodes : List Node}
      {chosen : List Item} : alternative ∈ alternatives → Picks nodes chosen →
      Picks (.choice alternatives :: nodes) (alternative.flatMap partItems ++ chosen)

section
variable {nodes nodes' : List Node} {tokens segment : List Token} {chosen : List Item}

theorem picks_append : Picks (nodes ++ nodes') chosen ↔
    ∃ chosen₁ chosen₂, Picks nodes chosen₁ ∧ Picks nodes' chosen₂ ∧
      chosen = chosen₁ ++ chosen₂ := by
  induction nodes generalizing chosen with
  | nil =>
    constructor
    · intro h
      exact ⟨[], chosen, .nil, h, rfl⟩
    · rintro ⟨_, _, ⟨⟩, h, rfl⟩
      exact h
  | cons node nodes ih =>
    constructor
    · intro h
      cases h with
      | part h =>
        obtain ⟨chosen₁, chosen₂, h₁, h₂, rfl⟩ := ih.mp h
        exact ⟨_, chosen₂, .part h₁, h₂, by simp⟩
      | parameter h =>
        obtain ⟨chosen₁, chosen₂, h₁, h₂, rfl⟩ := ih.mp h
        exact ⟨_, chosen₂, .parameter h₁, h₂, by simp⟩
      | choice ha h =>
        obtain ⟨chosen₁, chosen₂, h₁, h₂, rfl⟩ := ih.mp h
        exact ⟨_, chosen₂, .choice ha h₁, h₂, by simp⟩
    · rintro ⟨chosen₁, chosen₂, h₁, h₂, rfl⟩
      cases h₁ with
      | part h₁ =>
        rw [List.append_assoc]
        exact .part (ih.mpr ⟨_, _, h₁, h₂, rfl⟩)
      | parameter h₁ => exact .parameter (ih.mpr ⟨_, _, h₁, h₂, rfl⟩)
      | choice ha h₁ =>
        rw [List.append_assoc]
        exact .choice ha (ih.mpr ⟨_, _, h₁, h₂, rfl⟩)

def Solid (tokens : List Token) : Prop :=
  ∀ t, .space t ∉ tokens

theorem solid_nil : Solid [] := by
  simp [Solid]

theorem Solid.reverse (h : Solid segment) : Solid segment.reverse :=
  fun t ht => h t (List.mem_reverse.mp ht)

theorem Solid.cons (h : Solid segment) {t : Token} (ht : ∀ text, t = .space text → False) :
    Solid (t :: segment) := by
  intro text hm
  rcases List.mem_cons.mp hm with he | hm
  · exact ht text he.symm
  · exact h text hm

/-- The items of tokens before and after a space. -/
theorem items_space (us : List Token) (t : String) (vs : List Token) :
    (us ++ .space t :: vs).flatMap tokenItems =
      us.flatMap tokenItems ++ (t.toList.map .blank ++ vs.flatMap tokenItems) := by
  simp [tokenItems]

theorem solid_items (h : Solid segment) : ∀ i ∈ segment.flatMap tokenItems, isSpace i = false := by
  intro i hi
  obtain ⟨t, ht, hi⟩ := List.mem_flatMap.mp hi
  cases t with
  | space t => exact absurd ht (h t)
  | text t =>
    obtain ⟨c, -, rfl⟩ := List.mem_map.mp hi
    rfl
  | parameter name start =>
    rw [List.mem_singleton.mp hi]
    rfl
  | optional t =>
    rw [List.mem_singleton.mp hi]
    rfl
  | slash position =>
    rw [List.mem_singleton.mp hi]
    rfl

/-- Without slashes there is nothing to choose. -/
theorem picks_plain (h : Solid segment) (hs : segment.filterMap Token.slash? = []) :
    Picks (segment.filterMap Token.node?) chosen ↔ chosen = segment.flatMap tokenItems := by
  induction segment generalizing chosen with
  | nil =>
    constructor
    · rintro ⟨⟩
      rfl
    · rintro rfl
      exact .nil
  | cons t segment ih =>
    have hsolid : Solid segment := fun u hu => h u (List.mem_cons_of_mem _ hu)
    cases t with
    | slash position => simp [Token.slash?] at hs
    | space t => exact absurd List.mem_cons_self (h t)
    | text t =>
      have hs : segment.filterMap Token.slash? = [] := by simpa [Token.slash?] using hs
      constructor
      · rintro (_ | hp | _ | _)
        rw [(ih hsolid hs).mp hp]
        rfl
      · rintro rfl
        exact .part ((ih hsolid hs).mpr rfl)
    | optional t =>
      have hs : segment.filterMap Token.slash? = [] := by simpa [Token.slash?] using hs
      constructor
      · rintro (_ | hp | _ | _)
        rw [(ih hsolid hs).mp hp]
        rfl
      · rintro rfl
        exact .part ((ih hsolid hs).mpr rfl)
    | parameter name start =>
      have hs : segment.filterMap Token.slash? = [] := by simpa [Token.slash?] using hs
      constructor
      · rintro (_ | _ | hp | _)
        rw [(ih hsolid hs).mp hp]
        rfl
      · rintro rfl
        exact .parameter ((ih hsolid hs).mpr rfl)

theorem splitOn_append {l l' : List Item} (h : .slash ∉ l) :
    (l ++ l').splitOn .slash = (l'.splitOn .slash).modifyHead (l ++ ·) := by
  induction l with
  | nil =>
    cases hl : l'.splitOn .slash with
    | nil => exact absurd hl (List.splitOn_ne_nil _ _)
    | cons a as => simp [hl]
  | cons i l ih =>
    rw [List.mem_cons, not_or] at h
    rw [List.cons_append, List.splitOn_cons_eq_if_modifyHead, if_neg (by simpa using Ne.symm h.1),
      ih h.2]
    cases l'.splitOn .slash <;> rfl

theorem alternatives_items {first : List Part} {more : List (List Part)} (h : Solid segment)
    (ha : alternatives segment = .ok (first, more)) :
    (first :: more).map (·.flatMap partItems) = (segment.flatMap tokenItems).splitOn .slash := by
  induction segment generalizing first more with
  | nil =>
    cases ha
    rfl
  | cons t segment ih =>
    have hsolid : Solid segment := fun u hu => h u (List.mem_cons_of_mem _ hu)
    cases t with
    | parameter name start => contradiction
    | space t => exact absurd List.mem_cons_self (h t)
    | slash position =>
      simp only [alternatives, bind_eq_ok, pure_eq_ok, Prod.exists, Prod.mk.injEq] at ha
      obtain ⟨first', more', ha, rfl, rfl⟩ := ha
      have hcons : (Token.slash position :: segment).flatMap tokenItems =
          .slash :: segment.flatMap tokenItems := rfl
      rw [hcons, List.splitOn_cons_eq_if_modifyHead, if_pos (by simp), ← ih hsolid ha]
      rfl
    | text t =>
      simp only [alternatives, bind_eq_ok, pure_eq_ok, Prod.exists, Prod.mk.injEq] at ha
      obtain ⟨first', more', ha, rfl, rfl⟩ := ha
      rw [List.flatMap_cons, splitOn_append (by simp [tokenItems]), ← ih hsolid ha]
      rfl
    | optional t =>
      simp only [alternatives, bind_eq_ok, pure_eq_ok, Prod.exists, Prod.mk.injEq] at ha
      obtain ⟨first', more', ha, rfl, rfl⟩ := ha
      rw [List.flatMap_cons, splitOn_append (by simp [tokenItems]), ← ih hsolid ha]
      rfl

inductive StretchNodes (segment : List Token) : List Node → Prop
  | plain : segment.filterMap Token.slash? = [] →
      StretchNodes segment (segment.filterMap Token.node?)
  | choice {first : List Part} {more : List (List Part)} :
      segment.filterMap Token.slash? ≠ [] → alternatives segment = .ok (first, more) →
      emptyAlternative? (segment.filterMap Token.slash?) (first :: more) = none →
      StretchNodes segment [.choice (first :: more)]

theorem stretchNodes_of_segment (hn : segmentNodes segment = .ok nodes) :
    StretchNodes segment nodes := by
  unfold segmentNodes at hn
  split at hn
  · rename_i hs
    cases hn
    exact .plain hs
  · rename_i hs
    simp only [bind_eq_ok, Prod.exists] at hn
    obtain ⟨first, more, ha, hn⟩ := hn
    split at hn
    · contradiction
    · rename_i he
      cases hn
      exact .choice hs ha he

/-- Of a stretch without space one alternative is chosen. -/
theorem picks_segment (h : Solid segment) (hn : segmentNodes segment = .ok nodes) :
    Picks nodes chosen ↔ chosen ∈ (segment.flatMap tokenItems).splitOn .slash := by
  cases stretchNodes_of_segment hn with
  | plain hs =>
    have hslash : .slash ∉ segment.flatMap tokenItems := by
      intro hm
      obtain ⟨t, ht, hi⟩ := List.mem_flatMap.mp hm
      cases t with
      | slash position =>
        have hp : position ∈ segment.filterMap Token.slash? :=
          List.mem_filterMap.mpr ⟨_, ht, rfl⟩
        simp [hs] at hp
      | _ => simp [tokenItems] at hi
    rw [picks_plain h hs, List.splitOn_eq_singleton hslash, List.mem_singleton]
  | @choice first more _ ha _ =>
    rw [← alternatives_items h ha]
    constructor
    · rintro (_ | _ | _ | ⟨hm, ⟨⟩⟩)
      rw [List.append_nil]
      exact List.mem_map_of_mem hm
    · intro hm
      obtain ⟨alternative, ha, rfl⟩ := List.mem_map.mp hm
      have hp : Picks [.choice (first :: more)] (alternative.flatMap partItems ++ []) :=
        .choice ha .nil
      simpa using hp

def Proper (nodes : List Node) : Prop :=
  ∀ alternatives, .choice alternatives ∈ nodes → alternatives ≠ []

theorem proper_segment (hn : segmentNodes segment = .ok nodes) : Proper nodes := by
  intro alts hm
  cases stretchNodes_of_segment hn with
  | plain =>
    obtain ⟨t, -, ht⟩ := List.mem_filterMap.mp hm
    cases t <;> simp [Token.node?] at ht
  | choice =>
    cases List.mem_singleton.mp hm
    exact List.cons_ne_nil _ _

theorem proper_nodesFrom (hn : nodesFrom segment tokens = .ok nodes) : Proper nodes := by
  fun_induction nodesFrom segment tokens generalizing nodes with
  | case1 segment => exact proper_segment hn
  | case2 segment t rest ih =>
    simp only [bind_eq_ok, pure_eq_ok] at hn
    obtain ⟨before, hb, after, ha, rfl⟩ := hn
    intro alts hm
    rcases List.mem_append.mp hm with hm | hm
    · exact proper_segment hb alts hm
    · rcases List.mem_cons.mp hm with heq | hm
      · cases heq
      · exact ih ha alts hm
  | case3 segment t rest _ ih => exact ih hn

theorem proper_nodes (hn : Expression.nodes source = .ok nodes) : Proper nodes := by
  simp only [Expression.nodes, bind_eq_ok] at hn
  obtain ⟨ts, -, hn⟩ := hn
  exact proper_nodesFrom hn

theorem picks_nodesFrom (h : Solid segment) (hs : Spaced tokens)
    (hn : nodesFrom segment tokens = .ok nodes) :
    Picks nodes chosen ↔ Chooses ((segment.reverse ++ tokens).flatMap tokenItems) chosen := by
  fun_induction nodesFrom segment tokens generalizing nodes chosen with
  | case1 segment =>
    rw [List.append_nil, chooses_segment (solid_items h.reverse)]
    exact picks_segment h.reverse hn
  | case2 segment t rest ih =>
    simp only [bind_eq_ok, pure_eq_ok] at hn
    obtain ⟨before, hb, after, ha, rfl⟩ := hn
    have ht : t.toList ≠ [] := hs t List.mem_cons_self
    have hrest : Spaced rest := fun u hu => hs u (List.mem_cons_of_mem _ hu)
    rw [items_space, chooses_blanks (solid_items h.reverse) ht, picks_append]
    constructor
    · rintro ⟨_, _, h₁, (_ | h₂ | _ | _), rfl⟩
      exact ⟨_, _, (picks_segment h.reverse hb).mp h₁, (ih solid_nil hrest ha).mp h₂, rfl⟩
    · rintro ⟨alternative, chosen', h₁, h₂, rfl⟩
      exact ⟨_, _, (picks_segment h.reverse hb).mpr h₁, .part ((ih solid_nil hrest ha).mpr h₂), rfl⟩
  | case3 segment t rest ht ih =>
    have hcons : segment.reverse ++ t :: rest = (t :: segment).reverse ++ rest := by simp
    rw [hcons]
    exact ih (h.cons ht) (fun u hu => hs u (List.mem_cons_of_mem _ hu)) hn

def itemName? : Item → Option String
  | .parameter name => some name
  | _ => none

def nodeName? : Node → Option String
  | .parameter name _ => some name
  | _ => none

theorem names_part (p : Part) : (partItems p).filterMap itemName? = [] := by
  cases p <;> simp [partItems, itemName?]

theorem names_parts (parts : List Part) :
    (parts.flatMap partItems).filterMap itemName? = [] := by
  induction parts with
  | nil => rfl
  | cons p parts ih => simpa [names_part] using ih

/-- Whatever is chosen, the parameters are there. -/
theorem Picks.names (h : Picks nodes chosen) :
    chosen.filterMap itemName? = nodes.filterMap nodeName? := by
  induction h with
  | nil => rfl
  | part _ ih =>
    rw [List.filterMap_append, names_part, ih]
    rfl
  | parameter _ ih => simp [itemName?, nodeName?, ih]
  | choice _ _ ih =>
    rw [List.filterMap_append, names_parts, ih]
    rfl

theorem names_token (t : Token) :
    (tokenItems t).filterMap itemName? = (t.node?.bind nodeName?).toList := by
  cases t with
  | text t | space t =>
    simp only [tokenItems, List.filterMap_map]
    exact List.filterMap_eq_nil_iff.mpr fun _ _ => rfl
  | parameter name start => rfl
  | optional t => rfl
  | slash position => rfl

theorem names_alternatives {result : List Part × List (List Part)}
    (h : alternatives segment = .ok result) :
    (segment.flatMap tokenItems).filterMap itemName? = [] := by
  induction segment generalizing result with
  | nil => rfl
  | cons t segment ih =>
    cases t with
    | parameter name start => contradiction
    | slash position | text t | space t | optional t =>
      simp only [alternatives, bind_eq_ok, pure_eq_ok] at h
      obtain ⟨_, ha, -⟩ := h
      rw [List.flatMap_cons, List.filterMap_append, names_token, ih ha]
      rfl

theorem names_segment (hn : segmentNodes segment = .ok nodes) :
    nodes.filterMap nodeName? = (segment.flatMap tokenItems).filterMap itemName? := by
  cases stretchNodes_of_segment hn with
  | plain =>
    rw [List.filterMap_filterMap, List.filterMap_eq_flatMap_toList, List.filterMap_flatMap]
    simp only [names_token]
  | choice _ ha _ =>
    rw [names_alternatives ha]
    rfl

theorem names_nodesFrom (hn : nodesFrom segment tokens = .ok nodes) :
    nodes.filterMap nodeName? =
      ((segment.reverse ++ tokens).flatMap tokenItems).filterMap itemName? := by
  fun_induction nodesFrom segment tokens generalizing nodes with
  | case1 segment =>
    rw [List.append_nil]
    exact names_segment hn
  | case2 segment t rest ih =>
    simp only [bind_eq_ok, pure_eq_ok] at hn
    obtain ⟨before, hb, after, ha, rfl⟩ := hn
    have hcons : (Node.part (.text t) :: after).filterMap nodeName? =
        after.filterMap nodeName? := rfl
    rw [List.flatMap_append, List.flatMap_cons, List.filterMap_append, List.filterMap_append,
      List.filterMap_append, names_segment hb, hcons, ih ha, names_token]
    rfl
  | case3 segment t rest _ ih => simpa using ih hn

/-- The ways to choose alternatives are the same for a source and for its nodes. -/
theorem picks_nodes (hn : Expression.nodes source = .ok nodes) :
    ∃ items, Reads source items ∧ (∀ chosen, Picks nodes chosen ↔ Chooses items chosen) ∧
      nodes.filterMap nodeName? = items.filterMap itemName? := by
  simp only [Expression.nodes, bind_eq_ok] at hn
  obtain ⟨ts, ht, hn⟩ := hn
  obtain ⟨hr, hs⟩ := tokens_reads ht
  exact ⟨_, hr, fun chosen => picks_nodesFrom solid_nil hs hn, names_nodesFrom hn⟩

def settled : Item → Item
  | .blank c => .char c
  | i => i

theorem chooses_slashless (h : .slash ∉ items) :
    Chooses items chosen ↔ chosen = items.map settled := by
  have hgo (before : List Item) (hb : ∀ i ∈ before, isSpace i = false) (hs : .slash ∉ before) :
      Chooses (before ++ items) chosen ↔ chosen = before ++ items.map settled := by
    induction items generalizing before chosen with
    | nil =>
      rw [List.append_nil, chooses_segment hb, List.splitOn_eq_singleton hs, List.mem_singleton,
        List.map_nil, List.append_nil]
    | cons i items ih =>
      rw [List.mem_cons, not_or] at h
      have hmove (hi : isSpace i = false) (hset : settled i = i) :
          Chooses (before ++ i :: items) chosen ↔ chosen = before ++ (i :: items).map settled := by
        have hih := @ih chosen h.2 (before ++ [i]) (by simpa [or_imp, forall_and, hi] using hb)
          (by simpa [hs] using h.1)
        simpa [hset] using hih
      cases i with
      | blank c =>
        rw [chooses_cons hb, List.splitOn_eq_singleton hs]
        constructor
        · rintro ⟨alternative, chosen', ha, hc, rfl⟩
          obtain rfl := List.mem_singleton.mp ha
          obtain rfl := (@ih chosen' h.2 [] (by simp) (by simp)).mp hc
          simp [settled]
        · rintro rfl
          exact ⟨before, items.map settled, by simp,
            (@ih _ h.2 [] (by simp) (by simp)).mpr rfl, by simp [settled]⟩
      | char c => exact hmove rfl rfl
      | optional t => exact hmove rfl rfl
      | parameter name => exact hmove rfl rfl
      | slash => exact absurd rfl h.1
  simpa using hgo [] (by simp) (by simp)

theorem segmentNodes_slashless (h : ∀ position, .slash position ∉ segment) :
    segmentNodes segment = .ok (segment.filterMap Token.node?) := by
  have hs : segment.filterMap Token.slash? = [] := by
    refine List.filterMap_eq_nil_iff.mpr fun t ht => ?_
    cases t with
    | slash position => exact absurd ht (h position)
    | _ => rfl
  simp [segmentNodes, hs]

theorem nodesFrom_slashless (h : ∀ position, .slash position ∉ segment.reverse ++ tokens) :
    nodesFrom segment tokens = .ok ((segment.reverse ++ tokens).filterMap Token.node?) := by
  fun_induction nodesFrom segment tokens with
  | case1 segment =>
    rw [List.append_nil] at h ⊢
    exact segmentNodes_slashless h
  | case2 segment t rest ih =>
    have hb := @segmentNodes_slashless segment.reverse
      fun position hm => h position (List.mem_append_left _ hm)
    have ha := ih fun position hm => h position (by simp_all)
    have hspace : Token.node? (.space t) = some (.part (.text t)) := rfl
    rw [List.filterMap_append, List.filterMap_cons_some hspace]
    simp only [hb, ha, ok_bind]
    rfl
  | case3 segment t rest _ ih =>
    have hcons : segment.reverse ++ t :: rest = (t :: segment).reverse ++ rest := by simp
    rw [hcons] at h ⊢
    exact ih h

/-- A source without slashes has nodes: those of its tokens. -/
theorem nodes_slashless (h : Reads source items) (hs : .slash ∉ items) :
    ∃ tokens : List Token, tokens.flatMap tokenItems = items ∧
      Expression.nodes source = .ok (tokens.filterMap Token.node?) := by
  obtain ⟨ts, ht⟩ := scan_of_reads h (.inl rfl) 0 []
  have ht : Expression.tokens source = .ok ts := ht
  have hitems := reads_unique h (tokens_reads ht).1
  have hn := @nodesFrom_slashless ts [] (by
    intro position hm
    refine hs (hitems ▸ List.mem_flatMap.mpr ⟨_, hm, ?_⟩)
    simp [tokenItems])
  exact ⟨ts, hitems, by simpa [Expression.nodes, ht] using hn⟩

end

end Brine.Proofs.ExpressionChoices
