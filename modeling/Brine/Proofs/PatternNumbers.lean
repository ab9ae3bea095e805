import Brine.Proofs.PatternEmbedding

namespace Brine.Proofs.PatternNumbers
open Regex RegexMeaning Success PatternTokens PatternRuns PatternEmbedding Relation

variable {r : Regex} {rs : List Regex} {i : Nat} {x : Nat × Regex} {d d' : Draft} {t : Token}

/-- The groups of an expression, each with its number and what is in it; with those inside of other
groups or without. -/
def collect (deep : Bool) : Regex → List (Nat × Regex)
  | .empty | .set _ | .look _ => []
  | .group i r => (i, r) :: if deep then collect deep r else []
  | .cat a b | .alt a b => collect deep a ++ collect deep b
  | .opt _ r | .star _ r | .plus _ r => collect deep r

theorem collect_deep (r : Regex) : (collect true r).map Prod.fst = r.indices := by
  induction r <;> simp_all [collect, indices]

theorem mem_indices_of_collect {deep : Bool} (h : x ∈ collect deep r) : x.1 ∈ r.indices := by
  induction r with
  | empty | set _ | look _ => simp [collect] at h
  | group k r ih =>
    rcases List.mem_cons.mp h with rfl | h
    · exact List.mem_cons_self
    · cases deep with
      | false => contradiction
      | true => exact List.mem_cons_of_mem _ (ih h)
  | cat a b iha ihb | alt a b iha ihb =>
    rcases List.mem_append.mp h with h | h
    · exact List.mem_append_left _ (iha h)
    · exact List.mem_append_right _ (ihb h)
  | opt _ _ ih | star _ _ ih | plus _ _ ih => exact ih h

theorem mem_indices_shift {k : Nat} : i ∈ (shift k r).indices ↔ ∃ j ∈ r.indices, j + k = i := by
  induction r with
  | empty | set _ | look _ => simp [shift, reindex, indices]
  | group n r ih => simp [shift, reindex, indices, ih, eq_comm]
  | cat x y ihx ihy | alt x y ihx ihy =>
    simp only [shift, reindex, indices, List.mem_append, ihx, ihy, or_and_right, exists_or]
  | opt _ _ ih | star _ _ ih | plus _ _ ih => exact ih

section
variable {deep : Bool}

theorem mem_collect_catAll : x ∈ collect deep (catAll rs) ↔ ∃ r ∈ rs, x ∈ collect deep r := by
  induction rs with
  | nil => simp [catAll, collect]
  | cons r rs ih =>
    cases rs with
    | nil => simp [catAll]
    | cons r' rs =>
      have hr : catAll (r :: r' :: rs) = .cat r (catAll (r' :: rs)) := rfl
      rw [hr, collect, List.mem_append, ih]
      simp

theorem mem_collect_altAll : x ∈ collect deep (altAll rs) ↔ ∃ r ∈ rs, x ∈ collect deep r := by
  induction rs with
  | nil => simp [altAll, collect]
  | cons r rs ih =>
    cases rs with
    | nil => simp [altAll]
    | cons r' rs =>
      have hr : altAll (r :: r' :: rs) = .alt r (altAll (r' :: rs)) := rfl
      rw [hr, collect, List.mem_append, ih]
      simp

theorem mem_collect_atMost {greedy : Bool} {n : Nat} :
    x ∈ collect deep (atMost greedy r n) ↔ n ≠ 0 ∧ x ∈ collect deep r := by
  fun_induction atMost greedy r n with
  | case1 => simp [collect]
  | case2 => simp [collect]
  | case3 n ih =>
    simp only [collect, List.mem_append, ih]
    simp

/-- A repetition has the groups of its expression, unless it is for zero times. -/
theorem mem_collect_repeated {low : Nat} {high : Option Nat} {greedy : Bool} :
    x ∈ collect deep (r.repeated low high greedy) ↔
      ¬(low = 0 ∧ high = some 0) ∧ x ∈ collect deep r := by
  unfold repeated
  cases high with
  | none =>
    by_cases hl : low = 0
    · simp [hl, collect]
    · simp only [hl, if_false, mem_collect_catAll, List.mem_append, List.mem_replicate,
        List.mem_singleton]
      constructor
      · rintro ⟨y, ⟨-, rfl⟩ | rfl, h⟩
        · exact ⟨by simp, h⟩
        · exact ⟨by simp, h⟩
      · rintro ⟨-, h⟩
        exact ⟨_, .inr rfl, h⟩
  | some high =>
    by_cases hh : high ≤ low
    · simp only [hh, if_true, mem_collect_catAll, List.mem_replicate, Option.some.injEq]
      constructor
      · rintro ⟨y, ⟨hl, rfl⟩, h⟩
        exact ⟨by simp [hl], h⟩
      · rintro ⟨hz, h⟩
        exact ⟨r, ⟨by omega, rfl⟩, h⟩
    · simp only [hh, if_false, mem_collect_catAll, List.mem_append, List.mem_replicate,
        List.mem_singleton, Option.some.injEq]
      constructor
      · rintro ⟨y, ⟨-, rfl⟩ | rfl, h⟩
        · exact ⟨by omega, h⟩
        · exact ⟨by omega, (mem_collect_atMost.mp h).2⟩
      · rintro ⟨-, h⟩
        exact ⟨_, .inr rfl, mem_collect_atMost.mpr ⟨by omega, h⟩⟩

def Holds (deep : Bool) (g : OpenGroup) (x : Nat × Regex) : Prop :=
  (∃ r ∈ g.branches, x ∈ collect deep r) ∨ ∃ r, some r ∈ g.pieces ∧ x ∈ collect deep r

variable {g g' : OpenGroup}

theorem holds_push : Holds deep (g.push r) x ↔ Holds deep g x ∨ x ∈ collect deep r := by
  simp only [Holds, OpenGroup.push, List.mem_cons, Option.some.injEq, or_and_right, exists_or,
    exists_eq_left]
  grind

theorem mem_collect_branch :
    x ∈ collect deep g.branch ↔ ∃ r, some r ∈ g.pieces ∧ x ∈ collect deep r := by
  rw [OpenGroup.branch, mem_collect_catAll]
  simp

theorem holds_split : Holds deep g.split x ↔ Holds deep g x := by
  simp only [Holds, OpenGroup.split, List.mem_cons, List.not_mem_nil, false_and, exists_false,
    or_false, or_and_right, exists_or, exists_eq_left, mem_collect_branch]
  exact or_comm

def shed : Bool → OpenGroup → OpenGroup
  | true, g => { g with pieces := g.pieces.tail }
  | false, g => g

theorem holds_shed_push {drop : Bool} :
    Holds deep (shed drop (g.push r)) x ↔ Holds deep g x ∨ drop = false ∧ x ∈ collect deep r := by
  cases drop with
  | true =>
    have hg : shed true (g.push r) = g := rfl
    simp [hg]
  | false => simpa [shed] using holds_push

theorem holds_of_shed {drop : Bool} (h : Holds deep (shed drop g) x) : Holds deep g x := by
  cases drop with
  | true => exact h.imp_right fun ⟨r, hr, hx⟩ => ⟨r, List.mem_of_mem_tail hr, hx⟩
  | false => exact h

/-- To repeat a piece for zero times is to drop it. -/
theorem holds_repeated {low : Nat} {high : Option Nat} {greedy drop : Bool}
    {before : List (Option Regex)} (h : g.pieces = some r :: before) :
    Holds deep (shed drop { g with pieces := some (r.repeated low high greedy) :: before }) x ↔
      Holds deep (shed ((low = 0 && high = some 0) || drop) g) x := by
  obtain ⟨index, branches, pieces⟩ := g
  obtain rfl : pieces = some r :: before := h
  have hlast (r : Regex) : (⟨index, branches, some r :: before⟩ : OpenGroup) =
      OpenGroup.push ⟨index, branches, before⟩ r := rfl
  simp only [hlast, holds_shed_push, mem_collect_repeated, Bool.or_eq_false_iff,
    Bool.and_eq_false_iff, decide_eq_false_iff_not]
  tauto

def body (g : OpenGroup) : Regex :=
  altAll (g.branch :: g.branches).reverse

theorem mem_collect_body : x ∈ collect deep (body g) ↔ Holds deep g x := by
  rw [body, mem_collect_altAll]
  simp only [List.mem_reverse, List.mem_cons, or_and_right, exists_or, exists_eq_left,
    mem_collect_branch, Holds]
  exact or_comm

theorem close_none (h : g.index = none) : g.close = body g := by
  rw [OpenGroup.close, h]
  rfl

theorem close_some {k : Nat} (h : g.index = some k) : g.close = .group k (body g) := by
  rw [OpenGroup.close, h]
  rfl

end

def isParenthesis : Token → Bool
  | .openPlain | .openCapture _ | .close => true
  | _ => false

def drops : Token → Bool → Bool
  | .quantifier low high _, later => (low = 0 && high = some 0) || later
  | _, _ => false

/-- The other tokens bring no group, and only a repetition for zero times takes some away. -/
theorem push_holds {deep later : Bool} (ht : isParenthesis t = false)
    (hr : ∀ r, t = .atom r → r.indices = []) (h : d.push t = .ok d') :
    Holds deep (shed later d'.group) x ↔ Holds deep (shed (drops t later) d.group) x := by
  cases push_iff.mp h with
  | atom r =>
    have hnone : x ∉ collect deep r := by
      intro hx
      have hx := mem_indices_of_collect hx
      simp [hr r rfl] at hx
    rw [holds_shed_push]
    simp [hnone, drops, shed]
  | flags => cases later <;> simp [shed, drops, Holds]
  | bar =>
    have hsplit : shed later d.group.split = d.group.split := by cases later <;> rfl
    rw [hsplit]
    exact holds_split
  | quantifier hp => exact holds_repeated hp
  | openPlain | openCapture | close => contradiction

def Positive (g : OpenGroup) : Prop :=
  (∀ i, g.index = some i → 0 < i) ∧ ∀ x, Holds true g x → 0 < x.1

theorem close_positive {g : OpenGroup} (h : Positive g) : ∀ x ∈ collect true g.close, 0 < x.1 := by
  have hbody : ∀ x ∈ collect true (body g), 0 < x.1 := fun x hx => h.2 x (mem_collect_body.mp hx)
  cases hi : g.index with
  | none =>
    rw [close_none hi]
    exact hbody
  | some k =>
    rw [close_some hi]
    exact List.forall_mem_cons.mpr ⟨h.1 k hi, hbody⟩

theorem push_positive (hr : ∀ r, t = .atom r → r.indices = []) (h : d.push t = .ok d')
    (hd : ∀ g ∈ d.group :: d.outer, Positive g) : ∀ g ∈ d'.group :: d'.outer, Positive g := by
  obtain ⟨hgroup, houter⟩ := List.forall_mem_cons.mp hd
  cases t with
  | atom | flags | bar | quantifier =>
    obtain ⟨ho, hi⟩ := push_groups h
    rw [ho]
    refine List.forall_mem_cons.mpr ⟨⟨fun i hk => hgroup.1 i (hi.symm.trans hk), ?_⟩, houter⟩
    intro x hx
    have hx : Holds true (shed false d'.group) x := hx
    exact hgroup.2 x (holds_of_shed ((push_holds rfl hr h).mp hx))
  | openPlain =>
    cases h
    exact List.forall_mem_cons.mpr ⟨by simp [Positive, Holds], hd⟩
  | openCapture name =>
    cases push_iff.mp h
    refine List.forall_mem_cons.mpr ⟨⟨?_, by simp [Holds]⟩, hd⟩
    rintro i ⟨⟩
    omega
  | close =>
    cases push_iff.mp h with
    | close ho =>
      rw [ho] at houter
      obtain ⟨hparent, houter⟩ := List.forall_mem_cons.mp houter
      refine List.forall_mem_cons.mpr ⟨⟨hparent.1, fun x hx => ?_⟩, houter⟩
      rcases holds_push.mp hx with hx | hx
      · exact hparent.2 x hx
      · exact close_positive hgroup x hx

def isCapture : Token → Bool
  | .openCapture _ => true
  | _ => false

theorem push_captures (h : d.push t = .ok d') :
    d'.captures = d.captures + if isCapture t then 1 else 0 := by
  cases push_iff.mp h <;> rfl

theorem foldlM_captures {ts : List Token} (h : ts.foldlM Draft.push d = .ok d') :
    d'.captures = d.captures + ts.countP isCapture := by
  induction ts generalizing d with
  | nil =>
    cases h
    rfl
  | cons t ts ih =>
    rw [List.foldlM_cons, bind_eq_ok] at h
    obtain ⟨d₁, h₁, h⟩ := h
    rw [ih h, push_captures h₁, List.countP_cons]
    omega

variable [Engine]

theorem steps_positive {p q : Reading} (h : Steps p q)
    (hp : ∀ g ∈ p.draft.group :: p.draft.outer, Positive g) :
    ∀ g ∈ q.draft.group :: q.draft.outer, Positive g := by
  induction h with
  | refl => exact hp
  | tail _ hs ih =>
    cases hs with
    | mk hv ht hd =>
      exact push_positive (fun r hr => by subst hr; exact taken_leaf ht) hd ih

/-- The groups of a pattern have numbers from 1 on. -/
theorem indices_pos {pattern : List Char} (h : Drafts pattern d) (hf : d.finish = .ok r) :
    ∀ i ∈ r.indices, 0 < i := by
  obtain ⟨s, -, -, hsteps⟩ := h
  have hd := steps_positive hsteps (by simp [Positive, Holds])
  obtain ⟨-, rfl⟩ := finish_ok hf
  rw [← collect_deep, List.forall_mem_map]
  exact close_positive (hd _ List.mem_cons_self)

def writtenGroups (pattern : List Char) : Nat :=
  match tokens pattern with
  | .ok ts => ts.countP isCapture
  | .error _ => 0

/-- Each of them has a number of its own. -/
theorem captures_written {pattern : List Char} (h : Drafts pattern d) :
    d.captures = writtenGroups pattern := by
  obtain ⟨ts, ht, hd⟩ := drafts_tokens h
  rw [writtenGroups, ht]
  simpa using foldlM_captures hd

end Brine.Proofs.PatternNumbers
