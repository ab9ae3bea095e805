import Brine.Regex.Match

namespace Brine.Proofs.RegexMeaning
open Regex

/-- The expression matches `mid` where it stands between `before` and `after`. Groups leave marks,
latest first. -/
inductive Spans : Regex → (before mid after : List Char) → List Mark → Prop
  | empty {b a : List Char} : Spans .empty b [] a []
  | set {s : CharSet} {c : Char} {b a : List Char} : s.contains c = true →
      Spans (.set s) b [c] a []
  | look {l : Look} {b a : List Char} : l.holds b.getLast? a.head? = true →
      Spans (.look l) b [] a []
  | group {i : Nat} {r : Regex} {b m a : List Char} {ms : List Mark} : Spans r b m a ms →
      Spans (.group i r) b m a (⟨i, true, (b ++ m).length⟩ :: (ms ++ [⟨i, false, b.length⟩]))
  | cat {x y : Regex} {b m m' a : List Char} {ms ms' : List Mark} : Spans x b m (m' ++ a) ms →
      Spans y (b ++ m) m' a ms' → Spans (.cat x y) b (m ++ m') a (ms' ++ ms)
  | left {x y : Regex} {b m a : List Char} {ms : List Mark} : Spans x b m a ms →
      Spans (.alt x y) b m a ms
  | right {x y : Regex} {b m a : List Char} {ms : List Mark} : Spans y b m a ms →
      Spans (.alt x y) b m a ms
  | skip {g : Bool} {r : Regex} {b a : List Char} : Spans (.opt g r) b [] a []
  | take {g : Bool} {r : Regex} {b m a : List Char} {ms : List Mark} : Spans r b m a ms →
      Spans (.opt g r) b m a ms
  | stop {g : Bool} {r : Regex} {b a : List Char} : Spans (.star g r) b [] a []
  | more {g : Bool} {r : Regex} {b m m' a : List Char} {ms ms' : List Mark} :
      Spans r b m (m' ++ a) ms → Spans (.star g r) (b ++ m) m' a ms' →
      Spans (.star g r) b (m ++ m') a (ms' ++ ms)
  | plus {g : Bool} {r : Regex} {b m m' a : List Char} {ms ms' : List Mark} :
      Spans r b m (m' ++ a) ms → Spans (.star g r) (b ++ m) m' a ms' →
      Spans (.plus g r) b (m ++ m') a (ms' ++ ms)

/-- The expression matches `mid` between `before` and `after`, whatever its groups are. -/
def Matches (r : Regex) (before mid after : List Char) : Prop :=
  ∃ ms, Spans r before mid after ms

variable {r x y : Regex} {rs : List Regex} {b m a : List Char} {ms : List Mark}

theorem spans_cat : Spans (.cat x y) b m a ms ↔
    ∃ m₁ m₂ ms₁ ms₂, m = m₁ ++ m₂ ∧ ms = ms₂ ++ ms₁ ∧
      Spans x b m₁ (m₂ ++ a) ms₁ ∧ Spans y (b ++ m₁) m₂ a ms₂ := by
  constructor
  · rintro (_ | _)
    exact ⟨_, _, _, _, rfl, rfl, ‹_›, ‹_›⟩
  · rintro ⟨m₁, m₂, ms₁, ms₂, rfl, rfl, hx, hy⟩
    exact .cat hx hy

theorem spans_empty : Spans .empty b m a ms ↔ m = [] ∧ ms = [] := by
  constructor
  · rintro ⟨⟩
    exact ⟨rfl, rfl⟩
  · rintro ⟨rfl, rfl⟩
    exact .empty

theorem spans_catAll_cons : Spans (catAll (r :: rs)) b m a ms ↔
    ∃ m₁ m₂ ms₁ ms₂, m = m₁ ++ m₂ ∧ ms = ms₂ ++ ms₁ ∧
      Spans r b m₁ (m₂ ++ a) ms₁ ∧ Spans (catAll rs) (b ++ m₁) m₂ a ms₂ := by
  cases rs with
  | nil =>
    simp only [catAll, spans_empty]
    constructor
    · intro h
      exact ⟨m, [], ms, [], by simp, by simp, h, rfl, rfl⟩
    · rintro ⟨m₁, m₂, ms₁, ms₂, rfl, rfl, h, rfl, rfl⟩
      simpa using h
  | cons r' rs => exact spans_cat

theorem spans_catAll_append {rs' : List Regex} : Spans (catAll (rs ++ rs')) b m a ms ↔
    ∃ m₁ m₂ ms₁ ms₂, m = m₁ ++ m₂ ∧ ms = ms₂ ++ ms₁ ∧
      Spans (catAll rs) b m₁ (m₂ ++ a) ms₁ ∧ Spans (catAll rs') (b ++ m₁) m₂ a ms₂ := by
  induction rs generalizing b m ms with
  | nil =>
    constructor
    · intro h
      exact ⟨[], m, [], ms, rfl, by simp, .empty, by simpa using h⟩
    · rintro ⟨m₁, m₂, ms₁, ms₂, rfl, rfl, h₁, h₂⟩
      obtain ⟨rfl, rfl⟩ := spans_empty.mp h₁
      simpa using h₂
  | cons r rs ih =>
    rw [List.cons_append, spans_catAll_cons]
    constructor
    · rintro ⟨m₁, _, ms₁, _, rfl, rfl, h₁, h⟩
      obtain ⟨m₂, m₃, ms₂, ms₃, rfl, rfl, h₂, h₃⟩ := ih.mp h
      have h₁₂ : Spans (catAll (r :: rs)) b (m₁ ++ m₂) (m₃ ++ a) (ms₂ ++ ms₁) :=
        spans_catAll_cons.mpr ⟨m₁, m₂, ms₁, ms₂, rfl, rfl, by simpa using h₁, h₂⟩
      exact ⟨m₁ ++ m₂, m₃, ms₂ ++ ms₁, ms₃, by simp, by simp, h₁₂, by simpa using h₃⟩
    · rintro ⟨_, m₃, _, ms₃, rfl, rfl, h, h₃⟩
      obtain ⟨m₁, m₂, ms₁, ms₂, rfl, rfl, h₁, h₂⟩ := spans_catAll_cons.mp h
      refine ⟨m₁, m₂ ++ m₃, ms₁, ms₃ ++ ms₂, by simp, by simp, by simpa using h₁, ?_⟩
      exact ih.mpr ⟨m₂, m₃, ms₂, ms₃, rfl, rfl, h₂, by simpa using h₃⟩

/-- A choice matches what one of its expressions matches. -/
theorem spans_altAll (h : rs ≠ []) :
    Spans (altAll rs) b m a ms ↔ ∃ r ∈ rs, Spans r b m a ms := by
  induction rs with
  | nil => contradiction
  | cons r rs ih =>
    cases rs with
    | nil => simp [altAll]
    | cons r' rs =>
      have hr : altAll (r :: r' :: rs) = .alt r (altAll (r' :: rs)) := rfl
      have ih := ih (List.cons_ne_nil _ _)
      rw [hr]
      constructor
      · intro h
        cases h with
        | left h => exact ⟨r, List.mem_cons_self, h⟩
        | right h =>
          obtain ⟨x, hx, h⟩ := ih.mp h
          exact ⟨x, List.mem_cons_of_mem _ hx, h⟩
      · rintro ⟨x, hx, hs⟩
        rcases List.mem_cons.mp hx with rfl | hx
        · exact .left hs
        · exact .right (ih.mpr ⟨x, hx, hs⟩)

theorem spans_opt {g : Bool} :
    Spans (.opt g r) b m a ms ↔ m = [] ∧ ms = [] ∨ Spans r b m a ms := by
  constructor
  · intro h
    cases h with
    | skip => exact .inl ⟨rfl, rfl⟩
    | take h => exact .inr h
  · rintro (⟨rfl, rfl⟩ | h)
    · exact .skip
    · exact .take h

theorem contains_single {c d : Char} : (CharSet.single c).contains d = true ↔ d = c := by
  simp only [CharSet.contains, CharSet.single, CharSet.holds, Bool.and_eq_true, decide_eq_true_eq]
  constructor
  · rintro ⟨h, h'⟩
    exact (Char.toNat_inj.mp (Nat.le_antisymm h h')).symm
  · rintro rfl
    exact ⟨Nat.le_refl _, Nat.le_refl _⟩

/-- A sequence of single characters matches exactly their text. -/
theorem spans_text {text : List Char} :
    Spans (catAll (text.map fun c => .set (.single c))) b m a ms ↔ m = text ∧ ms = [] := by
  induction text generalizing b m ms with
  | nil => exact spans_empty
  | cons c text ih =>
    rw [List.map_cons, spans_catAll_cons]
    constructor
    · rintro ⟨m₁, m₂, ms₁, ms₂, rfl, rfl, h₁, h₂⟩
      obtain ⟨rfl, rfl⟩ := ih.mp h₂
      cases h₁ with
      | set hc =>
        rw [contains_single.mp hc]
        exact ⟨rfl, rfl⟩
    · rintro ⟨rfl, rfl⟩
      exact ⟨[c], text, [], [], rfl, rfl, .set (contains_single.mpr rfl), ih.mpr ⟨rfl, rfl⟩⟩

def reindex (f : Nat → Nat) : Regex → Regex
  | .empty => .empty
  | .set s => .set s
  | .look l => .look l
  | .group i r => .group (f i) (reindex f r)
  | .cat x y => .cat (reindex f x) (reindex f y)
  | .alt x y => .alt (reindex f x) (reindex f y)
  | .opt g r => .opt g (reindex f r)
  | .star g r => .star g (reindex f r)
  | .plus g r => .plus g (reindex f r)

theorem reindex_reindex (f g : Nat → Nat) (r : Regex) :
    reindex f (reindex g r) = reindex (f ∘ g) r := by
  induction r <;> simp_all [reindex]

theorem reindex_id (r : Regex) : reindex id r = r := by
  induction r <;> simp_all [reindex]

theorem matches_reindex_of_spans (f : Nat → Nat) (h : Spans r b m a ms) :
    Matches (reindex f r) b m a := by
  induction h with
  | empty => exact ⟨_, .empty⟩
  | set hc => exact ⟨_, .set hc⟩
  | look hl => exact ⟨_, .look hl⟩
  | group _ ih => exact ⟨_, .group ih.choose_spec⟩
  | cat _ _ ih₁ ih₂ => exact ⟨_, .cat ih₁.choose_spec ih₂.choose_spec⟩
  | left _ ih => exact ⟨_, .left ih.choose_spec⟩
  | right _ ih => exact ⟨_, .right ih.choose_spec⟩
  | skip => exact ⟨_, .skip⟩
  | take _ ih => exact ⟨_, .take ih.choose_spec⟩
  | stop => exact ⟨_, .stop⟩
  | more _ _ ih₁ ih₂ => exact ⟨_, .more ih₁.choose_spec ih₂.choose_spec⟩
  | plus _ _ ih₁ ih₂ => exact ⟨_, .plus ih₁.choose_spec ih₂.choose_spec⟩

/-- The numbers of the groups do not matter for what is matched. -/
theorem matches_reindex {f g : Nat → Nat} (hfg : Function.LeftInverse g f) :
    Matches (reindex f r) b m a ↔ Matches r b m a := by
  constructor
  · rintro ⟨ms, h⟩
    have h' := matches_reindex_of_spans g h
    have hid : g ∘ f = id := funext hfg
    rwa [reindex_reindex, hid, reindex_id] at h'
  · rintro ⟨ms, h⟩
    exact matches_reindex_of_spans f h

/-- Marks are of groups that the expression has. -/
theorem Spans.mem_indices (h : Spans r b m a ms) : ∀ k ∈ ms, k.index ∈ r.indices := by
  induction h with
  | empty | set _ | look _ | skip | stop => simp
  | group _ ih =>
    simp only [List.mem_cons, List.mem_append, List.not_mem_nil, or_false, indices]
    rintro k (rfl | hk | rfl)
    · exact .inl rfl
    · exact .inr (ih k hk)
    · exact .inl rfl
  | cat _ _ ih₁ ih₂ =>
    intro k hk
    rcases List.mem_append.mp hk with hk | hk
    · exact List.mem_append_right _ (ih₂ k hk)
    · exact List.mem_append_left _ (ih₁ k hk)
  | left _ ih => exact fun k hk => List.mem_append_left _ (ih k hk)
  | right _ ih => exact fun k hk => List.mem_append_right _ (ih k hk)
  | take _ ih => exact ih
  | more _ _ ih₁ ih₂ | plus _ _ ih₁ ih₂ =>
    intro k hk
    rcases List.mem_append.mp hk with hk | hk
    · exact ih₂ k hk
    · exact ih₁ k hk

def lookless : Regex → Bool
  | .empty | .set _ => true
  | .look _ => false
  | .group _ r | .opt _ r | .star _ r | .plus _ r => lookless r
  | .cat x y | .alt x y => lookless x && lookless y

theorem matches_of_lookless (h : Spans r b m a ms) (hr : lookless r = true)
    (b' a' : List Char) : Matches r b' m a' := by
  induction h generalizing b' a' with
  | empty => exact ⟨_, .empty⟩
  | set hc => exact ⟨_, .set hc⟩
  | look hl => contradiction
  | group _ ih => exact ⟨_, .group (ih hr b' a').choose_spec⟩
  | cat _ _ ih₁ ih₂ =>
    simp only [lookless, Bool.and_eq_true] at hr
    exact ⟨_, .cat (ih₁ hr.1 _ _).choose_spec (ih₂ hr.2 _ _).choose_spec⟩
  | left _ ih =>
    simp only [lookless, Bool.and_eq_true] at hr
    exact ⟨_, .left (ih hr.1 b' a').choose_spec⟩
  | right _ ih =>
    simp only [lookless, Bool.and_eq_true] at hr
    exact ⟨_, .right (ih hr.2 b' a').choose_spec⟩
  | skip => exact ⟨_, .skip⟩
  | take _ ih => exact ⟨_, .take (ih hr b' a').choose_spec⟩
  | stop => exact ⟨_, .stop⟩
  | more _ _ ih₁ ih₂ => exact ⟨_, .more (ih₁ hr _ _).choose_spec (ih₂ hr _ _).choose_spec⟩
  | plus _ _ ih₁ ih₂ => exact ⟨_, .plus (ih₁ hr _ _).choose_spec (ih₂ hr _ _).choose_spec⟩

end Brine.Proofs.RegexMeaning
