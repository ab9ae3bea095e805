import Brine.Proofs.PatternTokens

namespace Brine.Proofs.PatternPrefixes
open Regex Text Success PatternReaders PatternClasses PatternTokens

/-- Two texts with a common start, one with the end `x` and one with the end `y`. -/
def Alike (x y m n : List Char) : Prop :=
  ∃ u, u ≠ [] ∧ m = u ++ x ∧ n = u ++ y

variable {x y m n r : List Char} {f : Flags} {v : Bool}

theorem alike_append {u : List Char} (hu : u ≠ []) : Alike x y (u ++ x) (u ++ y) :=
  ⟨u, hu, rfl, rfl⟩

theorem alike_nil (h : m ≠ []) (extra : List Char) : Alike [] extra m (m ++ extra) :=
  ⟨m, h, (List.append_nil m).symm, rfl⟩

theorem Alike.drop {e : List Char} (h : Alike x y (e ++ r) n) (hr : x.length < r.length) :
    ∃ r', n = e ++ r' ∧ Alike x y r r' := by
  obtain ⟨u, hu, he, rfl⟩ := h
  rcases List.append_eq_append_iff.mp he with ⟨u', rfl, rfl⟩ | ⟨x', rfl, rfl⟩
  · refine ⟨u' ++ y, by simp, u', ?_, rfl, rfl⟩
    intro hnil
    simp [hnil] at hr
  · rw [List.length_append] at hr
    omega

def Ended (x y m n : List Char) : Prop :=
  ∃ u, m = u ++ x ∧ n = u ++ y

theorem Ended.alike (h : Ended x y m n) (hm : x.length < m.length) : Alike x y m n := by
  obtain ⟨u, rfl, rfl⟩ := h
  refine alike_append ?_
  rintro rfl
  simp at hm

theorem Alike.tail {c : Char} (h : Alike x y (c :: m) n) : ∃ n', n = c :: n' ∧ Ended x y m n' := by
  obtain ⟨u, hu, he, rfl⟩ := h
  obtain ⟨d, u, rfl⟩ := List.exists_cons_of_ne_nil hu
  obtain ⟨rfl, rfl⟩ := List.cons.inj he
  exact ⟨u ++ y, rfl, u, rfl, rfl⟩

theorem Alike.cons {c : Char} (h : Alike x y (c :: m) n) :
    ∃ n', n = c :: n' ∧ (x.length < m.length → Alike x y m n') := by
  obtain ⟨n', rfl, he⟩ := h.tail
  exact ⟨n', rfl, he.alike⟩

theorem Alike.head? (h : Alike x y m n) : n.head? = m.head? := by
  obtain ⟨u, hu, rfl, rfl⟩ := h
  obtain ⟨c, u, rfl⟩ := List.exists_cons_of_ne_nil hu
  rfl

theorem Alike.starts {c : Char} (h : Alike x y m (c :: n)) : ∃ m', m = c :: m' :=
  List.head?_eq_some_iff.mp h.head?.symm

theorem longer {s : List Char} (h : r <:+ s) (hr : x.length < r.length) : x.length < s.length :=
  Nat.lt_of_lt_of_le hr h.length_le

theorem dropWhile_alike {p : Char → Bool} (h : Alike x y m n)
    (hr : x.length < (m.dropWhile p).length) : Alike x y (m.dropWhile p) (n.dropWhile p) := by
  obtain ⟨u, hu, rfl, rfl⟩ := h
  by_cases hd : u.dropWhile p = []
  · have hdrop : (u ++ x).dropWhile p = x.dropWhile p := by simp [List.dropWhile_append, hd]
    rw [hdrop] at hr
    have hle := (List.dropWhile_suffix p (l := x)).length_le
    omega
  · rw [(dropWhile_append_of_ne x hd).1, (dropWhile_append_of_ne y hd).1]
    exact alike_append hd

theorem skipIgnored_alike {comment : Bool} (h : Alike x y m n)
    (hr : x.length < (skipIgnored comment m).length) :
    Alike x y (skipIgnored comment m) (skipIgnored comment n) := by
  induction m generalizing comment n with
  | nil => simp [skipIgnored] at hr
  | cons c m ih =>
    obtain ⟨n', rfl, htail⟩ := h.cons
    have hgo {comment : Bool} (hr : x.length < (skipIgnored comment m).length) :
        Alike x y (skipIgnored comment m) (skipIgnored comment n') :=
      ih (htail (longer (skipIgnored_suffix _ _) hr)) hr
    rw [skipIgnored] at hr ⊢
    rw [skipIgnored]
    split
    · rename_i hc
      rw [if_pos hc] at hr
      exact hgo hr
    · rename_i hc
      rw [if_neg hc] at hr
      split
      · rename_i hb
        rw [if_pos hb] at hr
        exact hgo hr
      · rename_i hb
        rw [if_neg hb] at hr
        split
        · rename_i hs
          rw [if_pos hs] at hr
          exact hgo hr
        · exact h

theorem skip_alike (h : Alike x y m n) (hr : x.length < (skip v m).length) :
    Alike x y (skip v m) (skip v n) := by
  cases v with
  | false => exact h
  | true => exact skipIgnored_alike h hr

theorem Alike.eq {u : List Char} (h : Alike x y (u ++ x) n) : n = u ++ y := by
  obtain ⟨u', -, he, rfl⟩ := h
  rw [List.append_cancel_right he]

theorem skip_append (h : skip v m ≠ []) (y : List Char) : skip v (m ++ y) = skip v m ++ y := by
  have hm : m ≠ [] := by
    intro hnil
    subst hnil
    cases v <;> exact h rfl
  have hs := skip_alike (alike_nil hm y) (List.length_pos_of_ne_nil h)
  rw [← List.append_nil (skip v m)] at hs
  exact hs.eq

theorem skip_swallowed (h : skip v m = []) (y : List Char) : skip v (m ++ y) <:+ y := by
  by_cases hm : m = []
  · subst hm
    exact skip_suffix v y
  · refine List.suffix_of_suffix_length_le (skip_suffix v _) (List.suffix_append m y) ?_
    apply Nat.le_of_not_lt
    intro hlong
    obtain ⟨u, hu, -, he⟩ := skip_alike (alike_append (y := []) hm) hlong
    rw [List.append_nil, h, List.append_nil] at he
    exact hu he.symm

theorem runOf_fuel {kind : Char → Bool} {k k' : Nat} (hk : m.length ≤ k) (hk' : m.length ≤ k') :
    runOf v kind k m = runOf v kind k' m := by
  induction k generalizing k' m with
  | zero =>
    obtain rfl := List.eq_nil_of_length_eq_zero (Nat.le_zero.mp hk)
    simp [runOf]
  | succ k ih =>
    cases m with
    | nil => simp [runOf]
    | cons c m =>
      rw [List.length_cons] at hk hk'
      obtain ⟨k', rfl⟩ : ∃ j, k' = j + 1 := ⟨k' - 1, by omega⟩
      have hle := (skip_suffix v m).length_le
      rw [runOf, runOf, @ih (skip v m) k' (by omega) (by omega)]

theorem runOf_alike {kind : Char → Bool} {k : Nat} {cs : List Char} (h : Alike x y m n)
    (hm : runOf v kind k m = (cs, r)) (hr : x.length < r.length) :
    ∃ r', runOf v kind k n = (cs, r') ∧ Alike x y r r' := by
  induction k generalizing m n cs with
  | zero =>
    cases m with
    | nil => cases hm; simp at hr
    | cons c m =>
      cases hm
      obtain ⟨n', rfl, -⟩ := h.cons
      exact ⟨c :: n', rfl, h⟩
  | succ k ih =>
    cases m with
    | nil => cases hm; simp at hr
    | cons c m =>
      obtain ⟨n', rfl, htail⟩ := h.cons
      rw [runOf] at hm ⊢
      split at hm
      · rename_i hc
        rw [if_pos hc]
        obtain ⟨rfl, rfl⟩ := Prod.mk.inj hm
        have hskip := longer (runOf_suffix v kind k (skip v m)) hr
        have hs := skip_alike (htail (longer (skip_suffix v m) hskip)) hskip
        obtain ⟨r', hr', ha⟩ := ih hs rfl
        exact ⟨r', by rw [hr'], ha⟩
      · rename_i hc
        cases hm
        rw [if_neg hc]
        exact ⟨_, rfl, h⟩

/-- A run that may go on to the end of the text. -/
theorem runOf_alike_all {kind : Char → Bool} {k k' : Nat} {cs : List Char} (h : Alike x y m n)
    (hk : m.length ≤ k) (hk' : n.length ≤ k') (hm : runOf v kind k m = (cs, r))
    (hr : x.length < r.length) : ∃ r', runOf v kind k' n = (cs, r') ∧ Alike x y r r' := by
  rw [runOf_fuel hk (Nat.le_max_left m.length n.length)] at hm
  rw [runOf_fuel hk' (Nat.le_max_right m.length n.length)]
  exact runOf_alike h hm hr

theorem count_alike {digits : List Char} (h : Alike x y m n) (hm : count v m = (digits, r))
    (hr : x.length < r.length) : ∃ r', count v n = (digits, r') ∧ Alike x y r r' := by
  unfold count at hm ⊢
  cases hd : runOf v Char.isDigit m.length (m.dropWhile isBlank) with | mk cs r₁ =>
  cases hb : runOf v isBlank r₁.length r₁ with | mk bs r₂ =>
  simp only [hd, hb, Prod.mk.injEq] at hm
  obtain ⟨rfl, rfl⟩ := hm
  have h₁ : x.length < r₁.length := by
    have hs := runOf_suffix v isBlank r₁.length r₁
    rw [hb] at hs
    exact longer hs hr
  have h₀ : x.length < (m.dropWhile isBlank).length := by
    have hs := runOf_suffix v Char.isDigit m.length (m.dropWhile isBlank)
    rw [hd] at hs
    exact longer hs h₁
  obtain ⟨n₁, hn₁, ha₁⟩ := runOf_alike_all (dropWhile_alike h h₀)
    (List.dropWhile_suffix _).length_le (List.dropWhile_suffix _).length_le hd h₁
  obtain ⟨n₂, hn₂, ha₂⟩ := runOf_alike_all ha₁ (Nat.le_refl _) (Nat.le_refl _) hb hr
  exact ⟨n₂, by simp only [hn₁, hn₂], ha₂⟩

theorem upperCount_alike {high : Option Nat} (h : Alike x y m n)
    (hm : upperCount v m = .ok (high, r)) (hr : x.length < r.length) :
    ∃ r', upperCount v n = .ok (high, r') ∧ Alike x y r r' := by
  unfold upperCount at hm ⊢
  have hskip : x.length < (skip v m).length := by
    split at hm
    · rename_i heq
      cases hm
      exact heq ▸ hr
    · simp only [bind_eq_ok, pure_eq_ok, Prod.mk.injEq] at hm
      obtain ⟨_, _, _, rfl⟩ := hm
      exact longer (count_suffix v _) hr
  have hs := skip_alike h hskip
  split at hm
  · rename_i tail heq
    cases hm
    rw [heq] at hs
    obtain ⟨n', hn, -⟩ := hs.cons
    rw [hn] at hs ⊢
    exact ⟨_, rfl, hs⟩
  · rename_i hne
    simp only [bind_eq_ok, pure_eq_ok, Prod.mk.injEq] at hm
    obtain ⟨k, hk, rfl, rfl⟩ := hm
    cases hc : count v (skip v m) with | mk digits r₁ =>
    rw [hc] at hk hr
    obtain ⟨r', hr', ha⟩ := count_alike hs hc hr
    refine ⟨r', ?_, ha⟩
    split
    · rename_i tail heq
      rw [heq] at hs
      obtain ⟨tail', ht⟩ := hs.starts
      exact absurd ht (hne tail')
    · simp [hr', hk]

theorem closeCounts_closing {low low' : Nat} {high high' : Option Nat}
    (h : closeCounts low high m = .ok (low', high', r)) : m = '\x7d' :: r := by
  unfold closeCounts at h
  split at h
  · split at h
    · cases h
      rfl
    · contradiction
  · contradiction

theorem closeCounts_ended {low low' : Nat} {high high' : Option Nat} (h : Alike x y m n)
    (hm : closeCounts low high m = .ok (low', high', r)) :
    ∃ r', closeCounts low high n = .ok (low', high', r') ∧ Ended x y r r' := by
  obtain rfl := closeCounts_closing hm
  obtain ⟨r', rfl, he⟩ := h.tail
  rw [closeCounts] at hm ⊢
  split at hm
  · rename_i hle
    cases hm
    exact ⟨r', if_pos hle, he⟩
  · contradiction

/-- Counts are read alike if they are closed before the texts differ. -/
theorem counts_ended {low : Nat} {high : Option Nat} (h : Alike x y m n)
    (hm : counts v m = .ok (low, high, r)) (hr : x.length ≤ r.length) :
    ∃ r', counts v n = .ok (low, high, r') ∧ Ended x y r r' := by
  unfold counts at hm ⊢
  cases hc : count v (skip v m) with | mk digits r₁ =>
  rw [hc] at hm
  have hstart (h₁ : x.length < r₁.length) :
      ∃ n₁, count v (skip v n) = (digits, n₁) ∧ Alike x y r₁ n₁ := by
    have hs := count_suffix v (skip v m)
    rw [hc] at hs
    exact count_alike (skip_alike h (longer hs h₁)) hc h₁
  have hbrace : x.length < ('\x7d' :: r).length := Nat.lt_succ_of_le hr
  dsimp only at hm
  split at hm
  · simp only [bind_eq_ok] at hm
    obtain ⟨k, hk, hm⟩ := hm
    obtain ⟨n₁, hn₁, ha⟩ := hstart (closeCounts_closing hm ▸ hbrace)
    obtain ⟨n₂, rfl, -⟩ := ha.cons
    obtain ⟨r', hr', he⟩ := closeCounts_ended ha hm
    exact ⟨r', by simp [hn₁, hk, hr'], he⟩
  · simp only [bind_eq_ok, Prod.exists] at hm
    obtain ⟨k, hk, upper, r₂, hu, hm⟩ := hm
    obtain rfl := closeCounts_closing hm
    have h₁ := longer (upperCount_suffix hu) hbrace
    obtain ⟨n₁, hn₁, ha⟩ := hstart (longer (List.suffix_cons _ _) h₁)
    obtain ⟨n₂, rfl, htail⟩ := ha.cons
    obtain ⟨n₃, hn₃, ha⟩ := upperCount_alike (htail h₁) hu hbrace
    obtain ⟨r', hr', he⟩ := closeCounts_ended ha hm
    exact ⟨r', by simp [hn₁, hk, hn₃, hr'], he⟩
  · contradiction

theorem quantified_alike {t : Token} {f' : Flags} {low : Nat} {high : Option Nat}
    (h : Alike x y m n) (hm : quantified f low high m = .ok (t, f', r))
    (hr : x.length < r.length) :
    ∃ r', quantified f low high n = .ok (t, f', r') ∧ Alike x y r r' := by
  unfold quantified at hm
  split at hm
  · cases hm
    obtain ⟨n', rfl, htail⟩ := h.cons
    exact ⟨n', rfl, htail hr⟩
  · rename_i hne
    cases hm
    refine ⟨n, ?_, h⟩
    unfold quantified
    split
    · obtain ⟨tail, ht⟩ := h.starts
      exact absurd ht (hne tail)
    · rfl

theorem opening_alike {t : Token} {f' : Flags} (h : Alike x y m n)
    (hm : opening f m = .ok (t, f', r)) (hr : x.length < r.length) :
    ∃ r', opening f n = .ok (t, f', r') ∧ Alike x y r r' := by
  obtain ⟨eaten, hskip, -, hq, ho⟩ := opening_ok hm
  have hlong : x.length < (skip f.verbose m).length :=
    longer (hskip ▸ List.suffix_append _ _) hr
  have hs := skip_alike h hlong
  rw [hskip] at hs
  obtain ⟨r', hn, ha⟩ := hs.drop hr
  refine ⟨r', ho n r' hn ?_, ha⟩
  intro hnil
  rw [ha.head?]
  exact hq hnil

theorem braced_alike {text : List Char} (h : Alike x y m n) (hm : braced v m = .ok (text, r))
    (hr : x.length < r.length) : ∃ r', braced v n = .ok (text, r') ∧ Alike x y r r' := by
  have hd := braced_eq_ok.mp hm
  have hs := runOf_suffix v (· ≠ '\x7d') m.length (skip v m)
  rw [hd] at hs
  have hbrace : x.length < ('\x7d' :: r).length := longer (List.suffix_cons _ _) hr
  obtain ⟨n₁, hn₁, ha⟩ := runOf_alike_all (skip_alike h (longer hs hbrace))
    (skip_suffix v m).length_le (skip_suffix v n).length_le hd hbrace
  obtain ⟨r', rfl, htail⟩ := ha.cons
  exact ⟨r', braced_eq_ok.mpr hn₁, htail hr⟩

/-- A text in braces that comes next after what is skipped. -/
theorem skip_braced_alike {tail text : List Char} (h : Alike x y m n)
    (hs : skip v m = '\x7b' :: tail) (hm : braced v tail = .ok (text, r))
    (hr : x.length < r.length) :
    ∃ tail' r', skip v n = '\x7b' :: tail' ∧ braced v tail' = .ok (text, r') ∧ Alike x y r r' := by
  have htail := longer (braced_suffix hm) hr
  have ha := skip_alike h (hs ▸ longer (List.suffix_cons _ _) htail)
  rw [hs] at ha
  obtain ⟨tail', hn, ha⟩ := ha.cons
  obtain ⟨r', hr', ha⟩ := braced_alike (ha htail) hm hr
  exact ⟨tail', r', hn, hr', ha⟩

theorem hexEscape_alike {k : Nat} {p : Primitive} (h : Alike x y m n)
    (hm : hexEscape v k m = .ok (p, r)) (hr : x.length < r.length) :
    ∃ r', hexEscape v k n = .ok (p, r') ∧ Alike x y r r' := by
  cases hexEscape_iff.mp hm with
  | @braced tail digits r₂ p hs hd hne hp =>
    obtain ⟨tail', n₂, hn, hd', ha⟩ :=
      skip_braced_alike h hs hd (longer (skip_suffix v r₂) hr)
    exact ⟨skip v n₂, hexEscape_iff.mpr (.braced hn hd' hne hp), skip_alike ha hr⟩
  | @counted digits r p hs hd hk hp =>
    have hs₁ := runOf_suffix v (fun _ => true) k (skip v m)
    rw [hd] at hs₁
    have ha := skip_alike h (longer hs₁ hr)
    obtain ⟨n₁, hn₁, ha₁⟩ := runOf_alike ha hd hr
    refine ⟨n₁, hexEscape_iff.mpr (.counted ?_ hn₁ hk hp), ha₁⟩
    intro tail heq
    rw [heq] at ha
    obtain ⟨tail', ht⟩ := ha.starts
    exact hs tail' ht

theorem propertyText_alike {text : List Char} (h : Alike x y m n)
    (hm : propertyText v m = .ok (text, r)) (hr : x.length < r.length) :
    ∃ r', propertyText v n = .ok (text, r') ∧ Alike x y r r' := by
  cases propertyText_iff.mp hm with
  | braced hs hb =>
    obtain ⟨tail', r', hn, hb', ha⟩ := skip_braced_alike h hs hb hr
    exact ⟨r', propertyText_iff.mpr (.braced hn hb'), ha⟩
  | letter hs hne =>
    have ha := skip_alike h (hs ▸ longer (List.suffix_cons _ _) hr)
    rw [hs] at ha
    obtain ⟨r', hn, ha⟩ := ha.cons
    exact ⟨r', propertyText_iff.mpr (.letter hn hne), ha hr⟩

/-- Only for a word boundary in front of an opening brace it matters how the text goes on behind
that. -/
theorem boundary_alike {e : WordEdge} (h : Alike x y m n) (hm : boundary f m = .ok (e, r))
    (hr : x.length < r.length)
    (hb : ∀ tail, r = '\x7b' :: tail → x.length < (skip f.verbose tail).length) :
    ∃ r', boundary f n = .ok (e, r') ∧ Alike x y r r' := by
  cases boundary_iff.mp hm with
  | @named tail more name r c e hs hc hd hedge =>
    have hs₁ := runOf_suffix f.verbose (fun c => c.isAlpha || c = '-') tail.length (c :: more)
    rw [hd] at hs₁
    obtain ⟨tail', rfl, htail⟩ := h.cons
    have h₁ : x.length < ('\x7d' :: r).length := longer (List.suffix_cons _ _) hr
    have hskip : x.length < (skip f.verbose tail).length := hs ▸ longer hs₁ h₁
    have ha := skip_alike (htail (longer (skip_suffix _ _) hskip)) hskip
    have hle : (c :: more).length ≤ tail.length := hs ▸ (skip_suffix _ _).length_le
    have hle' := (skip_suffix f.verbose tail').length_le
    rw [hs] at ha
    obtain ⟨n₁, hn₁, ha₁⟩ := runOf_alike_all ha hle hle' hd h₁
    obtain ⟨n₂, rfl, ha₂⟩ := ha₁.cons
    obtain ⟨more', hn, -⟩ := ha.cons
    rw [hn] at hn₁
    exact ⟨n₂, boundary_iff.mpr (.named hn hc hn₁ hedge), ha₂ hr⟩
  | @unnamed tail more c hs hc =>
    obtain ⟨tail', rfl, htail⟩ := h.cons
    have hskip := hb tail rfl
    have ha := skip_alike (htail (longer (skip_suffix _ _) hskip)) hskip
    rw [hs] at ha
    obtain ⟨more', hn, -⟩ := ha.cons
    exact ⟨_, boundary_iff.mpr (.unnamed hn hc), h⟩
  | bare hne =>
    refine ⟨n, boundary_iff.mpr (.bare fun hb => hne ?_), h⟩
    obtain ⟨tail, rfl⟩ := List.head?_eq_some_iff.mp hb
    obtain ⟨tail', rfl⟩ := h.starts
    rfl

theorem classNegation_alike {negated : Bool} (h : Alike x y m n)
    (hm : classNegation f m = (negated, r)) (hr : x.length < r.length) :
    ∃ r', classNegation f n = (negated, r') ∧ Alike x y r r' := by
  unfold classNegation at hm ⊢
  split at hm
  · rename_i tail heq
    cases hm
    have htail := longer (skip_suffix f.verbose tail) hr
    have hskip : x.length < (skip f.verbose m).length :=
      heq ▸ longer (List.suffix_cons _ _) htail
    have ha := skip_alike h hskip
    rw [heq] at ha
    obtain ⟨tail', hn, ha⟩ := ha.cons
    rw [hn]
    exact ⟨_, rfl, skip_alike (ha htail) hr⟩
  · rename_i hne
    cases hm
    have ha := skip_alike h hr
    refine ⟨_, ?_, ha⟩
    split
    · rename_i tail heq
      rw [heq] at ha
      obtain ⟨tail', ht⟩ := ha.starts
      exact absurd ht (hne tail')
    · rfl

theorem leadingMembers_alike {k k' : OpenClass} (h : Alike x y m n)
    (hm : leadingMembers f k m = (k', r)) (hr : x.length < r.length) :
    ∃ r', leadingMembers f k n = (k', r') ∧ Alike x y r r' := by
  unfold leadingMembers at hm
  cases hd : runOf f.verbose (· = '-') m.length m with | mk hyphens r₁ =>
  rw [hd] at hm
  have hstart (h₁ : x.length < r₁.length) :
      ∃ n₁, runOf f.verbose (· = '-') n.length n = (hyphens, n₁) ∧ Alike x y r₁ n₁ :=
    runOf_alike_all h (Nat.le_refl _) (Nat.le_refl _) hd h₁
  unfold leadingMembers
  split at hm
  · rename_i heq
    cases heq
    cases hm
    obtain ⟨n₁, hn₁, ha⟩ := hstart hr
    exact ⟨n₁, by rw [hn₁], ha⟩
  · rename_i tail heq
    cases heq
    cases hm
    have htail := longer (skip_suffix f.verbose tail) hr
    obtain ⟨n₁, hn₁, ha⟩ := hstart (longer (List.suffix_cons _ _) htail)
    obtain ⟨tail', rfl, hrest⟩ := ha.cons
    exact ⟨_, by simp [hn₁], skip_alike (hrest htail) hr⟩
  · rename_i hne heq
    cases heq
    cases hm
    obtain ⟨n₁, hn₁, ha⟩ := hstart hr
    refine ⟨n₁, ?_, ha⟩
    rw [hn₁]
    split
    · rename_i heq
      cases heq
    · rename_i tail heq
      cases heq
      obtain ⟨tail', ht⟩ := ha.starts
      exact absurd ht (hne tail')
    · rename_i heq
      cases heq
      rfl

theorem openClass_alike {k : OpenClass} (h : Alike x y m n) (hm : openClass f m = .ok (k, r))
    (hr : x.length < r.length) : ∃ r', openClass f n = .ok (k, r') ∧ Alike x y r r' := by
  obtain ⟨negated, r₁, hn, hl, -⟩ := openClass_eq_ok.mp hm
  obtain ⟨n₁, hn₁, ha⟩ := classNegation_alike h hn (longer (leadingMembers_suffix hl) hr)
  obtain ⟨n₂, hn₂, ha⟩ := leadingMembers_alike ha hl hr
  have hne : n₂ ≠ [] := by
    obtain ⟨u, hu, -, rfl⟩ := ha
    simp [hu]
  exact ⟨n₂, openClass_eq_ok.mpr ⟨negated, n₁, hn₁, hn₂, hne⟩, ha⟩

def Share (c : Char) (x y m n : List Char) : Prop :=
  ∃ u, c ∈ u ∧ m = u ++ x ∧ n = u ++ y

theorem Alike.share {c : Char} {e : List Char} (h : Alike x y m n) (hs : c :: e <:+ m)
    (he : x.length ≤ e.length) : Share c x y m n := by
  obtain ⟨u, -, rfl, rfl⟩ := h
  refine ⟨u, ?_, rfl, rfl⟩
  obtain ⟨b, hb⟩ := hs
  rcases List.append_eq_append_iff.mp hb with ⟨u', rfl, hu⟩ | ⟨b', rfl, hb'⟩
  · cases u' with
    | nil =>
      have hlen := congrArg List.length hu
      simp at hlen
      omega
    | cons d u' =>
      obtain ⟨rfl, -⟩ := List.cons.inj hu
      simp
  · have hlen := congrArg List.length hb'
    simp at hlen
    omega

theorem peekIgnoring_share {comment : Bool} (h : Share ']' x y m n) :
    peekIgnoring comment n = peekIgnoring comment m := by
  obtain ⟨u, hu, rfl, rfl⟩ := h
  induction u generalizing comment with
  | nil => simp at hu
  | cons c u ih =>
    rw [List.cons_append, List.cons_append, peekIgnoring, peekIgnoring]
    by_cases hc : c = ']'
    · subst hc
      have hb : isBlank ']' = false := by decide
      simp [hb]
    · have hu : ']' ∈ u := by simpa [Ne.symm hc] using hu
      rw [ih hu, ih hu]

theorem peek_share (h : Share ']' x y m n) : peek v n = peek v m := by
  have hhead : n.head? = m.head? := by
    obtain ⟨u, hu, rfl, rfl⟩ := h
    obtain ⟨c, u, rfl⟩ := List.exists_cons_of_ne_nil (List.ne_nil_of_mem hu)
    rfl
  rw [peek, peek, peekIgnoring_share h, hhead]

theorem asciiClass?_none_share (h : Share ']' x y m n) (hm : asciiClass? f m = none) :
    asciiClass? f n = none := by
  obtain ⟨u, hu, rfl, rfl⟩ := h
  refine asciiClass?_none_append hu ?_
  cases ha : asciiClass? f u with
  | none => rfl
  | some p =>
    rw [asciiClass?_append ha] at hm
    contradiction

theorem asciiClass?_share {s : CharSet} (h : Share ']' x y m n)
    (hm : asciiClass? f m = some (s, r)) (hr : x.length < r.length) :
    ∃ r', asciiClass? f n = some (s, r') ∧ Alike x y r r' := by
  obtain ⟨u, hu, rfl, rfl⟩ := h
  cases ha : asciiClass? f u with
  | none =>
    rw [asciiClass?_none_append hu ha] at hm
    contradiction
  | some p =>
    simp only [asciiClass?_append ha, Option.some.injEq, Prod.mk.injEq] at hm
    obtain ⟨rfl, rfl⟩ := hm
    refine ⟨_, asciiClass?_append ha, alike_append ?_⟩
    intro hnil
    simp [hnil] at hr

theorem classMember_not_look {p : Primitive} {s : CharSet} (h : classMember f p = .ok s) :
    ∀ l, p ≠ .look l := by
  rintro l rfl
  contradiction

theorem classRange_not_look {p q : Primitive} {s : CharSet} (h : classRange f p q = .ok s) :
    (∀ l, p ≠ .look l) ∧ ∀ l, q ≠ .look l := by
  simp only [classRange, bind_eq_ok] at h
  obtain ⟨c, hc, d, hd, -⟩ := h
  constructor
  · rintro l rfl
    contradiction
  · rintro l rfl
    contradiction

theorem longer_of_bracket {e : List Char} (hb : ']' :: e <:+ r) (he : x.length ≤ e.length) :
    x.length < r.length := by
  have hlen := hb.length_le
  rw [List.length_cons] at hlen
  omega

theorem classOperator?_pair (c d : Char) (cs : List Char) :
    classOperator? (c :: d :: cs) = (classOperator? [c, d]).map fun p => (p.1, cs) := by
  unfold classOperator?
  grind

variable [Engine]

theorem escape_alike {p : Primitive} (h : Alike x y m n) (hm : escape f m = .ok (p, r))
    (hr : x.length < r.length)
    (hb : ∀ l tail, p = .look l → r = '\x7b' :: tail → x.length < (skip f.verbose tail).length) :
    ∃ r', escape f n = .ok (p, r') ∧ Alike x y r r' := by
  cases m with
  | nil => contradiction
  | cons c m =>
    obtain ⟨n, rfl, htail⟩ := h.cons
    cases escape_iff.mp hm with
    | hex hk hm =>
      have ha := htail (longer (hexEscape_suffix hm) hr)
      obtain ⟨n', hn, ha⟩ := hexEscape_alike ha hm hr
      exact ⟨n', escape_iff.mpr (.hex hk hn), ha⟩
    | edge he =>
      have ha := htail (longer (boundary_suffix he) hr)
      obtain ⟨n', hn, ha⟩ := boundary_alike ha he hr (hb _ · rfl)
      exact ⟨n', escape_iff.mpr (.edge hn), ha⟩
    | property hk ht hs =>
      have ha := htail (longer (propertyText_suffix ht) hr)
      obtain ⟨n', hn, ha⟩ := propertyText_alike ha ht hr
      exact ⟨n', escape_iff.mpr (.property hk hn hs), ha⟩
    | char hk hc hp he => exact ⟨n, escape_iff.mpr (.char hk hc hp he), htail hr⟩

theorem classPrimitive_alike {p : Primitive} (h : Alike x y m n)
    (hm : classPrimitive f m = .ok (p, r)) (hr : x.length < r.length) (hl : ∀ l, p ≠ .look l) :
    ∃ r', classPrimitive f n = .ok (p, r') ∧ Alike x y r r' := by
  cases m with
  | nil => contradiction
  | cons c m =>
    have htail := longer (classPrimitive_suffix hm) hr
    obtain ⟨n, rfl, ha⟩ := h.cons
    by_cases hc : c = '\\'
    · subst hc
      exact escape_alike (ha htail) hm hr fun l _ hp => absurd hp (hl l)
    · rw [classPrimitive] at hm ⊢
      · cases hm
        exact ⟨n, rfl, ha htail⟩
      · exact hc
      · exact hc

/-- A word boundary is no member of a class, nor an end of a range. -/
theorem classItemFrom_not_look {first : Primitive} {s : CharSet}
    (h : classItemFrom f first m = .ok (s, r)) : ∀ l, first ≠ .look l := by
  unfold classItemFrom at h
  split at h
  · contradiction
  · dsimp only at h
    split at h
    · simp only [bind_eq_ok] at h
      obtain ⟨s', hs, -⟩ := h
      exact classMember_not_look hs
    · simp only [bind_eq_ok, Prod.exists] at h
      obtain ⟨last, r₁, -, s', hs, -⟩ := h
      exact (classRange_not_look hs).1
  · simp only [bind_eq_ok] at h
    obtain ⟨s', hs, -⟩ := h
    exact classMember_not_look hs

/-- A member of a class is read alike if the class is closed before the texts differ. -/
theorem classItemFrom_alike {first : Primitive} {s : CharSet} {e : List Char} (h : Alike x y m n)
    (hm : classItemFrom f first m = .ok (s, r)) (hb : ']' :: e <:+ r) (he : x.length ≤ e.length) :
    ∃ r', classItemFrom f first n = .ok (s, r') ∧ Alike x y r r' := by
  have hr := longer_of_bracket hb he
  cases m with
  | nil => contradiction
  | cons c m =>
    obtain ⟨n, rfl, htail⟩ := h.cons
    by_cases hc : c = '-'
    · subst hc
      simp only [classItemFrom] at hm ⊢
      split at hm
      · rename_i hnext
        simp only [bind_eq_ok, pure_eq_ok, Prod.mk.injEq] at hm
        obtain ⟨s', hs, rfl, rfl⟩ := hm
        -- Behind a hyphen the reader looks past comments, but not past the bracket.
        have hb : ']' :: e <:+ m := by
          rcases List.suffix_cons_iff.mp hb with hb | hb
          · cases hb
          · exact hb
        refine ⟨'-' :: n, ?_, h⟩
        rw [peek_share ((htail (longer_of_bracket hb he)).share hb he), if_pos hnext, hs]
        rfl
      · rename_i hnext
        simp only [bind_eq_ok, pure_eq_ok, Prod.exists, Prod.mk.injEq] at hm
        obtain ⟨last, r₁, hl, s', hs, rfl, rfl⟩ := hm
        have hsk : r₁ <:+ skip f.verbose m := by
          cases hskip : skip f.verbose m with
          | nil =>
            rw [hskip] at hl
            contradiction
          | cons d more =>
            rw [hskip] at hl
            exact (classPrimitive_suffix hl).trans (List.suffix_cons _ _)
        have ha := htail (longer (hsk.trans (skip_suffix _ _)) hr)
        have hshare := ha.share ((hb.trans hsk).trans (skip_suffix _ _)) he
        obtain ⟨r', hr', ha'⟩ := classPrimitive_alike (skip_alike ha (longer hsk hr)) hl hr
          (classRange_not_look hs).2
        refine ⟨r', ?_, ha'⟩
        rw [peek_share hshare, if_neg hnext, hr']
        simp [hs]
    · rw [classItemFrom_single hc] at hm ⊢
      simp only [bind_eq_ok, pure_eq_ok, Prod.mk.injEq] at hm
      obtain ⟨s', hs, rfl, rfl⟩ := hm
      exact ⟨c :: n, by simp [hs], h⟩

theorem classItem_alike {s : CharSet} {e : List Char} (h : Alike x y m n)
    (hm : classItem f m = .ok (s, r)) (hb : ']' :: e <:+ r) (he : x.length ≤ e.length) :
    ∃ r', classItem f n = .ok (s, r') ∧ Alike x y r r' := by
  simp only [classItem, bind_eq_ok, Prod.exists] at hm ⊢
  obtain ⟨first, r₁, hf, hm⟩ := hm
  have hskip := longer (classItemFrom_suffix hm).2 (longer_of_bracket hb he)
  have h₁ := longer (skip_suffix f.verbose r₁) hskip
  obtain ⟨n₁, hn₁, ha⟩ := classPrimitive_alike h hf h₁ (classItemFrom_not_look hm)
  obtain ⟨r', hr', ha⟩ := classItemFrom_alike (skip_alike ha hskip) hm hb he
  exact ⟨r', ⟨first, n₁, hn₁, hr'⟩, ha⟩

theorem classToken_shorter {t : ClassToken} (h : classToken f m = .ok (t, r)) :
    r <:+ m ∧ r.length < m.length := by
  cases m with
  | nil => contradiction
  | cons c m =>
    have hs := classToken_suffix h
    refine ⟨hs.trans (List.suffix_cons _ _), ?_⟩
    rw [List.length_cons]
    exact Nat.lt_succ_of_le hs.length_le

theorem classToken_alike {t : ClassToken} {e : List Char} (h : Alike x y m n)
    (hm : classToken f m = .ok (t, r)) (hb : ']' :: e <:+ r) (he : x.length ≤ e.length) :
    ∃ r', classToken f n = .ok (t, r') ∧ Alike x y r r' := by
  have hr := longer_of_bracket hb he
  cases m with
  | nil => contradiction
  | cons c m =>
    have hs := classToken_suffix hm
    have hm₁ := longer hs hr
    obtain ⟨n, rfl, htail⟩ := h.cons
    have ha := htail hm₁
    have hshare := ha.share (hb.trans hs) he
    by_cases hc : c = '['
    · subst hc
      simp only [classToken] at hm ⊢
      split at hm
      · rename_i hascii
        simp only [bind_eq_ok, pure_eq_ok, Prod.mk.injEq] at hm
        obtain ⟨s, hset, rfl, rfl⟩ := hm
        obtain ⟨r', hr', ha'⟩ := asciiClass?_share hshare hascii hr
        exact ⟨r', by simp [hr', hset], ha'⟩
      · rename_i hascii
        simp only [bind_eq_ok, pure_eq_ok, Prod.exists, Prod.mk.injEq] at hm
        obtain ⟨k, r₁, hk, rfl, rfl⟩ := hm
        obtain ⟨r', hr', ha'⟩ := openClass_alike ha hk hr
        exact ⟨r', by simp [asciiClass?_none_share hshare hascii, hr'], ha'⟩
    by_cases hc' : c = ']'
    · subst hc'
      cases hm
      exact ⟨n, rfl, ha⟩
    · rw [classToken_other hc hc'] at hm ⊢
      have hne : m ≠ [] := List.ne_nil_of_length_pos (by omega)
      obtain ⟨d, m, rfl⟩ := List.exists_cons_of_ne_nil hne
      obtain ⟨n, rfl, hmore⟩ := ha.cons
      rw [classOperator?_pair] at hm ⊢
      cases ho : classOperator? [c, d] with
      | some p =>
        simp only [ho, Option.map_some, Except.ok.injEq, Prod.mk.injEq] at hm ⊢
        obtain ⟨rfl, rfl⟩ := hm
        exact ⟨n, ⟨rfl, rfl⟩, hmore hr⟩
      | none =>
        simp only [ho, Option.map_none, bind_eq_ok, pure_eq_ok, Prod.exists,
          Prod.mk.injEq] at hm ⊢
        obtain ⟨s, r₁, hitem, rfl, rfl⟩ := hm
        obtain ⟨r', hr', ha'⟩ := classItem_alike h hitem hb he
        exact ⟨r', ⟨s, r', hr', rfl, rfl⟩, ha'⟩

theorem classLoop_closing {k : Nat} {c : OpenClass} {outer : List OpenClass} {s : CharSet}
    (h : classLoop f k c outer m = .ok (s, r)) : ']' :: r <:+ m := by
  induction k generalizing c outer m with
  | zero => contradiction
  | succ k ih =>
    simp only [classLoop, bind_eq_ok, Prod.exists] at h
    obtain ⟨t, r₁, ht, h⟩ := h
    have hs := (classToken_shorter ht).1.trans (skip_suffix _ _)
    cases t with
    | item s' => exact (ih h).trans hs
    | named s' => exact (ih h).trans hs
    | opening inner => exact (ih h).trans hs
    | operator op => exact (ih h).trans hs
    | closing =>
      cases outer with
      | nil =>
        simp only [bind_eq_ok, pure_eq_ok, Prod.mk.injEq] at h
        obtain ⟨_, -, -, rfl⟩ := h
        exact classToken_closing ht ▸ skip_suffix f.verbose m
      | cons parent outer =>
        simp only [bind_eq_ok] at h
        obtain ⟨_, -, h⟩ := h
        exact (ih h).trans hs

/-- A class that is closed before the texts differ is read alike. -/
theorem classLoop_ended {k k' : Nat} {c : OpenClass} {outer : List OpenClass} {s : CharSet}
    (h : Alike x y m n) (hk : n.length < k') (hm : classLoop f k c outer m = .ok (s, r))
    (hr : x.length ≤ r.length) :
    ∃ r', classLoop f k' c outer n = .ok (s, r') ∧ Ended x y r r' := by
  induction k generalizing k' c outer m n with
  | zero => contradiction
  | succ k ih =>
    obtain ⟨k', rfl⟩ : ∃ j, k' = j + 1 := ⟨k' - 1, by omega⟩
    simp only [classLoop, bind_eq_ok, Prod.exists] at hm ⊢
    obtain ⟨t, r₁, ht, hm⟩ := hm
    -- The bracket that ends the loop is behind all tokens but the last.
    have hgo {c' : OpenClass} {outer' : List OpenClass}
        (hm : classLoop f k c' outer' r₁ = .ok (s, r)) :
        ∃ n₁, classToken f (skip f.verbose n) = .ok (t, n₁) ∧
          ∃ r', classLoop f k' c' outer' n₁ = .ok (s, r') ∧ Ended x y r r' := by
      have hb := classLoop_closing hm
      have hskip := longer (classToken_shorter ht).1 (longer_of_bracket hb hr)
      obtain ⟨n₁, hn₁, ha⟩ := classToken_alike (skip_alike h hskip) ht hb hr
      have hlen := (classToken_shorter hn₁).2
      have hle := (skip_suffix f.verbose n).length_le
      exact ⟨n₁, hn₁, ih ha (by omega) hm⟩
    cases t with
    | item s' | named s' | opening inner | operator op =>
      obtain ⟨n₁, hn₁, r', hr', he⟩ := hgo hm
      exact ⟨r', ⟨_, n₁, hn₁, hr'⟩, he⟩
    | closing =>
      cases outer with
      | nil =>
        simp only [bind_eq_ok, pure_eq_ok, Prod.mk.injEq] at hm
        obtain ⟨s', hs, rfl, rfl⟩ := hm
        have ha := skip_alike h (Nat.lt_of_le_of_lt hr (classToken_shorter ht).2)
        rw [classToken_closing ht] at ha
        obtain ⟨n₁, hn₁, he⟩ := ha.tail
        exact ⟨n₁, ⟨.closing, n₁, by rw [hn₁]; rfl, by simp [hs]⟩, he⟩
      | cons parent outer =>
        simp only [bind_eq_ok] at hm
        obtain ⟨s', hs, hm⟩ := hm
        obtain ⟨n₁, hn₁, r', hr', he⟩ := hgo hm
        exact ⟨r', ⟨_, n₁, hn₁, by simp [hs, hr']⟩, he⟩

theorem bracketed_closing {s : CharSet} (h : bracketed f m = .ok (s, r)) : ']' :: r <:+ m := by
  simp only [bracketed, bind_eq_ok, Prod.exists] at h
  obtain ⟨k, r₁, hk, hl⟩ := h
  exact (classLoop_closing hl).trans (openClass_suffix hk)

theorem bracketed_ended {s : CharSet} (h : Alike x y m n) (hm : bracketed f m = .ok (s, r))
    (hr : x.length ≤ r.length) : ∃ r', bracketed f n = .ok (s, r') ∧ Ended x y r r' := by
  simp only [bracketed, bind_eq_ok, Prod.exists] at hm ⊢
  obtain ⟨k, r₁, hk, hl⟩ := hm
  have h₁ := longer_of_bracket (classLoop_closing hl) hr
  obtain ⟨n₁, hn₁, ha⟩ := openClass_alike h hk h₁
  obtain ⟨r', hr', he⟩ := classLoop_ended ha (Nat.lt_succ_self _) hl hr
  exact ⟨r', ⟨k, n₁, hn₁, hr'⟩, he⟩

/-- A token is read alike if more than the end of the text is left behind it, also behind a brace
that comes next after a condition. -/
theorem taken_alike {c : Char} {t : Token} {f' : Flags} (h : Alike x y m n)
    (hm : Taken f c m t f' r) (hr : x.length < r.length)
    (hb : ∀ l tail, t = .atom (.look l) → r = '\x7b' :: tail →
      x.length < (skip f.verbose tail).length) :
    ∃ r', Taken f c n t f' r' ∧ Alike x y r r' := by
  cases hm with
  | opening hm =>
    obtain ⟨r', hr', ha⟩ := opening_alike h hm hr
    exact ⟨r', .opening hr', ha⟩
  | close => exact ⟨n, .close, h⟩
  | bar => exact ⟨n, .bar, h⟩
  | bracketed hm =>
    obtain ⟨r', hr', he⟩ := bracketed_ended h hm (Nat.le_of_lt hr)
    exact ⟨r', .bracketed hr', he.alike hr⟩
  | counted hc hq =>
    have hskip := longer (quantified_passes hq).suffix hr
    have hcounts := longer (skip_suffix _ _) hskip
    obtain ⟨n₁, hn₁, he⟩ := counts_ended h hc (Nat.le_of_lt hcounts)
    obtain ⟨r', hr', ha⟩ := quantified_alike (skip_alike (he.alike hcounts) hskip) hq hr
    exact ⟨r', .counted hn₁ hr', ha⟩
  | @escaped _ _ p _ he ha =>
    have hlook (l : Look) (tail : List Char) (hp : p = .look l) (ht : r = '\x7b' :: tail) :
        x.length < (skip f.verbose tail).length := by
      subst hp
      cases ha
      exact hb l tail rfl ht
    obtain ⟨r', hr', ha'⟩ := escape_alike h he hr hlook
    exact ⟨r', .escaped hr' ha, ha'⟩
  | sign hmark hs hq =>
    obtain ⟨r', hr', ha⟩ := quantified_alike h hq hr
    exact ⟨r', .sign hmark hs hr', ha⟩
  | char hmark hs ha => exact ⟨n, .char hmark hs ha, h⟩

end Brine.Proofs.PatternPrefixes
