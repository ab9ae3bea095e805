import Brine.Proofs.PatternReaders

namespace Brine.Proofs.PatternClasses
open Regex Success PatternReaders

variable {cs rest extra : List Char} {f : Flags}

theorem classNegation_append (hv : f.verbose = false) {negated : Bool}
    (h : classNegation f cs = (negated, rest)) (hr : rest ≠ []) :
    classNegation f (cs ++ extra) = (negated, rest ++ extra) := by
  unfold classNegation at h ⊢
  simp only [hv, skip_false] at h ⊢
  cases cs with
  | nil => simp_all
  | cons c cs => grind

theorem leadingMembers_hyphen (hv : f.verbose = false) {k : OpenClass} :
    leadingMembers f k ('-' :: cs) = (k.add (.single '-'), cs.dropWhile (· = '-')) := by
  simp [leadingMembers, hv, runOf_false]

theorem leadingMembers_bracket (hv : f.verbose = false) {k : OpenClass} :
    leadingMembers f k (']' :: cs) = (k.add (.single ']'), cs) := by
  simp [leadingMembers, hv, runOf_false]

theorem leadingMembers_other (hv : f.verbose = false) {k : OpenClass} (h₁ : cs.head? ≠ some '-')
    (h₂ : cs.head? ≠ some ']') : leadingMembers f k cs = (k, cs) := by
  unfold leadingMembers
  rw [hv, runOf_false (Nat.le_refl _)]
  cases cs with
  | nil => rfl
  | cons c cs =>
    have h₁ : c ≠ '-' := by simpa using h₁
    have h₂ : c ≠ ']' := by simpa using h₂
    simp [h₁, h₂]

theorem leadingMembers_append {k k' : OpenClass} (hv : f.verbose = false)
    (h : leadingMembers f k cs = (k', rest)) (hr : rest ≠ []) :
    leadingMembers f k (cs ++ extra) = (k', rest ++ extra) := by
  cases cs with
  | nil =>
    rw [leadingMembers_other hv (by simp) (by simp)] at h
    simp_all
  | cons c cs =>
    rw [List.cons_append]
    by_cases hc : c = '-'
    · subst hc
      rw [leadingMembers_hyphen hv, Prod.mk.injEq] at h ⊢
      obtain ⟨rfl, rfl⟩ := h
      exact ⟨rfl, (dropWhile_append_of_ne extra hr).1⟩
    by_cases hc' : c = ']'
    · subst hc'
      rw [leadingMembers_bracket hv, Prod.mk.injEq] at h ⊢
      obtain ⟨rfl, rfl⟩ := h
      exact ⟨rfl, rfl⟩
    · rw [leadingMembers_other hv (by simpa using hc) (by simpa using hc'), Prod.mk.injEq] at h ⊢
      obtain ⟨rfl, rfl⟩ := h
      exact ⟨rfl, rfl⟩

/-- The start of a class is its negation and the members that stand for themselves there, and
something has to follow it. -/
theorem openClass_eq_ok {k : OpenClass} : openClass f cs = .ok (k, rest) ↔
    ∃ negated rest₁, classNegation f cs = (negated, rest₁) ∧
      leadingMembers f { negated } rest₁ = (k, rest) ∧ rest ≠ [] := by
  unfold openClass
  cases hn : classNegation f cs with | mk negated rest₁ =>
  cases hl : leadingMembers f { negated } rest₁ with | mk k₁ rest₂ =>
  cases rest₂ with
  | nil =>
    constructor
    · intro h
      simp [hl] at h
    · rintro ⟨_, _, hn, hl', hne⟩
      cases hn
      cases hl.symm.trans hl'
      exact absurd rfl hne
  | cons c tail =>
    constructor
    · intro h
      simp only [hl] at h
      cases h
      exact ⟨negated, rest₁, rfl, hl, List.cons_ne_nil c tail⟩
    · rintro ⟨_, _, hn, hl', -⟩
      cases hn
      cases hl.symm.trans hl'
      simp [hl]

theorem openClass_append {k : OpenClass} (hv : f.verbose = false)
    (h : openClass f cs = .ok (k, rest)) : openClass f (cs ++ extra) = .ok (k, rest ++ extra) := by
  obtain ⟨negated, rest₁, hn, hl, hr⟩ := openClass_eq_ok.mp h
  have hr₁ : rest₁ ≠ [] := by
    rintro rfl
    rw [leadingMembers_other hv (by simp) (by simp)] at hl
    exact hr (Prod.mk.inj hl).2.symm
  exact openClass_eq_ok.mpr ⟨negated, rest₁ ++ extra, classNegation_append hv hn hr₁,
    leadingMembers_append hv hl hr, List.append_ne_nil_of_left_ne_nil hr extra⟩

/-- The names of classes have no delimiters. -/
theorem ascii_plain {name : List Char} {s : CharSet}
    (h : CharSet.ascii? (String.ofList name) = some s) : ∀ c ∈ name, c ∉ delimiters := by
  unfold CharSet.ascii? at h
  split at h
  case h_15 => contradiction
  all_goals
    rename_i heq
    have hname := congrArg String.toList heq
    rw [String.toList_ofList] at hname
    subst hname
    simp [delimiters]

theorem namedClass?_append {negated : Bool} {s : CharSet}
    (h : namedClass? f negated cs = some (s, rest)) :
    namedClass? f negated (cs ++ extra) = some (s, rest ++ extra) := by
  unfold namedClass? at h
  split at h
  · rename_i hd ha
    cases h
    have hne : cs.dropWhile (· ≠ ':') ≠ [] := by
      rw [hd]
      exact List.cons_ne_nil _ _
    obtain ⟨hd', ht'⟩ := dropWhile_append_of_ne extra hne
    simp only [namedClass?, hd', ht', hd, ha, List.cons_append]
  · contradiction

/-- Text that has a closing bracket is no name, however it goes on. -/
theorem namedClass?_none_append {negated : Bool} (hm : ']' ∈ cs)
    (h : namedClass? f negated cs = none) : namedClass? f negated (cs ++ extra) = none := by
  cases hn : namedClass? f negated (cs ++ extra) with
  | none => rfl
  | some p =>
    unfold namedClass? at hn
    split at hn
    · rename_i hd ha
      have hb : ']' ∉ (cs ++ extra).takeWhile (· ≠ ':') :=
        fun hc => ascii_plain ha ']' hc (by decide)
      by_cases hne : cs.dropWhile (· ≠ ':') = []
      · -- The name would go on beyond the bracket.
        have htake : cs.takeWhile (· ≠ ':') = cs := by
          have := List.takeWhile_append_dropWhile (p := (· ≠ ':')) (l := cs)
          rwa [hne, List.append_nil] at this
        exfalso
        apply hb
        rw [List.takeWhile_append, htake]
        simp [hm]
      · obtain ⟨hd', ht'⟩ := dropWhile_append_of_ne extra hne
        rw [hd'] at hd
        rw [ht'] at ha hb
        have hsplit := List.takeWhile_append_dropWhile (p := (· ≠ ':')) (l := cs)
        have hmem : ']' ∈ cs.dropWhile (· ≠ ':') := by
          rw [← hsplit] at hm
          exact (List.mem_append.mp hm).resolve_left hb
        cases hdrop : cs.dropWhile (· ≠ ':') with
        | nil => exact absurd hdrop hne
        | cons c tail =>
          rw [hdrop] at hd hmem
          cases tail with
          | nil =>
            have hc : c = ':' := by simpa using (List.cons.inj hd).1
            simp [hc] at hmem
          | cons d tail =>
            simp only [List.cons_append, List.cons.injEq] at hd
            obtain ⟨rfl, rfl, -⟩ := hd
            rw [namedClass?, hdrop, ha] at h
            contradiction
    · contradiction

theorem asciiClass?_append {s : CharSet} (h : asciiClass? f cs = some (s, rest)) :
    asciiClass? f (cs ++ extra) = some (s, rest ++ extra) := by
  unfold asciiClass? at h
  split at h
  · exact namedClass?_append h
  · rename_i cs hc
    rw [List.cons_append, asciiClass?]
    · exact namedClass?_append h
    · intro rest' he
      cases cs with
      | nil => simp [namedClass?] at h
      | cons c cs => exact hc cs (by simp_all)
  · contradiction

theorem asciiClass?_none_append (hm : ']' ∈ cs) (h : asciiClass? f cs = none) :
    asciiClass? f (cs ++ extra) = none := by
  cases cs with
  | nil => simp at hm
  | cons c cs =>
    by_cases hc : c = ':'
    · subst hc
      have hm : ']' ∈ cs := by simpa using hm
      cases cs with
      | nil => simp at hm
      | cons d cs =>
        by_cases hd : d = '^'
        · subst hd
          simp only [List.cons_append, asciiClass?] at h ⊢
          exact namedClass?_none_append (by simpa using hm) h
        · have hcolon (cs : List Char) : asciiClass? f (':' :: d :: cs) =
              namedClass? f false (d :: cs) := by
            rw [asciiClass?]
            simpa using hd
          rw [hcolon] at h
          rw [List.cons_append, List.cons_append, hcolon]
          exact namedClass?_none_append hm h
    · rw [List.cons_append, asciiClass?]
      · simp [hc]
      · simp [hc]

theorem classNegation_suffix {negated : Bool} (h : classNegation f cs = (negated, rest)) :
    rest <:+ cs := by
  unfold classNegation at h
  have hs := skip_suffix f.verbose cs
  split at h
  · rename_i tail heq
    rw [heq] at hs
    cases h
    exact ((skip_suffix f.verbose tail).trans (List.suffix_cons _ _)).trans hs
  · cases h
    exact hs

theorem leadingMembers_suffix {k k' : OpenClass} (h : leadingMembers f k cs = (k', rest)) :
    rest <:+ cs := by
  unfold leadingMembers at h
  have hs := runOf_suffix f.verbose (· = '-') cs.length cs
  split at h <;> rename_i heq <;> rw [heq] at hs <;> cases h
  · exact hs
  · exact ((skip_suffix f.verbose _).trans (List.suffix_cons _ _)).trans hs
  · exact hs

theorem openClass_suffix {k : OpenClass} (h : openClass f cs = .ok (k, rest)) : rest <:+ cs := by
  obtain ⟨negated, rest₁, hn, hl, -⟩ := openClass_eq_ok.mp h
  exact (leadingMembers_suffix hl).trans (classNegation_suffix hn)

theorem namedClass?_suffix {negated : Bool} {s : CharSet}
    (h : namedClass? f negated cs = some (s, rest)) : rest <:+ cs := by
  unfold namedClass? at h
  split at h
  · rename_i hd _
    cases h
    have hs : ':' :: ']' :: rest <:+ cs := hd ▸ List.dropWhile_suffix _
    exact ((List.suffix_cons _ _).trans (List.suffix_cons _ _)).trans hs
  · contradiction

theorem asciiClass?_suffix {s : CharSet} (h : asciiClass? f cs = some (s, rest)) : rest <:+ cs := by
  unfold asciiClass? at h
  split at h
  · exact ((namedClass?_suffix h).trans (List.suffix_cons _ _)).trans (List.suffix_cons _ _)
  · exact (namedClass?_suffix h).trans (List.suffix_cons _ _)
  · contradiction

theorem classOperator?_suffix {c : Char} {op : ClassOp}
    (h : classOperator? (c :: cs) = some (op, rest)) : rest <:+ cs := by
  unfold classOperator? at h
  split at h
  case h_4 => contradiction
  all_goals
    rename_i heq
    cases heq
    cases h
    exact List.suffix_cons _ _

theorem classOperator?_append {c d : Char} :
    classOperator? (c :: d :: cs ++ extra) =
      (classOperator? (c :: d :: cs)).map fun (op, rest) => (op, rest ++ extra) := by
  unfold classOperator?
  simp only [List.cons_append]
  grind

variable [Engine]

theorem classPrimitive_append {p : Primitive} (hv : f.verbose = false) (he : Ends extra)
    (h : classPrimitive f cs = .ok (p, rest)) :
    classPrimitive f (cs ++ extra) = .ok (p, rest ++ extra) := by
  cases cs with
  | nil => contradiction
  | cons c cs =>
    by_cases hc : c = '\\'
    · subst hc
      exact escape_append hv he h
    · rw [classPrimitive] at h
      · cases h
        rw [List.cons_append, classPrimitive]
        exact hc
      · exact hc

/-- Without a hyphen behind it a member is no range. -/
theorem classItemFrom_single {first : Primitive} {c : Char} (hc : c ≠ '-') :
    classItemFrom f first (c :: cs) = (do return (← classMember f first, c :: cs)) := by
  rw [classItemFrom]
  · simp
  · simpa using hc

theorem classItemFrom_append {first : Primitive} {s : CharSet} (hv : f.verbose = false)
    (he : Ends extra) (h : classItemFrom f first cs = .ok (s, rest)) :
    classItemFrom f first (cs ++ extra) = .ok (s, rest ++ extra) := by
  cases cs with
  | nil => contradiction
  | cons c cs =>
    rw [List.cons_append]
    by_cases hc : c = '-'
    · subst hc
      cases cs with
      | nil => simp [classItemFrom, peek, hv, classPrimitive] at h
      | cons d cs =>
        have hpeek (cs : List Char) : peek false (d :: cs) = some d := rfl
        simp only [classItemFrom, hv, skip_false, hpeek, List.cons_append] at h ⊢
        split at h
        · rename_i hd
          rw [if_pos hd]
          simp only [bind_eq_ok, pure_eq_ok, Prod.mk.injEq] at h ⊢
          obtain ⟨s', hs, rfl, rfl⟩ := h
          exact ⟨s', hs, rfl, rfl⟩
        · rename_i hd
          rw [if_neg hd]
          simp only [bind_eq_ok, pure_eq_ok, Prod.exists, Prod.mk.injEq] at h ⊢
          obtain ⟨last, rest₁, hl, s', hs, rfl, rfl⟩ := h
          exact ⟨last, rest₁ ++ extra, classPrimitive_append hv he hl, s', hs, rfl, rfl⟩
    · rw [classItemFrom_single hc] at h ⊢
      simp only [bind_eq_ok, pure_eq_ok, Prod.mk.injEq] at h ⊢
      obtain ⟨s', hs, rfl, rfl⟩ := h
      exact ⟨s', hs, rfl, rfl⟩

theorem classItem_append {s : CharSet} (hv : f.verbose = false) (he : Ends extra)
    (h : classItem f cs = .ok (s, rest)) : classItem f (cs ++ extra) = .ok (s, rest ++ extra) := by
  simp only [classItem, hv, skip_false, bind_eq_ok, Prod.exists] at h ⊢
  obtain ⟨first, rest₁, hf, h⟩ := h
  exact ⟨first, rest₁ ++ extra, classPrimitive_append hv he hf, classItemFrom_append hv he h⟩

theorem classPrimitive_suffix {c : Char} {p : Primitive}
    (h : classPrimitive f (c :: cs) = .ok (p, rest)) : rest <:+ cs := by
  by_cases hc : c = '\\'
  · subst hc
    exact escape_suffix h
  · rw [classPrimitive] at h
    · cases h
      exact List.suffix_refl _
    · exact hc

theorem classItemFrom_suffix {first : Primitive} {s : CharSet}
    (h : classItemFrom f first cs = .ok (s, rest)) : cs ≠ [] ∧ rest <:+ cs := by
  unfold classItemFrom at h
  simp only at h
  split at h
  · contradiction
  · refine ⟨List.cons_ne_nil _ _, ?_⟩
    split at h
    · simp only [bind_eq_ok, pure_eq_ok, Prod.mk.injEq] at h
      obtain ⟨s', hs, rfl, rfl⟩ := h
      exact List.suffix_refl _
    · rename_i tail _
      simp only [bind_eq_ok, pure_eq_ok, Prod.exists, Prod.mk.injEq] at h
      obtain ⟨last, rest₁, hl, s', hs, rfl, rfl⟩ := h
      have htail := skip_suffix f.verbose tail
      cases hskip : skip f.verbose tail with
      | nil =>
        rw [hskip] at hl
        contradiction
      | cons d more =>
        rw [hskip] at hl htail
        exact (((classPrimitive_suffix hl).trans (List.suffix_cons _ _)).trans htail).trans
          (List.suffix_cons _ _)
  · rename_i hne _
    simp only [bind_eq_ok, pure_eq_ok, Prod.mk.injEq] at h
    obtain ⟨s', hs, rfl, rfl⟩ := h
    exact ⟨hne, List.suffix_refl _⟩

theorem classItem_suffix {c : Char} {s : CharSet}
    (h : classItem f (c :: cs) = .ok (s, rest)) : cs ≠ [] ∧ rest <:+ cs := by
  simp only [classItem, bind_eq_ok, Prod.exists] at h
  obtain ⟨first, rest₁, hf, h⟩ := h
  have hs := (skip_suffix f.verbose rest₁).trans (classPrimitive_suffix hf)
  obtain ⟨hne, hs'⟩ := classItemFrom_suffix h
  refine ⟨?_, hs'.trans hs⟩
  rintro rfl
  exact hne (List.suffix_nil.mp hs)

theorem classToken_suffix {c : Char} {t : ClassToken}
    (h : classToken f (c :: cs) = .ok (t, rest)) : rest <:+ cs := by
  unfold classToken at h
  split at h
  · contradiction
  · rename_i heq
    cases heq
    split at h
    · rename_i ha
      simp only [bind_eq_ok, pure_eq_ok, Prod.mk.injEq] at h
      obtain ⟨s', -, rfl, rfl⟩ := h
      exact asciiClass?_suffix ha
    · simp only [bind_eq_ok, pure_eq_ok, Prod.exists, Prod.mk.injEq] at h
      obtain ⟨k, rest', hk, rfl, rfl⟩ := h
      exact openClass_suffix hk
  · rename_i heq
    cases heq
    cases h
    exact List.suffix_refl _
  · split at h
    · rename_i ho
      cases h
      exact classOperator?_suffix ho
    · simp only [bind_eq_ok, pure_eq_ok, Prod.exists, Prod.mk.injEq] at h
      obtain ⟨s, rest', hs, rfl, rfl⟩ := h
      exact (classItem_suffix hs).2

theorem classToken_closing (h : classToken f cs = .ok (.closing, rest)) : cs = ']' :: rest := by
  unfold classToken at h
  split at h
  · contradiction
  · split at h
    · simp only [bind_eq_ok, pure_eq_ok, Prod.mk.injEq, reduceCtorEq, false_and, and_false,
        exists_false] at h
    · simp only [bind_eq_ok, pure_eq_ok, Prod.mk.injEq, reduceCtorEq, false_and, and_false,
        exists_false] at h
  · cases h
    rfl
  · split at h
    · cases h
    · simp only [bind_eq_ok, pure_eq_ok, Prod.mk.injEq, reduceCtorEq, false_and, and_false,
        exists_false] at h

theorem classLoop_suffix {n : Nat} {k : OpenClass} {outer : List OpenClass} {s : CharSet}
    (h : classLoop f n k outer cs = .ok (s, rest)) : ']' ∈ cs ∧ rest <:+ cs := by
  induction n generalizing k outer cs with
  | zero => contradiction
  | succ n ih =>
    simp only [classLoop, bind_eq_ok, Prod.exists] at h
    obtain ⟨t, rest₁, ht, h⟩ := h
    have hskip := skip_suffix f.verbose cs
    have hs : rest₁ <:+ cs := by
      cases hcs : skip f.verbose cs with
      | nil =>
        rw [hcs] at ht
        contradiction
      | cons c more =>
        rw [hcs] at ht hskip
        exact ((classToken_suffix ht).trans (List.suffix_cons c more)).trans hskip
    have hgo {k' : OpenClass} {outer' : List OpenClass}
        (h : classLoop f n k' outer' rest₁ = .ok (s, rest)) : ']' ∈ cs ∧ rest <:+ cs :=
      ⟨hs.subset (ih h).1, (ih h).2.trans hs⟩
    cases t with
    | item s' => exact hgo h
    | named s' => exact hgo h
    | opening inner => exact hgo h
    | operator op => exact hgo h
    | closing =>
      cases outer with
      | nil =>
        simp only [bind_eq_ok, pure_eq_ok, Prod.mk.injEq] at h
        obtain ⟨s', -, rfl, rfl⟩ := h
        rw [classToken_closing ht] at hskip
        exact ⟨hskip.subset List.mem_cons_self, hs⟩
      | cons parent outer =>
        simp only [bind_eq_ok] at h
        obtain ⟨s', -, h⟩ := h
        exact hgo h

theorem bracketed_suffix {s : CharSet}
    (h : bracketed f cs = .ok (s, rest)) : rest <:+ cs := by
  simp only [bracketed, bind_eq_ok, Prod.exists] at h
  obtain ⟨k, rest₁, hk, hl⟩ := h
  exact (classLoop_suffix hl).2.trans (openClass_suffix hk)

theorem classToken_other {c : Char} (hc : c ≠ '[') (hc' : c ≠ ']') : classToken f (c :: cs) =
    match classOperator? (c :: cs) with
    | some (op, rest) => .ok (.operator op, rest)
    | none => do
      let (s, rest) ← classItem f (c :: cs)
      return (.item s, rest) := by
  unfold classToken
  split
  · contradiction
  · simp_all
  · simp_all
  · rfl

theorem classToken_append {t : ClassToken} (hv : f.verbose = false) (he : Ends extra)
    (hm : ']' ∈ cs) (h : classToken f cs = .ok (t, rest)) :
    classToken f (cs ++ extra) = .ok (t, rest ++ extra) := by
  cases cs with
  | nil => contradiction
  | cons c cs =>
    rw [List.cons_append]
    by_cases hc : c = '['
    · subst hc
      simp only [classToken] at h ⊢
      cases ha : asciiClass? f cs with
      | some p =>
        simp only [ha, asciiClass?_append ha, bind_eq_ok, pure_eq_ok, Prod.mk.injEq] at h ⊢
        obtain ⟨s, hs, rfl, rfl⟩ := h
        exact ⟨s, hs, rfl, rfl⟩
      | none =>
        rw [ha] at h
        rw [asciiClass?_none_append (by simpa using hm) ha]
        simp only [bind_eq_ok, pure_eq_ok, Prod.exists, Prod.mk.injEq] at h ⊢
        obtain ⟨k, rest', hk, rfl, rfl⟩ := h
        exact ⟨k, rest' ++ extra, openClass_append hv hk, rfl, rfl⟩
    by_cases hc' : c = ']'
    · subst hc'
      cases h
      rfl
    · rw [classToken_other hc hc'] at h ⊢
      cases cs with
      | nil => simp [Ne.symm hc'] at hm
      | cons d cs =>
        rw [List.cons_append, ← List.cons_append, ← List.cons_append, classOperator?_append]
        cases ho : classOperator? (c :: d :: cs) with
        | some p =>
          simp only [ho, Except.ok.injEq, Prod.mk.injEq] at h
          obtain ⟨rfl, rfl⟩ := h
          rfl
        | none =>
          simp only [ho, Option.map_none, bind_eq_ok, pure_eq_ok, Prod.exists, Prod.mk.injEq] at h ⊢
          obtain ⟨s, rest', hs, rfl, rfl⟩ := h
          exact ⟨s, rest' ++ extra, classItem_append hv he hs, rfl, rfl⟩

theorem classLoop_append {n n' : Nat} {k : OpenClass} {outer : List OpenClass} {s : CharSet}
    (hv : f.verbose = false) (he : Ends extra) (hn : n ≤ n')
    (h : classLoop f n k outer cs = .ok (s, rest)) :
    classLoop f n' k outer (cs ++ extra) = .ok (s, rest ++ extra) := by
  induction n generalizing n' k outer cs with
  | zero => contradiction
  | succ n ih =>
    obtain ⟨n', rfl⟩ : ∃ m, n' = m + 1 := ⟨n' - 1, by omega⟩
    have hm := (classLoop_suffix h).1
    simp only [classLoop, hv, skip_false, bind_eq_ok, Prod.exists] at h ⊢
    obtain ⟨t, rest₁, ht, h⟩ := h
    refine ⟨t, rest₁ ++ extra, classToken_append hv he hm ht, ?_⟩
    have hn : n ≤ n' := by omega
    cases t with
    | item s' => exact ih hn h
    | named s' => exact ih hn h
    | opening inner => exact ih hn h
    | operator op => exact ih hn h
    | closing =>
      cases outer with
      | nil =>
        simp only [bind_eq_ok, pure_eq_ok, Prod.mk.injEq] at h ⊢
        obtain ⟨s', hs, rfl, rfl⟩ := h
        exact ⟨s', hs, rfl, rfl⟩
      | cons parent outer =>
        simp only [bind_eq_ok] at h ⊢
        obtain ⟨s', hs, h⟩ := h
        exact ⟨s', hs, ih hn h⟩

theorem bracketed_append {s : CharSet} (hv : f.verbose = false) (he : Ends extra)
    (h : bracketed f cs = .ok (s, rest)) : bracketed f (cs ++ extra) = .ok (s, rest ++ extra) := by
  simp only [bracketed, bind_eq_ok, Prod.exists] at h ⊢
  obtain ⟨k, rest₁, hk, hl⟩ := h
  exact ⟨k, rest₁ ++ extra, openClass_append hv hk, classLoop_append hv he (by simp) hl⟩

end Brine.Proofs.PatternClasses
