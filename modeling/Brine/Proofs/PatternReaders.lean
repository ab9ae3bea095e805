import Brine.Proofs.Success
import Brine.Regex.Token
import Mathlib.Data.List.Basic

namespace Brine.Proofs.PatternReaders
open Regex Text Success

def Ends (extra : List Char) : Prop :=
  extra.head? ≠ some '?' ∧ extra.head? ≠ some '\x7b'

@[simp] theorem skip_false (cs : List Char) : skip false cs = cs := rfl

theorem runOf_false {kind : Char → Bool} {n : Nat} {cs : List Char} (h : cs.length ≤ n) :
    runOf false kind n cs = (cs.takeWhile kind, cs.dropWhile kind) := by
  induction n generalizing cs with
  | zero =>
    obtain rfl := List.eq_nil_of_length_eq_zero (Nat.le_zero.mp h)
    rfl
  | succ n ih =>
    cases cs with
    | nil => rfl
    | cons c cs =>
      rw [List.length_cons] at h
      cases hk : kind c <;> simp [runOf, hk, ih (Nat.le_of_succ_le_succ h)]

theorem runOf_all {n : Nat} {cs : List Char} :
    runOf false (fun _ => true) n cs = (cs.take n, cs.drop n) := by
  induction n generalizing cs with
  | zero => cases cs <;> rfl
  | succ n ih =>
    cases cs with
    | nil => rfl
    | cons c cs => simp [runOf, ih]

theorem skipIgnored_suffix (comment : Bool) (cs : List Char) : skipIgnored comment cs <:+ cs := by
  induction cs generalizing comment with
  | nil => exact List.suffix_refl _
  | cons c cs ih =>
    rw [skipIgnored]
    split
    · exact (ih _).trans (List.suffix_cons _ _)
    · split
      · exact (ih _).trans (List.suffix_cons _ _)
      · split
        · exact (ih _).trans (List.suffix_cons _ _)
        · exact List.suffix_refl _

theorem skip_suffix (verbose : Bool) (cs : List Char) : skip verbose cs <:+ cs := by
  unfold skip
  split
  · exact skipIgnored_suffix false cs
  · exact List.suffix_refl _

theorem runOf_suffix (verbose : Bool) (kind : Char → Bool) (n : Nat) (cs : List Char) :
    (runOf verbose kind n cs).2 <:+ cs := by
  induction n generalizing cs with
  | zero => cases cs <;> exact List.suffix_refl _
  | succ n ih =>
    cases cs with
    | nil => exact List.suffix_refl _
    | cons c cs =>
      rw [runOf]
      split
      · exact ((ih _).trans (skip_suffix verbose cs)).trans (List.suffix_cons _ _)
      · exact List.suffix_refl _

/-- What stops a run that could go on is of another kind. -/
theorem runOf_stop {verbose : Bool} {kind : Char → Bool} {n : Nat} {cs run rest : List Char}
    {c : Char} (hn : cs.length ≤ n) (h : runOf verbose kind n cs = (run, c :: rest)) :
    kind c = false := by
  induction n generalizing cs run with
  | zero =>
    obtain rfl := List.eq_nil_of_length_eq_zero (Nat.le_zero.mp hn)
    cases h
  | succ n ih =>
    cases cs with
    | nil => cases h
    | cons d cs =>
      rw [List.length_cons] at hn
      have hskip := (skip_suffix verbose cs).length_le
      rw [runOf] at h
      split at h
      · obtain ⟨-, hrest⟩ := Prod.mk.inj h
        exact ih (by omega) (Prod.ext rfl hrest)
      · rename_i hk
        cases h
        simpa using hk

variable {cs rest extra : List Char} {f : Flags}

def isFlagLetter (c : Char) : Bool :=
  c = '-' || (Flag.ofChar? c).isSome

theorem isFlagLetter_ne {c : Char} (h : isFlagLetter c = true) :
    c ≠ '=' ∧ c ≠ '!' ∧ c ≠ '<' ∧ c ≠ 'P' := by
  refine ⟨?_, ?_, ?_, ?_⟩ <;> (rintro rfl; contradiction)

theorem flagItems_ok {seen items : List (Flag × Bool)} {negated dangling : Bool} {c : Char}
    (h : flagItems seen negated dangling cs = .ok (items, c, rest)) :
    ∃ letters, cs = letters ++ c :: rest ∧ (c = ':' ∨ c = ')') ∧
      (∀ x ∈ letters, isFlagLetter x = true) ∧
      ∀ rest', flagItems seen negated dangling (letters ++ c :: rest') = .ok (items, c, rest') := by
  induction cs generalizing seen negated dangling with
  | nil => simp [flagItems] at h
  | cons d cs ih =>
    rw [flagItems] at h
    split at h
    · rename_i hd
      split at h
      · contradiction
      · rename_i hn
        cases h
        exact ⟨[], rfl, hd, by simp, fun rest' => by simp [flagItems, hd, hn]⟩
    · rename_i hd
      split at h
      · rename_i hm
        split at h
        · contradiction
        · rename_i hn
          obtain ⟨letters, rfl, hc, hl, hr⟩ := ih h
          exact ⟨d :: letters, rfl, hc, by simpa [hm, isFlagLetter] using hl,
            fun rest' => by simp [flagItems, hm, hn, hr]⟩
      · rename_i hm
        split at h
        · contradiction
        · rename_i flag hflag
          split at h
          · contradiction
          · rename_i hn
            obtain ⟨letters, rfl, hc, hl, hr⟩ := ih h
            refine ⟨d :: letters, rfl, hc, ?_, fun rest' => ?_⟩
            · simpa [hflag, isFlagLetter] using hl
            · simp only [List.cons_append, flagItems, hd, hm, hflag, hn, hr, if_false]
              simp

theorem groupName_ok {name : List Char} {n : String}
    (h : groupName name cs = .ok (n, rest)) :
    ∃ chars, cs = chars ++ '>' :: rest ∧ n = String.ofList (name.reverse ++ chars) ∧
      (name ++ chars ≠ []) ∧ (∀ x ∈ chars, isNameChar true x = true ∨ isNameChar false x = true) ∧
      ∀ rest', groupName name (chars ++ '>' :: rest') = .ok (n, rest') := by
  induction cs generalizing name with
  | nil => simp [groupName] at h
  | cons d cs ih =>
    by_cases hd : d = '>'
    · subst hd
      simp only [groupName] at h
      split at h
      · contradiction
      · rename_i hn
        cases h
        exact ⟨[], rfl, by simp, by simpa using hn, by simp, fun rest' => by simp [groupName, hn]⟩
    · rw [groupName] at h
      · split at h
        · rename_i hn
          obtain ⟨chars, rfl, rfl, hne, hc, hr⟩ := ih h
          refine ⟨d :: chars, rfl, by simp, by simp, ?_, fun rest' => ?_⟩
          · intro x hx
            rcases List.mem_cons.mp hx with rfl | hx
            · cases he : name.isEmpty <;> simp_all
            · exact hc x hx
          · rw [List.cons_append, groupName, if_pos hn]
            · exact hr rest'
            · exact hd
        · contradiction
      · exact hd

inductive Opens : List Char → Token → Prop
  | bare : Opens [] (.openCapture none)
  | named {tag chars : List Char} : tag = ['?', 'P', '<'] ∨ tag = ['?', '<'] →
      (∀ x ∈ chars, isNameChar true x = true ∨ isNameChar false x = true) →
      Opens (tag ++ (chars ++ ['>'])) (.openCapture (some (String.ofList chars)))
  | plain {letters : List Char} : (∀ x ∈ letters, isFlagLetter x = true) →
      Opens ('?' :: (letters ++ [':'])) .openPlain
  | flags {letters : List Char} : (∀ x ∈ letters, isFlagLetter x = true) →
      Opens ('?' :: (letters ++ [')'])) .flags

theorem opening_angle {c : Char} {tail : List Char}
    (hs : skip f.verbose cs = '?' :: '<' :: c :: tail) (h₁ : c ≠ '=') (h₂ : c ≠ '!') :
    opening f cs = do
      let (name, rest) ← groupName [] (c :: tail)
      return (.openCapture (some name), f, rest) := by
  grind [opening]

theorem opening_flags {tail : List Char} (hs : skip f.verbose cs = '?' :: tail)
    (h : ∀ c, tail.head? = some c → c ≠ '=' ∧ c ≠ '!' ∧ c ≠ '<' ∧ c ≠ 'P') :
    opening f cs = do
      let (items, last, rest) ← flagItems [] false false tail
      let inner := items.foldl Flags.set f
      if last = ':' then return (.openPlain, inner, rest)
      else if items.isEmpty then .error .repetitionMissing
      else return (.flags, inner, rest) := by
  cases tail with
  | nil => simp [opening, hs]
  | cons c tail => grind [opening]

/-- How an opening is written, behind what the verbose flag lets a pattern hold before it. -/
theorem opening_ok {t : Token} {inner : Flags} (h : opening f cs = .ok (t, inner, rest)) :
    ∃ eaten, skip f.verbose cs = eaten ++ rest ∧ Opens eaten t ∧
      (eaten = [] → rest.head? ≠ some '?') ∧
      ∀ cs' rest', skip f.verbose cs' = eaten ++ rest' → (eaten = [] → rest'.head? ≠ some '?') →
        opening f cs' = .ok (t, inner, rest') := by
  unfold opening at h
  split at h
  · contradiction
  · contradiction
  · contradiction
  · contradiction
  · rename_i hs
    simp only [bind_eq_ok, pure_eq_ok, Prod.mk.injEq, Prod.exists] at h
    obtain ⟨name, rest₁, hg, rfl, rfl, rfl⟩ := h
    obtain ⟨chars, rfl, rfl, _, hc, hr⟩ := groupName_ok hg
    refine ⟨['?', 'P', '<'] ++ (chars ++ ['>']), by simp [hs], .named (.inl rfl) hc, by simp, ?_⟩
    intro cs' rest' hs' _
    simp [opening, hs', hr]
  · rename_i h₁ h₂ hs
    simp only [bind_eq_ok, pure_eq_ok, Prod.mk.injEq, Prod.exists] at h
    obtain ⟨name, rest₁, hg, rfl, rfl, rfl⟩ := h
    obtain ⟨chars, rfl, rfl, hne, hc, hr⟩ := groupName_ok hg
    refine ⟨['?', '<'] ++ (chars ++ ['>']), by simp [hs], .named (.inr rfl) hc, by simp, ?_⟩
    intro cs' rest' hs' _
    cases chars with
    | nil => simp at hne
    | cons c chars =>
      have hc₁ : c ≠ '=' := fun hc => h₁ _ (by rw [hc]; rfl)
      have hc₂ : c ≠ '!' := fun hc => h₂ _ (by rw [hc]; rfl)
      have hn := hr rest'
      simp only [List.cons_append, List.append_assoc, List.nil_append] at hn hs'
      rw [opening_angle hs' hc₁ hc₂, hn]
      rfl
  · rename_i rest₀ h₁ h₂ h₃ h₄ h₅ h₆ hs
    simp only [bind_eq_ok, Prod.exists] at h
    obtain ⟨items, last, rest₁, hg, h⟩ := h
    obtain ⟨letters, rfl, hl, hc, hr⟩ := flagItems_ok hg
    have hopen (cs' rest' : List Char)
        (hs' : skip f.verbose cs' = '?' :: (letters ++ last :: rest')) : opening f cs' =
        if last = ':' then .ok (.openPlain, items.foldl Flags.set f, rest')
        else if items.isEmpty then .error .repetitionMissing
        else .ok (.flags, items.foldl Flags.set f, rest') := by
      rw [opening_flags hs', hr]
      · rfl
      · cases letters with
        | nil => rcases hl with rfl | rfl <;> simp
        | cons x letters =>
          rintro c hx
          cases hx
          exact isFlagLetter_ne (hc x (by simp))
    split at h
    · rename_i hlast
      subst hlast
      cases h
      exact ⟨'?' :: (letters ++ [':']), by simp [hs], .plain hc, by simp,
        fun cs' rest' hs' _ => by simpa using hopen cs' rest' (by simpa using hs')⟩
    · rename_i hlast
      obtain rfl : last = ')' := by simpa [hlast] using hl
      split at h
      · contradiction
      · rename_i hitems
        cases h
        exact ⟨'?' :: (letters ++ [')']), by simp [hs], .flags hc, by simp,
          fun cs' rest' hs' _ => by simpa [hitems] using hopen cs' rest' (by simpa using hs')⟩
  · rename_i hq
    cases h
    refine ⟨[], rfl, .bare, ?_, ?_⟩
    · intro _ hr
      obtain ⟨tail, ht⟩ := List.head?_eq_some_iff.mp hr
      exact hq tail ht
    intro cs' rest' hs' hr
    rw [List.nil_append] at hs'
    unfold opening
    rw [hs']
    grind

theorem opening_bare (hv : f.verbose = false) (h : cs.head? ≠ some '?') :
    opening f cs = .ok (.openCapture none, f, cs) := by
  unfold opening
  rw [hv, skip_false]
  grind

theorem count_false (cs : List Char) : count false cs =
    ((cs.dropWhile isBlank).takeWhile Char.isDigit,
      ((cs.dropWhile isBlank).dropWhile Char.isDigit).dropWhile isBlank) := by
  simp only [count]
  rw [runOf_false (List.dropWhile_suffix _).length_le]
  dsimp only
  rw [runOf_false (Nat.le_refl _)]

theorem dropWhile_append_of_ne {p : Char → Bool} (extra : List Char) (h : cs.dropWhile p ≠ []) :
    (cs ++ extra).dropWhile p = cs.dropWhile p ++ extra ∧
      (cs ++ extra).takeWhile p = cs.takeWhile p := by
  induction cs with
  | nil => simp at h
  | cons c cs ih =>
    cases hc : p c with
    | false => simp [hc]
    | true =>
      rw [List.dropWhile_cons_of_pos hc] at h
      simp [hc, ih h]

theorem count_append {digits : List Char} (extra : List Char) (h : count false cs = (digits, rest))
    (hr : rest ≠ []) : count false (cs ++ extra) = (digits, rest ++ extra) := by
  rw [count_false, Prod.mk.injEq] at h
  obtain ⟨rfl, rfl⟩ := h
  have h₂ : (cs.dropWhile isBlank).dropWhile Char.isDigit ≠ [] := by
    intro he
    simp [he] at hr
  have h₁ : cs.dropWhile isBlank ≠ [] := by
    intro he
    simp [he] at hr
  rw [count_false, (dropWhile_append_of_ne _ h₁).1, (dropWhile_append_of_ne _ h₂).1,
    (dropWhile_append_of_ne _ h₂).2, (dropWhile_append_of_ne _ hr).1]

theorem upperCount_digits (h : cs.head? ≠ some '\x7d') : upperCount false cs = do
    return (some (← countValue (count false cs).1), (count false cs).2) := by
  unfold upperCount
  rw [skip_false]
  split
  · simp at h
  · rfl

theorem upperCount_append {high : Option Nat} (h : upperCount false cs = .ok (high, rest))
    (hr : rest ≠ []) : upperCount false (cs ++ extra) = .ok (high, rest ++ extra) := by
  cases cs with
  | nil => simp [upperCount, count_false, countValue] at h
  | cons c cs =>
    by_cases hc : c = '\x7d'
    · subst hc
      simp only [upperCount, skip_false, pure_eq_ok, Prod.mk.injEq] at h
      obtain ⟨rfl, rfl⟩ := h
      rfl
    · rw [upperCount_digits (by simpa using hc)] at h
      rw [upperCount_digits (by simpa using hc)]
      simp only [bind_eq_ok, pure_eq_ok, Prod.mk.injEq] at h
      obtain ⟨n, hn, rfl, rfl⟩ := h
      have hc' : count false (c :: cs) =
          ((count false (c :: cs)).1, (count false (c :: cs)).2) := rfl
      rw [count_append extra hc' hr, hn]
      rfl

theorem closeCounts_append {low low' : Nat} {high high' : Option Nat}
    (h : closeCounts low high cs = .ok (low', high', rest)) :
    closeCounts low high (cs ++ extra) = .ok (low', high', rest ++ extra) := by
  unfold closeCounts at h ⊢
  cases cs with
  | nil => simp at h
  | cons c cs => grind

theorem counts_append {low : Nat} {high : Option Nat}
    (h : counts false cs = .ok (low, high, rest)) :
    counts false (cs ++ extra) = .ok (low, high, rest ++ extra) := by
  unfold counts at h ⊢
  simp only [skip_false] at h ⊢
  cases hc : count false cs with | mk digits rest₁ =>
  cases rest₁ with
  | nil => simp [hc] at h
  | cons c rest₁ =>
    simp only [hc, count_append extra hc (List.cons_ne_nil _ _), List.cons_append] at h ⊢
    split at h
    · rename_i heq
      cases heq
      simp only [bind_eq_ok] at h ⊢
      obtain ⟨n, hn, h⟩ := h
      exact ⟨n, hn, closeCounts_append h⟩
    · rename_i heq
      cases heq
      simp only [bind_eq_ok, Prod.exists] at h ⊢
      obtain ⟨n, hn, upper, rest₂, hu, h⟩ := h
      have hne : rest₂ ≠ [] := by
        rintro rfl
        simp [closeCounts] at h
      exact ⟨n, hn, upper, rest₂ ++ extra, upperCount_append hu hne, closeCounts_append h⟩
    · contradiction

theorem quantified_token {t : Token} {f' : Flags} {low : Nat} {high : Option Nat}
    (h : quantified f low high cs = .ok (t, f', rest)) :
    ∃ greedy, t = .quantifier low high greedy := by
  unfold quantified at h
  split at h
  · cases h
    exact ⟨_, rfl⟩
  · cases h
    exact ⟨_, rfl⟩

theorem quantified_flags {t : Token} {f' : Flags} {low : Nat} {high : Option Nat}
    (h : quantified f low high cs = .ok (t, f', rest)) : f' = f := by
  unfold quantified at h
  split at h
  · cases h
    rfl
  · cases h
    rfl

theorem quantified_append {t : Token} {f' : Flags} {low : Nat} {high : Option Nat} (he : Ends extra)
    (h : quantified f low high cs = .ok (t, f', rest)) :
    quantified f low high (cs ++ extra) = .ok (t, f', rest ++ extra) := by
  unfold quantified at h ⊢
  cases cs with
  | nil => cases extra <;> grind [Ends]
  | cons c cs => grind

theorem braced_eq_ok {verbose : Bool} {text : List Char} :
    braced verbose cs = .ok (text, rest) ↔
      runOf verbose (· ≠ '\x7d') cs.length (skip verbose cs) = (text, '\x7d' :: rest) := by
  unfold braced
  have hle := (skip_suffix verbose cs).length_le
  cases hrun : runOf verbose (· ≠ '\x7d') cs.length (skip verbose cs) with
  | mk text' left =>
    cases left with
    | nil => simp
    | cons brace rest' =>
      obtain rfl : brace = '\x7d' := by simpa using runOf_stop hle hrun
      simp

theorem braced_append {text : List Char} (h : braced false cs = .ok (text, rest)) :
    braced false (cs ++ extra) = .ok (text, rest ++ extra) := by
  have hd := braced_eq_ok.mp h
  rw [skip_false, runOf_false (Nat.le_refl _), Prod.mk.injEq] at hd
  obtain ⟨rfl, hd⟩ := hd
  have hdrop : cs.dropWhile (· ≠ '\x7d') ≠ [] := by
    rw [hd]
    exact List.cons_ne_nil _ _
  obtain ⟨hd', ht'⟩ := dropWhile_append_of_ne extra hdrop
  refine braced_eq_ok.mpr ?_
  rw [skip_false, runOf_false (Nat.le_refl _), hd', ht', hd, List.cons_append]

/-- What a character by number is read as: with all digits up to a brace, or with so many of
them. -/
inductive HexEscapes (verbose : Bool) (n : Nat) (cs : List Char) : Primitive → List Char → Prop
  | braced {tail digits rest : List Char} {p : Primitive} : skip verbose cs = '\x7b' :: tail →
      braced verbose tail = .ok (digits, rest) → digits ≠ [] → hexChar digits false = .ok p →
      HexEscapes verbose n cs p (skip verbose rest)
  | counted {digits rest : List Char} {p : Primitive} :
      (∀ tail, skip verbose cs ≠ '\x7b' :: tail) →
      runOf verbose (fun _ => true) n (skip verbose cs) = (digits, rest) → n ≤ digits.length →
      hexChar digits (n = 2) = .ok p → HexEscapes verbose n cs p rest

theorem hexEscape_iff {verbose : Bool} {n : Nat} {p : Primitive} :
    hexEscape verbose n cs = .ok (p, rest) ↔ HexEscapes verbose n cs p rest := by
  constructor
  · intro h
    unfold hexEscape at h
    split at h
    · rename_i tail hs
      simp only [bind_eq_ok, Prod.exists] at h
      obtain ⟨digits, rest₁, hd, h⟩ := h
      split at h
      · contradiction
      · rename_i hne
        simp only [bind_eq_ok, pure_eq_ok, Prod.mk.injEq] at h
        obtain ⟨q, hq, rfl, rfl⟩ := h
        exact .braced hs hd (by simpa using hne) hq
    · rename_i hs
      cases hd : runOf verbose (fun _ => true) n (skip verbose cs) with | mk digits rest₁ =>
      simp only [hd] at h
      split at h
      · contradiction
      · rename_i hl
        simp only [bind_eq_ok, pure_eq_ok, Prod.mk.injEq] at h
        obtain ⟨q, hq, rfl, rfl⟩ := h
        exact .counted hs hd (Nat.le_of_not_lt hl) hq
  · intro h
    cases h with
    | braced hs hd hne hp =>
      simp only [hexEscape, hs, hd, ok_bind]
      rw [if_neg (by simpa using hne), hp]
      rfl
    | counted hs hd hl hp =>
      unfold hexEscape
      split
      · rename_i tail heq
        exact absurd heq (hs tail)
      · simp [hd, Nat.not_lt.mpr hl, hp]

theorem hexEscape_append {n : Nat} {p : Primitive} (hn : 0 < n)
    (h : hexEscape false n cs = .ok (p, rest)) :
    hexEscape false n (cs ++ extra) = .ok (p, rest ++ extra) := by
  refine hexEscape_iff.mpr ?_
  cases hexEscape_iff.mp h with
  | braced hs hd hne hp =>
    rw [skip_false] at hs
    subst hs
    exact .braced rfl (braced_append hd) hne hp
  | @counted digits rest p hs hd hl hp =>
    rw [skip_false] at hs hd
    rw [runOf_all, Prod.mk.injEq] at hd
    obtain ⟨rfl, rfl⟩ := hd
    have hle : n ≤ cs.length := by
      rw [List.length_take] at hl
      omega
    refine .counted ?_ ?_ hl hp
    · intro tail ht
      rw [skip_false] at ht
      cases cs with
      | nil => exact absurd hle (Nat.not_le.mpr hn)
      | cons c cs =>
        obtain ⟨rfl, -⟩ := List.cons.inj ht
        exact hs cs rfl
    · rw [skip_false, runOf_all, List.take_append_of_le_length hle,
        List.drop_append_of_le_length hle]

inductive Edges (f : Flags) : List Char → WordEdge → List Char → Prop
  | named {tail more name rest : List Char} {c : Char} {e : WordEdge} :
      skip f.verbose tail = c :: more → (c.isAlpha || c = '-') = true →
      runOf f.verbose (fun c => c.isAlpha || c = '-') tail.length (c :: more) =
        (name, '\x7d' :: rest) →
      edgeNamed? (String.ofList name) = some e → Edges f ('\x7b' :: tail) e rest
  | unnamed {tail more : List Char} {c : Char} : skip f.verbose tail = c :: more →
      (c.isAlpha || c = '-') = false → Edges f ('\x7b' :: tail) .boundary ('\x7b' :: tail)
  | bare {cs : List Char} : cs.head? ≠ some '\x7b' → Edges f cs .boundary cs

theorem boundary_iff {e : WordEdge} : boundary f cs = .ok (e, rest) ↔ Edges f cs e rest := by
  constructor
  · intro h
    unfold boundary at h
    split at h
    · rename_i tail
      split at h
      · contradiction
      · rename_i c more hs
        split at h
        · rename_i hc
          cases hd : runOf f.verbose (fun c => c.isAlpha || c = '-') tail.length (c :: more) with
          | mk name rest₁ =>
          simp only [hd] at h
          split at h
          · rename_i edge hedge
            cases h
            exact .named hs hc hd hedge
          · contradiction
        · rename_i hc
          cases h
          exact .unnamed hs (by simpa using hc)
    · rename_i hne
      cases h
      refine .bare fun hb => ?_
      obtain ⟨tail, rfl⟩ := List.head?_eq_some_iff.mp hb
      exact hne tail rfl
  · intro h
    cases h with
    | named hs hc hd hedge => simp only [boundary, hs, hc, hd, hedge, if_true]
    | unnamed hs hc =>
      simp only [boundary, hs, hc]
      rfl
    | bare hne =>
      unfold boundary
      split
      · exact absurd rfl hne
      · rfl

theorem boundary_append {e : WordEdge} (hv : f.verbose = false) (he : Ends extra)
    (h : boundary f cs = .ok (e, rest)) : boundary f (cs ++ extra) = .ok (e, rest ++ extra) := by
  refine boundary_iff.mpr ?_
  cases boundary_iff.mp h with
  | @named tail more name rest c e hs hc hd hedge =>
    rw [hv, skip_false] at hs
    subst hs
    rw [hv, runOf_false (Nat.le_refl _), Prod.mk.injEq] at hd
    obtain ⟨hname, hd⟩ := hd
    have hne : (c :: more).dropWhile (fun c => c.isAlpha || c = '-') ≠ [] := by
      rw [hd]
      exact List.cons_ne_nil _ _
    obtain ⟨hd', ht'⟩ := dropWhile_append_of_ne extra hne
    rw [List.cons_append] at hd' ht'
    have hskip : skip f.verbose (c :: (more ++ extra)) = c :: (more ++ extra) := by
      rw [hv, skip_false]
    have hrun : runOf f.verbose (fun c => c.isAlpha || c = '-') (c :: (more ++ extra)).length
        (c :: (more ++ extra)) = (name, '\x7d' :: (rest ++ extra)) := by
      rw [hv, runOf_false (Nat.le_refl _), hd', ht', hd, hname, List.cons_append]
    exact .named hskip hc hrun hedge
  | unnamed hs hc =>
    rw [hv, skip_false] at hs
    subst hs
    exact .unnamed (by rw [hv]; rfl) hc
  | bare hne =>
    refine .bare ?_
    cases cs with
    | nil => exact he.2
    | cons c cs => exact hne

inductive PropertyTexts (verbose : Bool) (cs : List Char) : List Char → List Char → Prop
  | braced {tail text rest : List Char} : skip verbose cs = '\x7b' :: tail →
      braced verbose tail = .ok (text, rest) → PropertyTexts verbose cs text rest
  | letter {c : Char} {rest : List Char} : skip verbose cs = c :: rest → c ≠ '\x7b' →
      PropertyTexts verbose cs [c] rest

theorem propertyText_iff {verbose : Bool} {text : List Char} :
    propertyText verbose cs = .ok (text, rest) ↔ PropertyTexts verbose cs text rest := by
  constructor
  · intro h
    unfold propertyText at h
    split at h
    · contradiction
    · rename_i hs
      exact .braced hs h
    · rename_i hne hs
      cases h
      exact .letter hs (by simpa using hne)
  · intro h
    cases h with
    | braced hs hb =>
      unfold propertyText
      rw [hs]
      exact hb
    | letter hs hne =>
      unfold propertyText
      rw [hs]
      split <;> simp_all

theorem propertyText_append {text : List Char} (h : propertyText false cs = .ok (text, rest)) :
    propertyText false (cs ++ extra) = .ok (text, rest ++ extra) := by
  refine propertyText_iff.mpr ?_
  cases propertyText_iff.mp h with
  | braced hs hb =>
    rw [skip_false] at hs
    subst hs
    exact .braced rfl (braced_append hb)
  | letter hs hne =>
    rw [skip_false] at hs
    subst hs
    exact .letter rfl hne

def hexLength? : Char → Option Nat
  | 'x' => some 2
  | 'u' => some 4
  | 'U' => some 8
  | _ => none

theorem hexLength?_pos {c : Char} {n : Nat} (h : hexLength? c = some n) : 0 < n := by
  unfold hexLength? at h
  split at h <;> cases h <;> decide

def propertySign? : Char → Option Bool
  | 'p' => some false
  | 'P' => some true
  | _ => none

section
variable [Engine]

theorem escape_plain {c : Char} (hn : hexLength? c = none) (hb : c ≠ 'b')
    (hp : propertySign? c = none) : escape f (c :: cs) = (charEscape f c).map (·, cs) := by
  unfold escape
  split
  · contradiction
  · simp_all [hexLength?]
  · simp_all [hexLength?]
  · simp_all [hexLength?]
  · simp_all
  · simp_all [propertySign?]
  · simp_all [propertySign?]
  · rename_i heq
    cases heq
    cases charEscape f c <;> rfl

/-- What an escape is read as: the character behind the backslash, what follows it, the primitive,
and what is left. -/
inductive Escapes (f : Flags) : Char → List Char → Primitive → List Char → Prop
  | hex {c : Char} {cs rest : List Char} {n : Nat} {p : Primitive} : hexLength? c = some n →
      hexEscape f.verbose n cs = .ok (p, rest) → Escapes f c cs p rest
  | edge {cs rest : List Char} {e : WordEdge} : boundary f cs = .ok (e, rest) →
      Escapes f 'b' cs (.look (.edge e !f.unicode)) rest
  | property {c : Char} {cs rest text : List Char} {negated : Bool} {s : CharSet} :
      propertySign? c = some negated → propertyText f.verbose cs = .ok (text, rest) →
      propertySet f negated text = .ok s → Escapes f c cs (.set s) rest
  | char {c : Char} {cs : List Char} {p : Primitive} : hexLength? c = none → c ≠ 'b' →
      propertySign? c = none → charEscape f c = .ok p → Escapes f c cs p cs

theorem propertyEscape_eq_ok {negated : Bool} {p : Primitive} :
    propertyEscape f negated cs = .ok (p, rest) ↔ ∃ text s,
      propertyText f.verbose cs = .ok (text, rest) ∧ propertySet f negated text = .ok s ∧
        p = .set s := by
  simp only [propertyEscape, bind_eq_ok, pure_eq_ok, Prod.exists, Prod.mk.injEq]
  constructor
  · rintro ⟨text, rest', ht, s, hs, rfl, rfl⟩
    exact ⟨text, s, ht, hs, rfl⟩
  · rintro ⟨text, s, ht, hs, rfl⟩
    exact ⟨text, rest, ht, s, hs, rfl, rfl⟩

theorem escape_iff {c : Char} {p : Primitive} :
    escape f (c :: cs) = .ok (p, rest) ↔ Escapes f c cs p rest := by
  constructor
  · intro h
    unfold escape at h
    split at h
    · contradiction
    · rename_i heq
      cases heq
      exact .hex rfl h
    · rename_i heq
      cases heq
      exact .hex rfl h
    · rename_i heq
      cases heq
      exact .hex rfl h
    · rename_i heq
      cases heq
      simp only [bind_eq_ok, pure_eq_ok, Prod.exists, Prod.mk.injEq] at h
      obtain ⟨e, rest', hb, rfl, rfl⟩ := h
      exact .edge hb
    · rename_i heq
      cases heq
      obtain ⟨text, s, ht, hs, rfl⟩ := propertyEscape_eq_ok.mp h
      exact .property rfl ht hs
    · rename_i heq
      cases heq
      obtain ⟨text, s, ht, hs, rfl⟩ := propertyEscape_eq_ok.mp h
      exact .property rfl ht hs
    · rename_i hx hu hU hb hp hP heq
      cases heq
      simp only [bind_eq_ok, pure_eq_ok, Prod.mk.injEq] at h
      obtain ⟨q, hq, rfl, rfl⟩ := h
      exact .char (by simp_all [hexLength?]) (by simpa using hb) (by simp_all [propertySign?]) hq
  · intro h
    cases h with
    | hex hn h =>
      unfold hexLength? at hn
      split at hn <;> cases hn <;> exact h
    | edge h => simp [escape, h]
    | property hn ht hs =>
      unfold propertySign? at hn
      split at hn <;> cases hn <;> exact propertyEscape_eq_ok.mpr ⟨_, _, ht, hs, rfl⟩
    | char hn hb hp h =>
      rw [escape_plain hn hb hp, h]
      rfl

theorem escape_append {p : Primitive} (hv : f.verbose = false) (he : Ends extra)
    (h : escape f cs = .ok (p, rest)) : escape f (cs ++ extra) = .ok (p, rest ++ extra) := by
  cases cs with
  | nil => contradiction
  | cons c cs =>
    refine escape_iff.mpr ?_
    cases escape_iff.mp h with
    | hex hn h =>
      refine .hex hn ?_
      rw [hv] at h ⊢
      exact hexEscape_append (hexLength?_pos hn) h
    | edge hb => exact .edge (boundary_append hv he hb)
    | property hn ht hs =>
      refine .property hn ?_ hs
      rw [hv] at ht ⊢
      exact propertyText_append ht
    | char hn hb hp hc => exact .char hn hb hp hc

end

def delimiters : List Char :=
  ['\\', '[', ']', '(', ')']

theorem forall_delimiters {p : Char → Prop} (h : p '\\' ∧ p '[' ∧ p ']' ∧ p '(' ∧ p ')') :
    ∀ c ∈ delimiters, p c := by
  simpa [delimiters] using h

theorem signCounts?_plain {c : Char} {counts : Nat × Option Nat}
    (h : signCounts? c = some counts) : c ∉ delimiters := by
  have hsigns : ∀ d ∈ delimiters, signCounts? d = none := forall_delimiters (by decide)
  intro hd
  simp [hsigns c hd] at h

def Passes (cs rest : List Char) : Prop :=
  ∃ eaten, cs = eaten ++ rest ∧ ∀ c ∈ eaten, c ∉ delimiters

theorem Passes.refl : Passes cs cs :=
  ⟨[], rfl, by simp⟩

theorem Passes.trans {rest' : List Char} (h : Passes cs rest) (h' : Passes rest rest') :
    Passes cs rest' := by
  obtain ⟨eaten, rfl, he⟩ := h
  obtain ⟨eaten', rfl, he'⟩ := h'
  refine ⟨eaten ++ eaten', by simp, fun c hc => ?_⟩
  rcases List.mem_append.mp hc with hc | hc
  · exact he c hc
  · exact he' c hc

theorem Passes.cons {c : Char} (h : c ∉ delimiters) : Passes (c :: cs) cs :=
  ⟨[c], rfl, by simpa using h⟩

theorem Passes.suffix (h : Passes cs rest) : rest <:+ cs := by
  obtain ⟨eaten, rfl, -⟩ := h
  exact List.suffix_append _ _

/-- A kind of characters that no delimiter is of. -/
theorem passes_dropWhile {p : Char → Bool} (h : ∀ c ∈ delimiters, p c = false) :
    Passes cs (cs.dropWhile p) := by
  refine ⟨cs.takeWhile p, List.takeWhile_append_dropWhile.symm, fun c hc hm => ?_⟩
  have hp := List.all_eq_true.mp List.all_takeWhile c hc
  simp [h c hm] at hp

theorem count_passes (cs : List Char) : Passes cs (count false cs).2 := by
  have hblank : ∀ c ∈ delimiters, isBlank c = false := forall_delimiters (by decide)
  have hdigit : ∀ c ∈ delimiters, c.isDigit = false := forall_delimiters (by decide)
  rw [count_false]
  exact ((passes_dropWhile hblank).trans (passes_dropWhile hdigit)).trans (passes_dropWhile hblank)

theorem closeCounts_passes {low low' : Nat} {high high' : Option Nat}
    (h : closeCounts low high cs = .ok (low', high', rest)) : Passes cs rest := by
  unfold closeCounts at h
  split at h
  · split at h
    · cases h
      exact .cons (by decide)
    · contradiction
  · contradiction

theorem upperCount_passes {high : Option Nat} (h : upperCount false cs = .ok (high, rest)) :
    Passes cs rest := by
  unfold upperCount at h
  rw [skip_false] at h
  split at h
  · cases h
    exact .refl
  · simp only [bind_eq_ok, pure_eq_ok, Prod.mk.injEq] at h
    obtain ⟨n, hn, rfl, rfl⟩ := h
    exact count_passes cs

theorem counts_passes {low : Nat} {high : Option Nat}
    (h : counts false cs = .ok (low, high, rest)) : Passes cs rest := by
  have hc := count_passes cs
  unfold counts at h
  simp only [skip_false] at h
  split at h
  · simp only [bind_eq_ok] at h
    obtain ⟨n, hn, h⟩ := h
    exact hc.trans (closeCounts_passes h)
  · rename_i heq
    rw [heq] at hc
    simp only [bind_eq_ok, Prod.exists] at h
    obtain ⟨n, hn, upper, rest₁, hu, h⟩ := h
    have hs := (upperCount_passes hu).trans (closeCounts_passes h)
    exact (hc.trans (.cons (by decide))).trans hs
  · contradiction

theorem quantified_passes {t : Token} {f' : Flags} {low : Nat} {high : Option Nat}
    (h : quantified f low high cs = .ok (t, f', rest)) : Passes cs rest := by
  unfold quantified at h
  split at h
  · cases h
    exact .cons (by decide)
  · cases h
    exact .refl

theorem hexChar_digits {digits : List Char} {byte : Bool} {p : Primitive}
    (h : hexChar digits byte = .ok p) : ∀ c ∈ digits, c ∉ delimiters := by
  have hhex : ∀ c ∈ delimiters, (hexDigit? c).isSome = false := forall_delimiters (by decide)
  unfold hexChar at h
  dsimp only at h
  split at h
  · rename_i hd
    rw [Bool.and_eq_true, List.all_eq_true] at hd
    intro c hc hm
    simpa [hhex c hm] using hd.1 c hc
  · cases h

theorem braced_passes {text : List Char} (h : braced false cs = .ok (text, rest))
    (ht : ∀ c ∈ text, c ∉ delimiters) : Passes cs rest := by
  have hd := braced_eq_ok.mp h
  rw [skip_false, runOf_false (Nat.le_refl _), Prod.mk.injEq] at hd
  obtain ⟨rfl, hd⟩ := hd
  have hp : Passes cs ('\x7d' :: rest) := ⟨_, hd ▸ List.takeWhile_append_dropWhile.symm, ht⟩
  exact hp.trans (.cons (by decide))

theorem hexEscape_passes {n : Nat} {p : Primitive} (h : hexEscape false n cs = .ok (p, rest)) :
    Passes cs rest := by
  cases hexEscape_iff.mp h with
  | braced hs hd _ hp =>
    rw [skip_false] at hs ⊢
    subst hs
    exact (Passes.cons (by decide)).trans (braced_passes hd (hexChar_digits hp))
  | counted _ hd _ hp =>
    rw [skip_false, runOf_all, Prod.mk.injEq] at hd
    obtain ⟨rfl, rfl⟩ := hd
    exact ⟨cs.take n, (List.take_append_drop n cs).symm, hexChar_digits hp⟩

theorem boundary_passes {e : WordEdge} (hv : f.verbose = false)
    (h : boundary f cs = .ok (e, rest)) : Passes cs rest := by
  cases boundary_iff.mp h with
  | @named tail more name rest c e hs _ hd _ =>
    rw [hv, skip_false] at hs
    subst hs
    rw [hv, runOf_false (Nat.le_refl _), Prod.mk.injEq] at hd
    have hname : ∀ c ∈ delimiters, (c.isAlpha || c = '-') = false := forall_delimiters (by decide)
    have hp : Passes (c :: more) ('\x7d' :: rest) := hd.2 ▸ passes_dropWhile hname
    exact ((Passes.cons (by decide)).trans hp).trans (.cons (by decide))
  | unnamed | bare => exact .refl

theorem propertyText_passes {text : List Char} (h : propertyText false cs = .ok (text, rest))
    (ht : ∀ c ∈ text, c ∉ delimiters) : Passes cs rest := by
  cases propertyText_iff.mp h with
  | braced hs hb =>
    rw [skip_false] at hs
    subst hs
    exact (Passes.cons (by decide)).trans (braced_passes hb ht)
  | letter hs _ =>
    rw [skip_false] at hs
    subst hs
    exact .cons (ht _ (by simp))

section
variable [Engine]

theorem propertySet_eq_ok {negated : Bool} {text : List Char} {s : CharSet} :
    propertySet f negated text = .ok s ↔ f.unicode = true ∧ text.all isPropertyChar = true ∧
      ∃ base, Engine.property? (namedProperty text).1 = some base ∧
        s = if negated = (namedProperty text).2 then fold f base else (fold f base).complement := by
  simp only [propertySet]
  generalize Engine.property? (namedProperty text).1 = found
  cases found with
  | none => simp
  | some base => cases f.unicode <;> cases text.all isPropertyChar <;> simp [eq_comm]

/-- No property has a delimiter in its name. -/
theorem propertySet_delimiters {negated : Bool} {text : List Char} {s : CharSet}
    (h : propertySet f negated text = .ok s) : ∀ c ∈ text, c ∉ delimiters := by
  have hchars : ∀ c ∈ delimiters, isPropertyChar c = false := forall_delimiters (by decide)
  obtain ⟨-, ht, -⟩ := propertySet_eq_ok.mp h
  intro c hc hm
  have hp := List.all_eq_true.mp ht c hc
  simp [hchars c hm] at hp

/-- After the character behind the backslash an escape has no delimiters. -/
theorem escape_passes {c : Char} {p : Primitive} (hv : f.verbose = false)
    (h : escape f (c :: cs) = .ok (p, rest)) : Passes cs rest := by
  cases escape_iff.mp h with
  | hex _ h =>
    rw [hv] at h
    exact hexEscape_passes h
  | edge hb => exact boundary_passes hv hb
  | property _ ht hs =>
    rw [hv] at ht
    exact propertyText_passes ht (propertySet_delimiters hs)
  | char => exact .refl

end

theorem count_suffix (verbose : Bool) (cs : List Char) : (count verbose cs).2 <:+ cs :=
  ((runOf_suffix _ _ _ _).trans (runOf_suffix _ _ _ _)).trans (List.dropWhile_suffix _)

theorem upperCount_suffix {verbose : Bool} {high : Option Nat}
    (h : upperCount verbose cs = .ok (high, rest)) : rest <:+ cs := by
  unfold upperCount at h
  have hs := skip_suffix verbose cs
  split at h
  · rename_i heq
    cases h
    exact heq ▸ hs
  · simp only [bind_eq_ok, pure_eq_ok, Prod.mk.injEq] at h
    obtain ⟨n, hn, rfl, rfl⟩ := h
    exact (count_suffix verbose _).trans hs

theorem counts_suffix {verbose : Bool} {low : Nat} {high : Option Nat}
    (h : counts verbose cs = .ok (low, high, rest)) : rest <:+ cs := by
  unfold counts at h
  have hs := (count_suffix verbose (skip verbose cs)).trans (skip_suffix verbose cs)
  simp only at h
  split at h
  · simp only [bind_eq_ok] at h
    obtain ⟨n, hn, h⟩ := h
    exact (closeCounts_passes h).suffix.trans hs
  · rename_i heq
    rw [heq] at hs
    simp only [bind_eq_ok, Prod.exists] at h
    obtain ⟨n, hn, upper, rest₁, hu, h⟩ := h
    have hc := (closeCounts_passes h).suffix.trans (upperCount_suffix hu)
    exact (hc.trans (List.suffix_cons _ _)).trans hs
  · contradiction

theorem braced_closing {verbose : Bool} {text : List Char}
    (h : braced verbose cs = .ok (text, rest)) : '\x7d' :: rest <:+ cs := by
  have hr := runOf_suffix verbose (· ≠ '\x7d') cs.length (skip verbose cs)
  rw [braced_eq_ok.mp h] at hr
  exact hr.trans (skip_suffix verbose cs)

theorem braced_suffix {verbose : Bool} {text : List Char}
    (h : braced verbose cs = .ok (text, rest)) : rest <:+ cs :=
  (List.suffix_cons _ _).trans (braced_closing h)

theorem hexEscape_suffix {verbose : Bool} {n : Nat} {p : Primitive}
    (h : hexEscape verbose n cs = .ok (p, rest)) : rest <:+ cs := by
  have hs := skip_suffix verbose cs
  cases hexEscape_iff.mp h with
  | @braced tail digits rest p hbrace hd _ _ =>
    rw [hbrace] at hs
    have hrest := (skip_suffix verbose rest).trans (braced_suffix hd)
    exact (hrest.trans (List.suffix_cons _ _)).trans hs
  | counted _ hd _ _ =>
    have hr := runOf_suffix verbose (fun _ => true) n (skip verbose cs)
    rw [hd] at hr
    exact hr.trans hs

theorem boundary_suffix {e : WordEdge} (h : boundary f cs = .ok (e, rest)) : rest <:+ cs := by
  cases boundary_iff.mp h with
  | @named tail more name rest c e hs _ hd _ =>
    have hskip := skip_suffix f.verbose tail
    rw [hs] at hskip
    have hr := runOf_suffix f.verbose (fun c => c.isAlpha || c = '-') tail.length (c :: more)
    rw [hd] at hr
    exact ((List.suffix_cons _ _).trans (hr.trans hskip)).trans (List.suffix_cons _ _)
  | unnamed | bare => exact List.suffix_refl _

theorem propertyText_suffix {verbose : Bool} {text : List Char}
    (h : propertyText verbose cs = .ok (text, rest)) : rest <:+ cs := by
  have hs := skip_suffix verbose cs
  cases propertyText_iff.mp h with
  | braced hbrace hb =>
    rw [hbrace] at hs
    exact ((braced_suffix hb).trans (List.suffix_cons _ _)).trans hs
  | letter hc _ =>
    rw [hc] at hs
    exact (List.suffix_cons _ _).trans hs

theorem escape_suffix [Engine] {p : Primitive} (h : escape f cs = .ok (p, rest)) : rest <:+ cs := by
  cases cs with
  | nil => contradiction
  | cons c cs =>
    cases escape_iff.mp h with
    | hex _ h => exact (hexEscape_suffix h).trans (List.suffix_cons _ _)
    | edge hb => exact (boundary_suffix hb).trans (List.suffix_cons _ _)
    | property _ ht _ => exact (propertyText_suffix ht).trans (List.suffix_cons _ _)
    | char => exact List.suffix_cons _ _

/-- What an opening parenthesis can start, and that what is left is the end of the text. -/
theorem opening_suffix {t : Token} {f' : Flags} (h : opening f cs = .ok (t, f', rest)) :
    ((∃ name, t = .openCapture name) ∨ t = .openPlain ∨ t = .flags) ∧ rest <:+ cs := by
  obtain ⟨eaten, hs, ho, -, -⟩ := opening_ok h
  have hrest : rest <:+ skip f.verbose cs := hs ▸ List.suffix_append _ _
  refine ⟨?_, hrest.trans (skip_suffix _ _)⟩
  cases ho with
  | bare => exact .inl ⟨_, rfl⟩
  | named => exact .inl ⟨_, rfl⟩
  | plain => exact .inr (.inl rfl)
  | flags => exact .inr (.inr rfl)

end Brine.Proofs.PatternReaders
