import Brine.Proofs.PatternClasses

namespace Brine.Proofs.PatternTokens
open Regex Success PatternReaders PatternClasses

variable {cs rest extra : List Char} {f f' : Flags} {c : Char} {t : Token}

/-- The characters that start a group, a class, a repetition in braces or an escape, or stand
between alternatives. -/
def isMark (c : Char) : Bool :=
  c ∈ ['(', ')', '|', '[', '\x7b', '\\']

theorem isMark_cases (h : isMark c = true) :
    c = '(' ∨ c = ')' ∨ c = '|' ∨ c = '[' ∨ c = '\x7b' ∨ c = '\\' := by
  simpa [isMark] using h

variable [Engine]

/-- The ways to write a token: its first character, the text after that, the token with the flags
behind it, and what is left. -/
inductive Taken (f : Flags) : Char → List Char → Token → Flags → List Char → Prop
  | opening {cs rest : List Char} {t : Token} {f' : Flags} :
      opening f cs = .ok (t, f', rest) → Taken f '(' cs t f' rest
  | close {cs : List Char} : Taken f ')' cs .close f cs
  | bar {cs : List Char} : Taken f '|' cs .bar f cs
  | bracketed {cs rest : List Char} {s : CharSet} : bracketed f cs = .ok (s, rest) →
      Taken f '[' cs (.atom (.set s)) f rest
  | counted {cs cs' rest : List Char} {low : Nat} {high : Option Nat} {t : Token} {f' : Flags} :
      counts f.verbose cs = .ok (low, high, cs') →
      quantified f low high (skip f.verbose cs') = .ok (t, f', rest) → Taken f '\x7b' cs t f' rest
  | escaped {cs rest : List Char} {p : Primitive} {r : Regex} : escape f cs = .ok (p, rest) →
      p.atom f = .ok r → Taken f '\\' cs (.atom r) f rest
  | sign {c : Char} {cs rest : List Char} {low : Nat} {high : Option Nat} {t : Token}
      {f' : Flags} : isMark c = false → signCounts? c = some (low, high) →
      quantified f low high cs = .ok (t, f', rest) → Taken f c cs t f' rest
  | char {c : Char} {cs : List Char} {r : Regex} : isMark c = false → signCounts? c = none →
      charAtom f c = .ok r → Taken f c cs (.atom r) f cs

theorem token_plain (h : isMark c = false) : token f (c :: cs) =
    match signCounts? c with
    | some (low, high) => quantified f low high cs
    | none => (charAtom f c).map (Token.atom ·, f, cs) := by
  have hne : ∀ d, isMark d = true → c ≠ d := by
    rintro d hd rfl
    simp [h] at hd
  rw [token]
  · cases signCounts? c with
    | some p => rfl
    | none => cases charAtom f c <;> rfl
  · exact hne _ rfl
  · exact hne _ rfl
  · exact hne _ rfl
  · exact hne _ rfl
  · exact hne _ rfl
  · exact hne _ rfl

/-- Every token is written in one of these ways. -/
theorem token_ok : token f (c :: cs) = .ok (t, f', rest) ↔ Taken f c cs t f' rest := by
  constructor
  · intro h
    cases hm : isMark c with
    | false =>
      rw [token_plain hm] at h
      cases hs : signCounts? c with
      | some p =>
        rw [hs] at h
        exact .sign hm hs h
      | none =>
        cases hr : charAtom f c with
        | error e => simp [hs, hr, Except.map] at h
        | ok r =>
          simp only [hs, hr, Except.map, Except.ok.injEq, Prod.mk.injEq] at h
          obtain ⟨rfl, rfl, rfl⟩ := h
          exact .char hm hs hr
    | true =>
      rcases isMark_cases hm with rfl | rfl | rfl | rfl | rfl | rfl
      · exact .opening h
      · cases h
        exact .close
      · cases h
        exact .bar
      · simp only [token, bind_eq_ok, pure_eq_ok, Prod.exists, Prod.mk.injEq] at h
        obtain ⟨s, rest', hs, rfl, rfl, rfl⟩ := h
        exact .bracketed hs
      · simp only [token, bind_eq_ok, Prod.exists] at h
        obtain ⟨low, high, cs', hc, hq⟩ := h
        exact .counted hc hq
      · simp only [token, bind_eq_ok, pure_eq_ok, Prod.exists, Prod.mk.injEq] at h
        obtain ⟨p, rest', he, r, hr, rfl, rfl, rfl⟩ := h
        exact .escaped he hr
  · intro h
    cases h with
    | opening h => exact h
    | close => rfl
    | bar => rfl
    | bracketed h => simp [token, h]
    | counted hc hq => simp [token, hc, hq]
    | escaped he hr => simp [token, he, hr]
    | sign hm hs hq => simpa [token_plain hm, hs] using hq
    | char hm hs hr => simp [token_plain hm, hs, hr, Except.map]

theorem Taken.append (hv : f.verbose = false) (he : Ends extra) (h : Taken f c cs t f' rest) :
    Taken f c (cs ++ extra) t f' (rest ++ extra) := by
  cases h with
  | opening h =>
    obtain ⟨eaten, hs, -, hq, hr⟩ := opening_ok h
    rw [hv, skip_false] at hs
    subst hs
    refine .opening (hr _ _ (by rw [hv, skip_false, List.append_assoc]) ?_)
    intro hnil
    cases rest with
    | nil => exact he.1
    | cons d rest => exact hq hnil
  | close => exact .close
  | bar => exact .bar
  | bracketed h => exact .bracketed (bracketed_append hv he h)
  | counted hc hq =>
    rw [hv] at hc
    rw [hv, skip_false] at hq
    have hc' := @counts_append cs _ extra _ _ hc
    have hq' := quantified_append he hq
    exact .counted (hv ▸ hc') (by rwa [hv])
  | escaped h hr => exact .escaped (escape_append hv he h) hr
  | sign hm hs hq => exact .sign hm hs (quantified_append he hq)
  | char hm hs hr => exact .char hm hs hr

theorem Taken.suffix (h : Taken f c cs t f' rest) : rest <:+ cs := by
  cases h with
  | opening h => exact (opening_suffix h).2
  | close => exact List.suffix_refl _
  | bar => exact List.suffix_refl _
  | bracketed h => exact bracketed_suffix h
  | counted hc hq =>
    exact ((quantified_passes hq).suffix.trans (skip_suffix _ _)).trans (counts_suffix hc)
  | escaped h hr => exact escape_suffix h
  | sign hm hs hq => exact (quantified_passes hq).suffix
  | char hm hs hr => exact List.suffix_refl _

end Brine.Proofs.PatternTokens
