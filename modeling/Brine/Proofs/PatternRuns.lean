import Brine.Proofs.PatternTokens
import Brine.Regex.Compile
import Mathlib.Logic.Relation

namespace Brine.Proofs.PatternRuns
open Regex Success PatternReaders PatternTokens Relation

variable {cs rest : List Char} {f f' : Flags} {c : Char} {t : Token}

theorem length_after {s : Scanner} : (s.after t f' rest).rest = rest := by
  cases t <;> rfl

inductive Pushed (d : Draft) : Token → Draft → Prop
  | atom (r : Regex) : Pushed d (.atom r) { d with group := d.group.push r }
  | flags :
      Pushed d .flags { d with group := { d.group with pieces := none :: d.group.pieces } }
  | bar : Pushed d .bar { d with group := d.group.split }
  | quantifier {low : Nat} {high : Option Nat} {greedy : Bool} {r : Regex}
      {before : List (Option Regex)} : d.group.pieces = some r :: before →
      Pushed d (.quantifier low high greedy)
        { d with
          group := { d.group with pieces := some (r.repeated low high greedy) :: before } }
  | openPlain : Pushed d .openPlain { d with group := {}, outer := d.group :: d.outer }
  | openCapture (name : Option String) : (∀ n, name = some n → n ∉ d.names) →
      Pushed d (.openCapture name)
        { group := { index := some (d.captures + 1) }
          outer := d.group :: d.outer
          names := name.toList ++ d.names
          captures := d.captures + 1 }
  | close {parent : OpenGroup} {outer : List OpenGroup} : d.outer = parent :: outer →
      Pushed d .close { d with group := parent.push d.group.close, outer }

theorem push_iff {d d' : Draft} : d.push t = .ok d' ↔ Pushed d t d' := by
  constructor
  · intro h
    cases t with
    | atom r =>
      cases h
      exact .atom r
    | flags =>
      cases h
      exact .flags
    | bar =>
      cases h
      exact .bar
    | quantifier low high greedy =>
      simp only [Draft.push, bind_eq_ok, pure_eq_ok] at h
      obtain ⟨g, hg, rfl⟩ := h
      unfold OpenGroup.repeatLast at hg
      split at hg
      · rename_i r before hp
        cases hg
        exact .quantifier hp
      · contradiction
    | openPlain =>
      cases h
      exact .openPlain
    | openCapture name =>
      simp only [Draft.push, bind_eq_ok, pure_eq_ok] at h
      obtain ⟨names, hn, rfl⟩ := h
      cases name with
      | none =>
        cases hn
        exact .openCapture none (by simp)
      | some name =>
        simp only [Draft.addName] at hn
        split at hn
        · contradiction
        · rename_i hnew
          cases hn
          exact .openCapture (some name) (by simpa using hnew)
    | close =>
      simp only [Draft.push] at h
      split at h
      · contradiction
      · rename_i ho
        cases h
        exact .close ho
  · intro h
    cases h with
    | atom | flags | bar | openPlain => rfl
    | quantifier hp => simp [Draft.push, OpenGroup.repeatLast, hp]
    | openCapture name hnew =>
      cases name with
      | none => rfl
      | some name => simp [Draft.push, Draft.addName, hnew]
    | close ho => simp [Draft.push, ho]

theorem finish_ok {d : Draft} {r : Regex} (h : d.finish = .ok r) :
    d.outer = [] ∧ d.group.close = r := by
  unfold Draft.finish at h
  split at h
  · rename_i ho
    cases h
    exact ⟨List.isEmpty_iff.mp ho, rfl⟩
  · contradiction

/-- Where the reading of a pattern stands: what is left of it, and what has been built. -/
structure Reading where
  scanner : Scanner
  draft : Draft

variable [Engine]

/-- Whether something holds wherever the scanner comes in so many tokens. -/
def meetsFor (p : Scanner → Bool) : Nat → Scanner → Bool
  | 0, s => p s
  | n + 1, s => p s &&
    match s.next with
    | .ok (some (_, s)) => meetsFor p n s
    | _ => true

/-- Whether something holds wherever the scanner comes in a pattern. -/
def meets (p : Scanner → Bool) (pattern : List Char) : Bool :=
  meetsFor p (pattern.length + 1) { rest := pattern }

/-- Whether a pattern never turns the verbose flag on. -/
def isTerse (pattern : List Char) : Bool :=
  meets (!·.flags.verbose) pattern

theorem meetsFor_here {p : Scanner → Bool} {n : Nat} {s : Scanner} (h : meetsFor p n s = true) :
    p s = true := by
  cases n with
  | zero => exact h
  | succ n =>
    rw [meetsFor, Bool.and_eq_true] at h
    exact h.1

theorem meetsFor_next {p : Scanner → Bool} {n : Nat} {s s' : Scanner}
    (h : meetsFor p (n + 1) s = true) (hs : s.next = .ok (some (t, s'))) :
    meetsFor p n s' = true := by
  rw [meetsFor, Bool.and_eq_true, hs] at h
  exact h.2

theorem next_nil {outer : List Flags} : (⟨f, outer, []⟩ : Scanner).next = .ok none := by
  cases hv : f.verbose <;> simp [Scanner.next, skip, skipIgnored, hv]

theorem next_cons {outer : List Flags} (hv : f.verbose = false) {s' : Scanner} :
    (⟨f, outer, c :: cs⟩ : Scanner).next = .ok (some (t, s')) ↔
      ∃ f' rest, Taken f c cs t f' rest ∧
        s' = (⟨f, outer, c :: cs⟩ : Scanner).after t f' rest := by
  simp only [Scanner.next, hv, skip_false, bind_eq_ok, pure_eq_ok, Prod.exists, Option.some.injEq,
    Prod.mk.injEq]
  constructor
  · rintro ⟨t', f', rest, ht, rfl, rfl⟩
    exact ⟨f', rest, token_ok.mp ht, rfl⟩
  · rintro ⟨f', rest, ht, rfl⟩
    exact ⟨t, f', rest, token_ok.mpr ht, rfl, rfl⟩

/-- The scanner stops at the end. -/
theorem next_none {s : Scanner} (hv : s.flags.verbose = false) (h : s.next = .ok none) :
    s.rest = [] := by
  obtain ⟨f, outer, cs⟩ := s
  cases cs with
  | nil => rfl
  | cons c cs =>
    have hv : f.verbose = false := hv
    simp only [Scanner.next, hv, skip_false, bind_eq_ok, pure_eq_ok, reduceCtorEq, and_false,
      exists_false] at h

section
variable {s s' : Scanner}

theorem next_taken (h : s.next = .ok (some (t, s'))) :
    ∃ c cs f', skip s.flags.verbose s.rest = c :: cs ∧ Taken s.flags c cs t f' s'.rest := by
  unfold Scanner.next at h
  cases hskip : skip s.flags.verbose s.rest with
  | nil =>
    rw [hskip] at h
    cases h
  | cons c cs =>
    simp only [hskip, bind_eq_ok, pure_eq_ok, Prod.exists, Option.some.injEq, Prod.mk.injEq] at h
    obtain ⟨t', f', rest, ht, rfl, rfl⟩ := h
    rw [length_after]
    exact ⟨c, cs, f', rfl, token_ok.mp ht⟩

theorem next_length (h : s.next = .ok (some (t, s'))) : s'.rest.length < s.rest.length := by
  obtain ⟨c, cs, f', hr, ht⟩ := next_taken h
  have hlen := ht.suffix.length_le
  have hskip := (skip_suffix s.flags.verbose s.rest).length_le
  rw [hr, List.length_cons] at hskip
  omega

/-- The tokens are none at the end, and otherwise the next one and those after it. -/
theorem scan_succ_eq_ok {n : Nat} {ts : List Token} : scan (n + 1) s = .ok ts ↔
    s.next = .ok none ∧ ts = [] ∨
      ∃ t s' ts', s.next = .ok (some (t, s')) ∧ scan n s' = .ok ts' ∧ ts = t :: ts' := by
  rw [scan, bind_eq_ok]
  constructor
  · rintro ⟨next, hs, h⟩
    cases next with
    | none =>
      cases h
      exact .inl ⟨hs, rfl⟩
    | some p =>
      obtain ⟨t, s'⟩ := p
      simp only [bind_eq_ok, pure_eq_ok] at h
      obtain ⟨ts', h, rfl⟩ := h
      exact .inr ⟨t, s', ts', hs, h, rfl⟩
  · rintro (⟨hs, rfl⟩ | ⟨t, s', ts', hs, h, rfl⟩)
    · exact ⟨none, hs, rfl⟩
    · exact ⟨some (t, s'), hs, by simp [h]⟩

end

/-- One token is read. -/
inductive Reading.Step : Reading → Reading → Prop
  | mk {f f' : Flags} {outer : List Flags} {c : Char} {cs rest : List Char} {t : Token}
      {d d' : Draft} : f.verbose = false → Taken f c cs t f' rest → d.push t = .ok d' →
      Reading.Step ⟨⟨f, outer, c :: cs⟩, d⟩ ⟨(⟨f, outer, c :: cs⟩ : Scanner).after t f' rest, d'⟩

abbrev Steps : Reading → Reading → Prop :=
  ReflTransGen Reading.Step

theorem taken_unique {t' : Token} {f'' : Flags} {rest' : List Char}
    (h : Taken f c cs t f' rest) (h' : Taken f c cs t' f'' rest') :
    t' = t ∧ f'' = f' ∧ rest' = rest := by
  have he := (token_ok.mpr h').symm.trans (token_ok.mpr h)
  simpa using he

/-- The next token is read and pushed. -/
theorem step_of_next {s s' : Scanner} {d d' : Draft} (hv : s.flags.verbose = false)
    (hs : s.next = .ok (some (t, s'))) (hd : d.push t = .ok d') : Reading.Step ⟨s, d⟩ ⟨s', d'⟩ := by
  obtain ⟨f, outer, cs⟩ := s
  cases cs with
  | nil =>
    rw [next_nil] at hs
    cases hs
  | cons c cs =>
    obtain ⟨f', rest, ht, rfl⟩ := (next_cons hv).mp hs
    exact .mk hv ht hd

theorem next_of_step {p q : Reading} (h : Reading.Step p q) :
    ∃ t, p.scanner.next = .ok (some (t, q.scanner)) ∧ p.draft.push t = .ok q.draft := by
  cases h with
  | mk hv ht hd => exact ⟨_, (next_cons hv).mpr ⟨_, _, ht, rfl⟩, hd⟩

theorem scan_steps {n : Nat} {s : Scanner} {ts : List Token} {d d' : Draft}
    (hn : s.rest.length < n) (hp : meetsFor (!·.flags.verbose) n s = true) (h : scan n s = .ok ts)
    (hd : ts.foldlM Draft.push d = .ok d') :
    ∃ s', s'.rest = [] ∧ s'.flags.verbose = false ∧ Steps ⟨s, d⟩ ⟨s', d'⟩ := by
  induction n generalizing s ts d with
  | zero => omega
  | succ n ih =>
    have hv : s.flags.verbose = false := by simpa using meetsFor_here hp
    obtain ⟨hs, rfl⟩ | ⟨t, s', ts', hs, hts, rfl⟩ := scan_succ_eq_ok.mp h
    · cases hd
      exact ⟨s, next_none hv hs, hv, .refl⟩
    · rw [List.foldlM_cons, bind_eq_ok] at hd
      obtain ⟨d₁, hd₁, hd⟩ := hd
      have hlen := next_length hs
      obtain ⟨e, he, hev, hsteps⟩ := ih (by omega) (meetsFor_next hp hs) hts hd
      exact ⟨e, he, hev, .head (step_of_next hv hs hd₁) hsteps⟩

theorem steps_scan {p e : Reading} (h : Steps p e) (he : e.scanner.rest = []) {n : Nat}
    (hn : p.scanner.rest.length < n) :
    ∃ ts, scan n p.scanner = .ok ts ∧ ts.foldlM Draft.push p.draft = .ok e.draft := by
  induction h using ReflTransGen.head_induction_on generalizing n with
  | refl =>
    obtain ⟨⟨f, outer, cs⟩, d⟩ := e
    obtain rfl : cs = [] := he
    cases n with
    | zero => simp at hn
    | succ n => exact ⟨[], by simp [scan, next_nil], rfl⟩
  | head hs _ ih =>
    obtain ⟨t, hnext, hd⟩ := next_of_step hs
    cases n with
    | zero => simp at hn
    | succ n =>
      have hlen := next_length hnext
      obtain ⟨ts, h, hfold⟩ := ih (n := n) (by omega)
      refine ⟨t :: ts, scan_succ_eq_ok.mpr (.inr ⟨t, _, ts, hnext, h, rfl⟩), ?_⟩
      rw [List.foldlM_cons, hd]
      exact hfold

def Finishes (p : Reading) (d : Draft) : Prop :=
  ∃ n ts, p.scanner.rest.length < n ∧ scan n p.scanner = .ok ts ∧
    ts.foldlM Draft.push p.draft = .ok d

section
variable {p q : Reading} {d : Draft}

theorem Finishes.step (h : Finishes p d) (hs : Reading.Step p q) : Finishes q d := by
  obtain ⟨n, ts, hn, h, hd⟩ := h
  obtain ⟨t, hnext, hp⟩ := next_of_step hs
  cases n with
  | zero => simp at hn
  | succ n =>
    obtain ⟨hs', -⟩ | ⟨t', s', ts', hs', hts, rfl⟩ := scan_succ_eq_ok.mp h
    · cases hnext.symm.trans hs'
    · cases hnext.symm.trans hs'
      have hlen := next_length hnext
      rw [List.foldlM_cons, hp] at hd
      exact ⟨n, ts', by omega, hts, hd⟩

theorem Finishes.steps (h : Finishes p d) (hs : Steps p q) : Finishes q d := by
  induction hs with
  | refl => exact h
  | tail _ hs ih => exact ih.step hs

theorem Finishes.exists_step (h : Finishes p d) (hv : p.scanner.flags.verbose = false)
    (hr : p.scanner.rest ≠ []) : ∃ q, Reading.Step p q := by
  obtain ⟨n, ts, hn, h, hd⟩ := h
  cases n with
  | zero => simp at hn
  | succ n =>
    obtain ⟨hs, -⟩ | ⟨t, s', ts', hs, -, rfl⟩ := scan_succ_eq_ok.mp h
    · exact absurd (next_none hv hs) hr
    · rw [List.foldlM_cons, bind_eq_ok] at hd
      obtain ⟨d₁, hd₁, -⟩ := hd
      exact ⟨_, step_of_next hv hs hd₁⟩

theorem Finishes.eq (h : Finishes p d) (hr : p.scanner.rest = []) : d = p.draft := by
  obtain ⟨⟨f, outer, cs⟩, d₀⟩ := p
  obtain rfl : cs = [] := hr
  obtain ⟨n, ts, hn, h, hd⟩ := h
  cases n with
  | zero => simp at hn
  | succ n =>
    simp only [scan, next_nil, ok_bind, pure_eq_ok] at h
    subst h
    cases hd
    rfl

end

theorem compile_eq_ok {pattern : List Char} {r : Regex} :
    compile pattern = .ok r ↔ parse pattern = .ok r ∧ Engine.admits pattern = true := by
  rw [compile, bind_eq_ok]
  constructor
  · rintro ⟨r', hr, h⟩
    split at h
    · rename_i ha
      cases h
      exact ⟨hr, ha⟩
    · cases h
  · rintro ⟨hr, ha⟩
    exact ⟨r, hr, if_pos ha⟩

theorem finishes_of_parse {pattern : List Char} {r : Regex} (h : parse pattern = .ok r) :
    ∃ d, Finishes ⟨{ rest := pattern }, {}⟩ d ∧ d.finish = .ok r := by
  simp only [parse, tokens, bind_eq_ok] at h
  obtain ⟨ts, hs, d, hd, hf⟩ := h
  exact ⟨d, ⟨_, ts, Nat.lt_succ_self _, hs, hd⟩, hf⟩

theorem parse_of_steps {pattern : List Char} {e : Reading} {r : Regex}
    (h : Steps ⟨{ rest := pattern }, {}⟩ e) (he : e.scanner.rest = [])
    (hf : e.draft.finish = .ok r) : parse pattern = .ok r := by
  obtain ⟨ts, hs, hd⟩ := steps_scan h he (Nat.lt_succ_self _)
  simp only [parse, tokens, bind_eq_ok]
  exact ⟨ts, hs, e.draft, hd, hf⟩

/-- A run with the verbose flag off that reads the pattern to its end and leaves this draft. -/
def Drafts (pattern : List Char) (d : Draft) : Prop :=
  ∃ s, s.rest = [] ∧ s.flags.verbose = false ∧ Steps ⟨{ rest := pattern }, {}⟩ ⟨s, d⟩

theorem drafts_tokens {pattern : List Char} {d : Draft} (h : Drafts pattern d) :
    ∃ ts, tokens pattern = .ok ts ∧ ts.foldlM Draft.push {} = .ok d := by
  obtain ⟨s, hs, -, hsteps⟩ := h
  exact steps_scan hsteps hs (Nat.lt_succ_self _)

theorem drafts_of_parse {pattern : List Char} {r : Regex} (hp : isTerse pattern = true)
    (h : parse pattern = .ok r) : ∃ d, Drafts pattern d ∧ d.finish = .ok r := by
  simp only [parse, tokens, bind_eq_ok] at h
  obtain ⟨ts, hs, d, hd, hf⟩ := h
  have hp : meetsFor (!·.flags.verbose) (pattern.length + 1) { rest := pattern } = true := hp
  obtain ⟨s, hs, hv, hsteps⟩ := scan_steps (Nat.lt_succ_self _) hp hs hd
  exact ⟨d, ⟨s, hs, hv, hsteps⟩, hf⟩

end Brine.Proofs.PatternRuns
