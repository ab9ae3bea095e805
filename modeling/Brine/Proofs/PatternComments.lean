import Brine.Proofs.PatternNesting

namespace Brine.Proofs.PatternComments
open Regex Text Success PatternReaders PatternTokens PatternRuns PatternPrefixes PatternWalks
open PatternNesting

/-- Whether a text that is read in verbose mode ends inside a comment. What comes after a backslash
begins none. -/
def endsInComment : Bool → List Char → Bool
  | comment, [] => comment
  | true, c :: rest => endsInComment (c ≠ '\n') rest
  | false, '\\' :: _ :: rest => endsInComment false rest
  | false, c :: rest => endsInComment (c = '#') rest

variable {v : Bool} {c d : Char} {y m cs rest : List Char}

theorem endsInComment_cons (hd : d ≠ '\\') :
    endsInComment false (d :: m) = endsInComment (d = '#') m := by
  cases m <;> simp [endsInComment, hd]

/-- What comes before a character that is no backslash only says whether a comment has begun. -/
theorem endsInComment_append (comment : Bool) (y : List Char) (hd : d ≠ '\\') :
    ∃ comment', ∀ m, endsInComment comment (y ++ d :: m) = endsInComment comment' m := by
  fun_induction endsInComment comment y with
  | case1 comment =>
    cases comment with
    | true => exact ⟨_, fun m => rfl⟩
    | false => exact ⟨_, fun m => endsInComment_cons hd⟩
  | case2 c rest ih => exact ih
  | case3 c rest ih => exact ih
  | case4 c rest hne ih =>
    by_cases hc : c = '\\'
    · subst hc
      cases rest with
      | nil => exact ⟨_, fun m => rfl⟩
      | cons e rest => exact absurd rfl (hne e rest rfl)
    · obtain ⟨comment', h⟩ := ih
      exact ⟨comment', fun m => (endsInComment_cons hc).trans (h m)⟩

def goesOn (comment : Bool) (c : Char) : Bool :=
  if comment then c ≠ '\n' else c = '#'

theorem ignored_cons {comment : Bool} (h : skipIgnored comment (c :: m) = []) (cs : List Char) :
    endsInComment comment (c :: cs) = endsInComment (goesOn comment c) cs ∧
      skipIgnored comment (c :: cs) = skipIgnored (goesOn comment c) cs := by
  cases comment with
  | true => exact ⟨rfl, rfl⟩
  | false =>
    simp only [skipIgnored, goesOn, Bool.false_eq_true, if_false] at h ⊢
    split at h
    · rename_i hb
      have hc : c ≠ '\\' ∧ c ≠ '#' := by constructor <;> rintro rfl <;> revert hb <;> decide
      simp [endsInComment_cons hc.1, hc.2, hb]
    · split at h
      · rename_i hb hc
        subst hc
        simp [hb, endsInComment_cons]
      · contradiction

/-- Text that is ignored closes a comment that has begun before it only by the end of a line. -/
theorem ignored_closed (h : skipIgnored false m = []) (hc : endsInComment true m = false) :
    endsInComment false m = false := by
  induction m with
  | nil => rfl
  | cons c m ih =>
    obtain ⟨he, hs⟩ := ignored_cons h m
    rw [he]
    rw [hs] at h
    rw [endsInComment] at hc
    by_cases hn : c = '\n'
    · subst hn
      exact hc
    · have hc : endsInComment true m = false := by simpa [hn] using hc
      by_cases hm : c = '#'
      · subst hm
        exact hc
      · have hgo : goesOn false c = false := by simp [goesOn, hm]
        rw [hgo] at h ⊢
        exact ih h hc

/-- Where no comment is open, a closing parenthesis is not ignored. -/
theorem skipIgnored_closed {comment : Bool} (h : skipIgnored comment m = [])
    (hc : endsInComment comment m = false) (rest : List Char) :
    skipIgnored comment (m ++ ')' :: rest) = ')' :: rest := by
  induction m generalizing comment with
  | nil =>
    obtain rfl : comment = false := hc
    rfl
  | cons c m ih =>
    have hcons := ignored_cons h
    rw [(hcons _).1] at hc
    rw [(hcons _).2] at h
    rw [List.cons_append, (hcons _).2]
    exact ih h hc

def Closed (v : Bool) (m : List Char) : Prop :=
  v = true → endsInComment false m = false

theorem Closed.skip (h : Closed v m) (hs : skip v m = []) (rest : List Char) :
    skip v (m ++ ')' :: rest) = ')' :: rest := by
  cases v with
  | false =>
    obtain rfl : m = [] := hs
    rfl
  | true => exact skipIgnored_closed hs (h rfl) rest

/-- What is ignored at the end of the text has no open comment of its own. -/
theorem Closed.skip_end (h : Closed v (y ++ d :: m)) (hd : d ≠ '\\') (hs : Regex.skip v m = [])
    (rest : List Char) : Regex.skip v (m ++ ')' :: rest) = ')' :: rest := by
  have hm : Closed v m := by
    intro hv
    subst hv
    obtain ⟨comment, hy⟩ := endsInComment_append false y hd
    have hm := h rfl
    rw [hy] at hm
    cases comment with
    | false => exact hm
    | true => exact ignored_closed hs hm
  exact hm.skip hs rest

variable [Engine] {s s' : Scanner} {t : Token} {ts : List Token} {f f' g : Flags} {ready : Bool}

/-- The last token of a text without an open comment is read alike in front of a closing
parenthesis. -/
theorem taken_closed (h : Taken f c cs t f' [])
    (ho : (∀ name, t ≠ .openCapture name) ∧ t ≠ .openPlain) (hc : Closed f.verbose (y ++ c :: cs))
    (rest : List Char) : Taken f c (cs ++ ')' :: rest) t f' (')' :: rest) := by
  have he : Ends (')' :: rest) := by simp [Ends]
  cases h with
  | opening h => exact .opening (opening_whole h ho _)
  | close => exact .close
  | bar => exact .bar
  | bracketed h =>
    have hcs : cs ≠ [] := List.ne_nil_of_mem ((bracketed_closing h).subset List.mem_cons_self)
    obtain ⟨r', hr', u, hu, rfl⟩ := bracketed_ended (alike_nil hcs (')' :: rest)) h (Nat.zero_le _)
    rw [List.append_nil] at hu
    subst hu
    exact .bracketed hr'
  | @counted _ u _ _ _ _ _ hcounts hq =>
    obtain ⟨z, rfl⟩ := (counts_closing hcounts).trans (skip_suffix _ _)
    obtain ⟨_, hr', u', hu, rfl⟩ :=
      counts_ended (alike_nil (by simp) (')' :: rest)) hcounts (Nat.zero_le _)
    obtain rfl : u = u' := hu.trans (List.append_nil u')
    refine .counted hr' ?_
    by_cases hs : skip f.verbose u = []
    · have hskip := Closed.skip_end (y := y ++ '\x7b' :: z) (by simpa using hc) (by decide) hs rest
      rw [hs] at hq
      rw [hskip]
      exact quantified_append he hq
    · rw [skip_append hs]
      exact quantified_append he hq
  | escaped h hr =>
    obtain ⟨r', hr', hrest⟩ := escape_whole h he
    obtain rfl : r' = ')' :: rest := by
      rcases hrest with rfl | ⟨z, d, m, rfl, hd, hs, rfl⟩
      · rfl
      · exact Closed.skip_end (y := y ++ '\\' :: z) (by simpa using hc) hd hs rest
    exact .escaped hr' hr
  | sign hm hs hq => exact .sign hm hs (quantified_append he hq)
  | char hm hs hr => exact .char hm hs hr

/-- Whether no comment is open at the end, if at most one token is left to read. -/
def isClosedAtEnd (s : Scanner) : Bool :=
  !s.flags.verbose || !endsInComment false s.rest ||
    match s.next with
    | .ok (some (_, s')) => !s'.rest.isEmpty
    | _ => false

/-- Whether a pattern has no open comment at its end. -/
def closesComments (pattern : List Char) : Bool :=
  meets isClosedAtEnd pattern

/-- A pattern without an open comment at its end has the same tokens inside of any group. -/
theorem walk_closed {k : Nat} (h : Balanced s ready ts g) (hk : s.rest.length < k)
    (hp : meetsFor isClosedAtEnd k s = true) (b : Flags) (base : List Flags) (rest : List Char) :
    Walk (around s (b :: base) (')' :: rest)) ready (ts ++ [.close]) ⟨b, base, rest⟩ true := by
  induction h generalizing k with
  | @nil s ready hs ho =>
    have hend := next_eq_none.mp hs
    have hclosed : Closed s.flags.verbose s.rest := by
      intro hv
      simpa [isClosedAtEnd, hv, hs] using meetsFor_here hp
    refine .cons ?_ (by simp [Fits, around]) .nil
    refine next_iff.mpr ⟨_, _, _, _, hclosed.skip hend rest, .close, ?_⟩
    simp [around, Scanner.after, ho]
  | @cons s s₁ ready t ts g hs hf hb ih =>
    have hlen := next_length hs
    obtain ⟨k, rfl⟩ : ∃ j, k = j + 1 := ⟨k - 1, by omega⟩
    refine .cons ?_ (Fits.around hf) (ih (by omega) (meetsFor_next hp hs))
    by_cases hr : s₁.rest = []
    · have hclosed : Closed s.flags.verbose s.rest := by
        intro hv
        simpa [isClosedAtEnd, hv, hs, hr] using meetsFor_here hp
      obtain ⟨c, cs, f', r, hcs, ht, rfl⟩ := next_iff.mp hs
      obtain rfl : r = [] := length_after.symm.trans hr
      obtain ⟨-, ho, -⟩ := balanced_end hb hr
      obtain ⟨y, hy⟩ := skip_suffix s.flags.verbose s.rest
      rw [hcs] at hy
      rw [← hy] at hclosed
      have ht' := taken_closed ht (not_opening ho) hclosed rest
      exact next_iff.mpr ⟨_, _, _, _, skip_cons_append hcs _, ht',
        (after_around (fits_close hf)).symm⟩
    · exact next_around hs (fits_close hf) hb hr _ _

end Brine.Proofs.PatternComments
