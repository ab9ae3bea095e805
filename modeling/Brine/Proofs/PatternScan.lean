import Brine.Pattern.Groups
import Brine.Proofs.PatternTokens

namespace Brine.Proofs.PatternScan
open Regex Pattern Success PatternReaders PatternClasses PatternTokens

variable {s : Pattern.Scan} {cs rest : List Char} {f f' : Flags} {c : Char}

def walk (s : Pattern.Scan) (cs : List Char) : Pattern.Scan :=
  scanGroups cs.length s cs

theorem afterClassOpen_length (cs : List Char) : (afterClassOpen cs).length ≤ cs.length := by
  unfold afterClassOpen
  grind

theorem scanGroups_rounds {n m : Nat} (hn : cs.length ≤ n) (hm : cs.length ≤ m) :
    scanGroups n s cs = scanGroups m s cs := by
  induction n generalizing m s cs with
  | zero =>
    obtain rfl := List.eq_nil_of_length_eq_zero (Nat.le_zero.mp hn)
    cases m <;> rfl
  | succ n ih =>
    cases cs with
    | nil => cases m <;> rfl
    | cons c cs =>
      cases m with
      | zero => simp at hm
      | succ m =>
        rw [List.length_cons] at hn hm
        have htail := List.length_tail (l := cs)
        have hclass := afterClassOpen_length cs
        have hgo (s : Pattern.Scan) {cs' : List Char} (h : cs'.length ≤ cs.length) :
            scanGroups n s cs' = scanGroups m s cs' := ih (by omega) (by omega)
        simp only [scanGroups, hgo _ (Nat.le_refl _), hgo _ hclass, hgo _ (htail ▸ Nat.sub_le _ _)]

theorem walk_cons : walk s (c :: cs) =
    if c = '\\' then walk s cs.tail
    else if c = '[' then walk { s with classDepth := s.classDepth + 1 } (afterClassOpen cs)
    else if c = ']' && 0 < s.classDepth then walk { s with classDepth := s.classDepth - 1 } cs
    else if c = '(' && s.classDepth = 0 then walk (s.openGroup cs) cs
    else if c = ')' && s.classDepth = 0 then walk (s.closeGroup (c :: cs)) cs
    else walk s cs := by
  have htail := List.length_tail (l := cs)
  have hclass := afterClassOpen_length cs
  simp only [walk, List.length_cons, scanGroups]
  have hgo (s : Pattern.Scan) {cs' : List Char} (h : cs'.length ≤ cs.length) :
      scanGroups cs.length s cs' = scanGroups cs'.length s cs' :=
    scanGroups_rounds h (Nat.le_refl _)
  rw [hgo _ hclass, hgo _ (htail ▸ Nat.sub_le _ _)]

theorem walk_plain (h : c ∉ delimiters) : walk s (c :: cs) = walk s cs := by
  have h : c ≠ '\\' ∧ c ≠ '[' ∧ c ≠ ']' ∧ c ≠ '(' ∧ c ≠ ')' := by simpa [delimiters] using h
  rw [walk_cons]
  simp [h]

theorem walk_passes (h : Passes cs rest) : walk s cs = walk s rest := by
  obtain ⟨eaten, rfl, he⟩ := h
  induction eaten with
  | nil => rfl
  | cons c eaten ih =>
    obtain ⟨hc, he⟩ := List.forall_mem_cons.mp he
    rw [List.cons_append, walk_plain hc]
    exact ih he

def within (s : Pattern.Scan) (depth : Nat) : Pattern.Scan :=
  { s with classDepth := depth }

variable {depth : Nat}

theorem within_zero (hs : s.classDepth = 0) : within s 0 = s := by
  rw [within, ← hs]

/-- Parentheses mean nothing inside of a class. -/
theorem walk_inside (h : c ≠ '\\' ∧ c ≠ '[' ∧ c ≠ ']') :
    walk (within s (depth + 1)) (c :: cs) = walk (within s (depth + 1)) cs := by
  rw [walk_cons]
  simp [h, within]

theorem walk_opening : walk (within s depth) ('[' :: cs) =
    walk (within s (depth + 1)) (afterClassOpen cs) := by
  rw [walk_cons]
  simp [within]

theorem walk_closing : walk (within s (depth + 1)) (']' :: cs) = walk (within s depth) cs := by
  rw [walk_cons]
  simp [within]

def afterBracket : List Char → List Char
  | ']' :: rest => rest
  | cs => cs

theorem leadingMembers_passes {k k' : OpenClass} (hv : f.verbose = false)
    (h : leadingMembers f k cs = (k', rest)) : Passes (afterBracket cs) rest := by
  by_cases hb : cs.head? = some ']'
  · obtain ⟨cs, rfl⟩ := List.head?_eq_some_iff.mp hb
    rw [leadingMembers_bracket hv] at h
    cases h
    exact .refl
  · have hcs : afterBracket cs = cs := by
      unfold afterBracket
      split
      · simp at hb
      · rfl
    rw [hcs]
    by_cases hd : cs.head? = some '-'
    · obtain ⟨cs, rfl⟩ := List.head?_eq_some_iff.mp hd
      rw [leadingMembers_hyphen hv] at h
      cases h
      exact (Passes.cons (by decide)).trans (passes_dropWhile (forall_delimiters (by decide)))
    · rw [leadingMembers_other hv hd hb] at h
      cases h
      exact .refl

theorem openClass_passes {k : OpenClass} (hv : f.verbose = false)
    (h : openClass f cs = .ok (k, rest)) : Passes (afterClassOpen cs) rest := by
  obtain ⟨negated, rest₁, hn, hl, -⟩ := openClass_eq_ok.mp h
  have hafter : afterClassOpen cs = afterBracket rest₁ := by
    unfold classNegation at hn
    simp only [hv, skip_false] at hn
    split at hn <;> cases hn
    · rfl
    · rename_i hne
      cases cs with
      | nil => rfl
      | cons c cs =>
        unfold afterClassOpen afterBracket
        grind
  rw [hafter]
  exact leadingMembers_passes hv hl

theorem namedClass?_passes {negated : Bool} {set : CharSet}
    (h : namedClass? f negated cs = some (set, rest)) : Passes cs (']' :: rest) := by
  unfold namedClass? at h
  split at h
  · rename_i hd ha
    cases h
    have hp : Passes cs (':' :: ']' :: rest) :=
      ⟨_, hd ▸ List.takeWhile_append_dropWhile.symm, ascii_plain ha⟩
    exact hp.trans (.cons (by decide))
  · contradiction

theorem asciiClass?_passes {set : CharSet} (h : asciiClass? f cs = some (set, rest)) :
    Passes (afterClassOpen cs) (']' :: rest) := by
  unfold asciiClass? at h
  split at h
  · exact ((Passes.cons (by decide)).trans (.cons (by decide))).trans (namedClass?_passes h)
  · exact (Passes.cons (by decide)).trans (namedClass?_passes h)
  · contradiction

theorem classOperator?_passes {op : ClassOp} (h : classOperator? cs = some (op, rest)) :
    Passes cs rest := by
  unfold classOperator? at h
  split at h
  case h_4 => contradiction
  all_goals
    cases h
    exact (Passes.cons (by decide)).trans (.cons (by decide))

def depthAfter (depth : Nat) : ClassToken → Nat
  | .opening _ => depth + 1
  | .closing => depth - 1
  | _ => depth

def Scan.take (s : Pattern.Scan) (t : Token) (text rest : List Char) : Pattern.Scan :=
  match t with
  | .openCapture _ =>
    let index := s.groups.length + 1
    let depth := (s.stack.filter Option.isSome).length
    { s with groups := s.groups ++ [⟨index, "", depth⟩], stack := some (index, rest) :: s.stack }
  | .openPlain => { s with stack := none :: s.stack }
  | .close => s.closeGroup text
  | _ => s

def isPlainName (name : String) : Bool :=
  name.toList.all fun c => c = '_' || Text.isAlphanumeric c.toNat

theorem isCapturing_bare (h : rest.head? ≠ some '?') :
    isCapturing rest = true ∧ groupBody rest = rest := by
  constructor
  · unfold isCapturing
    split
    · rfl
    · simp at h
    · rfl
    · simp at h
    · rfl
  · unfold groupBody
    split
    · simp at h
    · simp at h
    · rfl

theorem isCapturing_named {tag name : List Char} (ht : tag = ['?', 'P', '<'] ∨ tag = ['?', '<'])
    (hn : ∀ c ∈ name, c ≠ '>' ∧ c ≠ '=' ∧ c ≠ '!') :
    isCapturing (tag ++ (name ++ '>' :: rest)) = true ∧
      groupBody (tag ++ (name ++ '>' :: rest)) = rest := by
  have hdrop : (name ++ '>' :: rest).dropWhile (fun c => !decide (c = '>')) = '>' :: rest := by
    rw [List.dropWhile_append_of_pos (by simpa using fun c hc => (hn c hc).1)]
    rfl
  rcases ht with rfl | rfl
  · refine ⟨rfl, ?_⟩
    simp [groupBody, hdrop]
  · constructor
    · cases name with
      | nil => rfl
      | cons c name =>
        have hc := (hn c List.mem_cons_self).2
        simp [isCapturing, hc]
    · simp [groupBody, hdrop]

theorem flagLetter_plain (h : isFlagLetter c = true) : c ∉ delimiters := by
  have hall : ∀ d ∈ delimiters, isFlagLetter d = false := forall_delimiters (by decide)
  intro hd
  simp [hall c hd] at h

theorem isCapturing_flags {letters : List Char} {last : Char}
    (h : ∀ c ∈ letters, isFlagLetter c = true) (hl : last = ':' ∨ last = ')') :
    isCapturing ('?' :: (letters ++ last :: rest)) = false := by
  cases letters with
  | nil => rcases hl with rfl | rfl <;> rfl
  | cons c letters =>
    have hc := isFlagLetter_ne (h c List.mem_cons_self)
    simp [isCapturing, hc]

theorem walk_open (hs : s.classDepth = 0) :
    walk s ('(' :: cs) = walk (s.openGroup cs) cs := by
  rw [walk_cons]
  simp [hs]

theorem walk_close (hs : s.classDepth = 0) :
    walk s (')' :: cs) = walk (s.closeGroup (')' :: cs)) cs := by
  rw [walk_cons]
  simp [hs]

theorem walk_opens {t : Token} {eaten : List Char} (hs : s.classDepth = 0) (h : Opens eaten t)
    (hq : eaten = [] → rest.head? ≠ some '?')
    (hn : ∀ name, t = .openCapture (some name) → isPlainName name = true) :
    walk s ('(' :: (eaten ++ rest)) = walk (Scan.take s t ('(' :: (eaten ++ rest)) rest) rest := by
  rw [walk_open hs]
  cases h with
  | bare =>
    obtain ⟨hc, hb⟩ := isCapturing_bare (hq rfl)
    simp [Scan.openGroup, Scan.take, hc, hb]
  | @named tag chars htag hchars =>
    have hplain : ∀ c ∈ chars, c = '_' ∨ Text.isAlphanumeric c.toNat = true := by
      simpa [isPlainName] using hn _ rfl
    have hne (d : Char) (hd : d ≠ '_' ∧ Text.isAlphanumeric d.toNat = false) :
        ∀ c ∈ chars, c ≠ d := by
      rintro c hc rfl
      rcases hplain c hc with h | h
      · exact hd.1 h
      · simp [hd.2] at h
    have hcapture := @isCapturing_named rest tag chars htag fun c hc =>
      ⟨hne '>' (by decide) c hc, hne '=' (by decide) c hc, hne '!' (by decide) c hc⟩
    have htag' : ∀ c ∈ tag, c ∉ delimiters := by
      rcases htag with rfl | rfl <;> simp [delimiters]
    have hchars' : ∀ c ∈ chars, c ∉ delimiters := by
      have hall : ∀ d ∈ delimiters, d ≠ '_' ∧ Text.isAlphanumeric d.toNat = false :=
        forall_delimiters (by decide)
      exact fun c hc hd => hne c (hall c hd) c hc rfl
    have hpasses : Passes (tag ++ (chars ++ ['>']) ++ rest) rest := by
      refine ⟨tag ++ (chars ++ ['>']), rfl, ?_⟩
      simp only [List.forall_mem_append, List.forall_mem_singleton]
      exact ⟨htag', hchars', by decide⟩
    have hassoc : tag ++ (chars ++ ['>']) ++ rest = tag ++ (chars ++ '>' :: rest) := by simp
    rw [walk_passes hpasses, hassoc]
    simp [Scan.openGroup, Scan.take, hcapture]
  | @plain letters hletters =>
    have hc := @isCapturing_flags rest letters ':' hletters (.inl rfl)
    have hpasses : Passes ('?' :: (letters ++ [':']) ++ rest) rest := by
      refine ⟨'?' :: (letters ++ [':']), rfl, ?_⟩
      simp only [List.forall_mem_cons, List.forall_mem_append]
      exact ⟨by decide, fun c hc => flagLetter_plain (hletters c hc), by simp [delimiters]⟩
    have hassoc : '?' :: (letters ++ [':']) ++ rest = '?' :: (letters ++ ':' :: rest) := by simp
    rw [walk_passes hpasses, hassoc]
    simp [Scan.openGroup, Scan.take, hc]
  | @flags letters hletters =>
    have hc := @isCapturing_flags rest letters ')' hletters (.inr rfl)
    have hpasses : Passes ('?' :: (letters ++ [')']) ++ rest) (')' :: rest) := by
      refine ⟨'?' :: letters, by simp, ?_⟩
      simp only [List.forall_mem_cons]
      exact ⟨by decide, fun c hc => flagLetter_plain (hletters c hc)⟩
    have hassoc : '?' :: (letters ++ [')']) ++ rest = '?' :: (letters ++ ')' :: rest) := by simp
    have hopen : s.openGroup ('?' :: (letters ++ ')' :: rest)) =
        { s with stack := none :: s.stack } := by
      simp [Scan.openGroup, hc]
    -- A change of flags opens a group for the scan, and closes it at once.
    rw [walk_passes hpasses, hassoc, hopen]
    exact walk_close hs

variable [Engine]

theorem walk_escape {p : Primitive} (hv : f.verbose = false) (h : escape f cs = .ok (p, rest)) :
    walk s ('\\' :: cs) = walk s rest := by
  cases cs with
  | nil => contradiction
  | cons c cs =>
    rw [walk_cons, if_pos rfl, List.tail_cons]
    exact walk_passes (escape_passes hv h)

theorem walk_classPrimitive {p : Primitive} (hv : f.verbose = false) (h : c ≠ '[' ∧ c ≠ ']')
    (hp : classPrimitive f (c :: cs) = .ok (p, rest)) :
    walk (within s (depth + 1)) (c :: cs) = walk (within s (depth + 1)) rest := by
  by_cases hc : c = '\\'
  · subst hc
    exact walk_escape hv hp
  · rw [classPrimitive] at hp
    · cases hp
      exact walk_inside ⟨hc, h⟩
    · exact hc

def isBracketRange (f : Flags) (cs : List Char) : Bool :=
  match classPrimitive f cs with
  | .ok (_, '-' :: '[' :: _) => true
  | _ => false

theorem walk_classItem {set : CharSet} (hv : f.verbose = false) (h : c ≠ '[' ∧ c ≠ ']')
    (hr : isBracketRange f (c :: cs) = false) (hi : classItem f (c :: cs) = .ok (set, rest)) :
    walk (within s (depth + 1)) (c :: cs) = walk (within s (depth + 1)) rest := by
  simp only [classItem, hv, skip_false, bind_eq_ok, Prod.exists] at hi
  obtain ⟨first, rest₁, hf, hi⟩ := hi
  rw [walk_classPrimitive hv h hf]
  unfold classItemFrom at hi
  simp only [hv, skip_false] at hi
  split at hi
  · contradiction
  · rename_i tail
    split at hi
    · simp only [bind_eq_ok, pure_eq_ok, Prod.mk.injEq] at hi
      obtain ⟨_, -, -, rfl⟩ := hi
      rfl
    · rename_i hpeek
      simp only [bind_eq_ok, pure_eq_ok, Prod.exists, Prod.mk.injEq] at hi
      obtain ⟨last, rest₂, hl, _, -, -, rfl⟩ := hi
      rw [walk_plain (by decide)]
      cases tail with
      | nil => contradiction
      | cons d tail =>
        refine walk_classPrimitive hv ⟨?_, ?_⟩ hl
        · rintro rfl
          simp [isBracketRange, hf] at hr
        · rintro rfl
          simp [peek] at hpeek
  · simp only [bind_eq_ok, pure_eq_ok, Prod.mk.injEq] at hi
    obtain ⟨_, -, -, rfl⟩ := hi
    rfl

theorem walk_classToken {t : ClassToken} (hv : f.verbose = false)
    (hr : ∀ set, t = .item set → isBracketRange f cs = false)
    (h : classToken f cs = .ok (t, rest)) :
    walk (within s (depth + 1)) cs = walk (within s (depthAfter (depth + 1) t)) rest := by
  cases cs with
  | nil => contradiction
  | cons c cs =>
    by_cases hc : c = '['
    · subst hc
      rw [walk_opening]
      rw [classToken] at h
      split at h
      · rename_i ha
        simp only [bind_eq_ok, pure_eq_ok, Prod.mk.injEq] at h
        obtain ⟨_, -, rfl, rfl⟩ := h
        rw [walk_passes (asciiClass?_passes ha), walk_closing]
        rfl
      · simp only [bind_eq_ok, pure_eq_ok, Prod.exists, Prod.mk.injEq] at h
        obtain ⟨k, rest', hk, rfl, rfl⟩ := h
        rw [walk_passes (openClass_passes hv hk)]
        rfl
    by_cases hc' : c = ']'
    · subst hc'
      cases h
      exact walk_closing
    · rw [classToken_other hc hc'] at h
      split at h
      · rename_i ho
        cases h
        exact walk_passes (classOperator?_passes ho)
      · simp only [bind_eq_ok, pure_eq_ok, Prod.exists, Prod.mk.injEq] at h
        obtain ⟨set, rest', hi, rfl, rfl⟩ := h
        exact walk_classItem hv ⟨hc, hc'⟩ (hr set rfl) hi

def fairLoop (f : Flags) : Nat → Nat → List Char → Bool
  | 0, _, _ => true
  | n + 1, around, cs =>
    match classToken f cs with
    | .error _ => true
    | .ok (.item _, rest) => !isBracketRange f cs && fairLoop f n around rest
    | .ok (.named _, rest) => fairLoop f n around rest
    | .ok (.operator _, rest) => fairLoop f n around rest
    | .ok (.opening _, rest) => fairLoop f n (around + 1) rest
    | .ok (.closing, rest) => around = 0 || fairLoop f n (around - 1) rest

def fairClass (f : Flags) (cs : List Char) : Bool :=
  match openClass f cs with
  | .error _ => true
  | .ok (_, rest) => fairLoop f (rest.length + 1) 0 rest

theorem walk_classLoop {n : Nat} {k : OpenClass} {outer : List OpenClass} {set : CharSet}
    (hv : f.verbose = false) (hs : s.classDepth = 0) (hf : fairLoop f n outer.length cs = true)
    (h : classLoop f n k outer cs = .ok (set, rest)) :
    walk (within s (outer.length + 1)) cs = walk s rest := by
  induction n generalizing k outer cs with
  | zero => contradiction
  | succ n ih =>
    simp only [classLoop, hv, skip_false, bind_eq_ok, Prod.exists] at h
    obtain ⟨t, rest₁, ht, h⟩ := h
    rw [fairLoop, ht] at hf
    cases t with
    | item set' =>
      rw [Bool.and_eq_true, Bool.not_eq_true'] at hf
      rw [walk_classToken hv (fun _ _ => hf.1) ht]
      exact ih hf.2 h
    | named set' =>
      rw [walk_classToken hv (by simp) ht]
      exact ih hf h
    | opening inner =>
      rw [walk_classToken hv (by simp) ht]
      exact @ih rest₁ inner (k :: outer) hf h
    | operator op =>
      rw [walk_classToken hv (by simp) ht]
      exact ih hf h
    | closing =>
      rw [walk_classToken hv (by simp) ht]
      cases outer with
      | nil =>
        simp only [bind_eq_ok, pure_eq_ok, Prod.mk.injEq] at h
        obtain ⟨_, -, -, rfl⟩ := h
        rw [depthAfter, List.length_nil, within_zero hs]
      | cons parent outer =>
        simp only [bind_eq_ok] at h
        obtain ⟨_, -, h⟩ := h
        exact ih (by simpa using hf) h

theorem walk_bracketed {set : CharSet} (hv : f.verbose = false) (hs : s.classDepth = 0)
    (hf : fairClass f cs = true) (h : bracketed f cs = .ok (set, rest)) :
    walk s ('[' :: cs) = walk s rest := by
  simp only [bracketed, bind_eq_ok, Prod.exists] at h
  obtain ⟨k, rest₁, hk, hl⟩ := h
  rw [fairClass, hk] at hf
  have hopen : walk s ('[' :: cs) = walk (within s 1) (afterClassOpen cs) := by
    have ho := @walk_opening s cs 0
    rwa [within_zero hs] at ho
  rw [hopen, walk_passes (openClass_passes hv hk)]
  exact walk_classLoop hv hs hf hl

def Fair (f : Flags) (c : Char) (cs : List Char) (t : Token) : Prop :=
  (c = '[' → fairClass f cs = true) ∧
    ∀ name, t = .openCapture (some name) → isPlainName name = true

theorem walk_take {t : Token} (hv : f.verbose = false) (hs : s.classDepth = 0)
    (hf : Fair f c cs t) (h : Taken f c cs t f' rest) :
    walk s (c :: cs) = walk (Scan.take s t (c :: cs) rest) rest := by
  cases h with
  | opening h =>
    obtain ⟨eaten, hcs, ho, hq, -⟩ := opening_ok h
    rw [hv, skip_false] at hcs
    subst hcs
    exact walk_opens hs ho hq hf.2
  | close => exact walk_close hs
  | bar => exact walk_plain (by decide)
  | bracketed h => exact walk_bracketed hv hs (hf.1 rfl) h
  | counted hc hq =>
    rw [hv] at hc
    rw [hv, skip_false] at hq
    obtain ⟨_, rfl⟩ := quantified_token hq
    rw [walk_plain (by decide)]
    exact walk_passes ((counts_passes hc).trans (quantified_passes hq))
  | escaped he hr => exact walk_escape hv he
  | sign hm hc hq =>
    obtain ⟨_, rfl⟩ := quantified_token hq
    rw [walk_plain (signCounts?_plain hc)]
    exact walk_passes (quantified_passes hq)
  | char hm hc hr =>
    have hne : ∀ d, isMark d = true → c ≠ d := by
      rintro d hd rfl
      simp [hm] at hd
    rw [walk_cons]
    simp [hne '\\' rfl, hne '[' rfl, hne '(' rfl, hne ')' rfl, hs, Scan.take]

end Brine.Proofs.PatternScan
