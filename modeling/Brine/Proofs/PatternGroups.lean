import Brine.Proofs.PatternNumbers
import Brine.Proofs.PatternScan

namespace Brine.Proofs.PatternGroups
open Regex Success PatternReaders PatternTokens PatternRuns PatternNumbers PatternScan

/-- A token, the text it starts, and the text behind it. -/
structure Located where
  token : Token
  text : List Char
  rest : List Char

/-- A capturing group as it is written: its number, the text between its parentheses without its
name, the tokens of that text, and whether it is kept, not being in what is repeated for zero times.
-/
structure Written where
  index : Nat
  source : List Char
  inner : List Token
  kept : Bool

def Written.within (drop : Bool) (w : Written) : Written :=
  { w with kept := w.kept && !drop }

def dropped (ts : List Located) : Bool :=
  ts.foldr (fun t later => drops t.token later) false

/-- Well-nested tokens with the capturing groups that no other one is around, where the groups
before them have numbers up to `n` and all groups up to `n'`. -/
inductive Groups : (n : Nat) → List Located → List Written → (n' : Nat) → Prop
  | nil {n : Nat} : Groups n [] [] n
  | plain {n n' : Nat} {t : Located} {ts : List Located} {gs : List Written} :
      isParenthesis t.token = false → Groups n ts gs n' → Groups n (t :: ts) gs n'
  | uncaptured {n n₁ n' : Nat} {text body after : List Char} {ts ts' : List Located}
      {gs gs' : List Written} : Groups n ts gs n₁ → Groups n₁ ts' gs' n' →
      Groups n (⟨.openPlain, text, body⟩ :: (ts ++ ⟨.close, ')' :: after, after⟩ :: ts'))
        (gs.map (Written.within (dropped ts')) ++ gs') n'
  | captured {n n₁ n' : Nat} {name : Option String} {text source after : List Char}
      {ts ts' : List Located} {gs gs' : List Written} :
      Groups (n + 1) ts gs n₁ → Groups n₁ ts' gs' n' →
      Groups n (⟨.openCapture name, text, source ++ ')' :: after⟩ ::
        (ts ++ ⟨.close, ')' :: after, after⟩ :: ts'))
        (⟨n + 1, source, ts.map Located.token, !dropped ts'⟩ :: gs') n'

variable {s s' : Scanner} {t : Token} {ts : List Located} {d d' : Draft}

inductive Nested : (n around : Nat) → (text : List Char) → List Located → Prop
  | last {n n' : Nat} {text : List Char} {ts : List Located} {gs : List Written} :
      Groups n ts gs n' → Nested n 0 text ts
  | close {n n' around : Nat} {text after : List Char} {ts ts' : List Located} {gs : List Written} :
      Groups n ts gs n' → ')' :: after <:+ text → Nested n' around after ts' →
      Nested n (around + 1) text (ts ++ ⟨.close, ')' :: after, after⟩ :: ts')

/-- Well-nested tokens in front change nothing about the groups that are closed later. -/
theorem Nested.prepend {n n' around : Nat} {text text' : List Char} {front ts : List Located}
    (h : Nested n' around text' ts) (ht : text' <:+ text)
    (hf : ∀ {ts gs n''}, Groups n' ts gs n'' → ∃ gs', Groups n (front ++ ts) gs' n'') :
    Nested n around text (front ++ ts) := by
  cases h with
  | last hg =>
    obtain ⟨gs', hg'⟩ := hf hg
    exact .last hg'
  | close hg hs hrest =>
    obtain ⟨gs', hg'⟩ := hf hg
    rw [← List.append_assoc]
    exact .close hg' (hs.trans ht) hrest

/-- The first group that tokens close is the one that has been opened right before them. -/
theorem Nested.enclose {n n₁ around : Nat} {text body : List Char} {opening : Located}
    {ts : List Located} (h : Nested n₁ (around + 1) body ts) (ht : body <:+ text)
    (hf : ∀ {source after inner ts' gs gs' n₂ n'}, source ++ ')' :: after = body →
      Groups n₁ inner gs n₂ → Groups n₂ ts' gs' n' →
      ∃ gs'', Groups n (opening :: (inner ++ ⟨.close, ')' :: after, after⟩ :: ts')) gs'' n') :
    Nested n around text (opening :: ts) := by
  cases h with
  | @close _ n' _ _ after inner ts' gs hin hclose hrest =>
    obtain ⟨source, hbody⟩ := hclose
    have hafter : after <:+ text := ((List.suffix_cons _ _).trans ⟨source, hbody⟩).trans ht
    have h : Nested n around text
        (opening :: (inner ++ [⟨.close, ')' :: after, after⟩]) ++ ts') := by
      refine hrest.prepend hafter fun hg => ?_
      rw [List.cons_append, List.append_assoc]
      exact hf hbody hin hg
    simpa using h

/-- The scan after tokens. -/
def takeAll (scan : Pattern.Scan) (ts : List Located) : Pattern.Scan :=
  ts.foldl (fun scan t => Scan.take scan t.token t.text t.rest) scan

theorem take_classDepth {scan : Pattern.Scan} {text rest : List Char} :
    (Scan.take scan t text rest).classDepth = scan.classDepth := by
  cases t with
  | close =>
    rw [Scan.take, Pattern.Scan.closeGroup]
    split <;> rfl
  | _ => rfl

def openDepth (scan : Pattern.Scan) : Nat :=
  (scan.stack.filter Option.isSome).length

theorem setSource_of_ne {i : Nat} {source : String} {groups : List Pattern.Group}
    (h : ∀ g ∈ groups, g.index ≠ i) : Pattern.setSource i source groups = groups := by
  have hid : groups.map (fun g => if g.index = i then { g with source } else g) = groups.map id :=
    List.map_congr_left fun g hg => if_neg (h g hg)
  rw [Pattern.setSource, hid, List.map_id]

theorem takeAll_around (scan : Pattern.Scan) (t u : Located) (ts ts' : List Located) :
    takeAll scan (t :: (ts ++ u :: ts')) =
      takeAll (Scan.take (takeAll (Scan.take scan t.token t.text t.rest) ts) u.token u.text u.rest)
        ts' := by
  simp [takeAll]

def found (scan : Pattern.Scan) (new : List Pattern.Group) : Pattern.Scan :=
  { scan with groups := scan.groups ++ new }

def inside (scan : Pattern.Scan) (body : List Char) : Pattern.Scan where
  groups := scan.groups ++ [⟨scan.groups.length + 1, "", openDepth scan⟩]
  stack := some (scan.groups.length + 1, body) :: scan.stack
  classDepth := scan.classDepth

theorem openDepth_inside {scan : Pattern.Scan} {body : List Char} :
    openDepth (inside scan body) = openDepth scan + 1 := by
  simp [openDepth, inside]

def Numbered (scan : Pattern.Scan) : Prop :=
  ∀ g ∈ scan.groups, g.index ≤ scan.groups.length

theorem Numbered.found {scan : Pattern.Scan} {new : List Pattern.Group} (h : Numbered scan)
    (hn : ∀ g ∈ new, g.index ≤ scan.groups.length + new.length) : Numbered (found scan new) := by
  intro g hg
  have hlen : (PatternGroups.found scan new).groups.length = scan.groups.length + new.length :=
    List.length_append
  rcases List.mem_append.mp hg with hg | hg
  · have := h g hg
    omega
  · have := hn g hg
    omega

theorem Numbered.inside {scan : Pattern.Scan} (h : Numbered scan) (body : List Char) :
    Numbered (inside scan body) := by
  have hnew : ∀ g ∈ [(⟨scan.groups.length + 1, "", openDepth scan⟩ : Pattern.Group)],
      g.index ≤ scan.groups.length + 1 := by simp
  exact h.found hnew

/-- A group gets its source where it closes; all other groups have other numbers. -/
theorem take_close {scan : Pattern.Scan} {new : List Pattern.Group} {source after : List Char}
    (h : Numbered scan) (hn : ∀ g ∈ new, scan.groups.length + 1 < g.index) :
    Scan.take (found (inside scan (source ++ ')' :: after)) new) .close (')' :: after) after =
      found scan (⟨scan.groups.length + 1, String.ofList source, openDepth scan⟩ :: new) := by
  have hold : Pattern.setSource (scan.groups.length + 1) (String.ofList source) scan.groups =
      scan.groups := setSource_of_ne fun g hg => by
    have := h g hg
    omega
  have hnew : Pattern.setSource (scan.groups.length + 1) (String.ofList source) new = new :=
    setSource_of_ne fun g hg => by
      have := hn g hg
      omega
  have htake : (source ++ ')' :: after).take
      ((source ++ ')' :: after).length - (')' :: after).length) = source := by
    rw [List.length_append, Nat.add_sub_cancel, List.take_left]
  simp only [Scan.take, found, inside, Pattern.Scan.closeGroup, htake]
  simp only [Pattern.setSource, List.map_append] at hold hnew ⊢
  rw [hold, hnew]
  simp

/-- These new groups have the numbers after `n` up to `n'`, and are at this depth or deeper. Those
at this depth are the ones that are written. -/
structure Finds (n n' depth : Nat) (gs : List Written) (new : List Pattern.Group) : Prop where
  count : n + new.length = n'
  bounds : ∀ g ∈ new, n < g.index ∧ g.index ≤ n' ∧ depth ≤ g.depth
  outermost : new.filter (·.depth = depth) =
    gs.map fun w => ⟨w.index, String.ofList w.source, depth⟩

section
variable {n n₁ n' depth : Nat} {gs gs' : List Written} {new new' : List Pattern.Group}

theorem Finds.nil : Finds n n depth [] [] :=
  ⟨rfl, by simp, rfl⟩

theorem Finds.append (h : Finds n n₁ depth gs new) (h' : Finds n₁ n' depth gs' new') :
    Finds n n' depth (gs ++ gs') (new ++ new') := by
  have hcount := h.count
  have hcount' := h'.count
  refine ⟨by rw [List.length_append]; omega, ?_, ?_⟩
  · intro g hg
    rcases List.mem_append.mp hg with hg | hg
    · have := h.bounds g hg
      omega
    · have := h'.bounds g hg
      omega
  · rw [List.filter_append, List.map_append, h.outermost, h'.outermost]

theorem Finds.within {drop : Bool} (h : Finds n n' depth gs new) :
    Finds n n' depth (gs.map (Written.within drop)) new := by
  refine ⟨h.count, h.bounds, ?_⟩
  rw [List.map_map]
  exact h.outermost

/-- A group hides those inside of it. -/
theorem Finds.captured (h : Finds (n + 1) n' (depth + 1) gs new) (source : List Char)
    (inner : List Token) (kept : Bool) :
    Finds n n' depth [⟨n + 1, source, inner, kept⟩]
      (⟨n + 1, String.ofList source, depth⟩ :: new) := by
  have hcount := h.count
  have hnone : new.filter (·.depth = depth) = [] := by
    refine List.filter_eq_nil_iff.mpr fun g hg => ?_
    have := h.bounds g hg
    simp only [decide_eq_true_eq]
    omega
  refine ⟨by rw [List.length_cons]; omega, List.forall_mem_cons.mpr ⟨?_, fun g hg => ?_⟩, ?_⟩
  · simp only
    omega
  · have := h.bounds g hg
    omega
  · rw [List.filter_cons_of_pos (by simp), hnone]
    rfl

theorem Finds.numbered {scan : Pattern.Scan} (h : Finds scan.groups.length n' depth gs new)
    (hs : Numbered scan) : Numbered (found scan new) := by
  refine hs.found fun g hg => ?_
  have := h.bounds g hg
  have := h.count
  omega

end

/-- What the scan finds in well-nested tokens. -/
theorem takeAll_groups {n n' : Nat} {gs : List Written} (h : Groups n ts gs n')
    (scan : Pattern.Scan) (hl : scan.groups.length = n) (hi : Numbered scan) :
    ∃ new, takeAll scan ts = found scan new ∧ Finds n n' (openDepth scan) gs new := by
  induction h generalizing scan with
  | nil => exact ⟨[], by simp [takeAll, found], .nil⟩
  | @plain n n' t ts gs hk _ ih =>
    have ht : Scan.take scan t.token t.text t.rest = scan := by
      cases ht : t.token with
      | openCapture | openPlain | close => simp [ht, isParenthesis] at hk
      | _ => rfl
    obtain ⟨new, hnew, hfinds⟩ := ih scan hl hi
    refine ⟨new, ?_, hfinds⟩
    rw [takeAll, List.foldl_cons, ht]
    exact hnew
  | @uncaptured n n₁ n' text body after ts ts' gs gs' _ _ ih₁ ih₂ =>
    subst hl
    obtain ⟨new₁, hnew₁, h₁⟩ := ih₁ { scan with stack := none :: scan.stack } rfl hi
    have hdepth : openDepth { scan with stack := none :: scan.stack } = openDepth scan := by
      simp [openDepth]
    rw [hdepth] at h₁
    have hcount : (found scan new₁).groups.length = n₁ := List.length_append.trans h₁.count
    obtain ⟨new₂, hnew₂, h₂⟩ := ih₂ (found scan new₁) hcount (h₁.numbered hi)
    have hopen : Scan.take scan .openPlain text body =
        { scan with stack := none :: scan.stack } := rfl
    have hclose : Scan.take (found { scan with stack := none :: scan.stack } new₁) .close
        (')' :: after) after = found scan new₁ := rfl
    refine ⟨new₁ ++ new₂, ?_, h₁.within.append h₂⟩
    rw [takeAll_around, hopen, hnew₁, hclose, hnew₂]
    simp [found]
  | @captured n n₁ n' name text source after ts ts' gs gs' _ _ ih₁ ih₂ =>
    subst hl
    obtain ⟨new₁, hnew₁, h₁⟩ := ih₁ (inside scan (source ++ ')' :: after)) (by simp [inside])
      (hi.inside _)
    rw [openDepth_inside] at h₁
    have hself := h₁.captured source (ts.map Located.token) (!dropped ts')
    have hcount := List.length_append.trans hself.count
    obtain ⟨new₂, hnew₂, h₂⟩ := ih₂ (found scan _) hcount (hself.numbered hi)
    have hopen : Scan.take scan (.openCapture name) text (source ++ ')' :: after) =
        inside scan (source ++ ')' :: after) := rfl
    have hclose := @take_close scan new₁ source after hi fun g hg => (h₁.bounds g hg).1
    refine ⟨_ :: (new₁ ++ new₂), ?_, hself.append h₂⟩
    rw [takeAll_around, hopen, hnew₁, hclose, hnew₂]
    simp [found]

variable [Engine]

/-- The tokens from where the scanner stands, with their places; the verbose flag is off at each. -/
inductive Lexes : Scanner → List Located → Prop
  | nil {s : Scanner} : s.flags.verbose = false → s.next = .ok none → Lexes s []
  | cons {s s' : Scanner} {t : Token} {ts : List Located} : s.flags.verbose = false →
      s.next = .ok (some (t, s')) → Lexes s' ts → Lexes s (⟨t, s.rest, s'.rest⟩ :: ts)

/-- The tokens from where the scanner stands, with their places; what the verbose flag lets a
pattern hold before a token is passed over. -/
inductive Reads : Scanner → List Located → Prop
  | nil {s : Scanner} : s.next = .ok none → Reads s []
  | cons {s s' : Scanner} {t : Token} {ts : List Located} : s.next = .ok (some (t, s')) →
      Reads s' ts → Reads s (⟨t, skip s.flags.verbose s.rest, s'.rest⟩ :: ts)

theorem Lexes.reads (h : Lexes s ts) : Reads s ts := by
  induction h with
  | nil hv hs => exact .nil hs
  | @cons s s' t ts hv hs _ ih =>
    have h := Reads.cons hs ih
    rwa [hv, skip_false] at h

theorem scan_reads {n : Nat} {tokens : List Token} (hn : s.rest.length < n)
    (h : scan n s = .ok tokens) : ∃ ts, Reads s ts ∧ ts.map Located.token = tokens := by
  induction n generalizing s tokens with
  | zero => omega
  | succ n ih =>
    obtain ⟨hs, rfl⟩ | ⟨t, s', tokens', hs, hts, rfl⟩ := scan_succ_eq_ok.mp h
    · exact ⟨[], .nil hs, rfl⟩
    · have hlen := next_length hs
      obtain ⟨ts, hr, rfl⟩ := ih (by omega) hts
      exact ⟨_, .cons hs hr, rfl⟩

theorem scan_lexes {n : Nat} {tokens : List Token} (hn : s.rest.length < n)
    (hp : meetsFor (!·.flags.verbose) n s = true) (h : scan n s = .ok tokens) :
    ∃ ts, Lexes s ts ∧ ts.map Located.token = tokens := by
  induction n generalizing s tokens with
  | zero => omega
  | succ n ih =>
    have hv : s.flags.verbose = false := by simpa using meetsFor_here hp
    obtain ⟨hs, rfl⟩ | ⟨t, s', tokens', hs, hts, rfl⟩ := scan_succ_eq_ok.mp h
    · exact ⟨[], .nil hv hs, rfl⟩
    · have hlen := next_length hs
      obtain ⟨ts, hl, rfl⟩ := ih (by omega) (meetsFor_next hp hs) hts
      exact ⟨_, .cons hv hs hl, rfl⟩

theorem taken_close {f f' : Flags} {c : Char} {cs rest : List Char}
    (h : Taken f c cs .close f' rest) : c = ')' ∧ cs = rest := by
  cases h with
  | opening h => obtain ⟨⟨_, ht⟩ | ht | ht, -⟩ := opening_suffix h <;> cases ht
  | close => exact ⟨rfl, rfl⟩
  | counted _ hq | sign _ _ hq =>
    obtain ⟨_, ht⟩ := quantified_token hq
    cases ht

/-- The tokens of a pattern that compiles close all groups that are open where they start. -/
theorem nested_of_reads (h : Reads s ts)
    (hd : (ts.map Located.token).foldlM Draft.push d = .ok d') (ho : d'.outer = []) :
    Nested d.captures d.outer.length s.rest ts := by
  induction h generalizing d with
  | nil =>
    cases hd
    rw [ho]
    exact .last .nil
  | @cons s s' t ts hs _ ih =>
    obtain ⟨c, cs, f', hr, ht⟩ := next_taken hs
    have hskip := skip_suffix s.flags.verbose s.rest
    rw [hr] at hskip
    have hsuffix : s'.rest <:+ s.rest :=
      (ht.suffix.trans (List.suffix_cons _ _)).trans hskip
    rw [hr]
    rw [List.map_cons, List.foldlM_cons, bind_eq_ok] at hd
    obtain ⟨d₁, hd₁, hd⟩ := hd
    have ih := ih hd
    have hc := push_captures hd₁
    have hg := PatternEmbedding.push_groups hd₁
    have hplain (h : isParenthesis t = false) (hcap : d₁.captures = d.captures)
        (hout : d₁.outer = d.outer) :
        Nested d.captures d.outer.length s.rest (⟨t, c :: cs, s'.rest⟩ :: ts) := by
      rw [hcap, hout] at ih
      have hn : Nested d.captures d.outer.length s.rest ([⟨t, c :: cs, s'.rest⟩] ++ ts) :=
        ih.prepend hsuffix fun hg => ⟨_, .plain h hg⟩
      exact hn
    cases t with
    | atom | flags | bar | quantifier => exact hplain rfl hc hg.1
    | close =>
      obtain ⟨parent, ho, -⟩ := hg
      obtain ⟨rfl, rfl⟩ := taken_close ht
      rw [ho, List.length_cons]
      have hc : d₁.captures = d.captures := hc
      rw [hc] at ih
      have h : Nested d.captures (d₁.outer.length + 1) s.rest
          ([] ++ ⟨.close, ')' :: s'.rest, s'.rest⟩ :: ts) :=
        .close .nil hskip ih
      exact h
    | openPlain =>
      have hg : d₁.outer = d.group :: d.outer := hg
      have hc : d₁.captures = d.captures := hc
      rw [hg, hc, List.length_cons] at ih
      exact ih.enclose hsuffix fun _ hin hrest => ⟨_, .uncaptured hin hrest⟩
    | openCapture name =>
      have hg : d₁.outer = d.group :: d.outer := hg
      have hc : d₁.captures = d.captures + 1 := hc
      rw [hg, hc, List.length_cons] at ih
      refine ih.enclose hsuffix fun hbody hin hrest => ?_
      rw [← hbody]
      exact ⟨_, .captured hin hrest⟩

theorem groups_of_reads (h : Reads s ts)
    (hd : (ts.map Located.token).foldlM Draft.push {} = .ok d') (ho : d'.outer = []) :
    ∃ gs n', Groups 0 ts gs n' := by
  have h := nested_of_reads h hd ho
  generalize ht : s.rest = text at h
  cases h with
  | last hg => exact ⟨_, _, hg⟩

theorem groups_of_lexes (h : Lexes s ts)
    (hd : (ts.map Located.token).foldlM Draft.push {} = .ok d') (ho : d'.outer = []) :
    ∃ gs n', Groups 0 ts gs n' :=
  groups_of_reads h.reads hd ho

/-- Whether the name of the next group is plain, and no range ends with a bare bracket in the next
class. -/
def isFairAt (s : Scanner) : Bool :=
  match s.rest with
  | '[' :: cs => fairClass s.flags cs
  | '(' :: cs =>
    match opening s.flags cs with
    | .ok (.openCapture (some name), _) => isPlainName name
    | _ => true
  | _ => true

theorem fair_of_isFairAt {f f' : Flags} {outer : List Flags} {c : Char} {cs rest : List Char}
    (h : isFairAt ⟨f, outer, c :: cs⟩ = true)
    (ht : Taken f c cs t f' rest) : Fair f c cs t := by
  constructor
  · rintro rfl
    exact h
  · rintro name rfl
    cases ht with
    | opening ho =>
      rw [isFairAt] at h
      simpa [ho] using h
    | counted _ hq | sign _ _ hq =>
      obtain ⟨_, ht⟩ := quantified_token hq
      cases ht

/-- The scan goes from token to token. -/
theorem walk_lexes {n : Nat} {scan : Pattern.Scan} (h : Lexes s ts) (hn : s.rest.length < n)
    (hf : meetsFor isFairAt n s = true) (hs : scan.classDepth = 0) :
    walk scan s.rest = takeAll scan ts := by
  induction h generalizing n scan with
  | @nil s hv hnone =>
    rw [next_none hv hnone]
    rfl
  | @cons s s' t ts hv hs' _ ih =>
    cases n with
    | zero => omega
    | succ n =>
      have hlen := next_length hs'
      obtain ⟨c, cs, f', hr, ht⟩ := next_taken hs'
      rw [hv, skip_false] at hr
      have hfair : Fair s.flags c cs t := by
        obtain ⟨f, outer, rest⟩ := s
        obtain rfl : rest = c :: cs := hr
        exact fair_of_isFairAt (meetsFor_here hf) ht
      rw [hr, walk_take hv hs hfair ht]
      exact ih (by omega) (meetsFor_next hf hs') (take_classDepth.trans hs)

/-- The outermost groups of a pattern, as the scan finds them. -/
theorem groups_outermost {pattern : List Char} {gs : List Written} {n' : Nat}
    (h : Lexes { rest := pattern } ts) (hg : Groups 0 ts gs n')
    (hf : meets isFairAt pattern = true) :
    (Pattern.groups pattern).filter (·.depth = 0) =
      gs.map fun w => ⟨w.index, String.ofList w.source, 0⟩ := by
  have hwalk : walk {} pattern = takeAll {} ts := walk_lexes h (Nat.lt_succ_self _) hf rfl
  obtain ⟨new, hnew, hfinds⟩ := takeAll_groups hg {} rfl (by simp [Numbered])
  have hall : Pattern.groups pattern = new := by
    have hw : Pattern.groups pattern = (walk {} pattern).groups := rfl
    rw [hw, hwalk, hnew]
    rfl
  rw [hall]
  exact hfinds.outermost

end Brine.Proofs.PatternGroups
