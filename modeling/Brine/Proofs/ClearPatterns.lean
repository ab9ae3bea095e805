import Brine.Proofs.RegularGroups

namespace Brine.Proofs.ClearPatterns
open Regex Success PatternReaders PatternTokens PatternRuns PatternNumbers PatternScan
  PatternGroups RegularGroups

def isPlainUpTo (rest : List Char) : List Char → Bool
  | [] => rest.isEmpty
  | c :: cs => c :: cs = rest || c ∉ delimiters && isPlainUpTo rest cs

def classEnd : Nat → Nat → List Char → Option (List Char)
  | 0, _, _ => none
  | _ + 1, 0, cs => some cs
  | _ + 1, _ + 1, [] => none
  | n + 1, depth + 1, c :: cs =>
    if c = '\\' then classEnd n (depth + 1) cs.tail
    else if c = '[' then classEnd n (depth + 2) (Pattern.afterClassOpen cs)
    else if c = ']' then classEnd n depth cs
    else classEnd n (depth + 1) cs

/-- Whether a token has no delimiters but its own: a parenthesis that opens a group, the one that
ends a change of flags, the brackets of a class, or a backslash with the character after it. There
are none between `start` and the token either. -/
def isClear (start : List Char) (t : Located) : Bool :=
  isPlainUpTo t.text start &&
    match t.text with
    | [] => true
    | c :: cs =>
      if c = '(' then
        Pattern.isCapturing cs = isCapture t.token &&
          isPlainUpTo (if t.token = .flags then ')' :: t.rest else t.rest) cs
      else if c = '[' then classEnd (cs.length + 2) 1 (Pattern.afterClassOpen cs) = some t.rest
      else isPlainUpTo t.rest (if c = '\\' then cs.tail else cs)

/-- Whether all of these tokens are clear. -/
def areClear (start : List Char) : List Located → Bool
  | [] => true
  | t :: ts => isClear start t && areClear t.rest ts

def behind (start : List Char) : List Located → List Char
  | [] => start
  | t :: ts => behind t.rest ts

theorem passes_of_isPlainUpTo {cs rest : List Char} (h : isPlainUpTo rest cs = true) :
    Passes cs rest := by
  induction cs with
  | nil =>
    rw [isPlainUpTo, List.isEmpty_iff] at h
    rw [h]
    exact .refl
  | cons c cs ih =>
    simp only [isPlainUpTo, Bool.or_eq_true, Bool.and_eq_true, decide_eq_true_eq] at h
    rcases h with h | ⟨hc, h⟩
    · rw [h]
      exact .refl
    · exact (Passes.cons hc).trans (ih h)

def marks (scan : Pattern.Scan) : List (Nat × Nat) :=
  scan.groups.map fun g => (g.index, g.depth)

structure Alike (s s' : Pattern.Scan) : Prop where
  marks : marks s = marks s'
  stack : s.stack.map Option.isSome = s'.stack.map Option.isSome
  classDepth : s.classDepth = s'.classDepth

section Scans

variable {s s' s'' scan : Pattern.Scan} {t : Token} {text text' rest rest' cs : List Char}

theorem Alike.refl : Alike s s :=
  ⟨rfl, rfl, rfl⟩

theorem Alike.trans (h : Alike s s') (h' : Alike s' s'') : Alike s s'' :=
  ⟨h.marks.trans h'.marks, h.stack.trans h'.stack, h.classDepth.trans h'.classDepth⟩

theorem Alike.length (h : Alike s s') : s.groups.length = s'.groups.length := by
  have hl := congrArg List.length h.marks
  simpa [ClearPatterns.marks] using hl

theorem Alike.openDepth (h : Alike s s') :
    (s.stack.filter Option.isSome).length = (s'.stack.filter Option.isSome).length := by
  have hc := congrArg (List.countP id) h.stack
  rw [List.countP_map, List.countP_map] at hc
  rw [← List.countP_eq_length_filter, ← List.countP_eq_length_filter]
  exact hc

theorem marks_setSource (i : Nat) (source : String) (gs : List Pattern.Group) :
    (Pattern.setSource i source gs).map (fun g => (g.index, g.depth)) =
      gs.map fun g => (g.index, g.depth) := by
  rw [Pattern.setSource, List.map_map]
  refine List.map_congr_left fun g _ => ?_
  rw [Function.comp_apply]
  split <;> rfl

/-- Closing a group leaves what has been found, and takes it from the open ones. -/
theorem closeGroup_frame (s : Pattern.Scan) (text : List Char) :
    marks (s.closeGroup text) = marks s ∧ (s.closeGroup text).stack = s.stack.tail ∧
      (s.closeGroup text).classDepth = s.classDepth := by
  unfold Pattern.Scan.closeGroup
  split
  · rename_i hs
    exact ⟨rfl, by simp [hs], rfl⟩
  · rename_i hs
    exact ⟨rfl, by simp [hs], rfl⟩
  · rename_i hs
    exact ⟨marks_setSource .., by simp [hs], rfl⟩

/-- What a token does to a scan does not depend on sources. -/
theorem Alike.take (h : Alike s s') :
    Alike (Scan.take s t text rest) (Scan.take s' t text' rest') := by
  cases t with
  | openCapture name =>
    refine ⟨?_, ?_, h.classDepth⟩
    · simp only [ClearPatterns.marks, Scan.take, List.map_append, h.length, h.openDepth]
      rw [show s.groups.map _ = s'.groups.map _ from h.marks]
    · simp [Scan.take, h.stack]
  | openPlain => exact ⟨h.marks, by simp [Scan.take, h.stack], h.classDepth⟩
  | close =>
    obtain ⟨hm, hs, hd⟩ := closeGroup_frame s text
    obtain ⟨hm', hs', hd'⟩ := closeGroup_frame s' text'
    refine ⟨hm.trans (h.marks.trans hm'.symm), ?_, hd.trans (h.classDepth.trans hd'.symm)⟩
    rw [Scan.take, Scan.take, hs, hs', List.map_tail, List.map_tail, h.stack]
  | _ => exact h

theorem Alike.takeAll (h : Alike s s') (ts : List Located) :
    Alike (takeAll s ts) (takeAll s' ts) := by
  induction ts generalizing s s' with
  | nil => exact h
  | cons t ts ih => exact ih h.take

theorem walk_classEnd {n depth : Nat} (hs : scan.classDepth = 0)
    (h : classEnd n depth cs = some rest) : walk (within scan depth) cs = walk scan rest := by
  fun_induction classEnd n depth cs with
  | case1 => cases h
  | case2 n cs =>
    cases h
    rw [within_zero hs]
  | case3 => cases h
  | case4 n depth cs ih =>
    rw [walk_cons, if_pos rfl]
    exact ih h
  | case5 n depth cs _ ih =>
    rw [walk_opening]
    exact ih h
  | case6 n depth cs _ _ ih =>
    rw [walk_closing]
    exact ih h
  | case7 n depth c cs h₁ h₂ h₃ ih =>
    rw [walk_inside ⟨h₁, h₂, h₃⟩]
    exact ih h

theorem walk_class {n : Nat} (hs : scan.classDepth = 0)
    (h : classEnd n 1 (Pattern.afterClassOpen cs) = some rest) :
    walk scan ('[' :: cs) = walk scan rest := by
  have ho := @walk_opening scan cs 0
  rw [within_zero hs] at ho
  rw [ho]
  exact walk_classEnd hs h

theorem openGroup_alike (hc : Pattern.isCapturing cs = isCapture t)
    (ht : (∃ name, t = .openCapture name) ∨ t = .openPlain) :
    Alike (s.openGroup cs) (Scan.take s t text rest) := by
  rcases ht with ⟨name, rfl⟩ | rfl
  · have hc : Pattern.isCapturing cs = true := hc
    rw [Pattern.Scan.openGroup, if_pos hc]
    refine ⟨?_, ?_, rfl⟩
    · simp [ClearPatterns.marks, Scan.take]
    · simp [Scan.take]
  · have hc : Pattern.isCapturing cs = false := hc
    rw [Pattern.Scan.openGroup, hc]
    exact .refl

/-- The scan over a parenthesis that opens a group or changes flags. -/
theorem walk_clear_opening {f f' : Flags} (hs : scan.classDepth = 0)
    (ho : opening f cs = .ok (t, f', rest)) (hc : Pattern.isCapturing cs = isCapture t)
    (hp : Passes cs (if t = .flags then ')' :: rest else rest)) :
    ∃ scan', walk scan ('(' :: cs) = walk scan' rest ∧
      Alike scan' (Scan.take scan t text rest) := by
  rw [walk_open hs]
  obtain ⟨ht | ht | rfl, -⟩ := opening_suffix ho
  · obtain ⟨name, rfl⟩ := ht
    rw [if_neg (by simp)] at hp
    exact ⟨_, walk_passes hp, openGroup_alike hc (.inl ⟨name, rfl⟩)⟩
  · subst ht
    rw [if_neg (by simp)] at hp
    exact ⟨_, walk_passes hp, openGroup_alike hc (.inr rfl)⟩
  · -- A change of flags opens a group for the scan, and closes it at once.
    have hc : Pattern.isCapturing cs = false := hc
    rw [if_pos rfl] at hp
    have hopen : scan.openGroup cs = { scan with stack := none :: scan.stack } := by
      simp [Pattern.Scan.openGroup, hc]
    refine ⟨scan, ?_, .refl⟩
    rw [walk_passes hp, hopen]
    exact walk_close hs

theorem scanGroups_grows (n : Nat) (s : Pattern.Scan) (cs : List Char) :
    marks s <+: marks (Pattern.scanGroups n s cs) := by
  fun_induction Pattern.scanGroups n s cs with
  | case1 => exact List.prefix_refl _
  | case2 => exact List.prefix_refl _
  | case3 n s rest ih => exact ih
  | case4 n s rest _ ih => exact ih
  | case5 n s c rest _ _ _ ih => exact ih
  | case6 n s c rest _ _ _ _ ih =>
    refine List.IsPrefix.trans ?_ ih
    unfold Pattern.Scan.openGroup
    split
    · simp only [marks, List.map_append]
      exact List.prefix_append _ _
    · exact List.prefix_refl _
  | case7 n s c rest _ _ _ _ _ ih => exact (closeGroup_frame s _).1 ▸ ih
  | case8 n s c rest _ _ _ _ _ ih => exact ih

theorem take_marks (scan : Pattern.Scan) (t : Token) (text rest : List Char) :
    ∃ new, marks (Scan.take scan t text rest) = marks scan ++ new ∧
      new.length = (if isCapture t then 1 else 0) ∧ ∀ x ∈ new, x.1 = (marks scan).length + 1 := by
  cases t with
  | openCapture name =>
    refine ⟨[(scan.groups.length + 1, openDepth scan)], ?_, rfl, ?_⟩
    · simp [marks, Scan.take, openDepth]
    · simp [marks]
  | close =>
    obtain ⟨hm, -⟩ := closeGroup_frame scan text
    exact ⟨[], by rw [Scan.take, hm, List.append_nil], rfl, by simp⟩
  | _ => exact ⟨[], (List.append_nil _).symm, rfl, by simp⟩

/-- Tokens add groups with the next numbers. -/
theorem takeAll_marks (scan : Pattern.Scan) (ts : List Located) :
    ∃ new, marks (takeAll scan ts) = marks scan ++ new ∧
      new.length = ts.countP (isCapture ·.token) ∧
      ∀ x ∈ new, (marks scan).length < x.1 ∧ x.1 ≤ (marks scan).length + new.length := by
  induction ts generalizing scan with
  | nil => exact ⟨[], by simp [takeAll]⟩
  | cons t ts ih =>
    obtain ⟨one, hm₁, hl₁, hb₁⟩ := take_marks scan t.token t.text t.rest
    obtain ⟨new, hm, hl, hb⟩ := ih (Scan.take scan t.token t.text t.rest)
    rw [hm₁] at hm hb
    rw [List.length_append] at hb
    refine ⟨one ++ new, ?_, ?_, ?_⟩
    · rw [← List.append_assoc]
      exact hm
    · rw [List.length_append, List.countP_cons, hl₁, hl, Nat.add_comm]
    · rw [List.length_append]
      intro x hx
      rcases List.mem_append.mp hx with hx | hx
      · have hpos := List.length_pos_of_mem hx
        have := hb₁ x hx
        omega
      · have := hb x hx
        omega

def outermost (found : List (Nat × Nat)) : List Nat :=
  (found.filter (·.2 = 0)).map Prod.fst

theorem outermost_append (found more : List (Nat × Nat)) :
    outermost (found ++ more) = outermost found ++ outermost more := by
  rw [outermost, List.filter_append, List.map_append]
  rfl

theorem mem_of_mem_outermost {found : List (Nat × Nat)} {i : Nat} (h : i ∈ outermost found) :
    ∃ x ∈ found, x.1 = i := by
  obtain ⟨x, hx, rfl⟩ := List.mem_map.mp h
  exact ⟨x, (List.mem_filter.mp hx).1, rfl⟩

/-- The outermost groups that open in the first of the tokens. -/
def openedIn (before : List Located) (gs : List Written) : List Written :=
  gs.filter (·.index ≤ before.countP (isCapture ·.token))

theorem outermost_groups {ts : List Located} {gs : List Written} {n : Nat}
    (hg : Groups 0 ts gs n) : outermost (marks (takeAll {} ts)) = gs.map Written.index := by
  obtain ⟨new, hnew, hfinds⟩ := takeAll_groups hg {} rfl (by simp [Numbered])
  have hnew : (takeAll {} ts).groups = new := by
    rw [hnew]
    rfl
  rw [outermost, marks, hnew, List.filter_map, List.map_map]
  have ho := congrArg (List.map Pattern.Group.index) hfinds.outermost
  rw [List.map_map] at ho
  exact ho

/-- The groups that tokens open are those with numbers up to theirs. -/
theorem outermost_openedIn {before after : List Located} {gs : List Written} {n : Nat}
    (hg : Groups 0 (before ++ after) gs n) :
    outermost (marks (takeAll {} before)) = (openedIn before gs).map Written.index := by
  obtain ⟨new, hm, hl, hb⟩ := takeAll_marks {} before
  obtain ⟨more, hm', -, hb'⟩ := takeAll_marks (takeAll {} before) after
  have hm : marks (takeAll {} before) = new := hm
  have hall : takeAll {} (before ++ after) = takeAll (takeAll {} before) after :=
    List.foldl_append
  have ho := outermost_groups hg
  rw [hall, hm', outermost_append, hm] at ho
  rw [hm, hl] at hb'
  have hfirst : ∀ i ∈ outermost new, i ≤ before.countP (isCapture ·.token) := by
    intro i hi
    obtain ⟨x, hx, rfl⟩ := mem_of_mem_outermost hi
    have := hb x hx
    have hz : (marks {}).length = 0 := rfl
    omega
  have hlater : ∀ i ∈ outermost more, ¬i ≤ before.countP (isCapture ·.token) := by
    intro i hi
    obtain ⟨x, hx, rfl⟩ := mem_of_mem_outermost hi
    have := hb' x hx
    omega
  have hf := congrArg (List.filter fun i => decide (i ≤ before.countP (isCapture ·.token))) ho
  rw [List.filter_append, List.filter_eq_self.mpr (by simpa using hfirst),
    List.filter_eq_nil_iff.mpr (by simpa using hlater), List.append_nil, List.filter_map] at hf
  rw [hm]
  exact hf

end Scans

/-- Arguments are those of groups, one for each and in their order, with the text that the group has
captured and its place. -/
def Carry (text : List Char) (m : Regex.Match) (gs : List Written) (args : List Argument) : Prop :=
  List.Forall₂ (fun w a => a = .ofGroup text m w.index a.type) gs args

theorem ofGroup_type (text : List Char) (m : Regex.Match) (index : Nat)
    (type : Option ParameterType) : (Argument.ofGroup text m index type).type = type := by
  unfold Argument.ofGroup
  split <;> rfl

theorem carry_of_indices {text : List Char} {m : Regex.Match} {gs : List Written}
    {groups : List (Nat × Option ParameterType)}
    (h : groups.map Prod.fst = gs.map Written.index) :
    Carry text m gs (groups.map fun (index, type) => .ofGroup text m index type) := by
  induction gs generalizing groups with
  | nil =>
    rw [List.map_nil, List.map_eq_nil_iff] at h
    rw [h]
    exact .nil
  | cons w gs ih =>
    cases groups with
    | nil => cases h
    | cons g groups =>
      rw [List.map_cons, List.map_cons, List.cons.injEq] at h
      refine .cons ?_ (ih h.2)
      rw [ofGroup_type, ← h.1]

def recorded (registry : Registry) (source : String) : List (Nat × Option ParameterType) :=
  ((Pattern.groups source.toList).filter (·.depth = 0)).map fun g =>
    (g.index, registry.lookupByRegexp g.source)

theorem recorded_indices (registry : Registry) (source : String) :
    (recorded registry source).map Prod.fst = outermost (marks (walk {} source.toList)) := by
  have hw : Pattern.groups source.toList = (walk {} source.toList).groups := rfl
  rw [recorded, hw, outermost, marks, List.map_map, List.filter_map, List.map_map]
  rfl

section
variable [Engine]

/-- Whether the next token is clear; behind the last one there must be no delimiters either. -/
def isClearAt (s : Scanner) : Bool :=
  match s.next with
  | .ok (some (t, s')) => isClear s.rest ⟨t, skip s.flags.verbose s.rest, s'.rest⟩
  | _ => isPlainUpTo [] s.rest

theorem areClear_of_meets {s : Scanner} {ts : List Located} {n : Nat} (h : Reads s ts)
    (hn : s.rest.length < n) (hc : meetsFor isClearAt n s = true) :
    areClear s.rest ts = true ∧ isPlainUpTo [] (behind s.rest ts) = true := by
  induction h generalizing n with
  | @nil s hs =>
    have hc := meetsFor_here hc
    rw [isClearAt, hs] at hc
    exact ⟨rfl, hc⟩
  | @cons s s' t ts hs _ ih =>
    cases n with
    | zero => omega
    | succ n =>
      have hlen := next_length hs
      obtain ⟨hts, hlast⟩ := ih (by omega) (meetsFor_next hc hs)
      have hc : isClear s.rest ⟨t, skip s.flags.verbose s.rest, s'.rest⟩ = true := by
        have hc := meetsFor_here hc
        rwa [isClearAt, hs] at hc
      rw [areClear, hts, hc]
      exact ⟨rfl, hlast⟩

section
variable {scan : Pattern.Scan} {cs : List Char}

/-- The scan goes over a clear token as the token says. -/
theorem walk_clear {f f' : Flags} {c : Char} {start : List Char} {u : Located}
    (hs : scan.classDepth = 0) (htext : u.text = c :: cs) (ht : Taken f c cs u.token f' u.rest)
    (hc : isClear start u = true) :
    ∃ scan', walk scan start = walk scan' u.rest ∧
      Alike scan' (Scan.take scan u.token u.text u.rest) := by
  obtain ⟨t, text, rest⟩ := u
  obtain rfl : text = c :: cs := htext
  simp only [isClear, Bool.and_eq_true] at hc
  obtain ⟨hstart, hc⟩ := hc
  rw [walk_passes (passes_of_isPlainUpTo hstart)]
  have hplain (hd : c ∉ delimiters) (hk : Scan.take scan t (c :: cs) rest = scan) :
      ∃ scan', walk scan (c :: cs) = walk scan' rest ∧
        Alike scan' (Scan.take scan t (c :: cs) rest) := by
    have hne : c ≠ '\\' ∧ c ≠ '[' ∧ c ≠ ']' ∧ c ≠ '(' ∧ c ≠ ')' := by simpa [delimiters] using hd
    simp only [hne, if_false] at hc
    refine ⟨scan, ?_, ?_⟩
    · rw [walk_plain hd]
      exact walk_passes (passes_of_isPlainUpTo hc)
    · rw [hk]
      exact .refl
  have ht : Taken f c cs t f' rest := ht
  cases ht with
  | opening ho =>
    simp only [if_true, Bool.and_eq_true, decide_eq_true_eq] at hc
    exact walk_clear_opening hs ho hc.1 (passes_of_isPlainUpTo hc.2)
  | close => exact ⟨_, walk_close hs, .refl⟩
  | bar => exact hplain (by decide) rfl
  | bracketed _ =>
    rw [if_neg (by decide), if_pos rfl, decide_eq_true_eq] at hc
    exact ⟨scan, walk_class hs hc, .refl⟩
  | counted _ hq =>
    obtain ⟨_, rfl⟩ := quantified_token hq
    exact hplain (by decide) rfl
  | escaped _ _ =>
    refine ⟨scan, ?_, .refl⟩
    rw [walk_cons, if_pos rfl]
    exact walk_passes (passes_of_isPlainUpTo hc)
  | sign hm hsign hq =>
    obtain ⟨_, rfl⟩ := quantified_token hq
    exact hplain (signCounts?_plain hsign) rfl
  | char hm _ _ =>
    refine ⟨scan, ?_, .refl⟩
    have hne (d : Char) (hd : isMark d = true) : c ≠ d := by
      rintro rfl
      simp [hm] at hd
    rw [walk_cons]
    simp [hne '\\' rfl, hne '[' rfl, hne '(' rfl, hne ')' rfl, hs]

/-- The scan goes over clear tokens as they say. -/
theorem walk_reads {r : Scanner} {before after : List Located} (h : Reads r (before ++ after))
    (hs : scan.classDepth = 0) (hc : areClear r.rest before = true) :
    ∃ scan', walk scan r.rest = walk scan' (behind r.rest before) ∧
      Alike scan' (takeAll scan before) := by
  induction before generalizing r scan with
  | nil => exact ⟨scan, rfl, .refl⟩
  | cons t before ih =>
    rw [areClear, Bool.and_eq_true] at hc
    cases h with
    | @cons _ r' t _ hnext hrest =>
      obtain ⟨c, cs, f', hr, ht⟩ := next_taken hnext
      obtain ⟨scan₁, hw, ha⟩ := walk_clear hs hr ht hc.1
      have hs₁ : scan₁.classDepth = 0 := ha.classDepth.trans (take_classDepth.trans hs)
      obtain ⟨scan', hw', ha'⟩ := ih hrest hs₁ hc.2
      exact ⟨scan', hw.trans hw', ha'.trans (ha.takeAll before)⟩

end

section
variable {registry : Registry} {source : String} {ts before after : List Located}
  {gs : List Written} {n : Nat}

/-- The groups that open in clear tokens come first. -/
theorem recorded_first (hl : Reads { rest := source.toList } (before ++ after))
    (hg : Groups 0 (before ++ after) gs n) (hc : areClear source.toList before = true) :
    ∃ first, first <+: recorded registry source ∧
      first.map Prod.fst = (openedIn before gs).map Written.index := by
  obtain ⟨scan, hw, ha⟩ := @walk_reads _ {} { rest := source.toList } before after hl rfl hc
  obtain ⟨more, hm⟩ := scanGroups_grows _ scan (behind source.toList before)
  have hr := recorded_indices registry source
  have hm : marks (walk scan (behind source.toList before)) = marks scan ++ more := hm.symm
  rw [hw, hm, outermost_append, ha.marks, outermost_openedIn hg] at hr
  refine ⟨(recorded registry source).take (openedIn before gs).length, List.take_prefix _ _, ?_⟩
  rw [List.map_take, hr, List.take_left']
  rw [List.length_map]

/-- If all tokens are clear there are no others. -/
theorem recorded_all (hl : Reads { rest := source.toList } ts) (hg : Groups 0 ts gs n)
    (hc : meets isClearAt source.toList = true) :
    (recorded registry source).map Prod.fst = gs.map Written.index := by
  obtain ⟨hts, hlast⟩ := areClear_of_meets hl (Nat.lt_succ_self _) hc
  rw [← List.append_nil ts] at hl
  obtain ⟨scan, hw, ha⟩ := @walk_reads _ {} { rest := source.toList } ts [] hl rfl hts
  have hend : walk scan (behind source.toList ts) = scan :=
    walk_passes (passes_of_isPlainUpTo hlast)
  rw [recorded_indices, hw, hend, ha.marks, outermost_groups hg]

end

/-- The arguments of every regular expression, in whatever flags. Those of the outermost groups that
open in clear tokens, up to the first one that is not, come first and carry what these groups have
captured. If all tokens are clear there are no others. -/
theorem match?_carries {registry : Registry} {source : String} {r : Regex}
    (h : Regex.compile source.toList = .ok r) :
    ∃ p ts gs n, RegularPattern.compile registry source = .ok p ∧ p.regex = r ∧
      Reads { rest := source.toList } ts ∧ Groups 0 ts gs n ∧
      (gs.map Written.index).Pairwise (· < ·) ∧ Keeps gs (collect false r) ∧
      ∀ text m, r.find text.toList = some m → ∃ args, p.match? text = some args ∧
        (∀ before after, ts = before ++ after → areClear source.toList before = true →
          ∃ first, first <+: args ∧ Carry text.toList m (openedIn before gs) first) ∧
        (meets isClearAt source.toList = true → Carry text.toList m gs args) := by
  have hp := compile_ok registry h
  have h := (compile_eq_ok.mp h).1
  simp only [parse, tokens, bind_eq_ok] at h
  obtain ⟨tokens, hs, d, hd, hfinish⟩ := h
  obtain ⟨ts, hl, rfl⟩ := scan_reads (Nat.lt_succ_self _) hs
  obtain ⟨houter, rfl⟩ := finish_ok hfinish
  obtain ⟨gs, n, hg⟩ := groups_of_reads hl hd houter
  obtain ⟨-, hgains⟩ := groups_gains hg (reads_leaf hl) rfl hd
  have hkeeps := hgains.keeps ⟨rfl, rfl⟩
  rw [← close_none hgains.index] at hkeeps
  refine ⟨_, ts, gs, n, hp, rfl, hl, hg, (groups_ascend hg).2.2, hkeeps, ?_⟩
  intro text m hm
  refine ⟨(recorded registry source).map fun (index, type) =>
    .ofGroup text.toList m index type, ?_, ?_, ?_⟩
  · rw [RegularPattern.match?, arguments?, hm]
    rfl
  · intro before after hts hc
    subst hts
    obtain ⟨first, hfirst, hi⟩ := recorded_first hl hg hc
    exact ⟨_, hfirst.map _, carry_of_indices hi⟩
  · intro hc
    exact carry_of_indices (recorded_all hl hg hc)

end

def order : String :=
  "(?x) ([0-9]+) \\ # how many\n (?P<what> [^)\\]\\ ]+ ) (?-x: #(a))? # and more"

theorem match?_carries_sample :
    ∃ r p ts gs n m args, Regex.compile order.toList = .ok r ∧
      RegularPattern.compile {} order = .ok p ∧ p.regex = r ∧
      Reads { rest := order.toList } ts ∧ Groups 0 ts gs n ∧ Keeps gs (collect false r) ∧
      r.find "3 cats".toList = some m ∧ p.match? "3 cats" = some args ∧
      Carry "3 cats".toList m gs args := by
  have hfind : ((Regex.compile order.toList).toOption.bind (·.find "3 cats".toList)).isSome =
      true := by decide +kernel
  cases hr : Regex.compile order.toList with
  | error e =>
    rw [hr] at hfind
    contradiction
  | ok r =>
    obtain ⟨p, ts, gs, n, hp, hregex, hl, hg, -, hk, hmatch⟩ := @match?_carries _ {} order r hr
    rw [hr, Except.toOption, Option.bind_some] at hfind
    obtain ⟨m, hm⟩ := Option.isSome_iff_exists.mp hfind
    obtain ⟨args, hargs, -, hall⟩ := hmatch "3 cats" m hm
    exact ⟨r, p, ts, gs, n, m, args, rfl, hp, hregex, hl, hg, hk, hm, hargs,
      hall (by decide +kernel)⟩

/-- A range that ends with a bracket hides the group after it, and a parenthesis in a comment takes
the place of two groups. The arguments come with the outermost groups of the expression. -/
theorem brackets_mislead :
    ((RegularPattern.compile {} "[+-[](b)").toOption.bind fun p => (p.match? "+b").map fun args =>
      (args.map fun arg => (arg.raw, arg.start), (collect false p.regex).map Prod.fst)) =
        some ([], [1]) ∧
    ((RegularPattern.compile {} "(?x)# (\n(a)(b)").toOption.bind fun p =>
      (p.match? "ab").map fun args =>
        (args.map fun arg => (arg.raw, arg.start), (collect false p.regex).map Prod.fst)) =
          some ([("a", some 0)], [1, 2]) := by
  decide +kernel

end Brine.Proofs.ClearPatterns
