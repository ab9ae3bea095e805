import Brine.Proofs.PatternWalks

namespace Brine.Proofs.PatternNesting
open Regex Text Success PatternReaders PatternTokens PatternRuns PatternGroups PatternPrefixes
open PatternWalks

variable {s s' : Scanner} {t : Token} {ts us : List Token} {ready : Bool} {g g' b₀ : Flags}
variable {x y m n r tail : List Char} {v : Bool}

theorem skip_char {c : Char} (hb : isBlank c = false) (hc : c ≠ '#') :
    skip v (c :: m) = c :: m := by
  cases v with
  | false => rfl
  | true => simp [skip, skipIgnored, hb, hc]

theorem counts_closing {low : Nat} {high : Option Nat} (h : counts v m = .ok (low, high, r)) :
    '\x7d' :: r <:+ skip v m := by
  have hclose {low low' : Nat} {high high' : Option Nat} {m : List Char}
      (h : closeCounts low high m = .ok (low', high', r)) : '\x7d' :: r <:+ m :=
    closeCounts_closing h ▸ List.suffix_refl _
  have hs := count_suffix v (skip v m)
  unfold counts at h
  dsimp only at h
  split at h
  · simp only [bind_eq_ok] at h
    obtain ⟨_, _, h⟩ := h
    exact (hclose h).trans hs
  · rename_i heq
    simp only [bind_eq_ok, Prod.exists] at h
    obtain ⟨_, _, _, r₁, hu, h⟩ := h
    rw [heq] at hs
    exact (((hclose h).trans (upperCount_suffix hu)).trans (List.suffix_cons _ _)).trans hs
  · contradiction

/-- A token after which no group is open has opened none. -/
theorem not_opening {f : Flags} (h : (s.after t f r).outer = []) :
    (∀ name, t ≠ .openCapture name) ∧ t ≠ .openPlain := by
  have hlen := congrArg List.length h
  rw [after_outer] at hlen
  constructor
  · rintro name rfl
    contradiction
  · rintro rfl
    contradiction

section
variable {p : Primitive} {k : Nat} {digits extra : List Char} {f f' f₁ : Flags} {t₁ : Token}

theorem skip_cons_append {c : Char} (h : skip v m = c :: r) (extra : List Char) :
    skip v (m ++ extra) = c :: (r ++ extra) := by
  rw [skip_append (h ▸ List.cons_ne_nil _ _), h, List.cons_append]

/-- What is left of so many characters, whatever comes behind them. -/
theorem runOf_full (h : runOf v (fun _ => true) k m = (digits, r)) (hk : k ≤ digits.length)
    (hpos : 0 < k) : ∃ y d m', m = y ++ d :: m' ∧ d ∈ digits ∧ r = skip v m' ∧
      ∀ extra, runOf v (fun _ => true) k (m ++ extra) = (digits, skip v (m' ++ extra)) := by
  have hzero (cs : List Char) : runOf v (fun _ => true) 0 cs = ([], cs) := by cases cs <;> rfl
  have hcons (k : Nat) (c : Char) (cs : List Char) :
      runOf v (fun _ => true) (k + 1) (c :: cs) =
        (c :: (runOf v (fun _ => true) k (skip v cs)).1,
          (runOf v (fun _ => true) k (skip v cs)).2) := rfl
  induction k generalizing m digits with
  | zero => contradiction
  | succ k ih =>
    cases m with
    | nil =>
      cases h
      contradiction
    | cons c m =>
      obtain ⟨rfl, hr⟩ := Prod.mk.inj h
      cases k with
      | zero =>
        rw [hzero] at hr
        refine ⟨[], c, m, rfl, by simp, hr.symm, fun extra => ?_⟩
        rw [List.cons_append, hcons, hzero, hzero]
      | succ k =>
        have hlen : k + 1 ≤ (runOf v (fun _ => true) (k + 1) (skip v m)).1.length :=
          Nat.le_of_succ_le_succ hk
        obtain ⟨y, d, m', hm, hd, hskip, hextra⟩ := ih (Prod.ext rfl hr) hlen (Nat.succ_pos k)
        obtain ⟨pre, hpre⟩ := skip_suffix v m
        have hne : skip v m ≠ [] := by simp [hm]
        refine ⟨c :: pre ++ y, d, m', ?_, List.mem_cons_of_mem c hd, hskip, fun extra => ?_⟩
        · rw [← hpre, hm, List.cons_append, List.cons_append, List.append_assoc]
        · rw [List.cons_append, hcons, skip_append hne, hextra]

theorem braced_whole {text : List Char} (h : braced v m = .ok (text, r)) (extra : List Char) :
    braced v (m ++ extra) = .ok (text, r ++ extra) := by
  have hd := braced_eq_ok.mp h
  have hm : skip v m ≠ [] := by
    intro hnil
    rw [hnil] at hd
    simp [runOf] at hd
  obtain ⟨n₁, hn₁, ha⟩ := runOf_alike_all (alike_nil hm extra) (skip_suffix v m).length_le
    (skip_append hm extra ▸ (skip_suffix v _).length_le) hd (by simp)
  rw [← List.append_nil ('\x7d' :: r)] at ha
  obtain rfl := ha.eq
  rw [← skip_append hm] at hn₁
  exact braced_eq_ok.mpr hn₁

/-- More text behind a character by number changes nothing about it, and a comment behind it goes
on. -/
theorem hexEscape_whole (h : hexEscape v k m = .ok (p, r)) (hk : 0 < k) :
    ∃ y d m', m = y ++ d :: m' ∧ d ≠ '\\' ∧ r = skip v m' ∧
      ∀ extra, hexEscape v k (m ++ extra) = .ok (p, skip v (m' ++ extra)) := by
  -- Digits in braces end at the closing brace, others at their number.
  cases hexEscape_iff.mp h with
  | @braced tail digits rest p hs hd hne hp =>
    have hclosing := ((braced_closing hd).trans (List.suffix_cons _ _)).trans (hs ▸ skip_suffix v m)
    obtain ⟨y, hy⟩ := hclosing
    refine ⟨y, _, rest, hy.symm, by decide, rfl, fun extra => ?_⟩
    exact hexEscape_iff.mpr (.braced (skip_cons_append hs extra) (braced_whole hd extra) hne hp)
  | @counted digits r p hs hd hl hp =>
    obtain ⟨y, d, m', hm, hmem, hr, hextra⟩ := runOf_full hd hl hk
    obtain ⟨pre, hpre⟩ := skip_suffix v m
    have hd : d ≠ '\\' := by
      rintro rfl
      exact hexChar_digits hp _ hmem (by decide)
    refine ⟨pre ++ y, d, m', by rw [← hpre, hm, List.append_assoc], hd, hr, fun extra => ?_⟩
    have hskip : skip v m ≠ [] := by simp [hm]
    refine hexEscape_iff.mpr (.counted ?_ (skip_append hskip extra ▸ hextra extra) hl hp)
    intro tail heq
    obtain ⟨e, more, hm⟩ := List.exists_cons_of_ne_nil hskip
    rw [skip_append hskip, hm, List.cons_append] at heq
    obtain ⟨rfl, -⟩ := List.cons.inj heq
    exact hs more hm

theorem propertyText_whole {text : List Char} (h : propertyText v m = .ok (text, r))
    (extra : List Char) : propertyText v (m ++ extra) = .ok (text, r ++ extra) := by
  cases propertyText_iff.mp h with
  | braced hs hb =>
    exact propertyText_iff.mpr (.braced (skip_cons_append hs extra) (braced_whole hb extra))
  | letter hs hne => exact propertyText_iff.mpr (.letter (skip_cons_append hs extra) hne)

theorem boundary_whole {e : WordEdge} (h : boundary f m = .ok (e, [])) (he : Ends extra) :
    boundary f (m ++ extra) = .ok (e, extra) := by
  cases boundary_iff.mp h with
  | named hs hc hd hedge =>
    have hskip := skip_cons_append hs extra
    obtain ⟨n₁, hn₁, ha⟩ := runOf_alike_all (alike_nil (List.cons_ne_nil _ _) extra)
      (hs ▸ (skip_suffix _ _).length_le) (hskip ▸ (skip_suffix _ _).length_le) hd (by simp)
    obtain rfl := Alike.eq (u := ['\x7d']) ha
    exact boundary_iff.mpr (.named hskip hc hn₁ hedge)
  | bare => exact boundary_iff.mpr (.bare he.2)

/-- A change of flags is read alike whatever comes behind. -/
theorem opening_whole (h : opening f m = .ok (t, f', []))
    (ho : (∀ name, t ≠ .openCapture name) ∧ t ≠ .openPlain) (extra : List Char) :
    opening f (m ++ extra) = .ok (t, f', extra) := by
  obtain ⟨eaten, hs, hopens, -, hopen⟩ := opening_ok h
  cases hopens with
  | flags hl =>
    refine hopen _ _ ?_ (by simp)
    rw [List.append_nil] at hs
    rw [skip_append (hs ▸ List.cons_ne_nil _ _), hs]
  | bare => exact absurd rfl (ho.1 _)
  | named => exact absurd rfl (ho.1 _)
  | plain => exact absurd rfl ho.2

/-- A repetition in braces at the end of a text is greedy or lazy as it is in front of other text,
whatever comments there are between. -/
theorem quantified_whole {low : Nat} {high : Option Nat}
    (h : quantified f low high (skip v m) = .ok (t, f', []))
    (h' : quantified f low high (skip v (m ++ extra)) = .ok (t₁, f₁, extra)) :
    t₁ = t ∧ f₁ = f' := by
  by_cases hs : skip v m = []
  · -- A question mark behind a comment would be one of the other text.
    rw [hs] at h
    cases h
    have hle := (skip_swallowed hs extra).length_le
    unfold quantified at h'
    split at h'
    · rename_i heq
      cases h'
      rw [heq, List.length_cons] at hle
      omega
    · simp only [Except.ok.injEq, Prod.mk.injEq] at h'
      exact ⟨h'.1.symm, h'.2.1.symm⟩
  · rw [skip_append hs] at h'
    obtain ⟨c, more, hm⟩ := List.exists_cons_of_ne_nil hs
    rw [hm] at h h'
    unfold quantified at h h'
    split at h
    · rename_i heq
      obtain ⟨rfl, rfl⟩ := List.cons.inj heq
      cases h
      cases h'
      exact ⟨rfl, rfl⟩
    · cases h

end

/-- Where the scanner stands when a pattern is a part of a larger one: there are open groups around
it, and more text behind. -/
def around (s : Scanner) (base : List Flags) (extra : List Char) : Scanner :=
  ⟨s.flags, s.outer ++ base, s.rest ++ extra⟩

theorem after_around {f' : Flags} {base : List Flags} {extra : List Char}
    (hc : t = .close → s.outer ≠ []) :
    (around s base extra).after t f' (r ++ extra) = around (s.after t f' r) base extra := by
  cases t with
  | close =>
    obtain ⟨f, outer, ho⟩ := List.exists_cons_of_ne_nil (hc rfl)
    simp [around, Scanner.after, ho]
  | _ => rfl

theorem Fits.around {base : List Flags} (h : Fits ready s.outer t) :
    Fits ready (s.outer ++ base) t := by
  cases t with
  | close =>
    intro hnil
    exact h (List.append_eq_nil_iff.mp hnil).1
  | _ => exact h

variable [Engine]

theorem taken_atom {f f' : Flags} {c : Char} {a : Regex} (h : Taken f c m (.atom a) f' r) :
    f' = f := by
  cases h with
  | opening h => obtain ⟨⟨_, ht⟩ | ht | ht, -⟩ := opening_suffix h <;> cases ht
  | counted _ hq | sign _ _ hq =>
    obtain ⟨_, ht⟩ := quantified_token hq
    cases ht
  | _ => rfl

/-- A brace that comes next starts a repetition, which has to be closed. -/
theorem balanced_brace (h : Balanced s ready ts g) (hr : s.rest = '\x7b' :: tail) :
    '\x7d' ∈ skip s.flags.verbose tail := by
  have hskip : skip s.flags.verbose s.rest = '\x7b' :: tail := by
    rw [hr]
    exact skip_char (by decide) (by decide)
  cases h with
  | nil hs =>
    rw [next_eq_none, hskip] at hs
    contradiction
  | cons hs =>
    obtain ⟨c, cs, f', rest, hc, ht, -⟩ := next_iff.mp hs
    obtain ⟨rfl, rfl⟩ := List.cons.inj (hskip.symm.trans hc)
    cases ht with
    | counted hcounts => exact (counts_closing hcounts).subset List.mem_cons_self
    | sign hm => contradiction
    | char hm => contradiction

/-- Without a closing parenthesis no group is closed. -/
theorem outer_nil (h : Balanced s ready ts g) (hn : ')' ∉ skip s.flags.verbose s.rest) :
    s.outer = [] := by
  induction h with
  | nil _ ho => exact ho
  | @cons s s₁ ready t ts g hs hf _ ih =>
    obtain ⟨c, cs, f', rest, hc, ht, rfl⟩ := next_iff.mp hs
    rw [hc] at hn
    have hrest : ')' ∉ skip (s.after t f' rest).flags.verbose (s.after t f' rest).rest := by
      rw [length_after]
      intro hm
      exact hn (List.mem_cons_of_mem _ (ht.suffix.subset ((skip_suffix _ _).subset hm)))
    have ho := congrArg List.length (ih hrest)
    rw [after_outer] at ho
    cases t with
    | close =>
      obtain ⟨rfl, -⟩ := taken_close ht
      exact absurd List.mem_cons_self hn
    | openCapture | openPlain => contradiction
    | _ => exact List.eq_nil_of_length_eq_zero ho

theorem balanced_end (h : Balanced s ready ts g) (hr : s.rest = []) :
    ts = [] ∧ s.outer = [] ∧ g = s.flags := by
  cases h with
  | nil _ ho => exact ⟨rfl, ho, rfl⟩
  | cons hs =>
    obtain ⟨c, cs, _, _, hcs, -⟩ := next_iff.mp hs
    have hsuffix := skip_suffix s.flags.verbose s.rest
    rw [hcs, hr] at hsuffix
    simp at hsuffix

section
variable {p : Primitive} {extra : List Char} {f f' f₁ : Flags} {c : Char} {cs : List Char}
  {t₁ : Token}

/-- An escape at the end of a text leaves the text behind it, or what a comment behind it leaves of
that. -/
theorem escape_whole (h : escape f m = .ok (p, [])) (he : Ends extra) :
    ∃ r', escape f (m ++ extra) = .ok (p, r') ∧ (r' = extra ∨ ∃ y d m', m = y ++ d :: m' ∧
      d ≠ '\\' ∧ skip f.verbose m' = [] ∧ r' = skip f.verbose (m' ++ extra)) := by
  cases m with
  | nil => contradiction
  | cons c m =>
    cases escape_iff.mp h with
    | hex hn h =>
      obtain ⟨y, d, m', rfl, hd, hr, hextra⟩ := hexEscape_whole h (hexLength?_pos hn)
      exact ⟨_, escape_iff.mpr (.hex hn (hextra extra)),
        .inr ⟨c :: y, d, m', rfl, hd, hr.symm, rfl⟩⟩
    | edge hb => exact ⟨_, escape_iff.mpr (.edge (boundary_whole hb he)), .inl rfl⟩
    | property hn ht hs =>
      exact ⟨_, escape_iff.mpr (.property hn (propertyText_whole ht extra) hs), .inl rfl⟩
    | char hn hb hp hc => exact ⟨_, escape_iff.mpr (.char hn hb hp hc), .inl rfl⟩

/-- The last token of a text is what it is in front of other text, if it takes nothing of that. -/
theorem taken_whole (h : Taken f c cs t f' [])
    (ho : (∀ name, t ≠ .openCapture name) ∧ t ≠ .openPlain) (he : Ends extra)
    (h' : Taken f c (cs ++ extra) t₁ f₁ extra) : t₁ = t ∧ f₁ = f' := by
  have hsame {r' : List Char} (hr : Taken f c (cs ++ extra) t f' r') : t₁ = t ∧ f₁ = f' := by
    obtain ⟨ht, hf, -⟩ := taken_unique hr h'
    exact ⟨ht, hf⟩
  cases h with
  | opening h => exact hsame (.opening (opening_whole h ho extra))
  | close => exact hsame .close
  | bar => exact hsame .bar
  | bracketed h =>
    have hcs : cs ≠ [] := List.ne_nil_of_mem ((bracketed_closing h).subset List.mem_cons_self)
    obtain ⟨r', hr', -⟩ := bracketed_ended (alike_nil hcs extra) h (Nat.zero_le _)
    exact hsame (.bracketed hr')
  | counted hc hq =>
    have hclosing := (counts_closing hc).trans (skip_suffix _ _)
    have hcs : cs ≠ [] := List.ne_nil_of_mem (hclosing.subset List.mem_cons_self)
    obtain ⟨_, hr', u, rfl, rfl⟩ := counts_ended (alike_nil hcs extra) hc (Nat.zero_le _)
    have hq' := token_ok.mpr h'
    simp only [token, hr', ok_bind] at hq'
    exact quantified_whole (List.append_nil u ▸ hq) hq'
  | escaped h hr =>
    obtain ⟨r', hr', -⟩ := escape_whole h he
    exact hsame (.escaped hr' hr)
  | sign hm hs hq => exact hsame (.sign hm hs (quantified_append he hq))
  | char hm hs hr => exact hsame (.char hm hs hr)

end

/-- A token that is not the last one is read alike in the larger pattern. -/
theorem next_around (hs : s.next = .ok (some (t, s'))) (hc : t = .close → s.outer ≠ [])
    (hb : Balanced s' ready ts g) (hr : s'.rest ≠ []) (base : List Flags) (extra : List Char) :
    (around s base extra).next = .ok (some (t, around s' base extra)) := by
  obtain ⟨c, cs, f', rest, hskip, ht, rfl⟩ := next_iff.mp hs
  rw [length_after] at hr
  have hlong := List.length_pos_of_ne_nil hr
  have hcs : cs ≠ [] := List.ne_nil_of_length_pos (Nat.lt_of_lt_of_le hlong ht.suffix.length_le)
  have ha := alike_nil hcs extra
  have hlook (l : Look) (tail : List Char) (hl : t = .atom (.look l))
      (hrest : rest = '\x7b' :: tail) : 0 < (skip s.flags.verbose tail).length := by
    subst hl
    obtain rfl := taken_atom ht
    have hmem := balanced_brace hb (length_after.trans hrest)
    exact List.length_pos_of_mem hmem
  obtain ⟨r', ht', ha'⟩ := taken_alike ha ht hlong hlook
  rw [← List.append_nil rest] at ha'
  obtain rfl := ha'.eq
  exact next_iff.mpr ⟨c, cs ++ extra, f', rest ++ extra, skip_cons_append hskip extra, ht',
    (after_around hc).symm⟩

/-- The parenthesis behind a pattern that has been read to its end closes the group around it. -/
theorem close_at_end (hc : ')' ∉ tail) (hs : skip s.flags.verbose s.rest = []) (ho : s.outer = [])
    (h : Balanced (around s [b₀] (')' :: tail)) ready ts g) (b : Flags) (base : List Flags)
    (rest : List Char) :
    Walk (around s (b :: base) (')' :: rest)) ready [.close] ⟨b, base, rest⟩ true := by
  have hopen : (around s [b₀] (')' :: tail)).outer ≠ [] := by simp [around]
  -- The parenthesis is not part of a comment, or the group would never be closed.
  have hskip : skip s.flags.verbose (s.rest ++ ')' :: tail) = ')' :: tail := by
    rcases List.suffix_cons_iff.mp (skip_swallowed hs (')' :: tail)) with he | he
    · exact he
    · exact absurd (outer_nil h fun hm => hc (he.subset hm)) hopen
  have hnext : skip s.flags.verbose (s.rest ++ ')' :: rest) = ')' :: rest := by
    have ha : Alike tail rest (s.rest ++ ')' :: tail) (s.rest ++ ')' :: rest) := by
      simpa using alike_append (x := tail) (y := rest) (u := s.rest ++ [')']) (by simp)
    have ha := skip_alike (v := s.flags.verbose) ha (by rw [hskip]; simp)
    rw [hskip] at ha
    exact Alike.eq (u := [')']) ha
  have hclose : (around s (b :: base) (')' :: rest)).next = .ok (some (.close, ⟨b, base, rest⟩)) :=
    next_iff.mpr ⟨_, _, _, _, hnext, .close, by simp [around, Scanner.after, ho]⟩
  exact .cons hclose (by simp [Fits, around]) .nil

section
variable {c : Char} {cs : List Char} {f f' : Flags}

/-- The last token of a pattern takes nothing of the parenthesis that closes a group behind it. -/
theorem last_taken (hc : ')' ∉ tail) (hbrace : '\x7d' ∉ tail) {f₀ : Flags} {t₀ : Token}
    (ht₀ : Taken s.flags c cs t₀ f₀ [])
    (ht : Taken s.flags c (cs ++ ')' :: tail) t f' r)
    (h : Balanced ((around s [b₀] (')' :: tail)).after t f' r) ready ts g) : r = ')' :: tail := by
  -- A token that stops earlier would do so without the parenthesis as well.
  have hle : r.length ≤ (')' :: tail).length := by
    apply Nat.le_of_not_lt
    intro hlong
    have hcs : cs ≠ [] := by
      rintro rfl
      have := ht.suffix.length_le
      simp at this hlong
      omega
    have hlook (l : Look) (more : List Char) (hl : t = .atom (.look l))
        (hr : r = '\x7b' :: more) :
        (')' :: tail).length < (skip s.flags.verbose more).length := by
      subst hl
      have hf := taken_atom ht
      subst hr
      have hmem : '\x7d' ∈ skip s.flags.verbose more := hf ▸ balanced_brace h rfl
      apply Nat.lt_of_not_le
      intro hle
      have hmore : skip s.flags.verbose more <:+ cs ++ ')' :: tail :=
        ((skip_suffix _ _).trans (List.suffix_cons _ _)).trans ht.suffix
      have hin := List.suffix_of_suffix_length_le hmore (List.suffix_append _ _) hle
      have := hin.subset hmem
      simp [hbrace] at this
    obtain ⟨r', ht', u, hu, -, rfl⟩ := taken_alike (alike_append (y := []) hcs) ht hlong hlook
    rw [List.append_nil] at ht'
    have hnil := (taken_unique ht₀ ht').2.2
    exact hu (List.append_eq_nil_iff.mp hnil).1
  have hs := List.suffix_of_suffix_length_le ht.suffix (List.suffix_append _ _) hle
  rcases List.suffix_cons_iff.mp hs with he | he
  · exact he
  · -- One that takes the parenthesis leaves none to close the group.
    exfalso
    have hrest : ((around s [b₀] (')' :: tail)).after t f' r).rest = r := length_after
    have hout := congrArg List.length
      (outer_nil h fun hm => hc (he.subset (hrest ▸ (skip_suffix _ _).subset hm)))
    rw [after_outer] at hout
    have hlen : (around s [b₀] (')' :: tail)).outer.length = s.outer.length + 1 := by
      simp [around]
    cases t with
    | close =>
      obtain ⟨-, rfl⟩ := taken_close ht
      have := he.length_le
      simp at this
      omega
    | openCapture | openPlain => contradiction
    | _ =>
      rw [hlen] at hout
      contradiction

end

/-- The last token of a pattern is what it is in a group, and the parenthesis behind it closes the
group. -/
theorem last_token (hc : ')' ∉ tail) (hbrace : '\x7d' ∉ tail) (hs : s.next = .ok (some (t, s')))
    (hf : Fits ready s.outer t) (hr : s'.rest = []) (ho : s'.outer = [])
    (h : Balanced (around s [b₀] (')' :: tail)) ready ts g) (b : Flags) (base : List Flags)
    (rest : List Char) :
    Walk (around s (b :: base) (')' :: rest)) ready [t, .close] ⟨b, base, rest⟩ true := by
  obtain ⟨c, cs, f', r, hcs, ht, rfl⟩ := next_iff.mp hs
  obtain rfl : r = [] := length_after.symm.trans hr
  have hskip := skip_cons_append hcs
  cases h with
  | nil hnone =>
    have hnone := next_eq_none.mp hnone
    rw [around, hskip] at hnone
    contradiction
  | @cons _ s₂ _ t₂ ts₂ _ hs₂ hf₂ hb₂ =>
    obtain ⟨c₂, cs₂, f₂, r₂, hcs₂, ht₂, rfl⟩ := next_iff.mp hs₂
    obtain ⟨rfl, rfl⟩ := List.cons.inj ((hskip (')' :: tail)).symm.trans hcs₂)
    obtain rfl := last_taken hc hbrace ht ht₂ hb₂
    obtain ⟨rfl, rfl⟩ := taken_whole ht (not_opening ho) (by simp [Ends]) ht₂
    -- What is behind the token is what is behind the pattern.
    have hafter (base : List Flags) (extra : List Char) :
        (around s base extra).after t₂ f₂ extra = around (s.after t₂ f₂ []) base extra :=
      after_around (r := []) (fits_close hf)
    rw [hafter] at hb₂
    have hend : skip (s.after t₂ f₂ []).flags.verbose (s.after t₂ f₂ []).rest = [] := by
      rw [length_after]
      exact List.suffix_nil.mp (skip_suffix _ [])
    have ha : Alike tail rest (cs ++ ')' :: tail) (cs ++ ')' :: rest) := by
      simpa using alike_append (x := tail) (y := rest) (u := cs ++ [')']) (by simp)
    obtain ⟨r', ht', ha'⟩ := taken_alike ha ht₂ (by simp) (fun l more _ he => by simp at he)
    obtain rfl : r' = ')' :: rest := Alike.eq (u := [')']) ha'
    refine .cons (next_iff.mpr ⟨_, _, _, _, hskip _, ht', rfl⟩) (Fits.around hf) ?_
    rw [hafter]
    exact close_at_end hc hend ho hb₂ b base rest

/-- A pattern that can be read alone, and so that a parenthesis behind it closes a group, has the
same tokens inside of any group. -/
theorem walk_group (hc : ')' ∉ tail) (hbrace : '\x7d' ∉ tail) (h : Balanced s ready ts g)
    (h' : Balanced (around s [b₀] (')' :: tail)) ready us g') (b : Flags) (base : List Flags)
    (rest : List Char) :
    Walk (around s (b :: base) (')' :: rest)) ready (ts ++ [.close]) ⟨b, base, rest⟩ true := by
  induction h generalizing us with
  | nil hs ho => exact close_at_end hc (next_eq_none.mp hs) ho h' b base rest
  | @cons s s₁ ready t ts g hs hf hb ih =>
    by_cases hr : s₁.rest = []
    · obtain ⟨rfl, ho, -⟩ := balanced_end hb hr
      exact last_token hc hbrace hs hf hr ho h' b base rest
    · have hnext := next_around hs (fits_close hf) hb hr
      cases h' with
      | nil hnone =>
        rw [hnext] at hnone
        cases hnone
      | cons hs' hf' hb' =>
        rw [hnext] at hs'
        cases hs'
        exact .cons (hnext _ _) (Fits.around hf) (ih hb')

/-- The last token of a text is read alike in front of other text, if it leaves the verbose flag off
or closes a group. -/
theorem taken_last {c : Char} {cs extra : List Char} {f f' : Flags} (h : Taken f c cs t f' [])
    (hv : t ≠ .close → f'.verbose = false)
    (ho : (∀ name, t ≠ .openCapture name) ∧ t ≠ .openPlain) (he : Ends extra) :
    Taken f c (cs ++ extra) t f' extra := by
  cases hf : f.verbose with
  | false =>
    have ha := h.append hf he
    simpa using ha
  | true =>
    have hsame (hs : f' = f) (hc : t ≠ .close) : Taken f c (cs ++ extra) t f' extra := by
      have hoff := hv hc
      rw [hs, hf] at hoff
      contradiction
    cases h with
    | opening h => exact .opening (opening_whole h ho extra)
    | close => exact .close
    | counted _ hq | sign _ _ hq =>
      obtain ⟨_, rfl⟩ := quantified_token hq
      exact hsame (quantified_flags hq) (by simp)
    | bar | bracketed | escaped | char => exact hsame rfl (by simp)

/-- A pattern that leaves the verbose flag off can be read as a branch in front of others. -/
theorem walk_branch (h : Balanced s ready ts g) (hv : g.verbose = false) (base : List Flags)
    (rest : List Char) :
    Walk (around s base ('|' :: rest)) ready (ts ++ [.bar]) ⟨g, base, rest⟩ false := by
  induction h with
  | @nil s ready hs ho =>
    have hrest : s.rest = [] := next_none hv hs
    have hbar : (around s base ('|' :: rest)).next = .ok (some (.bar, ⟨s.flags, base, rest⟩)) := by
      refine next_iff.mpr ⟨'|', rest, s.flags, rest, ?_, .bar, by simp [around, ho, Scanner.after]⟩
      simp [around, hrest, hv]
    exact .cons hbar trivial .nil
  | @cons s s₁ ready t ts g hs hf hb ih =>
    refine .cons ?_ (Fits.around hf) (ih hv)
    by_cases hr : s₁.rest = []
    · obtain ⟨c, cs, f', r, hcs, ht, rfl⟩ := next_iff.mp hs
      obtain rfl : r = [] := length_after.symm.trans hr
      obtain ⟨-, ho, rfl⟩ := balanced_end hb hr
      have hoff : t ≠ .close → f'.verbose = false := by
        intro hne
        cases t with
        | close => contradiction
        | _ => exact hv
      have ht' : Taken s.flags c (cs ++ '|' :: rest) t f' ('|' :: rest) :=
        taken_last ht hoff (not_opening ho) (by simp [Ends])
      exact next_iff.mpr ⟨_, _, _, _, skip_cons_append hcs _, ht',
        (after_around (fits_close hf)).symm⟩
    · exact next_around hs (fits_close hf) hb hr _ _

/-- What holds wherever the scanner comes holds at the end. -/
theorem balanced_meets {p : Scanner → Bool} {k : Nat} (h : Balanced s ready ts g)
    (hk : s.rest.length < k) (hp : meetsFor p k s = true) :
    ∃ e : Scanner, e.next = .ok none ∧ e.flags = g ∧ p e = true := by
  induction h generalizing k with
  | nil hs _ => exact ⟨_, hs, rfl, meetsFor_here hp⟩
  | cons hs _ _ ih =>
    obtain ⟨k, rfl⟩ : ∃ j, k = j + 1 := ⟨k - 1, by omega⟩
    have hlen := next_length hs
    exact ih (by omega) (meetsFor_next hp hs)

def isPlainAtEnd (s : Scanner) : Bool :=
  !(skip s.flags.verbose s.rest).isEmpty || (!s.flags.verbose && s.flags.unicode)

/-- Whether a pattern leaves the verbose flag off and Unicode mode on at its end. -/
def endsPlain (pattern : List Char) : Bool :=
  meets isPlainAtEnd pattern

theorem balanced_plain {pattern : List Char} (h : Balanced { rest := pattern } ready ts g)
    (hp : endsPlain pattern = true) : g.verbose = false ∧ g.unicode = true := by
  have hp : meetsFor isPlainAtEnd (pattern.length + 1) { rest := pattern } = true := hp
  obtain ⟨e, he, rfl, hplain⟩ := balanced_meets h (Nat.lt_succ_self _) hp
  simpa [isPlainAtEnd, next_eq_none.mp he] using hplain

def isUnflaggedAtEnd (s : Scanner) : Bool :=
  !(skip s.flags.verbose s.rest).isEmpty || s.flags = {}

/-- Whether a pattern leaves the flags at its end as they were at its start. -/
def keepsFlags (pattern : List Char) : Bool :=
  meets isUnflaggedAtEnd pattern

theorem balanced_unflagged {pattern : List Char} (h : Balanced { rest := pattern } ready ts g)
    (hp : keepsFlags pattern = true) : g = {} := by
  have hp : meetsFor isUnflaggedAtEnd (pattern.length + 1) { rest := pattern } = true := hp
  obtain ⟨e, he, rfl, hflags⟩ := balanced_meets h (Nat.lt_succ_self _) hp
  simpa [isUnflaggedAtEnd, next_eq_none.mp he] using hflags

/-- Patterns with bars between them, each but the last of which keeps the flags, have the same
tokens inside of a group as they have alone. -/
theorem walk_bars {ps : List (List Char)} {tss : List (List Token)}
    (h : List.Forall₂ (fun p ts => ∃ g, Balanced { rest := p } false ts g) ps tss) (hne : ps ≠ [])
    (hkeep : ∀ p ∈ ps.dropLast, keepsFlags p = true) (hc : ')' ∉ tail) (hbrace : '\x7d' ∉ tail)
    (h' : Balanced ⟨{}, [b₀], List.intercalate ['|'] ps ++ ')' :: tail⟩ false us g) (b : Flags)
    (base : List Flags) (rest : List Char) :
    Walk ⟨{}, b :: base, List.intercalate ['|'] ps ++ ')' :: rest⟩ false
      (List.intercalate [.bar] tss ++ [.close]) ⟨b, base, rest⟩ true := by
  induction h generalizing us with
  | nil => contradiction
  | @cons p ts ps tss hp hps ih =>
    obtain ⟨g₁, hp⟩ := hp
    cases hps with
    | nil =>
      simp only [List.intercalate_singleton] at h' ⊢
      exact walk_group hc hbrace hp h' b base rest
    | cons hq hps =>
      obtain rfl := balanced_unflagged hp (hkeep p (by simp))
      simp only [List.intercalate_cons_cons, List.append_assoc, List.singleton_append] at h' ih ⊢
      obtain ⟨us, h'⟩ := (walk_branch hp rfl [b₀] _).remainder h'
      have hwalk := ih (by simp) (fun p hm => hkeep p (by simpa using .inr hm)) h'
      have hbar := walk_branch hp rfl (b :: base)
      simpa [around] using (hbar _).append hwalk

end Brine.Proofs.PatternNesting
