import Brine.Proofs.PatternRuns
import Brine.Proofs.RegexMeaning

namespace Brine.Proofs.PatternEmbedding
open Regex RegexMeaning Success PatternReaders PatternTokens PatternRuns Relation

variable {k : Nat} {r : Regex} {g : OpenGroup} {t : Token} {d d' : Draft}

abbrev shift (k : Nat) : Regex → Regex :=
  reindex (· + k)

theorem matches_shift {b m a : List Char} : Matches (shift k r) b m a ↔ Matches r b m a :=
  matches_reindex (g := (· - k)) fun n => Nat.add_sub_cancel n k

theorem reindex_of_indices_nil {h : Nat → Nat} (hr : r.indices = []) : reindex h r = r := by
  induction r with
  | empty | set _ | look _ => rfl
  | group _ _ _ => simp [indices] at hr
  | cat _ _ ih₁ ih₂ | alt _ _ ih₁ ih₂ =>
    rw [indices, List.append_eq_nil_iff] at hr
    rw [reindex, ih₁ hr.1, ih₂ hr.2]
  | opt _ _ ih | star _ _ ih | plus _ _ ih =>
    rw [indices] at hr
    rw [reindex, ih hr]

theorem reindex_catAll {h : Nat → Nat} (rs : List Regex) :
    reindex h (catAll rs) = catAll (rs.map (reindex h)) := by
  induction rs with
  | nil => rfl
  | cons r rs ih =>
    cases rs with
    | nil => rfl
    | cons r' rs => simpa [catAll, reindex] using ih

theorem reindex_altAll {h : Nat → Nat} (rs : List Regex) :
    reindex h (altAll rs) = altAll (rs.map (reindex h)) := by
  induction rs with
  | nil => rfl
  | cons r rs ih =>
    cases rs with
    | nil => rfl
    | cons r' rs => simpa [altAll, reindex] using ih

theorem reindex_atMost {h : Nat → Nat} {greedy : Bool} (n : Nat) :
    reindex h (atMost greedy r n) = atMost greedy (reindex h r) n := by
  fun_induction atMost greedy r n with
  | case1 => rfl
  | case2 => rfl
  | case3 n ih => rw [reindex, reindex, ih, atMost]

theorem reindex_repeated {h : Nat → Nat} {low : Nat} {high : Option Nat} {greedy : Bool} :
    reindex h (r.repeated low high greedy) = (reindex h r).repeated low high greedy := by
  unfold repeated
  cases high with
  | none =>
    by_cases hl : low = 0
    · simp [hl, reindex]
    · simp [hl, reindex_catAll, reindex]
  | some high =>
    by_cases hh : high ≤ low
    · simp [hh, reindex_catAll]
    · simp [hh, reindex_catAll, reindex_atMost]

def lift (k : Nat) (g : OpenGroup) : OpenGroup where
  index := g.index.map (· + k)
  branches := g.branches.map (shift k)
  pieces := g.pieces.map (Option.map (shift k))

theorem branch_lift : (lift k g).branch = shift k g.branch := by
  rw [OpenGroup.branch, OpenGroup.branch, shift, reindex_catAll]
  have hp : (lift k g).pieces.reverse = g.pieces.reverse.map (Option.map (shift k)) :=
    List.map_reverse.symm
  rw [hp, List.filterMap_map, List.map_filterMap]
  rfl

/-- What a group matches, its branches one after the other. -/
theorem altAll_lift : altAll ((lift k g).branch :: (lift k g).branches).reverse =
    shift k (altAll (g.branch :: g.branches).reverse) := by
  rw [shift, reindex_altAll, List.map_reverse, List.map_cons, branch_lift]
  rfl

theorem close_lift : (lift k g).close = shift k g.close := by
  unfold OpenGroup.close
  rw [altAll_lift]
  cases hi : g.index with
  | none => simp [lift, hi]
  | some i => simp [lift, hi, reindex]

/-- An open group as it lies above `outer`: the lowest one has become the group with the number
`k`. -/
def seat (k : Nat) (outer : List OpenGroup) (g : OpenGroup) : OpenGroup :=
  if outer.isEmpty then { lift k g with index := some k } else lift k g

def seats (k : Nat) (base : List OpenGroup) : List OpenGroup → List OpenGroup
  | [] => base
  | g :: outer => seat k outer g :: seats k base outer

/-- An open group as it lies above `outer` when the lowest one goes on with the group `floor`, after
the branches of that. -/
def onto (floor : OpenGroup) (k : Nat) (outer : List OpenGroup) (g : OpenGroup) : OpenGroup :=
  if outer.isEmpty then
    { lift k g with index := floor.index, branches := (lift k g).branches ++ floor.branches }
  else lift k g

/-- Open groups as they lie on top of others, the lowest one in the place of `floor`. -/
def ontoAll (floor : OpenGroup) (k : Nat) (base : List OpenGroup) : List OpenGroup → List OpenGroup
  | [] => base
  | g :: outer => onto floor k outer g :: ontoAll floor k base outer

section
variable {floor : OpenGroup} {outer : List OpenGroup}

theorem onto_push : onto floor k outer (g.push r) = (onto floor k outer g).push (shift k r) := by
  cases outer <;> rfl

theorem onto_branch : (onto floor k outer g).branch = shift k g.branch := by
  cases outer <;> exact branch_lift

theorem onto_split : onto floor k outer g.split = (onto floor k outer g).split := by
  unfold OpenGroup.split
  rw [onto_branch]
  cases outer <;> rfl

theorem onto_repeatLast {low : Nat} {high : Option Nat} {greedy : Bool}
    {before : List (Option Regex)} (h : g.pieces = some r :: before) :
    (onto floor k outer g).repeatLast low high greedy =
      .ok (onto floor k outer
        { g with pieces := some (r.repeated low high greedy) :: before }) := by
  have hp : (onto floor k outer g).pieces =
      some (shift k r) :: before.map (Option.map (shift k)) := by
    cases outer <;> simp [onto, lift, h]
  unfold OpenGroup.repeatLast
  rw [hp]
  cases outer <;> simp [onto, lift, ← reindex_repeated]

theorem seat_eq_onto : seat k outer g = onto { index := some k } k outer g := by
  cases outer <;> simp [seat, onto]

theorem seats_eq_ontoAll {base : List OpenGroup} :
    seats k base outer = ontoAll { index := some k } k base outer := by
  induction outer with
  | nil => rfl
  | cons g outer ih => rw [seats, ontoAll, seat_eq_onto, ih]

end

def embed (k : Nat) (base : List OpenGroup) (names : List String) (d : Draft) : Draft where
  group := seat k d.outer d.group
  outer := seats k base d.outer
  names := d.names ++ names
  captures := d.captures + k

/-- The draft of a pattern as it goes on in the open group of `D`, which is at the start of a
branch. -/
def resume (D d : Draft) : Draft where
  group := onto D.group D.captures d.outer d.group
  outer := ontoAll D.group D.captures D.outer d.outer
  names := d.names ++ D.names
  captures := d.captures + D.captures

def Portable (names : List String) : Token → Prop
  | .atom r => r.indices = []
  | .openCapture (some name) => name ∉ names
  | _ => True

/-- A token without groups inside it is portable if it can be pushed. -/
theorem portable_of_push {names : List String} (ht : ∀ r, t = .atom r → r.indices = [])
    (hn : names ⊆ d.names) (h : d.push t = .ok d') : Portable names t := by
  cases push_iff.mp h with
  | atom r => exact ht r rfl
  | openCapture name hnew =>
    cases name with
    | none => trivial
    | some name => exact fun hm => hnew name rfl (hn hm)
  | _ => trivial

/-- What a token does to the draft of a pattern alone, it does where the pattern goes on in an open
group. -/
theorem push_resume {D : Draft} (ht : Portable D.names t) (h : d.push t = .ok d') :
    (resume D d).push t = .ok (resume D d') := by
  cases push_iff.mp h with
  | atom r => simp [resume, Draft.push, onto_push, reindex_of_indices_nil ht]
  | flags => cases ho : d.outer <;> simp [resume, Draft.push, onto, lift, ho]
  | bar => simp [resume, Draft.push, onto_split]
  | quantifier hp => simp [resume, Draft.push, onto_repeatLast hp]
  | openPlain => simp [resume, Draft.push, onto, ontoAll, lift]
  | openCapture name hnew =>
    cases name with
    | none => simp [resume, Draft.push, Draft.addName, onto, ontoAll, lift, Nat.add_right_comm]
    | some name =>
      have hd : name ∉ d.names := hnew name rfl
      have hD : name ∉ D.names := ht
      simp [resume, Draft.push, Draft.addName, onto, ontoAll, lift, Nat.add_right_comm, hd, hD]
  | @close parent outer ho =>
    have hc : (onto D.group D.captures (parent :: outer) d.group).close =
        shift D.captures d.group.close := close_lift
    simp [resume, Draft.push, ontoAll, ho, onto_push, hc]

theorem embed_eq_resume {base : List OpenGroup} {names : List String} :
    embed k base names d = resume ⟨{ index := some k }, base, names, k⟩ d := by
  rw [embed, resume, seat_eq_onto, seats_eq_ontoAll]

theorem push_embed {base : List OpenGroup} {names : List String} (ht : Portable names t)
    (h : d.push t = .ok d') : (embed k base names d).push t = .ok (embed k base names d') := by
  rw [embed_eq_resume, embed_eq_resume]
  exact push_resume ht h

def Level (p : Reading) : Prop :=
  p.scanner.outer.length = p.draft.outer.length

/-- What a token does to the open groups. -/
theorem push_groups (h : d.push t = .ok d') :
    match t with
    | .openPlain | .openCapture _ => d'.outer = d.group :: d.outer
    | .close => ∃ parent, d.outer = parent :: d'.outer ∧ d'.group.index = parent.index
    | _ => d'.outer = d.outer ∧ d'.group.index = d.group.index := by
  cases push_iff.mp h with
  | atom | flags | bar | quantifier => exact ⟨rfl, rfl⟩
  | openPlain | openCapture => rfl
  | close ho => exact ⟨_, ho, rfl⟩

def lowest (g : OpenGroup) : List OpenGroup → OpenGroup
  | [] => g
  | g' :: outer => lowest g' outer

theorem lowest_index {g' : OpenGroup} (h : g'.index = g.index) (outer : List OpenGroup) :
    (lowest g' outer).index = (lowest g outer).index := by
  cases outer with
  | nil => exact h
  | cons _ _ => rfl

/-- The lowest group stands for the whole pattern and does not capture. -/
theorem push_lowest (h : d.push t = .ok d') (hd : (lowest d.group d.outer).index = none) :
    (lowest d'.group d'.outer).index = none := by
  have hg := push_groups h
  cases t with
  | openPlain =>
    rw [hg]
    exact hd
  | openCapture name =>
    rw [hg]
    exact hd
  | close =>
    obtain ⟨parent, ho, hi⟩ := hg
    rw [lowest_index hi]
    rw [ho] at hd
    exact hd
  | _ =>
    rw [hg.1, lowest_index hg.2]
    exact hd

variable [Engine]

theorem step_level {p q : Reading} (h : Reading.Step p q) (hp : Level p) : Level q := by
  cases h with
  | @mk f f' outer c cs rest t d d' hv ht hd =>
    have hg := push_groups hd
    have hp : outer.length = d.outer.length := hp
    cases t with
    | openPlain => simp [Level, Scanner.after, hg, hp]
    | openCapture name => simp [Level, Scanner.after, hg, hp]
    | close =>
      obtain ⟨parent, ho, -⟩ := hg
      simp [Level, Scanner.after, hp, ho]
    | _ => simp [Level, Scanner.after, hg.1, hp]

theorem steps_lowest {p q : Reading} (h : Steps p q)
    (hp : (lowest p.draft.group p.draft.outer).index = none) :
    (lowest q.draft.group q.draft.outer).index = none := by
  induction h with
  | refl => exact hp
  | tail _ hs ih =>
    cases hs with
    | mk hv ht hd => exact push_lowest hd ih

theorem steps_level {p q : Reading} (h : Steps p q) (hp : Level p) : Level q := by
  induction h with
  | refl => exact hp
  | tail _ hs ih => exact step_level hs ih

theorem taken_leaf {f f' : Flags} {c : Char} {cs rest : List Char}
    (h : Taken f c cs (.atom r) f' rest) : r.indices = [] := by
  have hset (s : CharSet) : (Regex.set s).indices = [] := rfl
  have hlook (l : Look) : (Regex.look l).indices = [] := rfl
  cases h with
  | opening h =>
    obtain ⟨⟨_, ht⟩ | ht | ht, -⟩ := opening_suffix h <;> cases ht
  | bracketed h => rfl
  | counted hc hq =>
    obtain ⟨_, ht⟩ := quantified_token hq
    cases ht
  | @escaped _ _ p _ he hr =>
    cases p with
    | char c byte =>
      simp only [Primitive.atom] at hr
      split at hr <;> cases hr
      rfl
    | set s =>
      obtain ⟨s', -, rfl⟩ := map_eq_ok.mp hr
      rfl
    | look l =>
      cases hr
      rfl
  | sign hm hs hq =>
    obtain ⟨_, ht⟩ := quantified_token hq
    cases ht
  | char hm hs hr =>
    unfold charAtom at hr
    split at hr
    · cases ha : anyChar f with
      | error e => simp [ha] at hr
      | ok s =>
        simp only [ha, Except.map_ok, Except.ok.injEq] at hr
        subst hr
        rfl
    · cases hr
      rfl
    · cases hr
      rfl
    · cases hr
      rfl

section
variable (k : Nat) (base : List OpenGroup) (names : List String) (around : List Flags)
  (extra : List Char)

def place (p : Reading) : Reading where
  scanner := ⟨p.scanner.flags, p.scanner.outer ++ around, p.scanner.rest ++ extra⟩
  draft := embed k base names p.draft

variable {k base names around extra} {p q : Reading}

/-- What the reading of a pattern alone does, it does inside a group, unless it meets a name that
has been used before. -/
theorem step_place (he : Ends extra) (hl : Level p) (h : Reading.Step p q)
    (hn : names = [] ∨ ∃ q', Reading.Step (place k base names around extra p) q') :
    Reading.Step (place k base names around extra p) (place k base names around extra q) := by
  cases h with
  | @mk f f' outer c cs rest t d d' hv ht hd =>
    have ht' := ht.append hv he
    have hport : Portable names t := by
      rcases hn with rfl | ⟨q', hq'⟩
      · cases t with
        | atom r => exact taken_leaf ht
        | openCapture name => cases name <;> simp [Portable]
        | _ => trivial
      · generalize hp : place k base names around extra ⟨⟨f, outer, c :: cs⟩, d⟩ = p' at hq'
        cases hq' with
        | mk hv₂ ht₂ hd₂ =>
          cases hp
          obtain ⟨rfl, rfl, rfl⟩ := taken_unique ht' ht₂
          exact portable_of_push (fun r he => taken_leaf (he ▸ ht))
            (List.subset_append_right _ _) hd₂
    have hafter : (place k base names around extra
        ⟨(⟨f, outer, c :: cs⟩ : Scanner).after t f' rest, d'⟩).scanner =
          (⟨f, outer ++ around, c :: (cs ++ extra)⟩ : Scanner).after t f' (rest ++ extra) := by
      cases t with
      | close =>
        have ho : outer ≠ [] := by
          rintro rfl
          have hd₀ : d.outer = [] := List.length_eq_zero_iff.mp hl.symm
          simp [Draft.push, hd₀] at hd
        cases outer with
        | nil => contradiction
        | cons g outer => rfl
      | _ => rfl
    have hstep : Reading.Step ⟨⟨f, outer ++ around, c :: (cs ++ extra)⟩, embed k base names d⟩
        ⟨_, embed k base names d'⟩ := .mk hv ht' (push_embed hport hd)
    rw [← hafter] at hstep
    exact hstep

theorem steps_place (he : Ends extra) (hne : extra ≠ []) (hl : Level p) (h : Steps p q)
    (hn : names = [] ∨ ∃ e, Finishes (place k base names around extra p) e) :
    Steps (place k base names around extra p) (place k base names around extra q) := by
  induction h using ReflTransGen.head_induction_on with
  | refl => exact .refl
  | @head p₁ p₂ hs _ ih =>
    have hstep : Reading.Step (place k base names around extra p₁)
        (place k base names around extra p₂) := by
      refine step_place he hl hs (hn.imp_right ?_)
      rintro ⟨e, hf⟩
      have hv : p₁.scanner.flags.verbose = false := by
        cases hs with
        | mk hv _ _ => exact hv
      exact hf.exists_step hv (by simp [place, hne])
    refine .head hstep (ih (step_level hs hl) (hn.imp_right ?_))
    rintro ⟨e, hf⟩
    exact ⟨e, hf.step hstep⟩

end

/-- A pattern does not start with a question mark. -/
theorem drafts_head {pattern : List Char} (h : Drafts pattern d) :
    pattern.head? ≠ some '?' := by
  intro hh
  obtain ⟨tail, rfl⟩ := List.head?_eq_some_iff.mp hh
  obtain ⟨s, hs, -, hsteps⟩ := h
  rcases hsteps.cases_head with he | ⟨q, hq, -⟩
  · cases he
    simp at hs
  · generalize hp : (⟨{ rest := '?' :: tail }, {}⟩ : Reading) = p at hq
    cases hq with
    | mk hv ht hd =>
      cases hp
      cases ht with
      | sign hm hc hq =>
        obtain ⟨_, rfl⟩ := quantified_token hq
        cases hd
      | char hm hc hr => simp [signCounts?] at hc

def grouped (D d : Draft) (r : Regex) : Draft where
  group := D.group.push (.group (D.captures + 1) (shift (D.captures + 1) r))
  outer := D.outer
  names := d.names ++ D.names
  captures := d.captures + (D.captures + 1)

/-- A pattern between parentheses is the group of the expression it denotes alone, with later
numbers. -/
theorem steps_group {src extra : List Char} {D : Draft} {around : List Flags}
    (h : Drafts src d) (hf : d.finish = .ok r)
    (hn : D.names = [] ∨ ∃ e, Finishes ⟨⟨{}, around, '(' :: (src ++ ')' :: extra)⟩, D⟩ e) :
    Steps ⟨⟨{}, around, '(' :: (src ++ ')' :: extra)⟩, D⟩
      ⟨⟨{}, around, extra⟩, grouped D d r⟩ := by
  obtain ⟨s, hs, hv, hsteps⟩ := id h
  have hopen : Reading.Step ⟨⟨{}, around, '(' :: (src ++ ')' :: extra)⟩, D⟩
      (place (D.captures + 1) (D.group :: D.outer) D.names ({} :: around) (')' :: extra)
        ⟨{ rest := src }, {}⟩) := by
    have hhead : (src ++ ')' :: extra).head? ≠ some '?' := by
      cases src with
      | nil => simp
      | cons c src => simpa using drafts_head h
    have hpush : D.push (.openCapture none) =
        .ok (embed (D.captures + 1) (D.group :: D.outer) D.names {}) := by
      simp [Draft.push, Draft.addName, embed, seat, seats, lift]
    exact .mk rfl (.opening (opening_bare rfl hhead)) hpush
  have hn' : D.names = [] ∨ ∃ e, Finishes (place (D.captures + 1) (D.group :: D.outer) D.names
      ({} :: around) (')' :: extra) ⟨{ rest := src }, {}⟩) e := by
    refine hn.imp_right ?_
    rintro ⟨e, hf⟩
    exact ⟨e, hf.step hopen⟩
  have hlevel : Level ⟨{ rest := src }, {}⟩ := rfl
  have hmid := steps_place (by simp [Ends]) (by simp) hlevel hsteps hn'
  -- At its end the pattern has no group open, so the parenthesis closes the group.
  obtain ⟨hd, hclosed⟩ := finish_ok hf
  have hso : s.outer = [] := by
    have hl : s.outer.length = d.outer.length := steps_level hsteps hlevel
    simpa [hd] using hl
  have hr : r = altAll (d.group.branch :: d.group.branches).reverse := by
    have hi := steps_lowest hsteps rfl
    simp only [hd, lowest] at hi
    rw [← hclosed, OpenGroup.close, hi]
  have hclose : Reading.Step (place (D.captures + 1) (D.group :: D.outer) D.names ({} :: around)
      (')' :: extra) ⟨s, d⟩) ⟨⟨{}, around, extra⟩, grouped D d r⟩ := by
    have hp : place (D.captures + 1) (D.group :: D.outer) D.names ({} :: around) (')' :: extra)
        ⟨s, d⟩ = ⟨⟨s.flags, {} :: around, ')' :: extra⟩,
          embed (D.captures + 1) (D.group :: D.outer) D.names d⟩ := by
      simp [place, hso, hs]
    have hb : (seat (D.captures + 1) [] d.group).close =
        .group (D.captures + 1) (shift (D.captures + 1) r) := by
      rw [hr, ← altAll_lift]
      rfl
    have hpush : (embed (D.captures + 1) (D.group :: D.outer) D.names d).push .close =
        .ok (grouped D d r) := by
      simp [Draft.push, embed, seats, hd, hb, grouped]
    rw [hp]
    exact .mk hv .close hpush
  exact .head hopen (hmid.tail hclose)

end Brine.Proofs.PatternEmbedding
