import Brine.Proofs.PatternWalks
import Mathlib.Data.List.Forall2

namespace Brine.Proofs.FlagAgreement
open Regex Text Success PatternReaders PatternTokens PatternRuns PatternWalks

structure Agree (f g : Flags) : Prop where
  verbose : g.verbose = f.verbose
  unicode : g.unicode = f.unicode

variable {f f' g : Flags} {m r : List Char} {u : Bool}

theorem Agree.set (h : Agree f g) (item : Flag × Bool) : Agree (f.set item) (g.set item) := by
  obtain ⟨flag, on⟩ := item
  cases flag with
  | verbose => exact ⟨rfl, h.unicode⟩
  | unicode => exact ⟨h.verbose, rfl⟩
  | _ => exact ⟨h.verbose, h.unicode⟩

theorem Agree.setAll (h : Agree f g) (items : List (Flag × Bool)) :
    Agree (items.foldl Flags.set f) (items.foldl Flags.set g) := by
  induction items generalizing f g with
  | nil => exact h
  | cons item items ih => exact ih (h.set item)

theorem opening_agree {t : Token} (h : Agree f g) (hm : opening f m = .ok (t, f', r)) :
    ∃ g', opening g m = .ok (t, g', r) ∧ Agree f' g' := by
  unfold opening at hm ⊢
  rw [h.verbose]
  split at hm
  · contradiction
  · contradiction
  · contradiction
  · contradiction
  · simp only [bind_eq_ok, pure_eq_ok, Prod.mk.injEq, Prod.exists] at hm
    obtain ⟨name, r₁, hn, rfl, rfl, rfl⟩ := hm
    exact ⟨g, by simp [hn], h⟩
  · simp only [bind_eq_ok, pure_eq_ok, Prod.mk.injEq, Prod.exists] at hm
    obtain ⟨name, r₁, hn, rfl, rfl, rfl⟩ := hm
    exact ⟨g, by simp [hn], h⟩
  · simp only [bind_eq_ok, Prod.exists] at hm
    obtain ⟨items, last, r₁, hi, hm⟩ := hm
    split at hm
    · rename_i hlast
      cases hm
      exact ⟨items.foldl Flags.set g, by simp [hi, hlast], h.setAll items⟩
    · rename_i hlast
      split at hm
      · contradiction
      · rename_i hitems
        cases hm
        refine ⟨items.foldl Flags.set g, ?_, h.setAll items⟩
        simp only [hi, ok_bind, if_neg hlast, if_neg hitems]
        rfl
  · cases hm
    exact ⟨g, rfl, h⟩

def Beyond (u : Bool) (a b : CharSet) : Prop :=
  u = false → ∀ n, 128 ≤ n → b.holds n = a.holds n

theorem Beyond.refl (a : CharSet) : Beyond u a a :=
  fun _ _ _ => rfl

theorem Beyond.of_unicode {a b : CharSet} (hu : u = true) : Beyond u a b := by
  intro hu'
  rw [hu] at hu'
  contradiction

section
variable {a b a' b' : CharSet}

theorem Beyond.union (h : Beyond u a b) (h' : Beyond u a' b') :
    Beyond u (a.union a') (b.union b') := by
  intro hu n hn
  simp only [CharSet.holds, h hu n hn, h' hu n hn]

theorem Beyond.inter (h : Beyond u a b) (h' : Beyond u a' b') :
    Beyond u (a.inter a') (b.inter b') := by
  intro hu n hn
  simp only [CharSet.holds, h hu n hn, h' hu n hn]

theorem Beyond.complement (h : Beyond u a b) : Beyond u a.complement b.complement := by
  intro hu n hn
  simp only [CharSet.holds, h hu n hn]

theorem Beyond.diff (h : Beyond u a b) (h' : Beyond u a' b') :
    Beyond u (a.diff a') (b.diff b') :=
  h.inter h'.complement

theorem Beyond.isAscii (h : Beyond u a b) (hu : u = false) : b.isAscii = a.isAscii := by
  have hn (n : Nat) : b.holds (n + 128) = a.holds (n + 128) := h hu _ (Nat.le_add_left _ _)
  simp [CharSet.isAscii, hn]

theorem asciiFolded_beyond {n : Nat} (hn : 128 ≤ n) : a.asciiFolded.holds n = a.holds n := by
  have hv : asciiCaseVariants n = [n] := by
    rw [asciiCaseVariants, if_neg (by simp; omega), if_neg (by simp; omega)]
  simp [CharSet.holds, hv]

/-- Case variants of ASCII letters are ASCII letters. -/
theorem fold_beyond (h : Agree f g) (hs : Beyond f.unicode a b) :
    Beyond f.unicode (fold f a) (fold g b) := by
  have hfold (f : Flags) (s : CharSet) (hu : f.unicode = false) {n : Nat} (hn : 128 ≤ n) :
      (fold f s).holds n = s.holds n := by
    unfold fold
    rw [hu]
    split
    · exact asciiFolded_beyond hn
    · rfl
  intro hu n hn
  rw [hfold f a hu hn, hfold g b (h.unicode.trans hu) hn]
  exact hs hu n hn

/-- A set in the place of a class passes with flags that agree. -/
theorem checked_agree {s : CharSet} (h : Agree f g) (hs : Beyond f.unicode a b)
    (hm : checked f a = .ok s) : ∃ s', checked g b = .ok s' ∧ Beyond f.unicode s s' := by
  unfold checked at hm ⊢
  split at hm
  · rename_i hu
    cases hm
    refine ⟨b, if_pos ?_, hs⟩
    rw [h.unicode]
    cases hf : f.unicode with
    | true => rfl
    | false =>
      rw [hf] at hs
      rwa [hs.isAscii rfl, ← hf]
  · contradiction

end

structure ClassAgree (u : Bool) (k l : OpenClass) : Prop where
  negated : l.negated = k.negated
  left : Option.Rel (fun p q => q.1 = p.1 ∧ Beyond u p.2 q.2) k.left l.left
  members : Beyond u k.members l.members

section
variable {k l : OpenClass}

theorem ClassAgree.refl (k : OpenClass) : ClassAgree u k k := by
  refine ⟨rfl, ?_, .refl _⟩
  cases k.left with
  | none => exact .none
  | some p => exact .some ⟨rfl, .refl _⟩

theorem ClassAgree.add {a b : CharSet} (h : ClassAgree u k l) (hs : Beyond u a b) :
    ClassAgree u (k.add a) (l.add b) :=
  ⟨h.negated, h.left, h.members.union hs⟩

theorem ClassAgree.combined (ha : Agree f g) (h : ClassAgree f.unicode k l) :
    Beyond f.unicode (k.combined f) (l.combined g) := by
  have hm := fold_beyond ha h.members
  obtain ⟨negated, left, members⟩ := k
  obtain ⟨negated', left', members'⟩ := l
  cases h.left with
  | none => exact h.members
  | @some p q hp =>
    obtain ⟨op, s⟩ := p
    obtain ⟨op', s'⟩ := q
    obtain ⟨rfl, hs⟩ := hp
    have hs := fold_beyond ha hs
    cases op' with
    | inter => exact hs.inter hm
    | diff => exact hs.diff hm
    | symmDiff => exact (hs.diff hm).union (hm.diff hs)

theorem ClassAgree.operate (ha : Agree f g) (h : ClassAgree f.unicode k l) (op : ClassOp) :
    ClassAgree f.unicode (k.operate f op) (l.operate g op) :=
  ⟨h.negated, .some ⟨rfl, h.combined ha⟩, .refl _⟩

theorem ClassAgree.close {s : CharSet} (ha : Agree f g) (h : ClassAgree f.unicode k l)
    (hk : k.close f = .ok s) : ∃ s', l.close g = .ok s' ∧ Beyond f.unicode s s' := by
  have hc := fold_beyond ha (h.combined ha)
  unfold OpenClass.close at hk ⊢
  rw [h.negated]
  refine checked_agree ha ?_ hk
  cases k.negated with
  | true => exact hc.complement
  | false => exact hc

end

inductive PrimitiveAgree (u : Bool) : Primitive → Primitive → Prop
  | same {p : Primitive} : PrimitiveAgree u p p
  | set {a b : CharSet} : Beyond u a b → PrimitiveAgree u (.set a) (.set b)

section
variable {p q p' q' : Primitive}

theorem classChar_agree {c : Char} (h : Agree f g) (hp : PrimitiveAgree u p q)
    (hm : classChar f p = .ok c) : classChar g q = .ok c := by
  cases hp with
  | set => contradiction
  | same =>
    unfold classChar at hm ⊢
    rwa [h.unicode]

theorem classMember_agree {s : CharSet} (h : Agree f g) (hp : PrimitiveAgree f.unicode p q)
    (hm : classMember f p = .ok s) : ∃ s', classMember g q = .ok s' ∧ Beyond f.unicode s s' := by
  cases h' : hp with
  | set hs => exact checked_agree h hs hm
  | same =>
    cases p with
    | set s => exact checked_agree h (.refl s) hm
    | look l => contradiction
    | char c byte =>
      obtain ⟨c', hc, rfl⟩ := map_eq_ok.mp hm
      exact ⟨.single c', map_eq_ok.mpr ⟨c', classChar_agree h hp hc, rfl⟩, .refl _⟩

theorem classRange_agree {s : CharSet} (h : Agree f g) (hp : PrimitiveAgree u p q)
    (hp' : PrimitiveAgree u p' q') (hm : classRange f p p' = .ok s) :
    classRange g q q' = .ok s := by
  simp only [classRange, bind_eq_ok] at hm ⊢
  obtain ⟨low, hlow, high, hhigh, hm⟩ := hm
  exact ⟨low, classChar_agree h hp hlow, high, classChar_agree h hp' hhigh, hm⟩

end

theorem openClass_agree (h : Agree f g) (m : List Char) : openClass g m = openClass f m := by
  have hnegation : classNegation g m = classNegation f m := by
    rw [classNegation, classNegation, h.verbose]
  have hleading (k : OpenClass) (m : List Char) :
      leadingMembers g k m = leadingMembers f k m := by
    rw [leadingMembers, leadingMembers, h.verbose]
  simp only [openClass, hnegation, hleading]

theorem asciiClass?_agree {s : CharSet} (h : Agree f g) (hm : asciiClass? f m = some (s, r)) :
    ∃ s', asciiClass? g m = some (s', r) ∧ Beyond f.unicode s s' := by
  have hnamed {negated : Bool} {m : List Char} (hm : namedClass? f negated m = some (s, r)) :
      ∃ s', namedClass? g negated m = some (s', r) ∧ Beyond f.unicode s s' := by
    unfold namedClass? at hm
    split at hm
    · rename_i s₀ hd ha
      cases hm
      have hf := fold_beyond h (.refl s₀)
      refine ⟨if negated then (fold g s₀).complement else fold g s₀, ?_, ?_⟩
      · rw [namedClass?, hd, ha]
        rfl
      · cases negated with
        | true => exact hf.complement
        | false => exact hf
    · contradiction
  unfold asciiClass? at hm ⊢
  split at hm
  · exact hnamed hm
  · exact hnamed hm
  · contradiction

theorem asciiClass?_none_agree (hm : asciiClass? f m = none) : asciiClass? g m = none := by
  have hnamed {negated : Bool} {m : List Char} (hm : namedClass? f negated m = none) :
      namedClass? g negated m = none := by
    unfold namedClass? at hm ⊢
    split at hm
    · contradiction
    · rfl
  unfold asciiClass? at hm ⊢
  split at hm
  · exact hnamed hm
  · exact hnamed hm
  · rfl

inductive TokenAgree (u : Bool) : ClassToken → ClassToken → Prop
  | item {a b : CharSet} : Beyond u a b → TokenAgree u (.item a) (.item b)
  | named {a b : CharSet} : Beyond u a b → TokenAgree u (.named a) (.named b)
  | same {t : ClassToken} : TokenAgree u t t

/-- Tokens that are the same but for what an atom matches and which repetitions are preferred. -/
inductive Same : Token → Token → Prop
  | atom {a b : Regex} : Same (.atom a) (.atom b)
  | quantifier {low : Nat} {high : Option Nat} {a b : Bool} :
      Same (.quantifier low high a) (.quantifier low high b)
  | refl {t : Token} : Same t t

variable {t t' : Token}

theorem Same.nameOf? (h : Same t t') : nameOf? t' = nameOf? t := by
  cases h <;> rfl

theorem Same.repeatable (h : Same t t') : repeatable t' = repeatable t := by
  cases h <;> rfl

theorem Same.fits {ready : Bool} {outer outer' : List Flags} (h : Same t t')
    (ho : outer.length = outer'.length) (hf : Fits ready outer t) : Fits ready outer' t' := by
  cases h with
  | atom => trivial
  | quantifier => exact hf
  | refl =>
    cases t with
    | close =>
      intro hnil
      rw [hnil] at ho
      exact hf (List.eq_nil_of_length_eq_zero ho)
    | _ => exact hf

theorem quantified_agree {low : Nat} {high : Option Nat} (h : Agree f g)
    (hm : quantified f low high m = .ok (t, f', r)) :
    ∃ t', quantified g low high m = .ok (t', g, r) ∧ Same t t' ∧ Agree f' g := by
  unfold quantified at hm ⊢
  split at hm
  · cases hm
    exact ⟨_, rfl, .quantifier, h⟩
  · cases hm
    exact ⟨_, rfl, .quantifier, h⟩

theorem primitive_agree {p q : Primitive} {a : Regex} (h : Agree f g)
    (ha : PrimitiveAgree f.unicode p q) (hp : p.atom f = .ok a) : ∃ b, q.atom g = .ok b := by
  have hset {s s' : CharSet} (hs : Beyond f.unicode s s')
      (hp : (Primitive.set s).atom f = .ok a) : ∃ b, (Primitive.set s').atom g = .ok b := by
    obtain ⟨s₁, hs₁, -⟩ := map_eq_ok.mp hp
    obtain ⟨s₂, hs₂, -⟩ := checked_agree h hs hs₁
    exact ⟨.set s₂, map_eq_ok.mpr ⟨s₂, hs₂, rfl⟩⟩
  cases ha with
  | set hs => exact hset hs hp
  | same =>
    cases p with
    | set s => exact hset (.refl s) hp
    | look l => exact ⟨_, rfl⟩
    | char c byte =>
      simp only [Primitive.atom, h.unicode] at hp ⊢
      split at hp
      · contradiction
      · rename_i hb
        exact ⟨_, if_neg hb⟩

theorem charAtom_agree {c : Char} {a : Regex} (h : Agree f g) (hc : charAtom f c = .ok a) :
    ∃ b, charAtom g c = .ok b := by
  unfold charAtom at hc ⊢
  split at hc
  · have hu : f.unicode = true := by
      cases hu : f.unicode with
      | true => rfl
      | false => simp [anyChar, hu, Functor.map, Except.map] at hc
    have hany : ∃ s, anyChar g = .ok s := by
      unfold anyChar
      simp only [h.unicode, hu, Bool.not_true, Bool.false_eq_true, if_false]
      split
      · exact ⟨_, rfl⟩
      · split <;> exact ⟨_, rfl⟩
    obtain ⟨s, hs⟩ := hany
    exact ⟨.set s, by simp [hs]⟩
  · exact ⟨_, rfl⟩
  · exact ⟨_, rfl⟩
  · exact ⟨_, rfl⟩

structure Together (s s' : Scanner) : Prop where
  flags : Agree s.flags s'.flags
  outer : List.Forall₂ Agree s.outer s'.outer
  rest : s'.rest = s.rest

theorem Together.after {s s' : Scanner} {g' : Flags} (h : Together s s') (ht : Same t t')
    (hf : Agree f g') (hc : t = .close → s.outer ≠ []) :
    Together (s.after t f r) (s'.after t' g' r) := by
  cases ht with
  | atom => exact ⟨hf, h.outer, rfl⟩
  | quantifier => exact ⟨hf, h.outer, rfl⟩
  | refl =>
    cases t with
    | openCapture | openPlain => exact ⟨hf, .cons h.flags h.outer, rfl⟩
    | close =>
      obtain ⟨flags, outer, rest⟩ := s
      obtain ⟨flags', outer', rest'⟩ := s'
      cases h.outer with
      | nil => exact absurd rfl (hc rfl)
      | cons hb ho => exact ⟨hb, ho, rfl⟩
    | _ => exact ⟨hf, h.outer, rfl⟩

variable [Engine]

/-- There are properties in Unicode mode only. -/
theorem propertySet_agree {negated : Bool} {text : List Char} {s : CharSet} (h : Agree f g)
    (hm : propertySet f negated text = .ok s) :
    ∃ s', propertySet g negated text = .ok s' ∧ Beyond f.unicode s s' := by
  obtain ⟨hu, hchars, base, hbase, -⟩ := propertySet_eq_ok.mp hm
  have hg : propertySet g negated text = .ok _ :=
    propertySet_eq_ok.mpr ⟨h.unicode.trans hu, hchars, base, hbase, rfl⟩
  exact ⟨_, hg, .of_unicode hu⟩

theorem escape_agree {p : Primitive} (h : Agree f g) (hm : escape f m = .ok (p, r)) :
    ∃ q, escape g m = .ok (q, r) ∧ PrimitiveAgree f.unicode p q := by
  cases m with
  | nil => contradiction
  | cons c m =>
    cases escape_iff.mp hm with
    | hex hn hm =>
      rw [← h.verbose] at hm
      exact ⟨p, escape_iff.mpr (.hex hn hm), .same⟩
    | edge hb =>
      unfold boundary at hb
      rw [← h.verbose] at hb
      rw [← h.unicode]
      exact ⟨_, escape_iff.mpr (.edge hb), .same⟩
    | property hn ht hs =>
      obtain ⟨s', hs', hb⟩ := propertySet_agree h hs
      rw [← h.verbose] at ht
      exact ⟨_, escape_iff.mpr (.property hn ht hs'), .set hb⟩
    | char hn hb hp hc =>
      unfold charEscape at hc
      rw [← h.unicode] at hc
      exact ⟨p, escape_iff.mpr (.char hn hb hp hc), .same⟩

theorem classPrimitive_agree {p : Primitive} (h : Agree f g)
    (hm : classPrimitive f m = .ok (p, r)) :
    ∃ q, classPrimitive g m = .ok (q, r) ∧ PrimitiveAgree f.unicode p q := by
  unfold classPrimitive at hm ⊢
  split at hm
  · contradiction
  · exact escape_agree h hm
  · cases hm
    exact ⟨_, rfl, .same⟩

theorem classItemFrom_agree {p q : Primitive} {s : CharSet} (h : Agree f g)
    (hp : PrimitiveAgree f.unicode p q) (hm : classItemFrom f p m = .ok (s, r)) :
    ∃ s', classItemFrom g q m = .ok (s', r) ∧ Beyond f.unicode s s' := by
  unfold classItemFrom at hm ⊢
  split at hm
  · contradiction
  · simp only [h.verbose] at hm ⊢
    split at hm
    · rename_i hnext
      simp only [bind_eq_ok, pure_eq_ok, Prod.mk.injEq] at hm
      obtain ⟨s, hs, rfl, rfl⟩ := hm
      obtain ⟨s', hs', hb⟩ := classMember_agree h hp hs
      exact ⟨s', by simp [hnext, hs'], hb⟩
    · rename_i hnext
      simp only [bind_eq_ok, pure_eq_ok, Prod.exists, Prod.mk.injEq] at hm
      obtain ⟨last, r₁, hl, s, hs, rfl, rfl⟩ := hm
      obtain ⟨last', hl', hlast⟩ := classPrimitive_agree h hl
      refine ⟨s, ?_, .refl s⟩
      rw [if_neg hnext, hl', ok_bind, classRange_agree h hp hlast hs]
      rfl
  · simp only [bind_eq_ok, pure_eq_ok, Prod.mk.injEq] at hm
    obtain ⟨s, hs, rfl, rfl⟩ := hm
    obtain ⟨s', hs', hb⟩ := classMember_agree h hp hs
    exact ⟨s', by simp [hs'], hb⟩

theorem classItem_agree {s : CharSet} (h : Agree f g) (hm : classItem f m = .ok (s, r)) :
    ∃ s', classItem g m = .ok (s', r) ∧ Beyond f.unicode s s' := by
  simp only [classItem, bind_eq_ok, Prod.exists] at hm ⊢
  obtain ⟨first, r₁, hf, hm⟩ := hm
  obtain ⟨first', hf', hp⟩ := classPrimitive_agree h hf
  rw [← h.verbose] at hm
  obtain ⟨s', hs', hb⟩ := classItemFrom_agree h hp hm
  exact ⟨s', ⟨first', r₁, hf', hs'⟩, hb⟩

theorem classToken_agree {t : ClassToken} (h : Agree f g) (hm : classToken f m = .ok (t, r)) :
    ∃ t', classToken g m = .ok (t', r) ∧ TokenAgree f.unicode t t' := by
  unfold classToken at hm ⊢
  split at hm
  · contradiction
  · split at hm
    · rename_i ha
      simp only [bind_eq_ok, pure_eq_ok, Prod.mk.injEq] at hm
      obtain ⟨s, hs, rfl, rfl⟩ := hm
      obtain ⟨s₁, ha', hb⟩ := asciiClass?_agree h ha
      obtain ⟨s', hs', hb⟩ := checked_agree h hb hs
      exact ⟨_, by simp [ha', hs'], .named hb⟩
    · rename_i ha
      simp only [bind_eq_ok, pure_eq_ok, Prod.exists, Prod.mk.injEq] at hm
      obtain ⟨k, r₁, hk, rfl, rfl⟩ := hm
      exact ⟨_, by simp [asciiClass?_none_agree ha, openClass_agree h, hk], .same⟩
  · cases hm
    exact ⟨_, rfl, .same⟩
  · split at hm
    · rename_i ho
      cases hm
      exact ⟨_, rfl, .same⟩
    · rename_i ho
      simp only [bind_eq_ok, pure_eq_ok, Prod.exists, Prod.mk.injEq] at hm
      obtain ⟨s, r₁, hs, rfl, rfl⟩ := hm
      obtain ⟨s', hs', hb⟩ := classItem_agree h hs
      exact ⟨_, by simp [hs'], .item hb⟩

theorem classLoop_agree {n : Nat} {k l : OpenClass} {outer outer' : List OpenClass} {s : CharSet}
    (h : Agree f g) (hk : ClassAgree f.unicode k l)
    (ho : List.Forall₂ (ClassAgree f.unicode) outer outer')
    (hm : classLoop f n k outer m = .ok (s, r)) :
    ∃ s', classLoop g n l outer' m = .ok (s', r) ∧ Beyond f.unicode s s' := by
  induction n generalizing k l outer outer' m with
  | zero => contradiction
  | succ n ih =>
    simp only [classLoop, bind_eq_ok, Prod.exists, h.verbose] at hm ⊢
    obtain ⟨t, r₁, ht, hm⟩ := hm
    obtain ⟨t', ht', hagree⟩ := classToken_agree h ht
    cases hagree with
    | item hs | named hs =>
      obtain ⟨s', hl, hb⟩ := ih (hk.add hs) ho hm
      exact ⟨s', ⟨_, r₁, ht', hl⟩, hb⟩
    | same =>
      cases t with
      | item a | named a =>
        obtain ⟨s', hl, hb⟩ := ih (hk.add (.refl a)) ho hm
        exact ⟨s', ⟨_, r₁, ht', hl⟩, hb⟩
      | opening inner =>
        obtain ⟨s', hl, hb⟩ := ih (.refl inner) (.cons hk ho) hm
        exact ⟨s', ⟨_, r₁, ht', hl⟩, hb⟩
      | operator op =>
        obtain ⟨s', hl, hb⟩ := ih (hk.operate h op) ho hm
        exact ⟨s', ⟨_, r₁, ht', hl⟩, hb⟩
      | closing =>
        cases ho with
        | nil =>
          simp only [bind_eq_ok, pure_eq_ok, Prod.mk.injEq] at hm
          obtain ⟨s₁, hs₁, rfl, rfl⟩ := hm
          obtain ⟨s', hs', hb⟩ := hk.close h hs₁
          exact ⟨s', ⟨_, _, ht', by simp [hs']⟩, hb⟩
        | cons hp ho =>
          simp only [bind_eq_ok] at hm
          obtain ⟨s₁, hs₁, hm⟩ := hm
          obtain ⟨s₂, hs₂, hb₂⟩ := hk.close h hs₁
          obtain ⟨s', hl, hb⟩ := ih (hp.add hb₂) ho hm
          exact ⟨s', ⟨_, r₁, ht', by simp [hs₂, hl]⟩, hb⟩

theorem bracketed_agree {s : CharSet} (h : Agree f g) (hm : bracketed f m = .ok (s, r)) :
    ∃ s', bracketed g m = .ok (s', r) := by
  simp only [bracketed, bind_eq_ok, Prod.exists] at hm ⊢
  obtain ⟨k, r₁, hk, hl⟩ := hm
  obtain ⟨s', hl', -⟩ := classLoop_agree h (.refl k) .nil hl
  exact ⟨s', k, r₁, (openClass_agree h m).trans hk, hl'⟩

theorem taken_agree {c : Char} (h : Agree f g) (ht : Taken f c m t f' r) :
    ∃ t' g', Taken g c m t' g' r ∧ Same t t' ∧ Agree f' g' := by
  cases ht with
  | opening hm =>
    obtain ⟨g', hm', hg⟩ := opening_agree h hm
    exact ⟨t, g', .opening hm', .refl, hg⟩
  | close => exact ⟨_, _, .close, .refl, h⟩
  | bar => exact ⟨_, _, .bar, .refl, h⟩
  | bracketed hm =>
    obtain ⟨s', hm'⟩ := bracketed_agree h hm
    exact ⟨_, _, .bracketed hm', .atom, h⟩
  | counted hc hq =>
    obtain ⟨t', hq', hs, hf⟩ := quantified_agree h hq
    rw [← h.verbose] at hc hq'
    exact ⟨t', g, .counted hc hq', hs, hf⟩
  | escaped he hp =>
    obtain ⟨q, hq, hagree⟩ := escape_agree h he
    obtain ⟨b, hb⟩ := primitive_agree h hagree hp
    exact ⟨_, _, .escaped hq hb, .atom, h⟩
  | sign hmark hs hq =>
    obtain ⟨t', hq', hsame, hf⟩ := quantified_agree h hq
    exact ⟨t', g, .sign hmark hs hq', hsame, hf⟩
  | char hmark hs hc =>
    obtain ⟨b, hb⟩ := charAtom_agree h hc
    exact ⟨_, _, .char hmark hs hb, .atom, h⟩

/-- A pattern that can be read with some flags can be read with others that agree. -/
theorem balanced_agree {s s' : Scanner} {ready : Bool} {ts : List Token}
    (h : Balanced s ready ts g) (hs : Together s s') :
    ∃ ts' g', Balanced s' ready ts' g' ∧ names ts' = names ts ∧ Agree g g' := by
  induction h generalizing s' with
  | nil hn ho =>
    have hn' : s'.next = .ok none := by
      rw [next_eq_none] at hn ⊢
      rw [hs.flags.verbose, hs.rest]
      exact hn
    have ho' : s'.outer = [] := by
      have hlen := hs.outer.length_eq
      rw [ho] at hlen
      exact List.eq_nil_of_length_eq_zero hlen.symm
    exact ⟨[], s'.flags, .nil hn' ho', rfl, hs.flags⟩
  | cons hn hf _ ih =>
    -- The same characters are read, for a token that may match other texts.
    obtain ⟨c, cs, f₁, r, hskip, ht, rfl⟩ := next_iff.mp hn
    obtain ⟨t', g₁, ht', hsame, hf₁⟩ := taken_agree hs.flags ht
    have hn' : s'.next = .ok (some (t', s'.after t' g₁ r)) := by
      refine next_iff.mpr ⟨c, cs, g₁, r, ?_, ht', rfl⟩
      rw [hs.flags.verbose, hs.rest, hskip]
    obtain ⟨ts', g', hb, hnames, hg⟩ := ih (hs.after hsame hf₁ (fits_close hf))
    rw [← hsame.repeatable] at hb
    refine ⟨t' :: ts', g', .cons hn' (hsame.fits hs.outer.length_eq hf) hb, ?_, hg⟩
    rw [names_cons, names_cons, hnames, hsame.nameOf?]

end Brine.Proofs.FlagAgreement
