import Brine.Proofs.ExpressionReading
import Brine.Text.Bytes

namespace Brine.Proofs.ExpressionPositions
open Expression Success ExpressionReading Text

theorem byteSize_append (l l' : List Char) : byteSize (l ++ l') = byteSize l + byteSize l' := by
  induction l with
  | nil => simp [byteSize]
  | cons c l ih => simp [byteSize, ih, Nat.add_assoc]

def CharAt (source : List Char) (position : Nat) (c : Char) : Prop :=
  ∃ before after, source = before ++ c :: after ∧ position = byteSize before

def ParameterAt (source : List Char) (position : Nat) (name : String) : Prop :=
  ∃ before after, source = before ++ '\x7b' :: (name.toList ++ '\x7d' :: after) ∧
    position = byteSize before ∧ '\x7d' ∉ name.toList

variable {source before rest run : List Char} {position pos : Nat} {mode : Mode} {c : Char}
  {ts : List Token}

theorem CharAt.lt (h : CharAt source position c) : position < byteSize source := by
  obtain ⟨before, after, rfl, rfl⟩ := h
  rw [byteSize_append, byteSize]
  have := c.utf8Size_pos
  omega

theorem ParameterAt.charAt {name : String} (h : ParameterAt source position name) :
    CharAt source position '\x7b' := by
  obtain ⟨before, after, rfl, rfl, -⟩ := h
  exact ⟨before, _, rfl, rfl⟩

def ErrorAt (source : List Char) : Error → Prop
  | .unterminatedParameter p | .parameterInOptional p => CharAt source p '\x7b'
  | .unterminatedOptional p | .emptyOptional p | .nestedOptional p => CharAt source p '('
  | .unexpectedCharacter c p => CharAt source p c
  -- The others are found when the tokens are there.
  | .parameterInAlternation _ | .emptyAlternative _ | .undefinedParameterType _ _ | .regex _ =>
    False

def TokenAt (source : List Char) : Token → Prop
  | .text t | .space t | .optional t => t.toList ≠ []
  | .parameter name start => ParameterAt source start name
  | .slash position => CharAt source position '/'

def ResultAt (source : List Char) : Except Error (List Token) → Prop
  | .ok ts => ∀ t ∈ ts, TokenAt source t
  | .error e => ErrorAt source e

def Opened (source before run : List Char) : Mode → Prop
  | .text | .space => True
  | .parameter start => ∃ b, before = b ++ '\x7b' :: run.reverse ∧ start = byteSize b ∧
      '\x7d' ∉ run
  | .optional start => CharAt source start '('

theorem flush_at (h : ∀ t ∈ ts, TokenAt source t) :
    ∀ t ∈ flush mode run ts, TokenAt source t := by
  unfold flush
  split
  · exact h
  · rename_i hr
    have hne : (String.ofList run.reverse).toList ≠ [] := by simpa using hr
    split <;> exact List.forall_mem_cons.mpr ⟨hne, h⟩

theorem ResultAt.map {x : Except Error (List Token)} {g : List Token → List Token}
    (h : ResultAt source x)
    (hg : ∀ ts, (∀ t ∈ ts, TokenAt source t) → ∀ t ∈ g ts, TokenAt source t) :
    ResultAt source (g <$> x) := by
  cases x with
  | ok ts => exact hg ts h
  | error e => exact h

theorem ResultAt.cons {x : Except Error (List Token)} {t : Token} (h : ResultAt source x)
    (ht : TokenAt source t) : ResultAt source (do return t :: (← x)) := by
  cases x with
  | ok ts => exact List.forall_mem_cons.mpr ⟨ht, h⟩
  | error e => exact h

theorem ResultAt.started {x : Except Error (List Token)} (h : ResultAt source x) :
    ResultAt source ((fun ts => if mode = .text then ts else flush mode run ts) <$> x) := by
  refine h.map fun ts ht => ?_
  split
  · exact ht
  · exact flush_at ht

structure RestAt (source before rest : List Char) (pos : Nat) : Prop where
  split : source = before ++ rest
  offset : pos = byteSize before

theorem RestAt.charAt (h : RestAt source before (c :: rest) pos) : CharAt source pos c :=
  ⟨before, rest, h.split, h.offset⟩

theorem RestAt.next (h : RestAt source before (c :: rest) pos) :
    RestAt source (before ++ [c]) rest (pos + c.utf8Size) :=
  ⟨by simpa using h.split, by simp [h.offset, byteSize_append, byteSize]⟩

/-- The rest of a source gives tokens that stand in the source, or an error about a character
there. -/
theorem scan_at (hs : RestAt source before rest pos) (ho : Opened source before run mode) :
    ResultAt source (scan mode pos run rest) := by
  fun_induction scan mode pos run rest generalizing before with
  | case1 | case2 => exact flush_at (by simp)
  | case3 pos run start =>
    obtain ⟨b, rfl, hb, -⟩ := ho
    exact ⟨b, run.reverse, by simpa using hs.split, hb⟩
  | case4 => exact ho
  | case5 start pos run rest ih =>
    refine (ih hs.next trivial).cons ?_
    obtain ⟨b, rfl, hb, hr⟩ := ho
    exact ⟨b, rest, by simpa using hs.split, hb, by simpa using hr⟩
  | case6 => exact hs.charAt
  | case7 start pos run c rest hc _ ih =>
    obtain ⟨b, rfl, hb, hr⟩ := ho
    exact ih hs.next ⟨b, by simp, hb, by simp [hr, Ne.symm hc]⟩
  | case8 start pos run ih => exact ih hs.next ho
  | case9 start pos run e rest ih => exact ih hs.next.next ho
  | case10 => exact ho
  | case11 start pos run rest hr _ ih =>
    have hne : (String.ofList run.reverse).toList ≠ [] := by simpa using hr
    exact (ih hs.next trivial).cons hne
  | case12 => exact hs.charAt
  | case13 => exact hs.charAt
  | case14 start pos run c rest _ _ _ _ ih => exact ih hs.next ho
  | case15 =>
    rename_i ih
    exact (ih hs.next trivial).started
  | case16 =>
    rename_i ih
    exact (ih hs.next.next trivial).started
  | case17 =>
    rename_i ih
    exact ih hs.next trivial
  | case18 =>
    rename_i ih
    exact (ih hs.next trivial).map fun _ => flush_at
  | case19 =>
    rename_i ih
    exact (ih hs.next ⟨before, by simp, hs.offset, by simp⟩).map fun _ => flush_at
  | case20 =>
    rename_i ih
    exact (ih hs.next hs.charAt).map fun _ => flush_at
  | case21 =>
    rename_i ih
    refine (ih hs.next trivial).map fun ts ht => ?_
    exact flush_at (List.forall_mem_cons.mpr ⟨hs.charAt, ht⟩)
  | case22 => exact hs.charAt
  | case23 =>
    rename_i ih
    exact (ih hs.next trivial).started

/-- A slash divides the rest of a source into what gives the tokens before it and what gives those
after it. -/
def Divides (mode : Mode) (pos : Nat) (run rest : List Char) (us : List Token) (p : Nat)
    (vs : List Token) : Prop :=
  ∃ left right, rest = left ++ '/' :: right ∧ p = pos + byteSize left ∧
    scan mode pos run left = .ok us ∧ scan .text (p + 1) [] right = .ok vs

variable {us vs : List Token} {p : Nat} {mode' : Mode} {run' : List Char}

/-- Characters that are taken before the slash, whatever comes after them. -/
theorem Divides.step {pos' : Nat} (h : Divides mode' pos' run' rest us p vs) (taken : List Char)
    (g : List Token → List Token) (hp : pos' = pos + byteSize taken)
    (hs : ∀ left, scan mode pos run (taken ++ left) = g <$> scan mode' pos' run' left) :
    Divides mode pos run (taken ++ rest) (g us) p vs := by
  obtain ⟨left, right, rfl, hleft, hl, hr⟩ := h
  refine ⟨taken ++ left, right, by simp, ?_, ?_, hr⟩
  · rw [hleft, hp, byteSize_append, Nat.add_assoc]
  · rw [hs, hl, map_ok]

theorem cons_eq_slash {t : Token} (ht : ∀ p, t ≠ .slash p) (h : t :: ts = us ++ .slash p :: vs) :
    ∃ us', ts = us' ++ .slash p :: vs ∧ us = t :: us' := by
  cases us with
  | nil => exact absurd (List.cons.inj h).1 (ht p)
  | cons u us =>
    obtain ⟨rfl, hts⟩ := List.cons.inj h
    exact ⟨us, hts, rfl⟩

theorem flush_eq_slash (h : flush mode run ts = us ++ .slash p :: vs) :
    ∃ us', ts = us' ++ .slash p :: vs ∧ us = flush mode run us' := by
  unfold flush at h ⊢
  split at h
  · exact ⟨us, h, by simp [*]⟩
  · split at h
    · obtain ⟨us', rfl, rfl⟩ := cons_eq_slash (by simp) h
      exact ⟨us', rfl, by simp [*]⟩
    · obtain ⟨us', rfl, rfl⟩ := cons_eq_slash (by simp) h
      exact ⟨us', rfl, by simp [*]⟩

theorem bind_cons (t : Token) (x : Except Error (List Token)) :
    (do return t :: (← x)) = (t :: ·) <$> x := by
  cases x <;> rfl

theorem started_eq_slash
    (h : (if mode = .text then ts else flush mode run ts) = us ++ .slash p :: vs) :
    ∃ us', ts = us' ++ .slash p :: vs ∧ us = if mode = .text then us' else flush mode run us' := by
  split at h
  · exact ⟨us, h, by simp [*]⟩
  · obtain ⟨us', hts, hus⟩ := flush_eq_slash h
    exact ⟨us', hts, by simp [*]⟩

theorem eq_text_or_space (hp : ∀ start, mode = .parameter start → False)
    (ho : ∀ start, mode = .optional start → False) : mode = .text ∨ mode = .space := by
  cases mode with
  | text => exact .inl rfl
  | space => exact .inr rfl
  | parameter start => exact (hp start rfl).elim
  | optional start => exact (ho start rfl).elim

theorem scan_divides (h : scan mode pos run rest = .ok (us ++ .slash p :: vs)) :
    Divides mode pos run rest us p vs := by
  fun_induction scan mode pos run rest generalizing us with
  | case1 | case2 =>
    obtain ⟨us', hn, -⟩ := flush_eq_slash (Except.ok.inj h)
    exact absurd hn (by simp)
  | case3 => contradiction
  | case4 => contradiction
  | case5 start pos run rest ih =>
    rw [bind_cons, map_eq_ok] at h
    obtain ⟨ts, hts, h⟩ := h
    obtain ⟨us', rfl, rfl⟩ := cons_eq_slash (by simp) h
    refine (ih hts).step ['\x7d'] (_ :: ·) rfl fun left => ?_
    rw [← bind_cons]
    simp [scan]
  | case6 => contradiction
  | case7 start pos run c rest hc hb ih =>
    exact (ih h).step [c] id rfl (by simp [scan, hc, hb])
  | case8 start pos run ih => simp [scan] at h
  | case9 start pos run e rest ih =>
    exact (ih h).step ['\\', e] id (Nat.add_assoc _ _ _) (by simp [scan])
  | case10 => contradiction
  | case11 start pos run rest hr _ ih =>
    rw [bind_cons, map_eq_ok] at h
    obtain ⟨ts, hts, h⟩ := h
    obtain ⟨us', rfl, rfl⟩ := cons_eq_slash (by simp) h
    refine (ih hts).step [')'] (_ :: ·) rfl fun left => ?_
    rw [← bind_cons, List.singleton_append, scan_optional_plain (by decide), if_pos rfl, if_neg hr]
  | case12 => contradiction
  | case13 => contradiction
  | case14 start pos run c rest h₁ h₂ h₃ h₄ ih =>
    refine (ih h).step [c] id rfl fun left => ?_
    rw [List.singleton_append, scan_optional_plain h₁, if_neg h₂, if_neg h₃, if_neg h₄, id_map]
  | case15 mode pos run hp ho started before =>
    rename_i ih
    obtain ⟨ts, hts, h⟩ := map_eq_ok.mp h
    obtain ⟨us', rfl, -⟩ := started_eq_slash h
    obtain ⟨left, right, hrest, -⟩ := ih hts
    simp at hrest
  | case16 mode pos run hp ho started before e rest =>
    rename_i ih
    obtain ⟨ts, hts, h⟩ := map_eq_ok.mp h
    obtain ⟨us', rfl, rfl⟩ := started_eq_slash h
    refine (ih hts).step ['\\', e]
      (fun ts => if mode = .text then ts else flush mode run ts) (Nat.add_assoc _ _ _)
      fun left => ?_
    rw [List.cons_append, List.singleton_append, scan_escaped (eq_text_or_space hp ho)]
  | case17 pos run c rest hc hb hp ho =>
    rename_i ih
    refine (ih h).step [c] id rfl fun left => ?_
    rw [List.singleton_append, scan_plain hc (.inr rfl), if_pos hb, if_pos rfl, id_map]
  | case18 mode pos run c rest hp ho hc hb hm ih =>
    obtain ⟨ts, hts, h⟩ := map_eq_ok.mp h
    obtain ⟨us', rfl, rfl⟩ := flush_eq_slash h
    refine (ih hts).step [c] _ rfl fun left => ?_
    rw [List.singleton_append, scan_plain hc (eq_text_or_space hp ho), if_pos hb, if_neg hm]
  | case19 mode pos run rest hp ho =>
    rename_i ih
    obtain ⟨ts, hts, h⟩ := map_eq_ok.mp h
    obtain ⟨us', rfl, rfl⟩ := flush_eq_slash h
    refine (ih hts).step ['\x7b'] _ rfl fun left => ?_
    rw [List.singleton_append, scan_plain (by decide) (eq_text_or_space hp ho),
      if_neg (by decide), if_pos rfl]
  | case20 mode pos run rest hp ho =>
    rename_i ih
    obtain ⟨ts, hts, h⟩ := map_eq_ok.mp h
    obtain ⟨us', rfl, rfl⟩ := flush_eq_slash h
    refine (ih hts).step ['('] _ rfl fun left => ?_
    rw [List.singleton_append, scan_plain (by decide) (eq_text_or_space hp ho),
      if_neg (by decide), if_neg (by decide), if_pos rfl]
  | case21 mode pos run rest hp ho =>
    rename_i ih
    obtain ⟨ts, hts, h⟩ := map_eq_ok.mp h
    obtain ⟨us', hslash, rfl⟩ := flush_eq_slash h
    cases us' with
    | nil =>
      obtain ⟨hslash, rfl⟩ := List.cons.inj hslash
      cases hslash
      refine ⟨[], rest, rfl, rfl, ?_, hts⟩
      rcases eq_text_or_space hp ho with rfl | rfl <;> rfl
    | cons u us' =>
      obtain ⟨rfl, rfl⟩ := List.cons.inj hslash
      refine (ih hts).step ['/'] (fun ts => flush mode run (.slash pos :: ts)) rfl
        fun left => ?_
      rw [List.singleton_append, scan_plain (by decide) (eq_text_or_space hp ho),
        if_neg (by decide), if_neg (by decide), if_neg (by decide), if_pos rfl]
  | case22 => contradiction
  | case23 mode pos run c rest hp ho started before h₁ h₂ h₃ h₄ h₅ h₆ =>
    rename_i ih
    obtain ⟨ts, hts, h⟩ := map_eq_ok.mp h
    obtain ⟨us', rfl, rfl⟩ := started_eq_slash h
    refine (ih hts).step [c]
      (fun ts => if mode = .text then ts else flush mode run ts) rfl fun left => ?_
    rw [List.singleton_append, scan_plain h₁ (eq_text_or_space hp ho), if_neg h₂, if_neg h₃,
      if_neg h₄, if_neg h₅, if_neg h₆]

theorem tokens_at (source : List Char) : ResultAt source (tokens source) := by
  have hs : RestAt source [] source 0 := ⟨rfl, rfl⟩
  exact scan_at hs trivial

/-- A slash stands between what the tokens before it and those after it stand for. -/
theorem tokens_divides (h : tokens source = .ok (us ++ .slash p :: vs)) :
    ∃ left right, source = left ++ '/' :: right ∧ p = byteSize left ∧
      Reads left (us.flatMap tokenItems) ∧ Reads right (vs.flatMap tokenItems) := by
  obtain ⟨left, right, hs, hp, hleft, hright⟩ := scan_divides h
  obtain ⟨⟨more, hr, he⟩, -⟩ := scan_completes hright
  rw [Nat.zero_add] at hp
  refine ⟨left, right, hs, hp, (tokens_reads hleft).1, ?_⟩
  rw [he]
  exact hr

end Brine.Proofs.ExpressionPositions
