import Brine.Proofs.BuiltinExpressions

namespace Brine.Proofs.BuiltinTexts
open Regex RegexMeaning ExpressionReading BuiltinExpressions Text

variable {b m a b' a' ext : List Char} {ms : List Mark} {q : Char}

/-- What the times of a repetition keep, from the last to the first. -/
theorem spans_star_elim {P : List Char → Prop} {g : Bool} {r : Regex}
    (h : Spans (.star g r) b m a ms)
    (hstep : ∀ b m a rest, Matches r b m a → P rest → P (m ++ rest))
    {rest : List Char} (hr : P rest) : P (m ++ rest) := by
  generalize he : Regex.star g r = x at h
  induction h with
  | stop => exact hr
  | more h₁ _ _ ih =>
    cases he
    rw [List.append_assoc]
    exact hstep _ _ _ _ ⟨_, h₁⟩ (ih rfl)
  | _ => contradiction

theorem matches_set {s : CharSet} (h : Matches (.set s) b m a) :
    ∃ c, m = [c] ∧ s.contains c = true := by
  obtain ⟨_, h⟩ := h
  cases h with
  | set hc => exact ⟨_, rfl, hc⟩

theorem matches_single (h : Matches (.set (.single q)) b m a) : m = [q] := by
  obtain ⟨c, rfl, hc⟩ := matches_set h
  rw [contains_single.mp hc]

theorem matches_cat {x y : Regex} (h : Matches (.cat x y) b m a) :
    ∃ m₁ m₂ b₁ a₁, m = m₁ ++ m₂ ∧ Matches x b m₁ a₁ ∧ Matches y b₁ m₂ a := by
  obtain ⟨_, h⟩ := h
  obtain ⟨m₁, m₂, ms₁, ms₂, rfl, rfl, h₁, h₂⟩ := spans_cat.mp h
  exact ⟨m₁, m₂, _, _, rfl, ⟨_, h₁⟩, ⟨_, h₂⟩⟩

def isDigit (c : Char) : Bool :=
  isDecimalDigit c.toNat

theorem matches_digits {g : Bool} (h : Matches (.star g (.set .digit)) b m a) :
    ∀ c ∈ m, isDigit c = true := by
  obtain ⟨_, h⟩ := h
  have hall : ∀ c ∈ m ++ [], isDigit c = true := by
    refine spans_star_elim (P := fun m => ∀ c ∈ m, isDigit c = true) h
      (fun b m a rest hm hr => ?_) (by simp)
    obtain ⟨c, rfl, hc⟩ := matches_set hm
    exact List.forall_mem_cons.mpr ⟨hc, hr⟩
  simpa using hall

theorem matches_number {g : Bool} (h : Matches (.plus g (.set .digit)) b m a) :
    m ≠ [] ∧ ∀ c ∈ m, isDigit c = true := by
  obtain ⟨_, h⟩ := h
  cases h with
  | plus h₁ h₂ =>
    obtain ⟨c, rfl, hc⟩ := matches_set ⟨_, h₁⟩
    exact ⟨by simp, List.forall_mem_cons.mpr ⟨hc, matches_digits ⟨_, h₂⟩⟩⟩

def sign : Regex :=
  .opt true (.set (.single '-'))

theorem matches_sign (h : Matches sign b m a) : m = [] ∨ m = ['-'] := by
  obtain ⟨_, h⟩ := h
  rcases spans_opt.mp h with ⟨rfl, -⟩ | h
  · exact .inl rfl
  · exact .inr (matches_single ⟨_, h⟩)

def intRegex : Regex :=
  .cat sign (.plus true (.set .digit))

theorem matches_int (h : Matches intRegex b m a) :
    ∃ s ds, m = s ++ ds ∧ (s = [] ∨ s = ['-']) ∧ ds ≠ [] ∧ ∀ c ∈ ds, isDigit c = true := by
  obtain ⟨s, ds, _, _, rfl, hs, hds⟩ := matches_cat h
  obtain ⟨hne, hdigits⟩ := matches_number hds
  exact ⟨s, ds, rfl, matches_sign hs, hne, hdigits⟩

theorem int_extends (h : Matches intRegex b m a) (h' : Matches intRegex b' (m ++ ext) a') :
    ∀ c ∈ ext, isDigit c = true := by
  obtain ⟨s, ds, rfl, hs, hne, hds⟩ := matches_int h
  obtain ⟨s', ds', he, hs', -, hds'⟩ := matches_int h'
  have hminus : isDigit '-' = false := by decide
  obtain ⟨d, ds, rfl⟩ := List.exists_cons_of_ne_nil hne
  have hd : d ≠ '-' := by
    rintro rfl
    simp [hminus] at hds
  have hss : s = s' := by
    rcases hs with rfl | rfl <;> rcases hs' with rfl | rfl
    · rfl
    · simp [hd] at he
    · rw [List.nil_append] at he
      have := hds' '-' (by simp [← he])
      simp [hminus] at this
    · rfl
  subst hss
  rw [List.append_assoc, List.append_cancel_left_eq] at he
  intro c hc
  exact hds' c (by simp [← he, hc])

def floatRegex : Regex :=
  .cat sign (.cat (.star true (.set .digit)) (.cat (.set (.single '.')) (.plus true (.set .digit))))

theorem matches_float (h : Matches floatRegex b m a) :
    ∃ s whole fraction, m = s ++ (whole ++ '.' :: fraction) ∧ (s = [] ∨ s = ['-']) ∧
      (∀ c ∈ whole, isDigit c = true) ∧ fraction ≠ [] ∧ ∀ c ∈ fraction, isDigit c = true := by
  obtain ⟨s, _, _, _, rfl, hs, h⟩ := matches_cat h
  obtain ⟨whole, _, _, _, rfl, hwhole, h⟩ := matches_cat h
  obtain ⟨dot, fraction, _, _, rfl, hdot, hfraction⟩ := matches_cat h
  rw [matches_single hdot]
  obtain ⟨hne, hdigits⟩ := matches_number hfraction
  exact ⟨s, whole, fraction, rfl, matches_sign hs, matches_digits hwhole, hne, hdigits⟩

/-- What stands before the point of a number has none. -/
theorem ne_point {s whole : List Char} (hs : s = [] ∨ s = ['-'])
    (hwhole : ∀ c ∈ whole, isDigit c = true) : ∀ c ∈ s ++ whole, ¬c = '.' := by
  rintro c hm rfl
  rcases List.mem_append.mp hm with hm | hm
  · rcases hs with rfl | rfl <;> simp at hm
  · exact absurd (hwhole '.' hm) (by decide)

theorem float_extends (h : Matches floatRegex b m a) (h' : Matches floatRegex b' (m ++ ext) a') :
    ∀ c ∈ ext, isDigit c = true := by
  obtain ⟨s, whole, fraction, rfl, hs, hwhole, -, -⟩ := matches_float h
  obtain ⟨s', whole', fraction', he, hs', hwhole', -, hfraction'⟩ := matches_float h'
  rw [← List.append_assoc, ← List.append_assoc, List.append_assoc, List.cons_append] at he
  obtain ⟨-, -, rfl⟩ := cut_unique (ne_point hs hwhole) (ne_point hs' hwhole') rfl rfl he
  intro c hc
  exact hfraction' c (List.mem_append_right _ hc)

/-- What stands after an opening quote, up to the first quote that is not escaped. The end of a line
cannot be escaped. -/
inductive Inside (q : Char) : List Char → Prop
  | close : Inside q [q]
  | char {c : Char} {m : List Char} : c ≠ q → c ≠ '\\' → Inside q m → Inside q (c :: m)
  | escaped {c : Char} {m : List Char} : c ≠ '\n' → Inside q m → Inside q ('\\' :: c :: m)

theorem Inside.extends_nil (h : Inside q m) (hq : q ≠ '\\') (h' : Inside q (m ++ ext)) :
    ext = [] := by
  induction h with
  | close =>
    cases h' with
    | close => rfl
    | char hc _ _ => contradiction
    | escaped _ _ => contradiction
  | char hc hb _ ih =>
    generalize he : _ :: _ ++ ext = m' at h'
    cases h' with
    | close => simp_all
    | char _ _ h' => exact ih (by simp_all)
    | escaped _ _ => simp_all
  | escaped _ _ ih =>
    generalize he : _ :: _ :: _ ++ ext = m' at h'
    cases h' with
    | close => simp_all
    | char _ hb _ => exact absurd (List.cons.inj he).1.symm hb
    | escaped _ h' => exact ih (by simp_all)

theorem contains_other {c d : Char} :
    (CharSet.complement (.single c)).contains d = true ↔ d ≠ c := by
  rw [Ne, ← contains_single, CharSet.contains, CharSet.holds, Bool.not_eq_true',
    Bool.not_eq_true, CharSet.contains]

theorem contains_plain {c : Char} :
    (CharSet.complement (.union (.union .empty (.single q)) (.single '\\'))).contains c = true ↔
      c ≠ q ∧ c ≠ '\\' := by
  rw [Ne, Ne, ← contains_single, ← contains_single (d := c)]
  simp [CharSet.contains, CharSet.holds]

def plain (q : Char) : Regex :=
  .star true (.set (.complement (.union (.union .empty (.single q)) (.single '\\'))))

theorem matches_plain {rest : List Char} (h : Matches (plain q) b m a) (hr : Inside q rest) :
    Inside q (m ++ rest) := by
  obtain ⟨_, h⟩ := h
  refine spans_star_elim h (fun b m a rest hm hr => ?_) hr
  obtain ⟨c, rfl, hc⟩ := matches_set hm
  obtain ⟨hq, hb⟩ := contains_plain.mp hc
  exact .char hq hb hr

def quotedRegex (q : Char) : Regex :=
  .cat (.set (.single q))
    (.cat (.cat (plain q) (.star true (.cat (.set (.single '\\'))
        (.cat (.set (.complement (.single '\n'))) (plain q)))))
      (.set (.single q)))

theorem matches_quoted (h : Matches (quotedRegex q) b m a) : ∃ m', m = q :: m' ∧ Inside q m' := by
  obtain ⟨_, _, _, _, rfl, hopen, h⟩ := matches_cat h
  obtain ⟨_, _, _, _, rfl, h, hclose⟩ := matches_cat h
  obtain ⟨m₁, m₂, _, _, rfl, h₁, _, h₂⟩ := matches_cat h
  rw [matches_single hopen, matches_single hclose]
  have htail : Inside q (m₂ ++ [q]) := by
    refine spans_star_elim (P := Inside q) h₂ (fun b m a rest hm hr => ?_) .close
    obtain ⟨_, m₃, _, _, rfl, hb, hm₃⟩ := matches_cat hm
    obtain ⟨_, m₄, _, _, rfl, hany, hm₄⟩ := matches_cat hm₃
    obtain ⟨c, rfl, hc⟩ := matches_set hany
    rw [matches_single hb]
    have hin : Inside q (m₄ ++ rest) := matches_plain hm₄ hr
    exact .escaped (contains_other.mp hc) hin
  refine ⟨_, rfl, ?_⟩
  simpa using matches_plain h₁ htail

theorem quoted_extends {q' : Char} (hq : q ≠ '\\') (h : Matches (quotedRegex q) b m a)
    (h' : Matches (quotedRegex q') b' (m ++ ext) a') : ext = [] := by
  obtain ⟨m₁, rfl, h₁⟩ := matches_quoted h
  obtain ⟨m₂, he, h₂⟩ := matches_quoted h'
  obtain ⟨rfl, rfl⟩ := List.cons.inj he
  exact h₁.extends_nil hq h₂

variable [Engine]

theorem fragments_int : fragments .int = [intRegex] := by
  rw [fragments_builtin (by simp [ParameterType.builtins])]
  rfl

theorem fragments_float : fragments .float = [floatRegex] := by
  rw [fragments_builtin (by simp [ParameterType.builtins])]
  rfl

theorem fragments_string : fragments .string = [quotedRegex '"', quotedRegex '\''] := by
  rw [fragments_builtin (by simp [ParameterType.builtins])]
  rfl

theorem admits_fragment {name : String} (type : ParameterType)
    (ht : Registry.get? {} name = some type) (h : Admits {} name m) :
    ∃ r ∈ fragments type, Matches r [] m [] := by
  obtain ⟨type', ht', regexp, hm, r, hc, hr⟩ := h
  obtain rfl : type = type' := Option.some.inj (ht.symm.trans ht')
  exact ⟨r, List.mem_filterMap.mpr ⟨regexp, hm, toOption_eq_some.mpr hc⟩, hr⟩

/-- A text of one of these types has a digit, a point or a quote. -/
theorem admits_marked {name : String} (hname : name ∈ ["int", "float", "string"])
    (h : Admits {} name m) : ∃ c ∈ m, isDigit c = true ∨ c ∈ ['.', '"', '\''] := by
  simp only [List.mem_cons, List.not_mem_nil, or_false] at hname
  rcases hname with rfl | rfl | rfl
  · obtain ⟨r, hr, hm⟩ := admits_fragment .int rfl h
    rw [fragments_int, List.mem_singleton] at hr
    subst hr
    obtain ⟨s, ds, rfl, -, hne, hds⟩ := matches_int hm
    obtain ⟨d, hd⟩ := List.exists_mem_of_ne_nil ds hne
    exact ⟨d, List.mem_append_right s hd, .inl (hds d hd)⟩
  · obtain ⟨r, hr, hm⟩ := admits_fragment .float rfl h
    rw [fragments_float, List.mem_singleton] at hr
    subst hr
    obtain ⟨s, whole, fraction, rfl, -⟩ := matches_float hm
    exact ⟨'.', by simp, .inr (by simp)⟩
  · obtain ⟨r, hr, hm⟩ := admits_fragment .string rfl h
    rw [fragments_string, List.mem_pair] at hr
    rcases hr with rfl | rfl
    all_goals
      obtain ⟨m', rfl, -⟩ := matches_quoted hm
      exact ⟨_, List.mem_cons_self, .inr (by simp)⟩

/-- A text of one of these types that is longer than another has more digits only. -/
theorem admits_extends {name : String} (hname : name ∈ ["int", "float", "string"])
    (h : Admits {} name m) (h' : Admits {} name (m ++ ext)) : ∀ c ∈ ext, isDigit c = true := by
  simp only [List.mem_cons, List.not_mem_nil, or_false] at hname
  rcases hname with rfl | rfl | rfl
  · obtain ⟨r, hr, hm⟩ := admits_fragment .int rfl h
    obtain ⟨r', hr', hm'⟩ := admits_fragment .int rfl h'
    rw [fragments_int, List.mem_singleton] at hr hr'
    subst hr hr'
    exact int_extends hm hm'
  · obtain ⟨r, hr, hm⟩ := admits_fragment .float rfl h
    obtain ⟨r', hr', hm'⟩ := admits_fragment .float rfl h'
    rw [fragments_float, List.mem_singleton] at hr hr'
    subst hr hr'
    exact float_extends hm hm'
  · obtain ⟨r, hr, hm⟩ := admits_fragment .string rfl h
    obtain ⟨r', hr', hm'⟩ := admits_fragment .string rfl h'
    rw [fragments_string, List.mem_pair] at hr hr'
    have hnil : ext = [] := by
      rcases hr with rfl | rfl <;> rcases hr' with rfl | rfl <;>
        exact quoted_extends (by decide) hm hm'
    simp [hnil]

end Brine.Proofs.BuiltinTexts
