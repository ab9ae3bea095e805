import Brine.Proofs.BuiltinTexts
import Mathlib.Data.Nat.Digits.Defs
import Mathlib.Tactic.Ring

namespace Brine.Proofs.NumberTexts
open Number Text Regex RegexMeaning BuiltinExpressions BuiltinTexts

section Admitted

variable {name : String} {b m a ds : List Char}

theorem admits_iff_fragment [Engine] (type : ParameterType)
    (ht : Registry.get? {} name = some type) :
    Admits {} name m ↔ ∃ r ∈ fragments type, Matches r [] m [] := by
  refine ⟨admits_fragment type ht, ?_⟩
  rintro ⟨r, hr, hm⟩
  obtain ⟨regexp, hp, hc⟩ := List.mem_filterMap.mp hr
  exact ⟨type, ht, regexp, hp, r, toOption_eq_some.mp hc, hm⟩

theorem spans_digit {c : Char} (hc : isDigit c = true) : Spans (.set .digit) b [c] a [] :=
  .set (s := .digit) hc

theorem spans_digits {g : Bool} (hds : ∀ c ∈ ds, isDigit c = true) :
    Spans (.star g (.set .digit)) b ds a [] := by
  induction ds generalizing b with
  | nil => exact .stop
  | cons c ds ih =>
    obtain ⟨hc, hds⟩ := List.forall_mem_cons.mp hds
    exact .more (spans_digit hc) (ih hds)

theorem spans_number {g : Bool} (hne : ds ≠ []) (hds : ∀ c ∈ ds, isDigit c = true) :
    Spans (.plus g (.set .digit)) b ds a [] := by
  obtain ⟨c, ds, rfl⟩ := List.exists_cons_of_ne_nil hne
  obtain ⟨hc, hds⟩ := List.forall_mem_cons.mp hds
  exact .plus (spans_digit hc) (spans_digits hds)

theorem spans_sign (h : m = [] ∨ m = ['-']) : Spans sign b m a [] := by
  rcases h with rfl | rfl
  · exact .skip
  · exact .take (.set (contains_single.mpr rfl))

/-- An integer: a minus or nothing, and digits. -/
theorem admits_int [Engine] : Admits {} "int" m ↔
    ∃ s ds, m = s ++ ds ∧ (s = [] ∨ s = ['-']) ∧ ds ≠ [] ∧ ∀ c ∈ ds, isDigit c = true := by
  rw [admits_iff_fragment .int rfl, fragments_int]
  constructor
  · rintro ⟨r, hr, hm⟩
    obtain rfl := List.mem_singleton.mp hr
    exact matches_int hm
  · rintro ⟨s, ds, rfl, hs, hne, hds⟩
    exact ⟨_, List.mem_singleton_self _, _, .cat (spans_sign hs) (spans_number hne hds)⟩

/-- A number with a point: a minus or nothing, digits or none, a point, and digits. -/
theorem admits_float [Engine] : Admits {} "float" m ↔
    ∃ s whole fraction, m = s ++ (whole ++ '.' :: fraction) ∧ (s = [] ∨ s = ['-']) ∧
      (∀ c ∈ whole, isDigit c = true) ∧ fraction ≠ [] ∧ ∀ c ∈ fraction, isDigit c = true := by
  rw [admits_iff_fragment .float rfl, fragments_float]
  constructor
  · rintro ⟨r, hr, hm⟩
    obtain rfl := List.mem_singleton.mp hr
    exact matches_float hm
  · rintro ⟨s, whole, fraction, rfl, hs, hwhole, hne, hds⟩
    have htail : Spans (.cat (.set (.single '.')) (.plus true (.set .digit))) ([] ++ s ++ whole)
        ('.' :: fraction) [] ([] ++ []) :=
      .cat (m := ['.']) (.set (contains_single.mpr rfl)) (spans_number hne hds)
    exact ⟨_, List.mem_singleton_self _, _, .cat (spans_sign hs) (.cat (spans_digits hwhole) htail)⟩

end Admitted

def Ascii (text : List Char) : Prop :=
  ∀ c ∈ text, c.toNat < 128

-- Decided over the text, since there are instances that go over all characters there are.
instance (text : List Char) : Decidable (Ascii text) :=
  decidable_of_iff (text.all (·.toNat < 128) = true) (by simp [Ascii])

def digitValue (c : Char) : Nat :=
  c.toNat - '0'.toNat

def decimal (ds : List Char) : Nat :=
  Nat.ofDigits 10 (ds.reverse.map digitValue)

/-- The number that a text with or without a minus writes. -/
def signedDecimal : List Char → Int
  | '-' :: ds => -decimal ds
  | ds => decimal ds

theorem decimal_cons (c : Char) (ds : List Char) :
    decimal (c :: ds) = digitValue c * 10 ^ ds.length + decimal ds := by
  simp only [decimal, List.reverse_cons, List.map_append, List.map_cons, List.map_nil,
    Nat.ofDigits_append, Nat.ofDigits_singleton, List.length_map, List.length_reverse]
  ring

theorem digit?_ascii {c : Char} (hc : isDigit c = true) (ha : c.toNat < 128) :
    digit? c = some (digitValue c) := by
  have hrange : ∀ n < 128, isDecimalDigit n = true → 48 ≤ n ∧ n ≤ 57 := by decide
  obtain ⟨hlow, hhigh⟩ := hrange c.toNat ha hc
  have hin : ('0' ≤ c && c ≤ '9') = true := by
    simp only [Bool.and_eq_true, decide_eq_true_eq]
    exact ⟨hlow, hhigh⟩
  rw [digit?, if_pos hin]
  rfl

theorem digit?_foreign {c : Char} (h : 128 ≤ c.toNat) : digit? c = none := by
  have hout : ('0' ≤ c && c ≤ '9') = false := by
    rw [Bool.and_eq_false_iff]
    right
    rw [decide_eq_false_iff_not]
    intro hle
    have hle : c.toNat ≤ 57 := hle
    omega
  rw [digit?, hout]
  rfl

/-- A text with a character outside of ASCII, cut at the first one. -/
theorem exists_foreign {text : List Char} (h : ¬Ascii text) :
    ∃ known c rest, text = known ++ c :: rest ∧ Ascii known ∧ 128 ≤ c.toNat := by
  induction text with
  | nil => exact absurd (by simp [Ascii]) h
  | cons c text ih =>
    by_cases hc : c.toNat < 128
    · have ht : ¬Ascii text := fun ht => h (List.forall_mem_cons.mpr ⟨hc, ht⟩)
      obtain ⟨known, c', rest, rfl, hknown, hc'⟩ := ih ht
      exact ⟨c :: known, c', rest, rfl, List.forall_mem_cons.mpr ⟨hc, hknown⟩, hc'⟩
    · exact ⟨[], c, text, rfl, by simp [Ascii], Nat.le_of_not_lt hc⟩

section Integers

variable {negative : Bool} {ds rest : List Char}

def limit (negative : Bool) : Nat :=
  if negative then 0x8000000000000000 else 0x7fffffffffffffff

def withSign (negative : Bool) (n : Nat) : Int :=
  if negative then -n else n

def beyond (negative : Bool) : IntegerError :=
  if negative then .tooSmall else .tooLarge

/-- A digit more, after a number that is within the limit. -/
theorem readDigits_cons {c : Char} (hc : isDigit c = true) (ha : c.toNat < 128) (n : Nat) :
    readDigits negative (withSign negative n) (c :: rest) =
      if 10 * n + digitValue c ≤ limit negative then
        readDigits negative (withSign negative (10 * n + digitValue c)) rest
      else .error (beyond negative) := by
  have hnext : (if negative then 10 * withSign negative n - digitValue c
      else 10 * withSign negative n + digitValue c) =
        withSign negative (10 * n + digitValue c) := by
    cases negative <;> simp [withSign]
    omega
  rw [readDigits, digit?_ascii hc ha]
  simp only [hnext]
  cases negative <;> simp only [withSign, limit, beyond, leastInteger, greatestInteger] <;>
    split_ifs <;> first | rfl | omega

/-- Digits of ASCII are read as the number that they write, up to the first that takes it beyond the
limit. -/
theorem readDigits_append {n : Nat} (hds : ∀ c ∈ ds, isDigit c = true) (ha : Ascii ds)
    (hn : n ≤ limit negative) (rest : List Char) :
    readDigits negative (withSign negative n) (ds ++ rest) =
      if n * 10 ^ ds.length + decimal ds ≤ limit negative then
        readDigits negative (withSign negative (n * 10 ^ ds.length + decimal ds)) rest
      else .error (beyond negative) := by
  induction ds generalizing n with
  | nil => simp [decimal, hn]
  | cons c ds ih =>
    obtain ⟨hc, hds⟩ := List.forall_mem_cons.mp hds
    obtain ⟨hac, ha⟩ := List.forall_mem_cons.mp ha
    have hv : n * 10 ^ (c :: ds).length + decimal (c :: ds) =
        (10 * n + digitValue c) * 10 ^ ds.length + decimal ds := by
      rw [decimal_cons, List.length_cons]
      ring
    rw [List.cons_append, readDigits_cons hc hac, hv]
    by_cases hle : 10 * n + digitValue c ≤ limit negative
    · rw [if_pos hle, ih hds ha hle]
    · have hge : 10 * n + digitValue c ≤ (10 * n + digitValue c) * 10 ^ ds.length :=
        Nat.le_mul_of_pos_right _ (Nat.pow_pos (by decide))
      rw [if_neg hle, if_neg (by omega)]

theorem readDigits_foreign {c : Char} (hc : 128 ≤ c.toNat) (n : Int) :
    readDigits negative n (c :: rest) = .error .invalidDigit := by
  rw [readDigits, digit?_foreign hc]

/-- The sign says in which direction digits count. -/
theorem readInteger_sign {s : List Char} (hs : s = [] ∨ s = ['-']) (hne : ds ≠ [])
    (hds : ∀ c ∈ ds, isDigit c = true) :
    readInteger (s ++ ds) = readDigits (decide (s = ['-'])) 0 ds := by
  obtain ⟨c, ds, rfl⟩ := List.exists_cons_of_ne_nil hne
  have hc := (List.forall_mem_cons.mp hds).1
  have hplus : c ≠ '+' := by
    rintro rfl
    exact absurd hc (by decide)
  have hminus : c ≠ '-' := by
    rintro rfl
    exact absurd hc (by decide)
  rcases hs with rfl | rfl
  · rw [List.nil_append, readInteger]
    · rfl
    all_goals simp [hplus, hminus]
  · rfl

theorem signedDecimal_sign {s : List Char} (hs : s = [] ∨ s = ['-'])
    (hds : ∀ c ∈ ds, isDigit c = true) :
    signedDecimal (s ++ ds) = withSign (decide (s = ['-'])) (decimal ds) := by
  rcases hs with rfl | rfl
  · cases ds with
    | nil => rfl
    | cons c ds =>
      have hminus : c ≠ '-' := by
        rintro rfl
        exact absurd (hds '-' List.mem_cons_self) (by decide)
      rw [List.nil_append, signedDecimal]
      · rfl
      · simp [hminus]
  · rfl

def fit (v : Int) : Except IntegerError Int :=
  if greatestInteger < v then .error .tooLarge
  else if v < leastInteger then .error .tooSmall
  else .ok v

theorem fit_within {v : Int} (hl : leastInteger ≤ v) (hg : v ≤ greatestInteger) :
    fit v = .ok v := by
  rw [fit, if_neg (Int.not_lt.mpr hg), if_neg (Int.not_lt.mpr hl)]

theorem fit_greater {v : Int} (h : greatestInteger < v) : fit v = .error .tooLarge :=
  if_pos h

theorem fit_less {v : Int} (h : v < leastInteger) : fit v = .error .tooSmall := by
  have hg : ¬greatestInteger < v := by
    simp only [leastInteger, greatestInteger] at h ⊢
    omega
  rw [fit, if_neg hg, if_pos h]

theorem fit_withSign (negative : Bool) (n : Nat) :
    fit (withSign negative n) =
      if n ≤ limit negative then .ok (withSign negative n) else .error (beyond negative) := by
  cases negative <;>
    simp only [fit, withSign, limit, beyond, leastInteger, greatestInteger, Bool.false_eq_true,
      ↓reduceIte] <;>
    split_ifs <;> first | rfl | omega

theorem withSign_zero (negative : Bool) : withSign negative 0 = 0 := by
  cases negative <;> rfl

theorem readInteger_ascii [Engine] {text : List Char} (h : Admits {} "int" text) (ha : Ascii text) :
    readInteger text = fit (signedDecimal text) := by
  obtain ⟨s, ds, rfl, hs, hne, hds⟩ := admits_int.mp h
  have hds' : Ascii ds := fun c hc => ha c (List.mem_append_right s hc)
  have hr := readDigits_append hds hds' (Nat.zero_le (limit (decide (s = ['-'])))) []
  rw [Nat.zero_mul, Nat.zero_add, List.append_nil] at hr
  rw [readInteger_sign hs hne hds, signedDecimal_sign hs hds, fit_withSign,
    ← withSign_zero (decide (s = ['-'])), hr]
  rfl

theorem readInteger_foreign [Engine] {text : List Char} (h : Admits {} "int" text)
    (ha : ¬Ascii text) :
    ∃ e, readInteger text = .error e := by
  obtain ⟨s, ds, rfl, hs, hne, hds⟩ := admits_int.mp h
  have hs' : Ascii s := by
    rcases hs with rfl | rfl <;> decide
  have hds' : ¬Ascii ds := fun hds' => ha (List.forall_mem_append.mpr ⟨hs', hds'⟩)
  obtain ⟨known, c, rest, rfl, hknown, hc⟩ := exists_foreign hds'
  have hr := readDigits_append (List.forall_mem_append.mp hds).1 hknown
    (Nat.zero_le (limit (decide (s = ['-'])))) (c :: rest)
  rw [readInteger_sign hs hne hds, ← withSign_zero (decide (s = ['-'])), hr]
  split
  · exact ⟨_, readDigits_foreign hc _⟩
  · exact ⟨_, rfl⟩

end Integers

section Points

open Binary64

variable {negative : Bool} {whole fraction rest : List Char}

theorem leadingDigits_append {ds : List Char} (hds : ∀ c ∈ ds, isDigit c = true) (ha : Ascii ds)
    (hrest : ∀ c ∈ rest.head?, digit? c = none) :
    leadingDigits (ds ++ rest) = (ds.map digitValue, rest) := by
  have hdigit : ∀ c ∈ ds, digit? c = some (digitValue c) := fun c hc =>
    digit?_ascii (hds c hc) (ha c hc)
  have hsome : ∀ c ∈ ds, (digit? c).isSome = true := by
    intro c hc
    rw [hdigit c hc]
    rfl
  have htake : rest.takeWhile (digit? · |>.isSome) = [] := by
    cases rest with
    | nil => rfl
    | cons c rest => simp [hrest c rfl]
  have hdrop : rest.dropWhile (digit? · |>.isSome) = rest := by
    cases rest with
    | nil => rfl
    | cons c rest => simp [hrest c rfl]
  rw [leadingDigits, List.takeWhile_append_of_pos hsome, List.dropWhile_append_of_pos hsome, htake,
    hdrop, List.append_nil, List.filterMap_congr hdigit, List.filterMap_eq_map']

theorem readExponent_foreign {c : Char} (hc : 128 ≤ c.toNat) : readExponent (c :: rest) = none := by
  have hne : ¬(c = 'e' ∨ c = 'E') := by
    rintro (rfl | rfl) <;> exact absurd hc (by decide)
  unfold readExponent
  exact if_neg hne

/-- A number with a point in digits of ASCII. -/
theorem readUnsigned_point (hwhole : ∀ c ∈ whole, isDigit c = true) (haw : Ascii whole)
    (hfraction : ∀ c ∈ fraction, isDigit c = true) (haf : Ascii fraction) (hne : fraction ≠ []) :
    readUnsigned negative (whole ++ '.' :: fraction) =
      some (ofDecimal negative (ofDigits 0 ((whole ++ fraction).map digitValue))
        (-fraction.length)) := by
  have hw : leadingDigits (whole ++ '.' :: fraction) = (whole.map digitValue, '.' :: fraction) :=
    leadingDigits_append hwhole haw (by simp; decide)
  have hf : leadingDigits fraction = (fraction.map digitValue, []) := by
    have hend : ∀ c ∈ ([] : List Char).head?, digit? c = none := by simp
    have h := leadingDigits_append hfraction haf hend
    rwa [List.append_nil] at h
  simp [readUnsigned, hw, hf, hne, readExponent]

theorem readUnsigned_foreign {known : List Char} {c : Char}
    (hknown : ∀ c ∈ known, isDigit c = true) (ha : Ascii known) (hc : 128 ≤ c.toNat) :
    readUnsigned negative (known ++ c :: rest) = none := by
  have hk : leadingDigits (known ++ c :: rest) = (known.map digitValue, c :: rest) :=
    leadingDigits_append hknown ha (by simp [digit?_foreign hc])
  have hdot : c ≠ '.' := by
    rintro rfl
    exact absurd hc (by decide)
  simp [readUnsigned, hk, hdot, readExponent_foreign hc]

theorem readUnsigned_foreign_fraction {known : List Char} {c : Char}
    (hwhole : ∀ c ∈ whole, isDigit c = true) (haw : Ascii whole)
    (hknown : ∀ c ∈ known, isDigit c = true) (ha : Ascii known) (hc : 128 ≤ c.toNat) :
    readUnsigned negative (whole ++ '.' :: (known ++ c :: rest)) = none := by
  have hw : leadingDigits (whole ++ '.' :: (known ++ c :: rest)) =
      (whole.map digitValue, '.' :: (known ++ c :: rest)) :=
    leadingDigits_append hwhole haw (by simp; decide)
  have hk : leadingDigits (known ++ c :: rest) = (known.map digitValue, c :: rest) :=
    leadingDigits_append hknown ha (by simp [digit?_foreign hc])
  simp [readUnsigned, hw, hk, readExponent_foreign hc]

/-- No number is named with a point. -/
theorem readNamed_point {text : List Char} (h : '.' ∈ text) : readNamed negative text = none := by
  have hdot : '.' ∈ text.map Char.toLower := List.mem_map.mpr ⟨'.', h, rfl⟩
  have hname : ∀ name : String, '.' ∉ name.toList →
      String.ofList (text.map Char.toLower) ≠ name := by
    rintro name hn rfl
    simp [hdot] at hn
  unfold readNamed
  split
  · exact absurd ‹_› (hname "inf" (by decide))
  · exact absurd ‹_› (hname "infinity" (by decide))
  · exact absurd ‹_› (hname "nan" (by decide))
  · rfl

theorem read_sign {s : List Char} (hs : s = [] ∨ s = ['-'])
    (hwhole : ∀ c ∈ whole, isDigit c = true) :
    Binary64.read (s ++ (whole ++ '.' :: fraction)) =
      match readUnsigned (decide (s = ['-'])) (whole ++ '.' :: fraction) with
      | some x => .ok x
      | none => .error .invalid := by
  have hnamed : ∀ negative, readNamed negative (whole ++ '.' :: fraction) = none := fun negative =>
    readNamed_point (List.mem_append_right _ List.mem_cons_self)
  rcases hs with rfl | rfl
  · obtain ⟨c, more, he, hplus, hminus⟩ :
        ∃ c more, whole ++ '.' :: fraction = c :: more ∧ c ≠ '+' ∧ c ≠ '-' := by
      cases whole with
      | nil => exact ⟨'.', fraction, rfl, by decide, by decide⟩
      | cons c whole =>
        have hc := hwhole c List.mem_cons_self
        refine ⟨c, whole ++ '.' :: fraction, rfl, ?_, ?_⟩ <;> rintro rfl <;>
          exact absurd hc (by decide)
    rw [he] at hnamed
    rw [List.nil_append, he]
    cases hr : readUnsigned false (c :: more) <;>
      simp [Binary64.read, hplus, hminus, hnamed, hr]
  · cases hr : readUnsigned true (whole ++ '.' :: fraction) <;> simp [Binary64.read, hnamed, hr]

theorem read_ascii [Engine] {text : List Char} (h : Admits {} "float" text) (ha : Ascii text) :
    ∃ x, Binary64.read text = .ok x := by
  obtain ⟨s, whole, fraction, rfl, hs, hwhole, hne, hfraction⟩ := admits_float.mp h
  have hawhole : Ascii whole := fun c hc => ha c (by simp [hc])
  have hafraction : Ascii fraction := fun c hc => ha c (by simp [hc])
  rw [read_sign hs hwhole, readUnsigned_point hwhole hawhole hfraction hafraction hne]
  exact ⟨_, rfl⟩

theorem read_foreign [Engine] {text : List Char} (h : Admits {} "float" text) (ha : ¬Ascii text) :
    Binary64.read text = .error .invalid := by
  obtain ⟨s, whole, fraction, rfl, hs, hwhole, hne, hfraction⟩ := admits_float.mp h
  rw [read_sign hs hwhole]
  by_cases hawhole : Ascii whole
  · have hafraction : ¬Ascii fraction := by
      intro hafraction
      have hs' : Ascii s := by
        rcases hs with rfl | rfl <;> decide
      refine ha (List.forall_mem_append.mpr ⟨hs', List.forall_mem_append.mpr ⟨hawhole, ?_⟩⟩)
      exact List.forall_mem_cons.mpr ⟨by decide, hafraction⟩
    obtain ⟨known, c, rest, rfl, hknown, hc⟩ := exists_foreign hafraction
    have hdigits := (List.forall_mem_append.mp hfraction).1
    rw [readUnsigned_foreign_fraction hwhole hawhole hdigits hknown hc]
  · obtain ⟨known, c, rest, rfl, hknown, hc⟩ := exists_foreign hawhole
    rw [List.append_assoc, List.cons_append,
      readUnsigned_foreign (List.forall_mem_append.mp hwhole).1 hknown hc]

end Points

/-- An integer in ASCII is converted to the number that it writes, or is refused as too large or too
small for 64 bits, and a number with a point in ASCII is always converted. No text with a digit of
another script is converted, though the types admit it. -/
theorem numbers_convert [Engine] (s : String) :
    (Admits {} "int" s.toList →
      (Ascii s.toList →
        (leastInteger ≤ signedDecimal s.toList → signedDecimal s.toList ≤ greatestInteger →
          ParameterType.int.transform s = .ok (.int (signedDecimal s.toList))) ∧
        (greatestInteger < signedDecimal s.toList → ParameterType.int.transform s =
          .error (.transform "int" s "number too large to fit in target type")) ∧
        (signedDecimal s.toList < leastInteger → ParameterType.int.transform s =
          .error (.transform "int" s "number too small to fit in target type"))) ∧
      (¬Ascii s.toList →
        ∃ reason, ParameterType.int.transform s = .error (.transform "int" s reason))) ∧
    (Admits {} "float" s.toList →
      (Ascii s.toList → ∃ x, ParameterType.float.transform s = .ok (.float x)) ∧
      (¬Ascii s.toList → ParameterType.float.transform s =
        .error (.transform "float" s "invalid float literal"))) := by
  have hint : ParameterType.int.transform s = ParameterType.toInt s := rfl
  have hfloat : ParameterType.float.transform s = ParameterType.toFloat s := rfl
  rw [hint, hfloat, ParameterType.toInt, ParameterType.toFloat]
  constructor
  · intro h
    constructor
    · intro ha
      rw [readInteger_ascii h ha]
      refine ⟨?_, ?_, ?_⟩
      · intro hl hg
        rw [fit_within hl hg]
      · intro hg
        rw [fit_greater hg]
        rfl
      · intro hl
        rw [fit_less hl]
        rfl
    · intro ha
      obtain ⟨e, he⟩ := readInteger_foreign h ha
      rw [he]
      exact ⟨_, rfl⟩
  · intro h
    constructor
    · intro ha
      obtain ⟨x, hx⟩ := read_ascii h ha
      rw [hx]
      exact ⟨x, rfl⟩
    · intro ha
      rw [read_foreign h ha]
      rfl

theorem numbers_convert_sample :
    (Admits {} "int" "-42".toList ∧ Ascii "-42".toList ∧
      ParameterType.int.transform "-42" = .ok (.int (-42))) ∧
    (Admits {} "int" "-9223372036854775809".toList ∧ Ascii "-9223372036854775809".toList ∧
      ParameterType.int.transform "-9223372036854775809" = .error (.transform "int"
        "-9223372036854775809" "number too small to fit in target type")) ∧
    (Admits {} "float" "-.5".toList ∧ Ascii "-.5".toList ∧
      ∃ x, ParameterType.float.transform "-.5" = .ok (.float x)) := by
  have hfew : Admits {} "int" "-42".toList :=
    admits_int.mpr ⟨['-'], ['4', '2'], rfl, .inr rfl, by decide, List.all_eq_true.mp rfl⟩
  have hmany : Admits {} "int" "-9223372036854775809".toList :=
    admits_int.mpr ⟨['-'], "9223372036854775809".toList, by decide, .inr rfl, by decide,
      List.all_eq_true.mp (by decide)⟩
  have hpoint : Admits {} "float" "-.5".toList :=
    admits_float.mpr ⟨['-'], [], ['5'], rfl, .inr rfl, by simp, by decide,
      List.all_eq_true.mp rfl⟩
  refine ⟨⟨hfew, by decide, ?_⟩, ⟨hmany, by decide, ?_⟩, ⟨hpoint, by decide, ?_⟩⟩
  · exact (((numbers_convert "-42").1 hfew).1 (by decide)).1 (by decide) (by decide)
  · exact (((numbers_convert "-9223372036854775809").1 hmany).1 (by decide)).2.2 (by decide)
  · exact ((numbers_convert "-.5").2 hpoint).1 (by decide)

/-- The digits of another script are admitted and not converted: a three, and three and a half. -/
theorem foreign_digits_refused :
    (Admits {} "int" "\u0663".toList ∧ ParameterType.int.transform "\u0663" =
      .error (.transform "int" "\u0663" "invalid digit found in string")) ∧
    (Admits {} "float" "\u0663.\u0665".toList ∧ ParameterType.float.transform "\u0663.\u0665" =
      .error (.transform "float" "\u0663.\u0665" "invalid float literal")) := by
  refine ⟨⟨?_, by decide⟩, ⟨?_, by decide⟩⟩
  · exact admits_int.mpr ⟨[], ['\u0663'], rfl, .inl rfl, by decide, List.all_eq_true.mp rfl⟩
  · exact admits_float.mpr ⟨[], ['\u0663'], ['\u0665'], rfl, .inl rfl, List.all_eq_true.mp rfl,
      by decide, List.all_eq_true.mp rfl⟩

end Brine.Proofs.NumberTexts
