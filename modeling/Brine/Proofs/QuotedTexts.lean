import Brine.Proofs.BuiltinTexts
import Brine.Proofs.Replacing

namespace Brine.Proofs.QuotedTexts
open Regex RegexMeaning BuiltinExpressions BuiltinTexts Replacing Text

/-- A part of what stands between quotes: a character, or a backslash and the character that it
escapes. -/
inductive Piece where
  | char (c : Char)
  | pair (c : Char)

namespace Piece

def written : Piece → List Char
  | char c => [c]
  | pair c => ['\\', c]

/-- What is left of the piece without the quotes around it: a quote loses its backslash. -/
def value (q : Char) : Piece → List Char
  | char c => [c]
  | pair c => if c = q then [q] else ['\\', c]

/-- The piece can stand between quotes `q`. -/
def Fits (q : Char) : Piece → Prop
  | char c => c ≠ q ∧ c ≠ '\\'
  | pair c => c ≠ '\n'

end Piece

def written (pieces : List Piece) : List Char :=
  pieces.flatMap Piece.written

def value (q : Char) (pieces : List Piece) : List Char :=
  pieces.flatMap (Piece.value q)

/-- The text with quotes around it. -/
def quoted (q : Char) (text : List Char) : List Char :=
  q :: (text ++ [q])

/-- The text with a backslash before each quote. -/
def escapeQuotes (q : Char) (text : List Char) : List Char :=
  text.flatMap fun c => if c = q then ['\\', q] else [c]

variable {q : Char} {text b m a : List Char} {pieces : List Piece}

theorem written_of_inside (h : Inside q m) :
    ∃ pieces, (∀ p ∈ pieces, p.Fits q) ∧ m = written pieces ++ [q] := by
  induction h with
  | close => exact ⟨[], by simp, rfl⟩
  | char hq hb _ ih =>
    obtain ⟨pieces, hfits, rfl⟩ := ih
    exact ⟨.char _ :: pieces, List.forall_mem_cons.mpr ⟨⟨hq, hb⟩, hfits⟩, rfl⟩
  | escaped hc _ ih =>
    obtain ⟨pieces, hfits, rfl⟩ := ih
    exact ⟨.pair _ :: pieces, List.forall_mem_cons.mpr ⟨hc, hfits⟩, rfl⟩

def between (q : Char) : Regex :=
  .cat (plain q) (.star true (.cat (.set (.single '\\'))
    (.cat (.set (.complement (.single '\n'))) (plain q))))

theorem matches_written (h : ∀ p ∈ pieces, p.Fits q) :
    Matches (between q) b (written pieces) a := by
  induction pieces generalizing b with
  | nil => exact ⟨_, .cat .stop .stop⟩
  | cons p pieces ih =>
    obtain ⟨hp, hrest⟩ := List.forall_mem_cons.mp h
    cases p with
    | char c =>
      obtain ⟨_, hs⟩ := ih (b := b ++ [c]) hrest
      obtain ⟨m₁, m₂, _, _, he, -, hplain, hpairs⟩ := spans_cat.mp hs
      have hc : Spans (plain q) b (c :: m₁) (m₂ ++ a) _ :=
        .more (m := [c]) (.set (contains_plain.mpr hp)) hplain
      have hw : written (.char c :: pieces) = c :: m₁ ++ m₂ := congrArg (c :: ·) he
      rw [hw]
      exact ⟨_, .cat hc (by simpa using hpairs)⟩
    | pair c =>
      obtain ⟨_, hs⟩ := ih (b := b ++ ['\\', c]) hrest
      obtain ⟨m₁, m₂, _, _, he, -, hplain, hpairs⟩ := spans_cat.mp hs
      have hc : Spans (.cat (.set (.complement (.single '\n'))) (plain q)) (b ++ ['\\']) (c :: m₁)
          (m₂ ++ a) _ :=
        .cat (m := [c]) (.set (contains_other.mpr hp)) (by simpa using hplain)
      have hpair : Spans (.cat (.set (.single '\\'))
          (.cat (.set (.complement (.single '\n'))) (plain q))) b ('\\' :: c :: m₁) (m₂ ++ a) _ :=
        .cat (m := ['\\']) (.set (contains_single.mpr rfl)) hc
      have hw : written (.pair c :: pieces) = '\\' :: c :: m₁ ++ m₂ :=
        congrArg (['\\', c] ++ ·) he
      rw [hw]
      have hstar := Spans.more (g := true) (by simpa using hpair) (by simpa using hpairs)
      exact ⟨_, .cat (m := []) .stop (by simpa using hstar)⟩

/-- A pattern matches the texts in its quotes that consist of characters and pairs. -/
theorem matches_quoted_iff : Matches (quotedRegex q) b m a ↔
    ∃ pieces, (∀ p ∈ pieces, p.Fits q) ∧ m = quoted q (written pieces) := by
  constructor
  · intro h
    obtain ⟨m, rfl, hin⟩ := matches_quoted h
    obtain ⟨pieces, hfits, rfl⟩ := written_of_inside hin
    exact ⟨pieces, hfits, rfl⟩
  · rintro ⟨pieces, hfits, rfl⟩
    obtain ⟨_, hbetween⟩ := matches_written (b := b ++ [q]) (a := q :: a) hfits
    have hclose : Spans (.set (.single q)) (b ++ [q] ++ written pieces) [q] a [] :=
      .set (contains_single.mpr rfl)
    exact ⟨_, .cat (m := [q]) (.set (contains_single.mpr rfl)) (.cat hbetween hclose)⟩

/-- What stands between quotes does not go on with a quote. -/
theorem not_prefix_written (hq : q ≠ '\\') (h : ∀ p ∈ pieces, p.Fits q) :
    ¬[q] <+: written pieces := by
  cases pieces with
  | nil => simp [written]
  | cons p pieces =>
    cases p with
    | char c =>
      have hc : c ≠ q := (h _ List.mem_cons_self).1
      simpa [written, Piece.written] using hc.symm
    | pair c => simpa [written, Piece.written] using hq

/-- Replacing acts on one piece after the other. -/
theorem replace_written (hq : q ≠ '\\') (h : ∀ p ∈ pieces, p.Fits q) :
    replace ['\\', q] [q] (written pieces) = value q pieces := by
  induction pieces with
  | nil => exact replace_nil
  | cons p pieces ih =>
    obtain ⟨hp, hrest⟩ := List.forall_mem_cons.mp h
    cases p with
    | char c =>
      have hc : ¬['\\', q] <+: c :: written pieces := by
        rw [List.cons_prefix_cons]
        exact fun hs => hp.2 hs.1.symm
      exact (replace_cons hc).trans (congrArg (c :: ·) (ih hrest))
    | pair c =>
      have hw : written (.pair c :: pieces) = '\\' :: c :: written pieces := rfl
      have hv : value q (.pair c :: pieces) = Piece.value q (.pair c) ++ value q pieces := rfl
      rw [hw, hv, ← ih hrest, Piece.value]
      by_cases hcq : c = q
      · rw [if_pos hcq, hcq]
        exact replace_append (List.cons_ne_nil _ _) _
      · have hback : ¬['\\', q] <+: '\\' :: c :: written pieces := by
          simpa using fun hs => absurd hs.symm hcq
        -- the character of the pair may be a backslash too: then no quote follows it
        have hchar : ¬['\\', q] <+: c :: written pieces := by
          rw [List.cons_prefix_cons]
          exact fun hs => not_prefix_written hq hrest hs.2
        rw [if_neg hcq, replace_cons hback, replace_cons hchar]
        rfl

theorem after_self (c : Char) (rest : List Char) : after? [c] (c :: rest) = some rest := by
  simp [after?]

theorem after_other {c : Char} (hc : c ≠ q) (rest : List Char) : after? [c] (q :: rest) = none := by
  simp [after?, hc]

theorem betweenQuotes_quoted (q : Char) (text : List Char) :
    ParameterType.betweenQuotes? q (quoted q text) = some text := by
  simp [ParameterType.betweenQuotes?, quoted, after_self]

theorem betweenQuotes_other {c : Char} (hc : c ≠ q) :
    ParameterType.betweenQuotes? c (quoted q text) = none := by
  simp [ParameterType.betweenQuotes?, quoted, after_other hc]

/-- Only the quotes around a text are looked for inside of it. -/
theorem clean_quoted (hq : q ∈ ['"', '\'']) (text : List Char) :
    ParameterType.string.clean (.ofList (quoted q text)) =
      .ofList (replace ['\\', q] [q] text) := by
  rw [List.mem_pair] at hq
  have hclean : ParameterType.string.clean = ParameterType.stripQuotes := rfl
  rw [hclean, ParameterType.stripQuotes, String.toList_ofList]
  rcases hq with rfl | rfl
  · simp [betweenQuotes_quoted]
  · simp [betweenQuotes_quoted, betweenQuotes_other (c := '"') (q := '\'') (by decide)]

def piecesOf (q : Char) (text : List Char) : List Piece :=
  text.map fun c => if c = q then .pair c else .char c

theorem written_piecesOf (q : Char) (text : List Char) :
    written (piecesOf q text) = escapeQuotes q text := by
  rw [written, piecesOf, List.flatMap_map, escapeQuotes]
  congr 1
  funext c
  split <;> simp_all [Piece.written]

theorem value_piecesOf (q : Char) (text : List Char) : value q (piecesOf q text) = text := by
  induction text with
  | nil => rfl
  | cons c text ih =>
    have hc : Piece.value q (if c = q then .pair c else .char c) = [c] := by
      split <;> simp_all [Piece.value]
    calc value q (piecesOf q (c :: text))
        = Piece.value q (if c = q then .pair c else .char c) ++ value q (piecesOf q text) := rfl
      _ = c :: text := by rw [hc, ih, List.singleton_append]

theorem fits_piecesOf (hq : q ≠ '\n') (h : '\\' ∉ text) : ∀ p ∈ piecesOf q text, p.Fits q := by
  intro p hp
  obtain ⟨c, hc, rfl⟩ := List.mem_map.mp hp
  split
  · rename_i hcq
    exact hcq ▸ hq
  · rename_i hcq
    exact ⟨hcq, fun hb => h (hb ▸ hc)⟩

section
variable [Engine]

theorem regex_string :
    ParameterType.string.regex = .ok (.alt (quotedRegex '"') (quotedRegex '\'')) := by
  rw [regex_builtin (by simp [ParameterType.builtins])]
  rfl

/-- The patterns of the type, each with the quote that it asks for. -/
theorem compile_pattern {source : String}
    (h : (q, source) ∈ ['"', '\''].zip ParameterType.string.regexps) :
    q ∈ ['"', '\''] ∧ Regex.compile source.toList = .ok (quotedRegex q) := by
  have hall : ∀ p ∈ ['"', '\''].zip ParameterType.string.regexps,
      p.1 ∈ ['"', '\''] ∧ p.2 ∈ builtinPatterns := by
    decide +kernel
  obtain ⟨hq, hbuiltin⟩ := hall _ h
  refine ⟨hq, ?_⟩
  rw [compile_builtin hbuiltin]
  simp only [ParameterType.string, List.zip_cons_cons, List.zip_nil_right, List.mem_pair,
    Prod.mk.injEq] at h
  rcases h with ⟨rfl, rfl⟩ | ⟨rfl, rfl⟩ <;> rfl

/-- The patterns of the type and the removal of quotes agree on what is escaped. A text that the
pattern with the quote `q` matches in full is a sequence of characters other than `q` and the
backslash, and of pairs that start with a backslash; without its quotes it is this sequence, in
which only the pairs of a backslash and `q` are replaced, by `q`. A text without backslashes that is
put in quotes, with its quotes escaped, is matched in full and comes back. -/
theorem quotes_read {source : String}
    (h : (q, source) ∈ ['"', '\''].zip ParameterType.string.regexps) :
    (∃ r, Regex.compile source.toList = .ok r ∧ ∀ raw, Matches r [] raw [] ↔
      ∃ pieces, (∀ p ∈ pieces, p.Fits q) ∧ raw = quoted q (written pieces)) ∧
    (∀ pieces, (∀ p ∈ pieces, p.Fits q) →
      ParameterType.string.clean (.ofList (quoted q (written pieces))) = .ofList (value q pieces)) ∧
    ∀ text, '\\' ∉ text →
      (∃ r, ParameterType.string.regex = .ok r ∧
        Matches r [] (quoted q (escapeQuotes q text)) []) ∧
      ParameterType.string.transform (.ofList (quoted q (escapeQuotes q text))) =
        .ok (.text (.ofList text)) := by
  obtain ⟨hq, hr⟩ := compile_pattern h
  have hne : q ≠ '\\' ∧ q ≠ '\n' := by
    rcases List.mem_pair.mp hq with rfl | rfl <;> decide
  have hclean : ∀ pieces, (∀ p ∈ pieces, p.Fits q) →
      ParameterType.string.clean (.ofList (quoted q (written pieces))) =
        .ofList (value q pieces) := by
    intro pieces hfits
    rw [clean_quoted hq, replace_written hne.1 hfits]
  refine ⟨⟨_, hr, fun raw => matches_quoted_iff⟩, hclean, fun text ht => ?_⟩
  have hfits := fits_piecesOf hne.2 ht
  rw [← written_piecesOf]
  constructor
  · obtain ⟨ms, hm⟩ := (matches_quoted_iff (b := []) (a := [])).mpr ⟨_, hfits, rfl⟩
    refine ⟨_, regex_string, ms, ?_⟩
    rcases List.mem_pair.mp hq with rfl | rfl
    · exact .left hm
    · exact .right hm
  · have htext := hclean _ hfits
    rw [value_piecesOf] at htext
    exact congrArg (fun text => Except.ok (Value.text text)) htext

end

theorem quotes_read_sample :
    (∃ r, ParameterType.string.regex = .ok r ∧ Matches r [] "'it\\'s \"new\"'".toList []) ∧
      ParameterType.string.transform "'it\\'s \"new\"'" = .ok (.text "it's \"new\"") := by
  have h : ('\'', "'(?:[^'\\\\]*(?:\\\\.[^'\\\\]*)*)'") ∈
      ['"', '\''].zip ParameterType.string.regexps := by decide
  exact (quotes_read h).2.2 "it's \"new\"".toList (by decide)

end Brine.Proofs.QuotedTexts
