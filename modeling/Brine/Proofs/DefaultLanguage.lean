import Brine.Language.Builtin
import Brine.Proofs.LineShapes

namespace Brine.Proofs.DefaultLanguage
open Line Text LineShapes

/-- The code in the last of the comments before all content that name a language. -/
def namedLanguage : List (List Char) → Option String
  | [] => none
  | line :: rest =>
    match (trimStart line).head? with
    | none => namedLanguage rest
    | some '#' => namedLanguage rest <|> (directive? line).map String.ofList
    | some _ => none

/-- The language in place of one that the table does not have. -/
def standIn (table : Table) (settings : Settings) : String :=
  if (table.get? settings.defaultLanguage).isSome then settings.defaultLanguage
  else fallbackLanguage

variable {table : Table} {settings settings' : Settings}

theorem resolve_code (h : (table.get? fallbackLanguage).isSome = true) (code : String) :
    (table.resolve settings.defaultLanguage code).1 =
      if (table.get? code).isSome then code else standIn table settings := by
  obtain ⟨english, h⟩ := Option.isSome_iff_exists.mp h
  unfold Table.resolve standIn
  cases hc : table.get? code with
  | some d => simp [hc]
  | none => cases hd : table.get? settings.defaultLanguage <;> simp [h, hc, hd]

theorem lookup_cons_ne {entry : String × Dialect} {code : String} (h : code ≠ entry.1)
    (entries : List (String × Dialect)) : (entry :: entries).lookup code = entries.lookup code := by
  have hb : (code == entry.1) = false := beq_false_of_ne h
  rw [List.lookup_cons, hb]

/-- The least entry is the first one of its code. -/
theorem foldl_least (entry : String × Dialect) (entries : List (String × Dialect)) :
    let least := entries.foldl (fun a b => if b.1 < a.1 then b else a) entry
    least.1 ≤ entry.1 ∧ (entry :: entries).lookup least.1 = some least.2 := by
  induction entries generalizing entry with
  | nil => exact ⟨String.le_refl _, List.lookup_cons_self⟩
  | cons b entries ih =>
    dsimp only
    rw [List.foldl_cons]
    by_cases hb : b.1 < entry.1
    · rw [if_pos hb]
      obtain ⟨hle, hlookup⟩ := ih b
      generalize entries.foldl _ b = least at hle hlookup
      have hne : least.1 ≠ entry.1 := by
        intro he
        exact String.not_le.mpr hb (he ▸ hle)
      exact ⟨String.le_trans hle (String.not_lt.mp (String.lt_asymm hb)),
        (lookup_cons_ne hne _).trans hlookup⟩
    · rw [if_neg hb]
      obtain ⟨hle, hlookup⟩ := ih entry
      generalize entries.foldl _ entry = least at hle hlookup
      refine ⟨hle, ?_⟩
      by_cases he : least.1 = entry.1
      · rw [he, List.lookup_cons_self] at hlookup ⊢
        exact hlookup
      · have hne : least.1 ≠ b.1 := by
          intro hlb
          exact he (String.le_antisymm hle (hlb ▸ String.not_lt.mp hb))
        rw [lookup_cons_ne he] at hlookup ⊢
        rw [lookup_cons_ne hne]
        exact hlookup

/-- What a code is resolved to is an entry of the table. -/
theorem resolve_entry (default code : String) :
    table.get? (table.resolve default code).1 = some (table.resolve default code).2 := by
  have hleast : table.get? table.least.1 = some table.least.2 := by
    obtain ⟨entries, hne⟩ := table
    cases entries with
    | nil => contradiction
    | cons entry entries => exact (foldl_least entry entries).2
  unfold Table.resolve
  cases hc : table.get? code with
  | some d => simp [hc]
  | none =>
    cases hd : table.get? default with
    | some d => simp [hc, hd]
    | none => cases hf : table.get? fallbackLanguage <;> simp [hc, hd, hf, hleast]

theorem resolve_eq (h : (table.get? fallbackLanguage).isSome = true) {code : String}
    (hs : table.get? code = none → standIn table settings = standIn table settings') :
    table.resolve settings.defaultLanguage code = table.resolve settings'.defaultLanguage code := by
  have hcode : (table.resolve settings.defaultLanguage code).1 =
      (table.resolve settings'.defaultLanguage code).1 := by
    rw [resolve_code h, resolve_code h]
    cases hc : table.get? code with
    | some d => rfl
    | none => exact hs hc
  have hd := @resolve_entry table settings.defaultLanguage code
  rw [hcode, resolve_entry] at hd
  exact Prod.ext hcode (Option.some.inj hd).symm

variable {r r' : Reader} {number : Nat} {line : List Char} {ls : List (List Char)}

/-- Only a comment before all content has to do with the settings. -/
theorem readPlain_settings (settings' : Settings)
    (h : r.hasContent = true ∨ (trimStart line).head? ≠ some '#') :
    r.readPlain table settings number line = r.readPlain table settings' number line := by
  unfold Reader.readPlain
  dsimp only
  split
  · rfl
  · rename_i hh
    have hc : r.hasContent = true := h.resolve_right (not_not_intro hh)
    rw [Reader.readComment, Reader.readComment, hc]
    rfl
  · rfl
  · rfl

theorem read_settings (settings' : Settings)
    (h : r.hasContent = true ∨ (trimStart line).head? ≠ some '#') :
    r.read table settings number line = r.read table settings' number line := by
  unfold Reader.read
  rw [readPlain_settings settings' h]

theorem readAll_settings (settings' : Settings) (h : r.hasContent = true) :
    r.readAll table settings number ls = r.readAll table settings' number ls := by
  induction ls generalizing r number with
  | nil => rfl
  | cons line ls ih =>
    rw [Reader.readAll, Reader.readAll, read_settings settings' (.inl h)]
    dsimp only
    rw [ih (by simp [read_hasContent, h])]

/-- The reader `r'` is in the language of `r`. -/
def Keeps (r r' : Reader) : Prop :=
  r'.language = r.language ∧ r'.dialect = r.dialect

/-- Only a comment before all content changes the language. -/
theorem readPlain_keeps (h : r.hasContent = true ∨ (trimStart line).head? ≠ some '#') :
    Keeps r (r.readPlain table settings number line).2 := by
  unfold Reader.readPlain
  dsimp only
  split
  · exact ⟨rfl, rfl⟩
  · rename_i hh
    have hc : r.hasContent = true := h.resolve_right (not_not_intro hh)
    rw [Reader.readComment, hc]
    exact ⟨rfl, rfl⟩
  · exact ⟨rfl, rfl⟩
  · split
    · exact ⟨rfl, rfl⟩
    · split <;> exact ⟨rfl, rfl⟩

theorem read_keeps (h : r.hasContent = true ∨ (trimStart line).head? ≠ some '#') :
    Keeps r (r.read table settings number line).2 := by
  have hkeep (p : Token × Reader) (hp : Keeps r p.2) : Keeps r
      (if p.1.kind = .empty ∨ p.1.kind = .comment ∨ p.1.kind = .language then p.2
        else { p.2 with hasContent := true }) := by
    split <;> exact hp
  unfold Reader.read
  cases r.docString with
  | some d =>
    refine hkeep (r.readDocLine d number line) ?_
    unfold Reader.readDocLine
    split <;> exact ⟨rfl, rfl⟩
  | none => exact hkeep _ (readPlain_keeps h)

theorem readAll_keeps (h : r.hasContent = true) :
    Keeps r (r.readAll table settings number ls).2 := by
  induction ls generalizing r number with
  | nil => exact ⟨rfl, rfl⟩
  | cons line ls ih =>
    have hc : (r.read table settings number line).2.hasContent = true := by
      rw [read_hasContent, h, Bool.true_or]
    have hline : Keeps r (r.read table settings number line).2 := read_keeps (.inl h)
    have hlines : Keeps _ ((r.read table settings number line).2.readAll table settings
      (number + 1) ls).2 := ih hc
    exact ⟨hlines.1.trans hline.1, hlines.2.trans hline.2⟩

structure Fresh (r : Reader) : Prop where
  docString : r.docString = none
  hasContent : r.hasContent = false

theorem Fresh.ext (h : Fresh r) (h' : Fresh r') (hl : r.language = r'.language)
    (hd : r.dialect = r'.dialect) : r = r' := by
  obtain ⟨language, dialect, docString, hasContent⟩ := r
  obtain ⟨language', dialect', docString', hasContent'⟩ := r'
  cases hl
  cases hd
  cases h.docString
  cases h.hasContent
  cases h'.docString
  cases h'.hasContent
  rfl

def contentEntry (table : Table) (settings : Settings) (r : Reader) (ls : List (List Char)) :
    String × Dialect :=
  match namedLanguage ls with
  | some code => table.resolve settings.defaultLanguage code
  | none => (r.language, r.dialect)

theorem read_trivia {p : Token × Reader} (h : Fresh r)
    (hp : r.readPlain table settings number line = p) (ht : isTrivia p.1.kind = true) :
    r.read table settings number line = p := by
  have hk : p.1.kind = .empty ∨ p.1.kind = .comment ∨ p.1.kind = .language := by
    cases hk : p.1.kind <;> simp_all [isTrivia]
  rw [Reader.read, h.docString]
  dsimp only
  rw [hp, if_pos hk]

theorem read_blank (h : Fresh r) (hl : (trimStart line).head? = none) :
    r.read table settings number line =
      ({ kind := .empty, location := ⟨number, indent line + 1⟩ }, r) := by
  apply read_trivia h
  · rw [Reader.readPlain, hl]
  · rfl

def afterComment (table : Table) (settings : Settings) (r : Reader) (line : List Char) : Reader :=
  match directive? line with
  | some code =>
    let entry := table.resolve settings.defaultLanguage (String.ofList code)
    { r with language := entry.1, dialect := entry.2 }
  | none => r

def commentToken (number : Nat) (line : List Char) : Token :=
  match directive? line with
  | some code =>
    { kind := .language, location := ⟨number, indent line + 1⟩, text := String.ofList code }
  | none => { kind := .comment, location := ⟨number, 1⟩, text := String.ofList line }

theorem read_comment (h : Fresh r) (hl : (trimStart line).head? = some '#') :
    r.read table settings number line =
      (commentToken number line, afterComment table settings r line) := by
  apply read_trivia h
  · have hp : r.readPlain table settings number line =
        r.readComment table settings number line := by
      simp only [Reader.readPlain, hl]
    rw [hp, Reader.readComment, if_neg (by simp [h.hasContent]), commentToken, afterComment]
    cases directive? line <;> rfl
  · rw [commentToken]
    cases directive? line <;> rfl

theorem Fresh.afterComment (h : Fresh r) : Fresh (afterComment table settings r line) := by
  unfold DefaultLanguage.afterComment
  split
  · exact ⟨h.docString, h.hasContent⟩
  · exact h

theorem contentEntry_blank (hl : (trimStart line).head? = none) :
    contentEntry table settings r ls = contentEntry table settings r (line :: ls) := by
  rw [contentEntry, contentEntry, namedLanguage, hl]

theorem contentEntry_content {c : Char} (hl : (trimStart line).head? = some c) (hc : c ≠ '#') :
    contentEntry table settings r (line :: ls) = (r.language, r.dialect) := by
  rw [contentEntry, namedLanguage, hl]
  split <;> simp_all

theorem contentEntry_comment (hl : (trimStart line).head? = some '#') :
    contentEntry table settings (afterComment table settings r line) ls =
      contentEntry table settings r (line :: ls) := by
  have hn : namedLanguage (line :: ls) =
      (namedLanguage ls <|> (directive? line).map String.ofList) := by
    simp only [namedLanguage, hl]
  rw [contentEntry, contentEntry, hn]
  cases namedLanguage ls with
  | some code => rfl
  | none =>
    unfold afterComment
    cases directive? line <;> rfl

theorem keywordLine_counts (d : Dialect) (location : Location) (line trimmed : List Char) :
    isTrivia (keywordLine d location line trimmed).kind = false := by
  unfold keywordLine
  split
  · rename_i kind keyword title hh
    have hk := heading_kind hh
    cases kind <;> first | rfl | cases hk
  · split <;> rfl

theorem readPlain_counts {c : Char} (hl : (trimStart line).head? = some c) (hc : c ≠ '#') :
    isTrivia (r.readPlain table settings number line).1.kind = false := by
  unfold Reader.readPlain
  dsimp only
  rw [hl]
  split
  · contradiction
  · rename_i he
    exact absurd (Option.some.inj he) hc
  · rfl
  · split
    · rfl
    · split
      · rfl
      · exact keywordLine_counts ..

theorem read_content {c : Char} (h : Fresh r) (hl : (trimStart line).head? = some c)
    (hc : c ≠ '#') : (r.read table settings number line).2.hasContent = true := by
  have hk : isTrivia (r.readPlain table settings number line).1.kind = false :=
    readPlain_counts hl hc
  have hkind : (r.read table settings number line).1 =
      (r.readPlain table settings number line).1 := by
    rw [Reader.read, h.docString]
  rw [read_hasContent, hkind, hk]
  simp

/-- Two readers read the same if the language of the content is the same. -/
theorem readAll_same (h : Fresh r) (h' : Fresh r')
    (he : contentEntry table settings r ls = contentEntry table settings' r' ls) :
    r.readAll table settings number ls = r'.readAll table settings' number ls := by
  induction ls generalizing r r' number with
  | nil =>
    obtain rfl : r = r' := h.ext h' (congrArg Prod.fst he) (congrArg Prod.snd he)
    rfl
  | cons line ls ih =>
    rw [Reader.readAll, Reader.readAll]
    cases hl : (trimStart line).head? with
    | none =>
      rw [← contentEntry_blank hl, ← contentEntry_blank hl] at he
      rw [read_blank h hl, read_blank h' hl]
      dsimp only
      rw [ih h h' he]
    | some c =>
      by_cases hc : c = '#'
      · subst hc
        rw [← contentEntry_comment hl, ← contentEntry_comment hl] at he
        rw [read_comment h hl, read_comment h' hl]
        dsimp only
        rw [ih h.afterComment h'.afterComment he]
      · rw [contentEntry_content hl hc, contentEntry_content hl hc] at he
        obtain rfl : r = r' := h.ext h' (congrArg Prod.fst he) (congrArg Prod.snd he)
        rw [read_settings settings' (.inr (by simpa [hl] using hc))]
        dsimp only
        rw [readAll_settings settings' (read_content h hl hc)]

theorem readAll_language (h : Fresh r) :
    (r.readAll table settings number ls).2.language = (contentEntry table settings r ls).1 := by
  induction ls generalizing r number with
  | nil => rfl
  | cons line ls ih =>
    rw [Reader.readAll]
    cases hl : (trimStart line).head? with
    | none =>
      rw [← contentEntry_blank hl, read_blank h hl]
      exact ih h
    | some c =>
      by_cases hc : c = '#'
      · subst hc
        rw [← contentEntry_comment hl, read_comment h hl]
        exact ih h.afterComment
      · rw [contentEntry_content hl hc]
        have hkeeps : Keeps r (r.read table settings number line).2 :=
          read_keeps (.inr (by simpa [hl] using hc))
        exact (readAll_keeps (read_content h hl hc)).1.trans hkeeps.1

theorem start_fresh (table : Table) (settings : Settings) (code : String) :
    Fresh (Reader.start table settings code) :=
  ⟨rfl, rfl⟩

/-- The language of the content of a text that starts in the fallback language. -/
theorem contentEntry_start :
    contentEntry table settings (Reader.start table settings fallbackLanguage) ls =
      table.resolve settings.defaultLanguage ((namedLanguage ls).getD fallbackLanguage) := by
  rw [contentEntry]
  cases namedLanguage ls <;> rfl

theorem tokenize_language (source : String) :
    (tokenize table settings fallbackLanguage source).language =
      (table.resolve settings.defaultLanguage
        ((namedLanguage (lines source.toList)).getD fallbackLanguage)).1 := by
  rw [← contentEntry_start]
  exact readAll_language (start_fresh ..)

/-- A text has the same lines under two settings, unless it names a language that the table does
not have and the settings have different ones in its place. -/
theorem tokenize_eq_iff (table : Table) (settings settings' : Settings) (source : String)
    (h : (table.get? fallbackLanguage).isSome = true) :
    tokenize table settings fallbackLanguage source =
        tokenize table settings' fallbackLanguage source ↔
      ∀ code, namedLanguage (lines source.toList) = some code → table.get? code = none →
        standIn table settings = standIn table settings' := by
  constructor
  · intro he code hn hc
    have hl := congrArg Tokens.language he
    rw [tokenize_language, tokenize_language, hn, Option.getD_some, resolve_code h, resolve_code h,
      hc] at hl
    exact hl
  · intro hs
    have hsame : contentEntry table settings (Reader.start table settings fallbackLanguage)
          (lines source.toList) =
        contentEntry table settings' (Reader.start table settings' fallbackLanguage)
          (lines source.toList) := by
      rw [contentEntry_start, contentEntry_start]
      apply resolve_eq h
      intro hc
      cases hn : namedLanguage (lines source.toList) with
      | some code =>
        rw [hn, Option.getD_some] at hc
        exact hs code hn hc
      | none =>
        rw [hn, Option.getD_none] at hc
        rw [hc] at h
        contradiction
    unfold tokenize
    rw [readAll_same (start_fresh ..) (start_fresh ..) hsame]

/-- A text in a language of the table is the same whatever the default is. -/
theorem tokenize_known_language :
    (Table.builtin.get? fallbackLanguage).isSome = true ∧
    tokenize Table.builtin {} fallbackLanguage "# language: de\nFunktion: F\n" =
      tokenize Table.builtin { chosen := some "es" } fallbackLanguage
        "# language: de\nFunktion: F\n" := by
  have hf : (Table.builtin.get? fallbackLanguage).isSome = true := by decide
  refine ⟨hf, (tokenize_eq_iff _ _ _ _ hf).mpr ?_⟩
  intro code hn hc
  have hde : namedLanguage (lines "# language: de\nFunktion: F\n".toList) = some "de" := by
    decide +kernel
  obtain rfl : "de" = code := Option.some.inj (hde.symm.trans hn)
  revert hc
  decide

/-- With a language that the table does not have, the default decides what the lines are. -/
theorem tokenize_unknown_language :
    tokenize Table.builtin {} fallbackLanguage "# language: xx\nFeature: F\n" ≠
      tokenize Table.builtin { chosen := some "de" } fallbackLanguage
        "# language: xx\nFeature: F\n" := by
  intro h
  have hl := congrArg Tokens.language h
  rw [tokenize_language, tokenize_language] at hl
  revert hl
  decide +kernel

end Brine.Proofs.DefaultLanguage
