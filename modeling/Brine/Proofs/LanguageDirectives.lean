import Brine.Proofs.DefaultLanguage
import Brine.Proofs.DocStringBlocks
import Brine.Proofs.LineRuns
import Brine.Proofs.TextLines

namespace Brine.Proofs.LanguageDirectives
open Line Text LineShapes TextLines LineRuns DefaultLanguage SourcePlaces DocStringBlocks

/-- A comment that names a language: after the hash there is the word in any case, a colon and the
code, with blanks anywhere between them. -/
def Names (line code : List Char) : Prop :=
  ∃ indent gap word gap' gap'' tail,
    line = indent ++ '#' :: (gap ++ (word ++ (gap' ++ ':' :: (gap'' ++ (code ++ tail))))) ∧
      (∀ blanks ∈ [indent, gap, gap', gap'', tail], ∀ c ∈ blanks, isBlank c = true) ∧
      word.map Char.toLower = "language".toList ∧ code ≠ [] ∧ ∀ c ∈ code, isBlank c = false

/-- A line that may stand before all content: it is blank, or a comment. -/
def isLeading (line : List Char) : Bool :=
  (trimStart line).head?.all (· = '#')

/-- The code that the last of some lines that name one gives, or the one from before. -/
inductive LastCode (before : String) (ls : List (List Char)) : String → Prop
  | named {earlier later : List (List Char)} {line code : List Char} :
      ls = earlier ++ line :: later → Names line code → (∀ l ∈ later, ∀ c, ¬Names l c) →
      LastCode before ls (String.ofList code)
  | unnamed : (∀ l ∈ ls, ∀ c, ¬Names l c) → LastCode before ls before

def leadingToken (number : Nat) (line : List Char) : Token :=
  match (trimStart line).head? with
  | none => { kind := .empty, location := ⟨number, indent line + 1⟩ }
  | some _ => commentToken number line

/-- What the lines before all content are, the first of which has the given number. -/
def leadingTokens (number : Nat) (ls : List (List Char)) : List Token :=
  (ls.zipIdx number).map fun (line, number) => leadingToken number line

variable {line code : List Char} {ls rest : List (List Char)} {table : Table} {settings : Settings}
  {r : Reader} {number : Nat} {before start : String}

theorem trimStart_split (line : List Char) :
    ∃ gap, line = gap ++ trimStart line ∧ ∀ c ∈ gap, isBlank c = true :=
  ⟨line.takeWhile isBlank, List.takeWhile_append_dropWhile.symm,
    fun _ hc => List.mem_takeWhile_imp hc⟩

theorem names_of_directive? (h : directive? line = some code) : Names line code := by
  simp only [directive?, Option.bind_eq_bind, Option.bind_eq_some_iff, Option.guard_eq_some',
    Option.pure_def, Option.some.injEq] at h
  obtain ⟨rest, hrest, _, hword, rest', hrest', _, hcode, rfl⟩ := h
  obtain ⟨indent, hindent, hb₁⟩ := trimStart_split line
  obtain ⟨gap, hgap, hb₂⟩ := trimStart_split rest
  obtain ⟨gap', hgap', hb₃⟩ := trimStart_split ((trimStart rest).drop 8)
  obtain ⟨gap'', hgap'', hb₄⟩ := trimStart_split rest'
  obtain ⟨tail, htail, hb₅⟩ := trimEnd_append (trimStart rest')
  have hcodes : rest' = gap'' ++ (trim rest' ++ tail) := by
    rw [trim, ← htail]
    exact hgap''
  have hname : (trimStart rest).drop 8 = gap' ++ ':' :: (gap'' ++ (trim rest' ++ tail)) := by
    rw [← hcodes]
    exact hgap'.trans (congrArg (gap' ++ ·) (after?_eq_some hrest'))
  refine ⟨indent, gap, (trimStart rest).take 8, gap', gap'', tail, ?_, ?_, hword, ?_⟩
  · rw [← hname, List.take_append_drop, ← hgap]
    exact hindent.trans (congrArg (indent ++ ·) (after?_eq_some hrest))
  · simp only [List.forall_mem_cons]
    exact ⟨hb₁, hb₂, hb₃, hb₄, hb₅, by simp⟩
  · simpa using hcode

/-- A letter of the word is not blank. -/
theorem not_blank_of_toLower {c : Char} (h : c.toLower = 'l') : isBlank c = false := by
  unfold Char.toLower at h
  split at h
  · rename_i hupper
    have hlow : 65 ≤ c.toNat := hupper.1
    have hhigh : c.toNat ≤ 90 := hupper.2
    simp [isBlank, Ranges.holds, blanks]
    omega
  · rw [h]
    decide

theorem trimStart_cons {c : Char} (hc : isBlank c = false) (rest : List Char) :
    trimStart (c :: rest) = c :: rest := by
  simp [trimStart, hc]

theorem directive?_of_names (h : Names line code) : directive? line = some code := by
  obtain ⟨indent, gap, word, gap', gap'', tail, rfl, hb, hword, hne, hcode⟩ := h
  simp only [List.forall_mem_cons] at hb
  obtain ⟨hb₁, hb₂, hb₃, hb₄, hb₅, -⟩ := hb
  have hlength : word.length = 8 := by simpa using congrArg List.length hword
  have hword_ne : word ≠ [] := by
    rintro rfl
    contradiction
  have hhead : ∀ d ∈ word.head?, isBlank d = false := by
    intro d hd
    refine not_blank_of_toLower ?_
    have hl : (word.map Char.toLower).head? = some 'l' := by rw [hword]; rfl
    rw [List.head?_map, hd] at hl
    exact Option.some.inj hl
  have hcode_head : ∀ d ∈ code.head?, isBlank d = false :=
    fun d hd => hcode d (List.mem_of_mem_head? hd)
  have hcode_last : ∀ d ∈ code.getLast?, isBlank d = false :=
    fun d hd => hcode d (List.mem_of_mem_getLast? hd)
  have htrim : trim (gap'' ++ (code ++ tail)) = code := by
    rw [trim, trimStart_append hb₄, trimStart_solid hcode_head _ hne, trimEnd_append_blank hb₅,
      trimEnd_solid hcode_last]
  simp only [directive?, Option.bind_eq_bind, Option.bind_eq_some_iff, Option.guard_eq_some',
    Option.pure_def, Option.some.injEq]
  refine ⟨gap ++ (word ++ (gap' ++ ':' :: (gap'' ++ (code ++ tail)))), ?_, (), ?_,
    gap'' ++ (code ++ tail), ?_, (), ?_, htrim⟩
  · rw [trimStart_append hb₁, trimStart_cons (by decide)]
    rfl
  · rw [trimStart_append hb₂, trimStart_solid hhead _ hword_ne, List.take_left' hlength, hword]
  · rw [trimStart_append hb₂, trimStart_solid hhead _ hword_ne, List.drop_left' hlength,
      trimStart_append hb₃, trimStart_cons (by decide)]
    rfl
  · rw [htrim]
    simpa [hne] using hcode

theorem directive?_iff : directive? line = some code ↔ Names line code :=
  ⟨names_of_directive?, directive?_of_names⟩

theorem leadingToken_kind (number : Nat) (line : List Char) :
    (leadingToken number line).kind ∈ [.empty, .comment, .language] := by
  unfold leadingToken commentToken
  cases (trimStart line).head? with
  | none => simp
  | some c => cases directive? line <;> simp

theorem read_leading (h : Fresh r) (hl : isLeading line = true) :
    r.read table settings number line =
      (leadingToken number line, afterComment table settings r line) := by
  cases hh : (trimStart line).head? with
  | none =>
    have hd : directive? line = none := by
      rw [directive?, List.head?_eq_none_iff.mp hh]
      rfl
    rw [read_blank h hh, leadingToken, hh, afterComment, hd]
  | some c =>
    have hc : c = '#' := by simpa [isLeading, hh] using hl
    subst hc
    rw [read_comment h hh, leadingToken, hh]

/-- Lines before all content, and what follows them. -/
theorem readAll_leading (h : Fresh r) (hl : ∀ line ∈ ls, isLeading line = true)
    (rest : List (List Char)) :
    let r' := ls.foldl (afterComment table settings) r
    Fresh r' ∧ r.readAll table settings number (ls ++ rest) =
      (leadingTokens number ls ++ (r'.readAll table settings (number + ls.length) rest).1,
        (r'.readAll table settings (number + ls.length) rest).2) := by
  induction ls generalizing r number with
  | nil => exact ⟨h, rfl⟩
  | cons line ls ih =>
    obtain ⟨hline, hls⟩ := List.forall_mem_cons.mp hl
    obtain ⟨hfresh, hread⟩ :=
      @ih (afterComment table settings r line) (number + 1) h.afterComment hls
    refine ⟨hfresh, ?_⟩
    rw [List.cons_append, Reader.readAll, read_leading h hline]
    dsimp only
    rw [hread, List.length_cons, Nat.add_right_comm, Nat.add_assoc]
    rfl

theorem afterComment_start : afterComment table settings (Reader.start table settings start) line =
    Reader.start table settings ((directive? line).elim start String.ofList) := by
  unfold afterComment
  cases directive? line <;> rfl

/-- The lines before all content leave a reader that starts in the language they name last. -/
theorem foldl_start (table : Table) (settings : Settings) (start : String)
    (ls : List (List Char)) : ∃ code, LastCode start ls code ∧
      ls.foldl (afterComment table settings) (Reader.start table settings start) =
        Reader.start table settings code := by
  induction ls generalizing start with
  | nil => exact ⟨start, .unnamed (by simp), rfl⟩
  | cons line ls ih =>
    rw [List.foldl_cons, afterComment_start]
    obtain ⟨code, hlast, hr⟩ := ih ((directive? line).elim start String.ofList)
    refine ⟨code, ?_, hr⟩
    cases hlast with
    | named hls hn hlater => exact .named (by rw [hls, List.cons_append]) hn hlater
    | unnamed hls =>
      cases hd : directive? line with
      | some code =>
        have hline : line :: ls = [] ++ line :: ls := rfl
        exact .named hline (directive?_iff.mp hd) hls
      | none =>
        refine .unnamed (List.forall_mem_cons.mpr ⟨fun c hn => ?_, hls⟩)
        rw [directive?_iff.mpr hn] at hd
        contradiction

/-- A code and what it is resolved to are resolved to the same. -/
theorem start_resolved (table : Table) (settings : Settings) (code : String) :
    Reader.start table settings (table.resolve settings.defaultLanguage code).1 =
      Reader.start table settings code := by
  have hentry := @resolve_entry table settings.defaultLanguage code
  have hresolve : table.resolve settings.defaultLanguage
      (table.resolve settings.defaultLanguage code).1 =
        table.resolve settings.defaultLanguage code := by
    rw [Table.resolve]
    dsimp only
    rw [hentry]
    rfl
  rw [Reader.start, hresolve, Reader.start]

/-- Content, with whatever follows it, keeps the language and has no line that names one. -/
theorem readAll_content (h : Fresh r) (hl : ∀ line ∈ ls.head?, isLeading line = false) :
    Keeps r (r.readAll table settings number ls).2 ∧
      ∀ t ∈ (r.readAll table settings number ls).1, t.kind ≠ .language := by
  cases ls with
  | nil => exact ⟨⟨rfl, rfl⟩, by simp [Reader.readAll]⟩
  | cons line ls =>
    obtain ⟨c, hc, hne⟩ : ∃ c, (trimStart line).head? = some c ∧ c ≠ '#' := by
      have hline : isLeading line = false := hl line rfl
      unfold isLeading at hline
      cases hh : (trimStart line).head? with
      | none => simp [hh] at hline
      | some c => exact ⟨c, rfl, by simpa [hh] using hline⟩
    have hcontent : (r.read table settings number line).2.hasContent = true :=
      read_content h hc hne
    have hkind : (r.read table settings number line).1.kind ≠ .language := by
      intro hk
      have hread := read_hasContent table settings r number line
      simp [hcontent, hk, isTrivia, h.hasContent] at hread
    have hline : Keeps r (r.read table settings number line).2 :=
      read_keeps (.inr (by simpa [hc] using hne))
    have hlines : Keeps _ ((r.read table settings number line).2.readAll table settings
      (number + 1) ls).2 := readAll_keeps hcontent
    refine ⟨⟨hlines.1.trans hline.1, hlines.2.trans hline.2⟩, ?_⟩
    rw [readAll_cons]
    exact List.forall_mem_cons.mpr ⟨hkind, readAll_no_language _ _ _ _ _ hcontent⟩

/-- A text is cut before its first line of content. -/
theorem lines_leading (text : List Char) : ∃ block rest, text = block ++ rest ∧
    lines block = (lines text).takeWhile isLeading ∧
    lines rest = (lines text).dropWhile isLeading := by
  obtain ⟨block, rest, htext, hb, hr⟩ :=
    lines_split text ((lines text).takeWhile isLeading).length
  have happend := List.takeWhile_append_dropWhile (p := isLeading) (l := lines text)
  generalize (lines text).takeWhile isLeading = leading at *
  generalize (lines text).dropWhile isLeading = others at *
  rw [← happend] at hb hr
  exact ⟨block, rest, htext, by rw [hb, List.take_left], by rw [hr, List.drop_left]⟩

/-- The lines before all content decide the language of a text, and nothing else does. What they are
does not depend on any language; the text behind them is read, further down, as on its own. -/
theorem tokenize_leading (table : Table) (settings : Settings) (start source : String) :
    ∃ block rest code,
      source.toList = block ++ rest ∧ lines source.toList = lines block ++ lines rest ∧
      (∀ line ∈ lines block, isLeading line = true) ∧
      (∀ line ∈ (lines rest).head?, isLeading line = false) ∧
      LastCode start (lines block) code ∧
      let entry := table.resolve settings.defaultLanguage code
      let fresh := (tokenize table settings entry.1 (String.ofList rest)).tokens
      (tokenize table settings start source).language = entry.1 ∧
      (tokenize table settings start source).tokens =
        leadingTokens 1 (lines block) ++ fresh.map (later (lines block).length) ∧
      (∀ t ∈ leadingTokens 1 (lines block), t.kind ∈ [.empty, .comment, .language]) ∧
      (∀ t ∈ fresh, t.kind ≠ .language) ∧
      ∀ n, let r := ((Reader.start table settings start).readAll table settings 1
          (lines block ++ (lines rest).take n)).2
        r.language = entry.1 ∧ r.dialect = entry.2 := by
  obtain ⟨block, rest, hsource, hblock, hrest⟩ := lines_leading source.toList
  have hlines : lines source.toList = lines block ++ lines rest := by
    rw [hblock, hrest, List.takeWhile_append_dropWhile]
  have hall : ∀ line ∈ lines block, isLeading line = true := by
    rw [hblock]
    exact fun line hm => List.mem_takeWhile_imp hm
  have hhead : ∀ line ∈ (lines rest).head?, isLeading line = false := by
    intro line hm
    have hnot := List.head?_dropWhile_not isLeading (lines source.toList)
    rw [← hrest, hm] at hnot
    simpa using hnot
  obtain ⟨code, hlast, hfold⟩ := foldl_start table settings start (lines block)
  have hread (rest : List (List Char)) :=
    (@readAll_leading _ table settings _ 1 (start_fresh table settings start) hall rest).2
  simp only [hfold] at hread
  have hcontent (n : Nat) (ls : List (List Char))
      (hl : ∀ line ∈ ls.head?, isLeading line = false) :=
    @readAll_content ls table settings _ n (start_fresh table settings code) hl
  have hfresh : (tokenize table settings (table.resolve settings.defaultLanguage code).1
      (String.ofList rest)).tokens =
        ((Reader.start table settings code).readAll table settings 1 (lines rest)).1 := by
    rw [tokenize, start_resolved, String.toList_ofList]
  refine ⟨block, rest, code, hsource, hlines, hall, hhead, hlast, ?_, ?_, ?_, ?_, fun n => ?_⟩
  · rw [tokenize, hlines, hread]
    exact (hcontent _ _ hhead).1.1
  · rw [tokenize, hlines, hread, hfresh]
    dsimp only
    rw [readAll_later]
  · intro t ht
    obtain ⟨⟨line, number⟩, -, rfl⟩ := List.mem_map.mp ht
    exact leadingToken_kind number line
  · rw [hfresh]
    exact (hcontent _ _ hhead).2
  · dsimp only
    rw [hread]
    refine (hcontent _ _ fun line hm => hhead line ?_).1
    cases n with
    | zero => simp at hm
    | succ n => simpa [List.head?_take] using hm

example : (tokenize Table.builtin {} "en"
    "# language: fr\n\n #Language :de \nFunktion: F\n# language: es\n").language = "de" := by
  decide +kernel

end Brine.Proofs.LanguageDirectives
