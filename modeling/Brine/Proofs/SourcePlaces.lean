import Brine.Proofs.Conservation

namespace Brine.Proofs.SourcePlaces
open Line Document Text LineShapes Entries Conservation

/-- The text of a line from a place on; lines and columns count from 1. -/
def textAt (ls : List (List Char)) : Location → Option (List Char)
  | ⟨line + 1, column + 1⟩ => ls[line]?.map (·.drop column)
  | _ => none

def StartsAt (ls : List (List Char)) (location : Location) (start : List Char) : Prop :=
  ∃ rest, textAt ls location = some (start ++ rest)

def WordAt (ls : List (List Char)) (location : Location) (word : List Char) : Prop :=
  ∃ rest, textAt ls location = some (word ++ rest) ∧
    ∀ c, rest.head? = some c → isBlank c = true

def pipesEscaped : List Char → Bool
  | [] => true
  | '\\' :: _ :: rest => pipesEscaped rest
  | '|' :: _ => false
  | _ :: rest => pipesEscaped rest

/-- A cell is written at its place, up to blanks and the next pipe that ends a cell. Written without
backslashes it is its value. -/
def CellAt (ls : List (List Char)) (cell : Cell) : Prop :=
  ∃ written gap rest, textAt ls cell.location = some (written ++ (gap ++ '|' :: rest)) ∧
    pipesEscaped written = true ∧ (∀ c ∈ gap, isBlank c = true) ∧
    cell.value.toList = unescapeCell written ∧ ('\\' ∉ written → cell.value.toList = written)

/-- What an entry says stands in the source at its place. -/
def Stands (ls : List (List Char)) : Entry → Prop
  | .tag location name => WordAt ls location name.toList
  | .heading _ location keyword _ _ => StartsAt ls location (keyword.toList ++ [':'])
  | .step location keyword text => StartsAt ls location (keyword.toList ++ text.toList)
  | .row location cells => StartsAt ls location ['|'] ∧ ∀ c ∈ cells, CellAt ls c
  | .docString doc => StartsAt ls doc.location doc.delimiter.toList

theorem textAt_line {ls : List (List Char)} {n : Nat} {line : List Char}
    (h : ls[n]? = some line) (i : Nat) : textAt ls ⟨n + 1, i + 1⟩ = some (line.drop i) := by
  simp [textAt, h]

theorem drop_indent (line : List Char) : line.drop (indent line) = trimStart line := by
  have h := List.takeWhile_append_dropWhile (p := isBlank) (l := line)
  calc
    line.drop (indent line) = (line.takeWhile isBlank ++ trimStart line).drop (indent line) := by
      rw [trimStart, h]
    _ = trimStart line := List.drop_left

theorem trimEnd_append (line : List Char) :
    ∃ gap, line = trimEnd line ++ gap ∧ ∀ c ∈ gap, isBlank c = true := by
  refine ⟨(line.reverse.takeWhile isBlank).reverse, ?_, ?_⟩
  · rw [trimEnd, ← List.reverse_append, List.takeWhile_append_dropWhile, List.reverse_reverse]
  · intro c hc
    exact List.mem_takeWhile_imp (List.mem_reverse.mp hc)

theorem after?_eq_some {start line rest : List Char} (h : after? start line = some rest) :
    line = start ++ rest := by
  induction start generalizing line with
  | nil =>
    cases h
    rfl
  | cons c start ih =>
    cases line with
    | nil => cases h
    | cons d line =>
      rw [after?] at h
      split at h
      · rename_i hc
        rw [hc, ih h]
        rfl
      · contradiction

def WordIn (line : List Char) (item : Item) : Prop :=
  ∃ i rest, item.column = i + 1 ∧ line.drop i = item.text.toList ++ rest ∧
    ∀ c, rest.head? = some c → isBlank c = true

theorem endWord_column {before word : List Char} {words : List Item} {item : Item}
    (rest : List Char) (hr : ∀ c, rest.head? = some c → isBlank c = true)
    (h : item ∈ endWord (before.length + word.length + 1) word words) :
    WordIn (before ++ (word.reverse ++ rest)) item ∨ item ∈ words := by
  unfold endWord at h
  split at h
  · exact .inr h
  · rcases List.mem_cons.mp h with rfl | h
    · have hc : before.length + word.length + 1 - word.length = before.length + 1 := by omega
      exact .inl ⟨before.length, rest, hc, by rw [String.toList_ofList, List.drop_left], hr⟩
    · exact .inr h

theorem wordsFrom_column {before word cs : List Char} {item : Item}
    (h : item ∈ wordsFrom (before.length + word.length + 1) word cs) :
    WordIn (before ++ (word.reverse ++ cs)) item := by
  -- What stands before the word, its characters so far and the rest are always the whole line.
  induction cs generalizing before word with
  | nil =>
    rw [wordsFrom] at h
    rcases endWord_column [] (by simp) h with h | h
    · exact h
    · cases h
  | cons c cs ih =>
    rw [wordsFrom] at h
    split at h
    · rename_i hc
      rcases endWord_column (c :: cs) (by simpa using hc) h with h | h
      · exact h
      · have hi := @ih (before ++ (word.reverse ++ [c])) []
        simp only [List.length_append, List.length_reverse, List.length_singleton, List.length_nil,
          List.append_assoc, List.singleton_append, List.reverse_nil, List.nil_append] at hi
        exact hi h
    · have hi := @ih before (c :: word)
      simp only [List.length_cons, List.reverse_cons, List.append_assoc,
        List.singleton_append] at hi
      exact hi h

theorem tagItems_column {line : List Char} {item : Item} (h : item ∈ tagItems line) :
    WordIn line item :=
  @wordsFrom_column [] [] line item (List.takeWhile_subset _ h)

def CellIn (line : List Char) (item : Item) : Prop :=
  ∃ i written gap rest, item.column = i + 1 ∧ line.drop i = written ++ (gap ++ '|' :: rest) ∧
    pipesEscaped written = true ∧ (∀ c ∈ gap, isBlank c = true) ∧
    item.text = String.ofList (unescapeCell written)

theorem pipesEscaped_cons {c : Char} (hp : c ≠ '|') (hs : c ≠ '\\') (rest : List Char) :
    pipesEscaped (c :: rest) = pipesEscaped rest := by
  simp [pipesEscaped, hs]

theorem pipesEscaped_left {start rest : List Char} (h : pipesEscaped (start ++ rest) = true) :
    pipesEscaped start = true := by
  fun_induction pipesEscaped start with
  | case1 => rfl
  | case2 c start ih => exact ih h
  | case3 start => cases h
  | case4 c start hs hp ih =>
    cases start with
    | nil => rfl
    | cons d start =>
      have hc : c ≠ '\\' := fun hc => hs d start hc rfl
      rw [List.cons_append, pipesEscaped_cons hp hc] at h
      exact ih h

theorem pipesEscaped_trimStart {line : List Char} (h : pipesEscaped line = true) :
    pipesEscaped (trimStart line) = true := by
  induction line with
  | nil => rfl
  | cons c line ih =>
    rw [trimStart, List.dropWhile_cons]
    split
    · rename_i hb
      have hp : c ≠ '|' := by
        rintro rfl
        cases hb
      have hs : c ≠ '\\' := by
        rintro rfl
        cases hb
      rw [pipesEscaped_cons hp hs] at h
      exact ih h
    · exact h

theorem cell_column (before raw rest : List Char) (hp : pipesEscaped raw = true) :
    CellIn (before ++ (raw ++ '|' :: rest)) (cell (before.length + 1) raw) := by
  obtain ⟨gap, hg, hb⟩ := trimEnd_append (trimStart raw)
  refine ⟨before.length + indent raw, trim raw, gap, rest, ?_, ?_, ?_, hb, rfl⟩
  · simp only [cell]
    omega
  · have hle : indent raw ≤ raw.length := (List.takeWhile_sublist isBlank).length_le
    rw [List.drop_length_add_append, List.drop_append_of_le_length hle, drop_indent,
      ← List.append_assoc, trim, ← hg]
  · apply pipesEscaped_left
    rw [trim, ← hg]
    exact pipesEscaped_trimStart hp

theorem cellsFrom_column {before raw cs : List Char} {item : Item}
    (hp : ∀ rest, pipesEscaped (raw.reverse ++ rest) = pipesEscaped rest)
    (h : item ∈ cellsFrom (before.length + raw.length + 1) (before.length + 1) raw cs) :
    CellIn (before ++ (raw.reverse ++ cs)) item := by
  -- No backslash at the end of the characters so far escapes the next one: those that do are read
  -- together with what they escape.
  generalize hcolumn : before.length + raw.length + 1 = column at h
  generalize hstart : before.length + 1 = start at h
  fun_induction cellsFrom column start raw cs generalizing before with
  | case1 => cases h
  | case2 column start raw rest ih =>
    rcases List.mem_cons.mp h with rfl | h
    · subst hstart
      have hr : pipesEscaped raw.reverse = true := by simpa [pipesEscaped] using hp []
      exact cell_column before raw.reverse rest hr
    · have hi := @ih (before ++ (raw.reverse ++ ['|'])) (by simp) (by simp; omega)
        (by simp; omega) h
      simpa using hi
  | case3 column start raw c rest ih =>
    have hr (rest : List Char) :
        pipesEscaped ((c :: '\\' :: raw).reverse ++ rest) = pipesEscaped rest := by
      simp [hp, pipesEscaped]
    have hi := ih hr (by simp; omega) hstart h
    simpa using hi
  | case4 column start raw c rest hpipe hescape ih =>
    cases rest with
    | nil => cases h
    | cons d rest =>
      have hs : c ≠ '\\' := fun hc => hescape d rest hc rfl
      have hr (rest : List Char) :
          pipesEscaped ((c :: raw).reverse ++ rest) = pipesEscaped rest := by
        simp [hp, pipesEscaped_cons hpipe hs]
      have hi := ih hr (by simp; omega) hstart h
      simpa using hi

theorem cellItems_column {line : List Char} {item : Item} (h : item ∈ cellItems line) :
    CellIn line item := by
  unfold cellItems at h
  split at h
  · cases h
  · rename_i c rest hd
    have hl := List.takeWhile_append_dropWhile (p := (· ≠ '|')) (l := line)
    have hc : c = '|' := by
      have hn := List.head?_dropWhile_not (· ≠ '|') line
      rw [hd] at hn
      simpa using hn
    rw [hd, hc] at hl
    have hlen : line.length - rest.length = (line.takeWhile (· ≠ '|') ++ ['|']).length := by
      have hlength := congrArg List.length hl
      simp only [List.length_append, List.length_cons, List.length_nil] at hlength ⊢
      omega
    rw [hlen] at h
    have hi := @cellsFrom_column (line.takeWhile (· ≠ '|') ++ ['|']) [] rest item (by simp) h
    rw [List.append_assoc, List.reverse_nil, List.nil_append, List.singleton_append, hl] at hi
    exact hi

section Lines

variable {ls : List (List Char)} {n : Nat} {line : List Char}

theorem startsAt_indent {start rest : List Char} (h : ls[n]? = some line)
    (ht : trimStart line = start ++ rest) : StartsAt ls ⟨n + 1, indent line + 1⟩ start := by
  refine ⟨rest, ?_⟩
  rw [textAt_line h, drop_indent, ht]

theorem unescapeCell_plain {cs : List Char} (h : '\\' ∉ cs) : unescapeCell cs = cs := by
  fun_induction unescapeCell cs <;> simp_all

theorem WordIn.wordAt {item : Item} (h : ls[n]? = some line) (hw : WordIn line item) :
    WordAt ls ⟨n + 1, item.column⟩ item.text.toList := by
  obtain ⟨i, rest, hc, hd, hr⟩ := hw
  refine ⟨rest, ?_, hr⟩
  rw [hc, textAt_line h, hd]

theorem CellIn.cellAt {item : Item} (h : ls[n]? = some line) (hw : CellIn line item) :
    CellAt ls ⟨⟨n + 1, item.column⟩, item.text⟩ := by
  obtain ⟨i, written, gap, rest, hc, hd, hp, hg, ht⟩ := hw
  refine ⟨written, gap, rest, ?_, hp, hg, ?_, ?_⟩
  · rw [hc, textAt_line h, hd]
  · rw [ht, String.toList_ofList]
  · intro hs
    rw [ht, String.toList_ofList, unescapeCell_plain hs]

def LineStands (ls : List (List Char)) (t : Token) : Prop :=
  (∀ rest, ∀ e ∈ lineEntries t rest, Stands ls e) ∧
    (t.kind = .comment → t.location.column = 1 ∧ textAt ls t.location = some t.text.toList)

/-- A line that gives no entry and is no comment. -/
theorem LineStands.of_silent {t : Token} (h : ∀ rest, lineEntries t rest = [])
    (hk : t.kind ≠ .comment) : LineStands ls t := by
  refine ⟨?_, fun hc => absurd hc hk⟩
  intro rest e he
  rw [h rest] at he
  cases he

theorem heading_starts {d : Dialect} {trimmed : List Char} {kind : Kind} {keyword : String}
    {title : List Char} (h : heading? d trimmed = some (kind, keyword, title)) :
    ∃ rest, trimmed = (keyword.toList ++ [':']) ++ rest := by
  unfold heading? at h
  obtain ⟨⟨k, keywords⟩, -, hf⟩ := List.exists_of_findSome?_eq_some h
  obtain ⟨w, -, hw⟩ := List.exists_of_findSome?_eq_some hf
  simp only [Option.bind_eq_bind, Option.bind_eq_some_iff] at hw
  obtain ⟨rest, hr, title', ht, he⟩ := hw
  cases he
  exact ⟨title', by rw [after?_eq_some hr, after?_eq_some ht, List.append_assoc]⟩

theorem step_starts {d : Dialect} {trimmed : List Char} {keyword : String} {type : KeywordType}
    {text : List Char} (h : step? d trimmed = some (keyword, type, text)) :
    ∃ rest, trimmed = (keyword.toList ++ text) ++ rest := by
  unfold step? at h
  obtain ⟨⟨w, own⟩, -, hw⟩ := List.exists_of_findSome?_eq_some h
  obtain ⟨rest, hr, he⟩ := Option.map_eq_some_iff.mp hw
  cases he
  obtain ⟨gap, hg, -⟩ := trimEnd_append rest
  exact ⟨gap, by rw [after?_eq_some hr, List.append_assoc, ← hg]⟩

theorem opening_starts {trimmed : List Char} {delimiter : Delimiter} {rest : List Char}
    (h : opening? trimmed = some (delimiter, rest)) : trimmed = delimiter.chars ++ rest := by
  unfold opening? at h
  obtain ⟨d, -, hd⟩ := List.exists_of_findSome?_eq_some h
  obtain ⟨rest', hr, he⟩ := Option.map_eq_some_iff.mp hd
  cases he
  exact after?_eq_some hr

theorem keywordLine_stands (h : ls[n]? = some line) (d : Dialect) :
    LineStands ls (keywordLine d ⟨n + 1, indent line + 1⟩ line (trimStart line)) := by
  unfold keywordLine
  split
  · rename_i kind keyword title hh
    have hk := heading_kind hh
    obtain ⟨rest, ht⟩ := heading_starts hh
    constructor
    · intro after e he
      rw [lineEntries_isHeading hk, List.mem_singleton] at he
      rw [he]
      exact startsAt_indent h ht
    · rintro rfl
      cases hk
  · split
    · rename_i keyword type text hs
      obtain ⟨rest, ht⟩ := step_starts hs
      constructor
      · intro after e he
        rw [List.mem_singleton.mp he, Stands, String.toList_ofList]
        exact startsAt_indent h ht
      · intro hc
        cases hc
    · exact .of_silent (fun _ => rfl) (by simp)

/-- What a line says that is read outside of doc strings. -/
theorem readPlain_stands (table : Table) (settings : Settings) (r : Reader)
    (h : ls[n]? = some line) : LineStands ls (r.readPlain table settings (n + 1) line).1 := by
  unfold Reader.readPlain
  simp only
  split
  · exact .of_silent (fun _ => rfl) (by simp)
  · unfold Reader.readComment
    split
    · exact .of_silent (fun _ => rfl) (by simp)
    · refine ⟨fun after e he => ?_, fun _ => ⟨rfl, ?_⟩⟩
      · cases he
      · rw [textAt_line h 0, List.drop_zero, String.toList_ofList]
  · refine ⟨fun after e he => ?_, fun hc => by cases hc⟩
    obtain ⟨item, hi, rfl⟩ := List.mem_map.mp he
    exact (tagItems_column hi).wordAt h
  · rename_i first _ _ hh
    split
    · rename_i delimiter rest ho
      refine ⟨fun after e he => ?_, fun hc => by cases hc⟩
      rw [List.mem_singleton.mp he, Stands]
      simp only [Option.getD_some, String.toList_ofList]
      exact startsAt_indent h (opening_starts ho)
    · split
      · rename_i hf
        refine ⟨fun after e he => ?_, fun hc => by cases hc⟩
        rw [List.mem_singleton.mp he]
        constructor
        · rw [hf] at hh
          obtain ⟨rest, hr⟩ := List.head?_eq_some_iff.mp hh
          have hr : trimStart line = ['|'] ++ rest := hr
          exact startsAt_indent h hr
        · intro c hc
          obtain ⟨item, hi, rfl⟩ := List.mem_map.mp hc
          exact (cellItems_column hi).cellAt h
      · exact keywordLine_stands h r.dialect

/-- What a line says stands in it, unless it is part of a doc string. -/
theorem read_stands (table : Table) (settings : Settings) (r : Reader) (h : ls[n]? = some line)
    (hd : r.docString.isSome = false) : LineStands ls (r.read table settings (n + 1) line).1 := by
  rw [Option.isSome_eq_false_iff, Option.isNone_iff_eq_none] at hd
  simp only [Reader.read, hd]
  exact readPlain_stands table settings r h

end Lines

section Texts

variable {ls : List (List Char)} {table : Table} {settings : Settings} {r : Reader}

/-- What the lines from some line of a text on say stands in the text. -/
theorem readAll_stands {before rest : List (List Char)} (h : ls = before ++ rest) {e : Entry}
    (he : e ∈ ofLines r.docString.isSome
      (r.readAll table settings (before.length + 1) rest).1) : Stands ls e := by
  induction rest generalizing r before with
  | nil => cases hd : r.docString <;> simp [Reader.readAll, ofLines, lineEntries, hd] at he
  | cons line rest ih =>
    have hl : ls[before.length]? = some line := by simp [h]
    rw [readAll_cons, ofLines, ← read_docString] at he
    rcases List.mem_append.mp he with he | he
    · cases hd : r.docString.isSome with
      | true => simp [hd] at he
      | false =>
        simp only [hd] at he
        exact (read_stands table settings r hl hd).1 _ e he
    · have hi := @ih (r.read table settings (before.length + 1) line).2 (before ++ [line])
      rw [List.length_append, List.length_singleton] at hi
      exact hi (by simp [h]) he

/-- The comments from some line of a text on are whole lines of the text. -/
theorem readAll_comments {before rest : List (List Char)} (h : ls = before ++ rest) {t : Token}
    (ht : t ∈ (r.readAll table settings (before.length + 1) rest).1) (hk : t.kind = .comment) :
    t.location.column = 1 ∧ textAt ls t.location = some t.text.toList := by
  induction rest generalizing r before with
  | nil => simp_all [Reader.readAll]
  | cons line rest ih =>
    have hl : ls[before.length]? = some line := by simp [h]
    rw [readAll_cons] at ht
    rcases List.mem_cons.mp ht with rfl | ht
    · cases hd : r.docString.isSome with
      | true =>
        rcases read_inside table settings r (before.length + 1) hd line with hi | hi <;>
          cases hk.symm.trans hi
      | false => exact (read_stands table settings r hl hd).2 hk
    · have hi := @ih (r.read table settings (before.length + 1) line).2 (before ++ [line])
      rw [List.length_append, List.length_singleton] at hi
      exact hi (by simp [h]) ht

end Texts

/-- The places of a document are places in its text: there stand its tags as words, its headings
with their colons, its steps, its rows with their pipes and cells, and what opens its doc strings.
Its comments are whole lines. -/
theorem parse_places {table : Table} {settings : Settings} {requested : Option String}
    {uri source : String} {doc : Document}
    (h : parse table settings requested uri source = .ok doc) :
    (∀ e ∈ ofDocument doc, Stands (lines source.toList) e) ∧
      ∀ c ∈ doc.comments, c.location.column = 1 ∧
        textAt (lines source.toList) c.location = some c.text.toList := by
  obtain ⟨he, hc⟩ := ofTokens_entries
    (tokenize_wellShaped table settings (settings.initialLanguage requested) source)
    (tokenize_text table settings (settings.initialLanguage requested) source) h
  rw [he, hc]
  constructor
  · intro e he
    have hs := @readAll_stands (lines source.toList) table settings
      (Reader.start table settings (settings.initialLanguage requested)) [] _ rfl e
    exact hs he
  · intro c hc
    obtain ⟨t, ht, rfl⟩ := List.mem_map.mp hc
    obtain ⟨ht, hk⟩ := List.mem_filter.mp ht
    rw [decide_eq_true_eq] at hk
    have hs := @readAll_comments (lines source.toList) table settings
      (Reader.start table settings (settings.initialLanguage requested)) [] _ rfl t
    exact hs ht hk

def placedText : String :=
  "  @a  @é # note\n Feature: F\n# note\n  Outline: O\n\tGiven  é <v>\n \"\"\"x\n \"\"\"\n" ++
    "  Examples:\n  | v | é\\|w  ||\n"

theorem parse_places_sample :
    ∃ doc, parse sampleTable {} none "" placedText = .ok doc ∧
      (∀ e ∈ ofDocument doc, Stands (lines placedText.toList) e) ∧
        ∀ c ∈ doc.comments, c.location.column = 1 ∧
          textAt (lines placedText.toList) c.location = some c.text.toList := by
  have ho : (parse sampleTable {} none "" placedText).isOk = true := by decide +kernel
  cases h : parse sampleTable {} none "" placedText with
  | error e => simp [h, Except.isOk, Except.toBool] at ho
  | ok doc => exact ⟨doc, rfl, parse_places h⟩

end Brine.Proofs.SourcePlaces
