import Brine.Proofs.DocStringBlocks
import Brine.Proofs.LineRuns
import Brine.Proofs.Replacing
import Brine.Proofs.StepArguments
import Brine.Proofs.TextLines
import Brine.Proofs.TriviaLines

namespace Brine.Proofs.WrittenDocStrings
open Line Text Document Grammar Entries LineShapes Acceptance FirstErrors DocStringBlocks LineRuns
  Replacing StepArguments TextLines

/-- An indent of lines. -/
def IsIndent (w : List Char) : Prop :=
  ∀ c ∈ w, isBlank c = true ∧ c ≠ '\n' ∧ c ≠ '\r'

instance (w : List Char) : Decidable (IsIndent w) :=
  List.decidableBAll (fun c => isBlank c = true ∧ c ≠ '\n' ∧ c ≠ '\r') w

/-- The lines of a doc string: a separator, the lines of the content with their delimiters escaped,
and a separator, all with the same indent. -/
def writtenLines (d : Delimiter) (w content : List Char) : List (List Char) :=
  (w ++ d.chars) :: ((content.splitOn '\n').map (w ++ escape d ·) ++ [w ++ d.chars])

/-- What can be written as the content of a doc string. -/
structure Writable (d : Delimiter) (content : List Char) : Prop where
  escaped : ¬d.escaped <:+: content
  carriage : ∀ l ∈ content.splitOn '\n', l.getLast? ≠ some '\r'

section Writing

variable {d : Delimiter} {w l content : List Char}

theorem IsIndent.blank (hw : IsIndent w) : ∀ c ∈ w, isBlank c = true :=
  fun c hc => (hw c hc).1

theorem IsIndent.isLine (hw : IsIndent w) (h : IsLine l) : IsLine (w ++ l) := by
  constructor
  · intro hm
    rcases List.mem_append.mp hm with hm | hm
    · exact (hw _ hm).2.1 rfl
    · exact h.newline hm
  · rw [List.getLast?_append]
    intro hl
    rcases Option.or_eq_some_iff.mp hl with hl | ⟨-, hl⟩
    · exact h.carriage hl
    · exact (hw _ (List.mem_of_getLast? hl)).2.2 rfl

theorem isLine_chars (d : Delimiter) : IsLine d.chars := by
  constructor <;> cases d <;> decide

theorem isLine_escape (h : IsLine l) : IsLine (escape d l) := by
  constructor
  · intro hm
    rcases mem_escape hm with hm | hm
    · exact h.newline hm
    · cases hm
  · rw [getLast?_escape]
    exact h.carriage

theorem isLine_written (hw : IsIndent w) (hc : Writable d content) :
    ∀ l ∈ writtenLines d w content, IsLine l := by
  have hs : IsLine (w ++ d.chars) := hw.isLine (isLine_chars d)
  refine List.forall_mem_cons.mpr ⟨hs, List.forall_mem_append.mpr ⟨?_, by simpa using hs⟩⟩
  intro l hl
  obtain ⟨l, hm, rfl⟩ := List.mem_map.mp hl
  exact hw.isLine (isLine_escape ⟨not_mem_splitOn content l hm, hc.carriage l hm⟩)

theorem writtenLines_last (d : Delimiter) (w content : List Char) :
    (writtenLines d w content).getLast? = some (w ++ d.chars) := by
  simp [writtenLines, List.getLast?_cons]

theorem trimStart_separator (hw : IsIndent w) (d : Delimiter) :
    trimStart (w ++ d.chars) = d.chars := by
  rw [trimStart_append hw.blank]
  cases d <;> rfl

theorem indent_separator (hw : IsIndent w) (d : Delimiter) : indent (w ++ d.chars) = w.length := by
  rw [indent_append hw.blank]
  cases d <;> rfl

/-- No line of the content can be taken for a separator. -/
theorem not_starts_written (hw : IsIndent w) (l : List Char) : ¬Starts d (w ++ escape d l) := by
  rw [Starts, trimStart_append hw.blank]
  exact not_prefix_trimStart d l

/-- A line that is indented as the separator is gives the content without the indent. -/
theorem docContent_indented (hw : IsIndent w) (l : List Char) :
    docContent ⟨d, w.length⟩ (w ++ l) = unescape d l := by
  have hi : ¬indent (w ++ l) < w.length := by
    rw [indent_append hw.blank]
    omega
  rw [docContent, stripIndent, if_neg hi, List.drop_left, unescape]

/-- Every line that was written for content gives that content. -/
theorem docContent_written (hw : IsIndent w) (hc : Writable d content)
    (hl : l ∈ content.splitOn '\n') : docContent ⟨d, w.length⟩ (w ++ escape d l) = l := by
  have hi : l <:+: content := by
    have h := infix_intercalate ['\n'] hl
    rwa [List.intercalate_splitOn] at h
  rw [docContent_indented hw, unescape_escape fun he => hc.escaped (he.trans hi)]

end Writing

def contentTokens (number : Nat) : List (List Char) → List Token
  | [] => []
  | l :: ls =>
    { kind := .docStringContent, location := ⟨number, 1⟩, text := String.ofList l } ::
      contentTokens (number + 1) ls

def separatorToken (d : Delimiter) (w : List Char) (number : Nat) : Token where
  kind := .docStringSeparator
  location := ⟨number, w.length + 1⟩
  keyword := some (String.ofList d.chars)

def writtenTokens (d : Delimiter) (w content : List Char) (number : Nat) : List Token :=
  separatorToken d w number :: (contentTokens (number + 1) (content.splitOn '\n') ++
    [separatorToken d w (number + 1 + (content.splitOn '\n').length)])

section Reading

variable (table : Table) (settings : Settings) {d : Delimiter} {w content : List Char}

theorem reader_same {r : Reader} (hc : r.hasContent = true) :
    { r with hasContent := true } = r := by
  rw [← hc]

/-- Lines that are written for content are read as that content. -/
theorem readAll_content {r : Reader} (hd : r.docString = some ⟨d, w.length⟩)
    (hc : r.hasContent = true) {ls : List (List Char)} (hs : ∀ l, ¬Starts d (w ++ escape d l))
    (hl : ∀ l ∈ ls, docContent ⟨d, w.length⟩ (w ++ escape d l) = l) (number : Nat)
    (rest : List (List Char)) :
    (r.readAll table settings number (ls.map (w ++ escape d ·) ++ rest)).1 =
      contentTokens number ls ++
        (r.readAll table settings (number + ls.length) rest).1 := by
  induction ls generalizing number with
  | nil => rfl
  | cons l ls ih =>
    obtain ⟨h, hl⟩ := List.forall_mem_cons.mp hl
    rw [List.map_cons, List.cons_append, readAll_cons, read_content table settings number hd (hs l),
      reader_same hc, ih hl, h, List.length_cons, Nat.add_right_comm, Nat.add_assoc]
    rfl

/-- A doc string that has been written is read as its separators and its content. -/
theorem readAll_written {r : Reader} (hd : r.docString = none) (hc : r.hasContent = true)
    (hw : IsIndent w) (hwritable : Writable d content) (number : Nat) (rest : List (List Char)) :
    ∃ number', (r.readAll table settings number (writtenLines d w content ++ rest)).1 =
      writtenTokens d w content number ++ (r.readAll table settings number' rest).1 := by
  have hstart : trimStart (w ++ d.chars) = d.chars ++ [] := by
    rw [trimStart_separator hw, List.append_nil]
  have hopening := read_opening table settings number hd hstart
  rw [indent_separator hw] at hopening
  have hclosing : Starts d (w ++ d.chars) := by
    rw [Starts, trimStart_separator hw]
  rw [writtenLines, List.cons_append, readAll_cons, hopening, List.append_assoc,
    readAll_content table settings rfl rfl (not_starts_written hw)
      (fun l hl => docContent_written hw hwritable hl),
    List.singleton_append, readAll_cons, read_closing table settings _ rfl hclosing,
    indent_separator hw]
  simp only [← hd, reader_same hc]
  refine ⟨number + 1 + (content.splitOn '\n').length + 1, ?_⟩
  rw [writtenTokens, List.cons_append, List.append_assoc]
  rfl

end Reading

section Automaton

variable {seen : Bool} {b : Block} {ks : List Kind}

theorem next_step {m m' : Mode} (h : m.next .step = some m') :
    ∃ seen b, m' = .within seen (.step b) := by
  cases m with
  | start | tagged => cases h
  | within seen p =>
    cases p <;> simp [Mode.next, Place.next, opened] at h <;> exact ⟨_, _, h.symm⟩

/-- After its doc string as before it a step can be followed by anything but an argument. -/
theorem accepts_closed (hk : ∀ k, ks.head? = some k → k ≠ .tableRow ∧ k ≠ .docStringSeparator) :
    (Mode.within seen (.closed b)).accepts ks = (Mode.within seen (.step b)).accepts ks := by
  cases ks with
  | nil => rfl
  | cons k ks =>
    obtain ⟨hrow, hdoc⟩ := hk k rfl
    by_cases he : k = .eof
    · rw [he]
      rfl
    · rw [Mode.accepts_cons he, Mode.accepts_cons he]
      cases k <;> first | rfl | contradiction

theorem accepts_content (n : Nat) :
    (Mode.within seen (.doc b)).accepts (List.replicate n .docStringContent ++ ks) =
      (Mode.within seen (.doc b)).accepts ks := by
  induction n with
  | zero => rfl
  | succ n ih =>
    rw [List.replicate_succ, List.cons_append, Mode.accepts_cons (by simp)]
    exact ih

/-- A step that has no argument can have a doc string. -/
theorem accepts_argument (hk : ∀ k, ks.head? = some k → k ≠ .tableRow ∧ k ≠ .docStringSeparator)
    (n : Nat) :
    (Mode.within seen (.step b)).accepts (.docStringSeparator ::
      (List.replicate n .docStringContent ++ .docStringSeparator :: ks)) =
    (Mode.within seen (.step b)).accepts ks := by
  calc
    _ = (Mode.within seen (.doc b)).accepts
          (List.replicate n .docStringContent ++ .docStringSeparator :: ks) := by
      rw [Mode.accepts_cons (by simp)]
      rfl
    _ = (Mode.within seen (.doc b)).accepts (.docStringSeparator :: ks) := accepts_content n
    _ = (Mode.within seen (.closed b)).accepts ks := by
      rw [Mode.accepts_cons (by simp)]
      rfl
    _ = (Mode.within seen (.step b)).accepts ks := accepts_closed hk

theorem accepts_docString {m : Mode} {xs : List Kind} (hx : ∀ k ∈ xs, k ≠ .eof)
    (hk : ∀ k, ks.head? = some k → k ≠ .tableRow ∧ k ≠ .docStringSeparator) (n : Nat) :
    m.accepts (xs ++ .step :: .docStringSeparator ::
      (List.replicate n .docStringContent ++ .docStringSeparator :: ks)) =
    m.accepts (xs ++ .step :: ks) := by
  induction xs generalizing m with
  | nil =>
    rw [List.nil_append, List.nil_append, Mode.accepts_cons (by simp), Mode.accepts_cons (by simp)]
    cases hm : m.next .step with
    | none => rfl
    | some m' =>
      obtain ⟨seen, b, rfl⟩ := next_step hm
      exact accepts_argument hk n
  | cons x xs ih =>
    obtain ⟨hxe, hx⟩ := List.forall_mem_cons.mp hx
    rw [List.cons_append, List.cons_append, Mode.accepts_cons hxe, Mode.accepts_cons hxe]
    cases m.next x with
    | none => rfl
    | some m' => exact ih hx

end Automaton

section Entries

theorem ofLines_trivia {gap : List Token} (hg : ∀ t ∈ gap, isTrivia t.kind = true)
    (x : List Token) : ofLines false (gap ++ x) = ofLines false x := by
  induction gap with
  | nil => rfl
  | cons t gap ih =>
    obtain ⟨ht, hg⟩ := List.forall_mem_cons.mp hg
    have hline : lineEntries t (gap ++ x) = [] ∧ insideAfter false t.kind = false := by
      cases hk : t.kind <;> simp [hk, isTrivia] at ht <;> simp [lineEntries, hk, insideAfter]
    rw [List.cons_append, Conservation.ofLines_silent hline.1 hline.2, ih hg]

theorem contentTokens_kind (number : Nat) (ls : List (List Char)) :
    ∀ t ∈ contentTokens number ls, t.kind = .docStringContent := by
  induction ls generalizing number with
  | nil => simp [contentTokens]
  | cons l ls ih => exact List.forall_mem_cons.mpr ⟨rfl, ih _⟩

theorem contentTokens_text (number : Nat) (ls : List (List Char)) :
    (contentTokens number ls).map (·.text) = ls.map String.ofList := by
  induction ls generalizing number with
  | nil => rfl
  | cons l ls ih => rw [contentTokens, List.map_cons, List.map_cons, ih]

/-- The lines of a content make up that content. -/
theorem contentOf_written (number : Nat) (content : List Char) {u : Token}
    (hu : u.kind ≠ .docStringContent) (x : List Token) :
    contentOf (contentTokens number (content.splitOn '\n') ++ u :: x) =
      String.ofList content := by
  have hall : (contentTokens number (content.splitOn '\n')).takeWhile
      (·.kind = .docStringContent) = contentTokens number (content.splitOn '\n') := by
    rw [List.takeWhile_eq_self_iff]
    intro t ht
    simpa using contentTokens_kind number _ t ht
  rw [TriviaLines.contentOf_cut hu, contentOf, hall, contentTokens_text, ← String.toList_inj]
  have hid : ((content.splitOn '\n').map String.ofList).map String.toList =
      content.splitOn '\n' := by
    simp [Function.comp_def]
  rw [String.toList_intercalate, hid, String.toList_ofList]
  exact (List.intercalate_splitOn '\n').trans String.toList_ofList.symm

end Entries

/-- The last line that counts before a place is the step `t`, and the first one after it begins no
argument: the step has none. -/
structure BareStep (before after : List Token) (t : Token) : Prop where
  step : t.kind = .step
  last : ∃ leading gap, before = leading ++ t :: gap ∧ ∀ u ∈ gap, isTrivia u.kind = true
  next : ∀ u, after.find? (!isTrivia ·.kind) = some u →
    u.kind ≠ .tableRow ∧ u.kind ≠ .docStringSeparator

section Lines

variable {leading gap ts us us' : List Token} {t : Token} {d : Delimiter} {w content : List Char}

theorem leavesOpen_step (ht : t.kind = .step) (hopen : leavesOpen false leading = false)
    (hg : ∀ u ∈ gap, isTrivia u.kind = true) :
    leavesOpen false (leading ++ t :: gap) = false := by
  have hsame : ∀ u ∈ t :: gap, u.kind ≠ .docStringSeparator := by
    refine List.forall_mem_cons.mpr ⟨by simp [ht], ?_⟩
    intro u hu hk
    have htrivia := hg u hu
    simp [hk, isTrivia] at htrivia
  have happend : leavesOpen false (leading ++ t :: gap) =
      leavesOpen (leavesOpen false leading) (t :: gap) := List.foldl_append
  rw [happend, hopen]
  exact TriviaLines.leavesOpen_same hsame

theorem significant_step (ht : t.kind = .step) (hopen : leavesOpen false leading = false)
    (hg : ∀ u ∈ gap, isTrivia u.kind = true) :
    significant false (leading ++ t :: (gap ++ us)) =
      significant false leading ++ .step :: significant false us := by
  rw [significant_append, hopen, significant_cons (.inr (by simp [ht, isTrivia])), ht]
  exact congrArg (fun ks => _ ++ .step :: ks) (significant_leading hg)

theorem significant_written (d : Delimiter) (w content : List Char) (n : Nat) (us : List Token) :
    significant false (writtenTokens d w content n ++ us) =
      .docStringSeparator :: (List.replicate (content.splitOn '\n').length .docStringContent ++
        .docStringSeparator :: significant false us) := by
  have hlength : (contentTokens (n + 1) (content.splitOn '\n')).length =
      (content.splitOn '\n').length := by
    have h := congrArg List.length (contentTokens_text (n + 1) (content.splitOn '\n'))
    simpa using h
  have hinside (us : List Token) : significant true
      (contentTokens (n + 1) (content.splitOn '\n') ++ us) =
      List.replicate (content.splitOn '\n').length .docStringContent ++ significant true us := by
    rw [significant_content (contentTokens_kind _ _), hlength]
  rw [writtenTokens, List.cons_append, List.append_assoc]
  exact congrArg (List.cons _) (hinside _)

theorem ofLines_step (ht : t.kind = .step) (x : List Token) : ofLines false (t :: x) =
    .step t.location (t.keyword.getD "") t.text :: ofLines false x := by
  simp [ofLines, lineEntries, ht, insideAfter]

theorem ofLines_separator (d : Delimiter) (w : List Char) (n : Nat) (x : List Token) :
    ofLines false (separatorToken d w n :: x) = .docString
      { location := ⟨n, w.length + 1⟩, delimiter := String.ofList d.chars, mediaType := none,
        content := contentOf x } :: ofLines true x :=
  rfl

/-- What a step and the doc string after it stand for. -/
theorem ofLines_written (ht : t.kind = .step) (hopen : leavesOpen false leading = false)
    (hg : ∀ u ∈ gap, isTrivia u.kind = true) (n : Nat) :
    ∃ es es', ofLines false (leading ++ t :: (gap ++ (writtenTokens d w content n ++ us))) =
      es ++ .step t.location (t.keyword.getD "") t.text :: .docString
        { location := ⟨n, w.length + 1⟩, delimiter := String.ofList d.chars, mediaType := none,
          content := String.ofList content } :: es' := by
  obtain ⟨es, hes⟩ := TriviaLines.ofLines_cut (h := t) (by simp [ht, isText]) (by simp [ht]) false
    leading
  have hseparator : (separatorToken d w (n + 1 + (content.splitOn '\n').length)).kind ≠
      .docStringContent := by
    simp [separatorToken]
  refine ⟨es, ofLines true (contentTokens (n + 1) (content.splitOn '\n') ++
    separatorToken d w (n + 1 + (content.splitOn '\n').length) :: us), ?_⟩
  rw [hes, hopen, ofLines_step ht, ofLines_trivia hg, writtenTokens, List.cons_append,
    List.append_assoc, List.singleton_append, ofLines_separator, contentOf_written _ _ hseparator]

end Lines

/-- The step `t` stands right before a place of a text that is after a newline, and has no
argument. -/
def StepBefore (table : Table) (settings : Settings) (code : String) (before after : List Char)
    (t : Token) : Prop :=
  let tokens := (tokenize table settings code (String.ofList (before ++ '\n' :: after))).tokens
  let n := (lines (before ++ ['\n'])).length
  BareStep (tokens.take n) (tokens.drop n) t

/-- A text with a doc string at a place after a newline. -/
def withDocString (d : Delimiter) (w content before rest : List Char) : List Char :=
  before ++ '\n' :: (['\n'].intercalate (writtenLines d w content) ++ rest)

/-- Lines up to a step without an argument and after it, and the lines after it once there is more
before them. -/
structure Split (t : Token) (leading gap us us' : List Token) : Prop where
  step : t.kind = .step
  outside : leavesOpen false leading = false
  gap : ∀ u ∈ gap, isTrivia u.kind = true
  next : ∀ k, (significant false us).head? = some k → k ≠ .tableRow ∧ k ≠ .docStringSeparator
  ends : us ≠ []
  kinds : us'.map (·.kind) = us.map (·.kind)

section Texts

variable {table : Table} {settings : Settings} {code : String} {before after rest : List Char}
  {t : Token} {d : Delimiter} {w content : List Char}

theorem lines_withDocString (hw : IsIndent w) (hc : Writable d content)
    (hr : rest = '\n' :: after ∨ rest = [] ∧ after = []) :
    lines (withDocString d w content before rest) =
      lines (before ++ ['\n']) ++ (writtenLines d w content ++ lines after) := by
  have hlast : (writtenLines d w content).getLast? ≠ some [] := by
    rw [writtenLines_last]
    simp [chars_ne_nil d]
  have hrest : rest = '\n' :: after ∨
      rest = [] ∧ after = [] ∧ (writtenLines d w content).getLast? ≠ some [] := by
    rcases hr with hr | ⟨hr, ha⟩
    · exact .inl hr
    · exact .inr ⟨hr, ha, hlast⟩
  have hne : writtenLines d w content ≠ [] := by simp [writtenLines]
  rw [withDocString, lines_append, lines_intercalate (isLine_written hw hc) hne hrest]

/-- What a text is read as before and after a doc string has been written under a step of it. -/
theorem tokenize_written (hs : StepBefore table settings code before after t) (hw : IsIndent w)
    (hc : Writable d content) (hr : rest = '\n' :: after ∨ rest = [] ∧ after = []) :
    ∃ leading gap us us', Split t leading gap us us' ∧
      (tokenize table settings code (String.ofList (before ++ '\n' :: after))).tokens =
        leading ++ t :: (gap ++ us) ∧
      (tokenize table settings code
          (String.ofList (withDocString d w content before rest))).tokens =
        leading ++ t :: (gap ++
          (writtenTokens d w content ((lines (before ++ ['\n'])).length + 1) ++ us')) := by
  obtain ⟨ts, r, hlen, hopen, hcontent, hread⟩ :=
    readAll_append table settings (Reader.start table settings code) 1 (lines (before ++ ['\n']))
  have hold : (tokenize table settings code (String.ofList (before ++ '\n' :: after))).tokens =
      ts ++ (r.readAll table settings (1 + (lines (before ++ ['\n'])).length) (lines after)).1 := by
    rw [← hread, ← lines_append]
    simp [tokenize]
  have hnew : (tokenize table settings code
      (String.ofList (withDocString d w content before rest))).tokens =
      ts ++ (r.readAll table settings (1 + (lines (before ++ ['\n'])).length)
        (writtenLines d w content ++ lines after)).1 := by
    rw [← hread, ← lines_withDocString hw hc hr]
    simp [tokenize]
  obtain ⟨hstep, ⟨leading, gap, hts, hgap⟩, hnext⟩ := hs
  rw [hold, List.take_left' hlen] at hts
  rw [hold, List.drop_left' hlen] at hnext
  subst hts
  rw [List.append_assoc] at hold
  -- A step is no line of a doc string, so none is open before it or at the place.
  have houtside : Outside t := by simp [Outside, hstep]
  have hleading : leavesOpen false leading = false := houtside.leavesOpen hold
  have hd : r.docString = none := by
    have hclosed := hopen.trans (leavesOpen_step hstep hleading hgap)
    simpa using hclosed
  have hc' : r.hasContent = true := by
    rw [hcontent]
    simp [hstep, isTrivia]
  obtain ⟨number, hwritten⟩ := readAll_written table settings hd hc' hw hc
    (1 + (lines (before ++ ['\n'])).length) (lines after)
  refine ⟨leading, gap,
    (r.readAll table settings (1 + (lines (before ++ ['\n'])).length) (lines after)).1,
    (r.readAll table settings number (lines after)).1, ⟨hstep, hleading, hgap, ?_, ?_,
    readAll_kinds table settings r number _ (lines after)⟩, ?_, ?_⟩
  · intro k hk
    rw [head_significant] at hk
    obtain ⟨u, hu, rfl⟩ := Option.map_eq_some_iff.mp hk
    exact hnext u hu
  · obtain ⟨body, eof, hb, -⟩ := readAll_ends table settings r
      (1 + (lines (before ++ ['\n'])).length) (lines after)
    rw [hb]
    simp
  · exact hold
  · rw [hnew, hwritten, Nat.add_comm 1, List.append_assoc]
    rfl

/-- The text is a document with the doc string exactly if it is one without. -/
theorem accepts_written {leading gap us us' : List Token} (hs : Split t leading gap us us')
    (he : ∀ u ∈ leading, u.kind ≠ .eof) (n : Nat) :
    Mode.start.accepts (significant false
      (leading ++ t :: (gap ++ (writtenTokens d w content n ++ us')))) =
    Mode.start.accepts (significant false (leading ++ t :: (gap ++ us))) := by
  have hx : ∀ k ∈ significant false leading, k ≠ .eof := by
    intro k hk
    obtain ⟨u, hu, rfl⟩ := mem_significant hk
    exact he u hu
  rw [significant_step hs.step hs.outside hs.gap, significant_step hs.step hs.outside hs.gap,
    significant_written, significant_kinds hs.kinds]
  exact accepts_docString hx hs.next _

end Texts

/-- Decoding a doc string undoes writing it. In a text that is a document, a doc string is written
under a step without an argument: a separator, the lines of any content that does not have the
escaped delimiter and none of whose lines ends with a carriage return, each with its delimiters
escaped, and a separator, all with one indent. The text is a document again, in which the step has a
doc string with exactly this content. -/
theorem parse_withDocString {table : Table} {settings : Settings} {requested : Option String}
    {uri : String} {before after rest : List Char} {doc₀ : Document} {t : Token}
    (h : parse table settings requested uri (String.ofList (before ++ '\n' :: after)) = .ok doc₀)
    (hs : StepBefore table settings (settings.initialLanguage requested) before after t)
    {d : Delimiter} {w content : List Char} (hw : IsIndent w) (hc : Writable d content)
    (hr : rest = '\n' :: after ∨ rest = [] ∧ after = []) :
    ∃ doc, parse table settings requested uri
        (String.ofList (withDocString d w content before rest)) = .ok doc ∧
      ∃ s ∈ stepsOf doc, s.location = t.location ∧ s.keyword = t.keyword.getD "" ∧
        s.text = t.text ∧ s.argument = some (.docString
          { location := ⟨(lines (before ++ ['\n'])).length + 1, w.length + 1⟩
            delimiter := String.ofList d.chars
            mediaType := none
            content := String.ofList content }) := by
  obtain ⟨leading, gap, us, us', hsplit, hold, hnew⟩ := tokenize_written hs hw hc hr
  have hwell := tokenize_wellShaped table settings (settings.initialLanguage requested)
  have hbefore := hwell (String.ofList (before ++ '\n' :: after))
  have hafter := hwell (String.ofList (withDocString d w content before rest))
  have heof : ∀ u ∈ leading, u.kind ≠ .eof := by
    have hends := hbefore
    rw [hold, ← List.cons_append, ← List.append_assoc] at hends
    obtain ⟨_, _, -, -, hn⟩ := TriviaLines.ends_after hends hsplit.ends
    exact fun u hu => hn u (by simp [hu])
  have haccepts := (ofTokens_accepts _ uri hbefore).mp ⟨doc₀, h⟩
  rw [hold, ← accepts_written hsplit heof, ← hnew] at haccepts
  obtain ⟨doc, hdoc⟩ := (ofTokens_accepts _ uri hafter).mpr haccepts
  refine ⟨doc, hdoc, ?_⟩
  have hentries := (Conservation.ofTokens_entries hafter
    (tokenize_text table settings _ _) hdoc).1
  obtain ⟨es, es', hes⟩ := ofLines_written hsplit.step hsplit.outside hsplit.gap
    ((lines (before ++ ['\n'])).length + 1)
  rw [hnew, hes] at hentries
  exact (argued_ofDocument doc).step es _ _ _ _ es' hentries

def sampleBefore : List Char :=
  "Feature: F\nScenario: S\nGiven x".toList

def sampleAfter : List Char :=
  "# note\nGiven y\n".toList

def sampleStep : Token where
  kind := .step
  location := ⟨3, 1⟩
  keyword := some "Given "
  keywordType := some .context
  text := "x"

def sampleIndent : List Char :=
  [' ', '\t']

/-- Four quotes, a backslash before a delimiter, a line without text, and an indent before a
delimiter. -/
def sampleContent : List Char :=
  "\"\"\"\"\n\\\"\"\"\n\n  \"\"\"\\\"".toList

theorem parse_withDocString_sample :
    (∃ doc, parse Conservation.sampleTable {} none ""
      (String.ofList (sampleBefore ++ '\n' :: sampleAfter)) = .ok doc) ∧
    StepBefore Conservation.sampleTable {} "en" sampleBefore sampleAfter sampleStep ∧
    IsIndent sampleIndent ∧ Writable .quotes sampleContent ∧
    ∃ doc, parse Conservation.sampleTable {} none "" (String.ofList
        (withDocString .quotes sampleIndent sampleContent sampleBefore ('\n' :: sampleAfter))) =
          .ok doc ∧
      ∃ s ∈ stepsOf doc, s.location = ⟨3, 1⟩ ∧ s.argument = some (.docString
        { location := ⟨4, 3⟩, delimiter := "\"\"\"", mediaType := none,
          content := String.ofList sampleContent }) := by
  have hs : StepBefore Conservation.sampleTable {} "en" sampleBefore sampleAfter sampleStep := by
    refine ⟨rfl, ⟨((tokenize Conservation.sampleTable {} "en" (String.ofList
      (sampleBefore ++ '\n' :: sampleAfter))).tokens.take 2), [], ?_, by simp⟩, ?_⟩
    · decide +kernel
    · decide +kernel
  have hw : IsIndent sampleIndent := by decide
  have hc : Writable .quotes sampleContent := ⟨by decide +kernel, by decide +kernel⟩
  have ho : (parse Conservation.sampleTable {} none ""
      (String.ofList (sampleBefore ++ '\n' :: sampleAfter))).isOk = true := by
    decide +kernel
  cases h : parse Conservation.sampleTable {} none ""
      (String.ofList (sampleBefore ++ '\n' :: sampleAfter)) with
  | error e =>
    rw [h] at ho
    cases ho
  | ok doc₀ =>
    obtain ⟨doc, hdoc, s, hm, hl, -, -, ha⟩ := parse_withDocString h hs hw hc (.inl rfl)
    exact ⟨⟨doc₀, rfl⟩, hs, hw, hc, doc, hdoc, s, hm, hl, ha⟩

end Brine.Proofs.WrittenDocStrings
