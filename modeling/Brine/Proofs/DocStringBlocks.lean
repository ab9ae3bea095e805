import Brine.Proofs.FirstErrors
import Brine.Proofs.SourcePlaces

namespace Brine.Proofs.DocStringBlocks
open Line Text Document DraftSteps DraftViews DraftModes LineShapes FirstErrors

/-- The line starts with the delimiter, blanks aside. -/
def Starts (d : Delimiter) (line : List Char) : Prop :=
  d.chars <+: trimStart line

def Outside (t : Token) : Prop :=
  t.kind ≠ .docStringSeparator ∧ t.kind ≠ .docStringContent ∧ t.kind ≠ .eof

structure Separates (d : Delimiter) (line : List Char) (t : Token) : Prop where
  kind : t.kind = .docStringSeparator
  keyword : t.keyword = some (String.ofList d.chars)
  starts : Starts d line

structure Holds (d : Delimiter) (line : List Char) (t : Token) : Prop where
  kind : t.kind = .docStringContent
  starts : ¬Starts d line

/-- Lines and what they are read as: lines outside of doc strings, and doc strings between two
separators with one delimiter, the last of which may stay open. -/
inductive Blocks : List (List Char) → List Token → Prop
  | nil : Blocks [] []
  | plain {line : List Char} {t : Token} {ls : List (List Char)} {ts : List Token} :
      Outside t → Blocks ls ts → Blocks (line :: ls) (t :: ts)
  | block {d : Delimiter} {opening closing : List Char} {inner rest : List (List Char)}
      {t u : Token} {ts us : List Token} :
      Separates d opening t → List.Forall₂ (Holds d) inner ts → Separates d closing u →
      Blocks rest us → Blocks (opening :: (inner ++ closing :: rest)) (t :: (ts ++ u :: us))
  | unclosed {d : Delimiter} {opening : List Char} {inner : List (List Char)} {t : Token}
      {ts : List Token} :
      Separates d opening t → List.Forall₂ (Holds d) inner ts →
      Blocks (opening :: inner) (t :: ts)

/-- Lines after an opening separator: content up to the closing one, and what comes after that; or
nothing but content. -/
inductive Inside (d : Delimiter) : List (List Char) → List Token → Prop
  | closed {closing : List Char} {inner rest : List (List Char)} {u : Token} {ts us : List Token} :
      List.Forall₂ (Holds d) inner ts → Separates d closing u → Blocks rest us →
      Inside d (inner ++ closing :: rest) (ts ++ u :: us)
  | unclosed {inner : List (List Char)} {ts : List Token} :
      List.Forall₂ (Holds d) inner ts → Inside d inner ts

section Relations

variable {d : Delimiter} {line : List Char} {t : Token} {ls : List (List Char)} {ts : List Token}

theorem Inside.content (hl : Holds d line t) (h : Inside d ls ts) :
    Inside d (line :: ls) (t :: ts) := by
  cases h with
  | closed hi hc hr => exact .closed (.cons hl hi) hc hr
  | unclosed hi => exact .unclosed (.cons hl hi)

theorem Blocks.opened (hl : Separates d line t) (h : Inside d ls ts) :
    Blocks (line :: ls) (t :: ts) := by
  cases h with
  | closed hi hc hr => exact .block hl hi hc hr
  | unclosed hi => exact .unclosed hl hi

/-- No line starts with two delimiters. -/
theorem Starts.unique {d' : Delimiter} (h : Starts d line) (h' : Starts d' line) : d = d' := by
  obtain ⟨rest, h⟩ := h
  obtain ⟨rest', h'⟩ := h'
  have he := h.trans h'.symm
  cases d <;> cases d' <;> simp [Delimiter.chars] at he ⊢

end Relations

section Reading

variable (table : Table) (settings : Settings) {r : Reader} (number : Nat) {line : List Char}

theorem after?_append (start rest : List Char) : after? start (start ++ rest) = some rest := by
  induction start with
  | nil => rfl
  | cons c start ih => simp [after?, ih]

theorem starts_iff {d : Delimiter} :
    Starts d line ↔ ∃ rest, after? d.chars (trimStart line) = some rest := by
  constructor
  · rintro ⟨rest, h⟩
    exact ⟨rest, by rw [← h, after?_append]⟩
  · rintro ⟨rest, h⟩
    exact ⟨rest, (SourcePlaces.after?_eq_some h).symm⟩

/-- Inside of a doc string a line that starts with its delimiter closes it. -/
theorem read_closing {doc : OpenDocString} (hd : r.docString = some doc)
    (hs : Starts doc.delimiter line) :
    r.read table settings number line =
      ({ kind := .docStringSeparator, location := ⟨number, indent line + 1⟩,
         keyword := some (String.ofList doc.delimiter.chars) },
        { r with docString := none, hasContent := true }) := by
  obtain ⟨rest, ha⟩ := starts_iff.mp hs
  simp [Reader.read, Reader.readDocLine, hd, ha]

/-- Inside of a doc string every other line is content. -/
theorem read_content {doc : OpenDocString} (hd : r.docString = some doc)
    (hs : ¬Starts doc.delimiter line) :
    r.read table settings number line =
      ({ kind := .docStringContent, location := ⟨number, 1⟩,
         text := String.ofList (docContent doc line) }, { r with hasContent := true }) := by
  have ha : after? doc.delimiter.chars (trimStart line) = none := by
    rw [Option.eq_none_iff_forall_ne_some]
    exact fun rest ha => hs (starts_iff.mpr ⟨rest, ha⟩)
  simp [Reader.read, Reader.readDocLine, hd, ha]

/-- Outside of doc strings a line that starts with a delimiter opens one. -/
theorem read_opening {d : Delimiter} {rest : List Char} (hd : r.docString = none)
    (hs : trimStart line = d.chars ++ rest) :
    r.read table settings number line =
      ({ kind := .docStringSeparator, location := ⟨number, indent line + 1⟩,
         keyword := some (String.ofList d.chars),
         mediaType := if (trim rest).isEmpty then none else some (String.ofList (trim rest)) },
        { r with docString := some ⟨d, indent line⟩, hasContent := true }) := by
  have ho : opening? (d.chars ++ rest) = some (d, rest) := by
    cases d <;> simp [opening?, Delimiter.chars, after?]
  cases d <;> simp [Reader.read, Reader.readPlain, hd, hs, ho] <;> simp [Delimiter.chars]

theorem keywordLine_outside (d : Dialect) (location : Location) (line trimmed : List Char) :
    Outside (keywordLine d location line trimmed) := by
  unfold keywordLine
  split
  · rename_i kind keyword title hh
    have hk := heading_kind hh
    cases kind <;> simp [Kind.isHeading] at hk <;> simp [Outside]
  · split <;> simp [Outside]

theorem readComment_outside (hd : r.docString = none) (line : List Char) :
    Outside (r.readComment table settings number line).1 ∧
      (r.readComment table settings number line).2.docString = none := by
  unfold Reader.readComment
  split <;> simp [Outside, hd]

/-- A line without a delimiter at its start has nothing to do with doc strings. -/
theorem readPlain_outside (hd : r.docString = none) (hs : ¬∃ d, Starts d line) :
    Outside (r.readPlain table settings number line).1 ∧
      (r.readPlain table settings number line).2.docString = none := by
  have ho : opening? (trimStart line) = none := by
    rw [opening?, List.findSome?_eq_none_iff]
    intro d _
    rw [Option.map_eq_none_iff, Option.eq_none_iff_forall_ne_some]
    intro rest ha
    exact hs ⟨d, starts_iff.mpr ⟨rest, ha⟩⟩
  unfold Reader.readPlain
  simp only [ho]
  split
  · simp [Outside, hd]
  · exact readComment_outside table settings number hd line
  · simp [Outside, hd]
  · split
    · simp [Outside, hd]
    · exact ⟨keywordLine_outside _ _ _ _, hd⟩

/-- Outside of doc strings a line either opens one or has nothing to do with them. -/
theorem read_outside (hd : r.docString = none) (line : List Char) :
    (∃ d, Separates d line (r.read table settings number line).1 ∧
      (r.read table settings number line).2.docString = some ⟨d, indent line⟩) ∨
    Outside (r.read table settings number line).1 ∧
      (r.read table settings number line).2.docString = none := by
  by_cases hs : ∃ d, Starts d line
  · obtain ⟨d, rest, hs⟩ := hs
    have hr := read_opening table settings number hd hs.symm
    refine .inl ⟨d, ⟨?_, ?_, ⟨rest, hs⟩⟩, ?_⟩ <;> rw [hr]
  · right
    have hp := readPlain_outside table settings number hd hs
    simp only [Reader.read, hd]
    split
    · exact hp
    · exact hp

end Reading

def endAfter (n : Nat) : Token where
  kind := .eof
  location := ⟨n + 1, 0⟩

section Texts

variable (table : Table) (settings : Settings)

/-- The lines of a text are read as blocks, from outside as from inside of a doc string. -/
theorem readAll_blocks (r : Reader) (number : Nat) (ls : List (List Char)) :
    ∃ body, (r.readAll table settings (number + 1) ls).1 =
        body ++ [endAfter (number + ls.length)] ∧
      (r.docString = none → Blocks ls body) ∧
      ∀ doc, r.docString = some doc → Inside doc.delimiter ls body := by
  induction ls generalizing r number with
  | nil => exact ⟨[], rfl, fun _ => .nil, fun _ _ => .unclosed .nil⟩
  | cons line ls ih =>
    obtain ⟨body, hb, hout, hin⟩ := ih (r.read table settings (number + 1) line).2 (number + 1)
    refine ⟨(r.read table settings (number + 1) line).1 :: body, ?_, ?_, ?_⟩
    · rw [readAll_cons, hb, List.length_cons, Nat.add_right_comm, Nat.add_assoc, List.cons_append]
    · intro hd
      rcases read_outside table settings (number + 1) hd line with ⟨d, hs, hr⟩ | ⟨ht, hr⟩
      · exact .opened hs (hin _ hr)
      · exact .plain ht (hout hr)
    · intro doc hd
      by_cases hs : Starts doc.delimiter line
      · rw [read_closing table settings (number + 1) hd hs] at hout ⊢
        exact .closed .nil ⟨rfl, rfl, hs⟩ (hout rfl)
      · rw [read_content table settings (number + 1) hd hs] at hin ⊢
        exact .content ⟨rfl, hs⟩ (hin doc hd)

end Texts

/-- A doc string is open in the draft. -/
def InDocString (d : Draft) : Prop :=
  ∃ f doc, d.stage = .feature f ∧ f.docString = some doc

/-- The error says that nothing but a separator could have stood there. -/
def MissesSeparator : Document.Error → Prop
  | .unexpectedLine _ expected _ | .unexpectedEnd _ expected => expected = [.docStringSeparator]
  | _ => False

section Drafts

variable {d : Draft} {t : Token} {e : Document.Error}

/-- An open doc string takes separators and content. -/
theorem InDocString.push (h : InDocString d)
    (hk : t.kind = .docStringSeparator ∨ t.kind = .docStringContent) :
    ∃ d', d.push t = .ok d' := by
  obtain ⟨f, doc, hf, hd⟩ := h
  rw [push_inDoc hf hd]
  rcases hk with hk | hk <;> exact ⟨_, by rw [OpenFeature.pushDoc, hk]; rfl⟩

theorem expected_iff : d.stage.expected = [.docStringSeparator] ↔ InDocString d := by
  unfold InDocString
  cases hs : d.stage with
  | start tags => simp [Stage.expected]
  | feature f =>
    simp only [Stage.expected, Stage.feature.injEq, exists_and_left, exists_eq_left']
    cases hd : f.docString with
    | some doc => simp
    | none =>
      simp only [Option.isSome_none, Bool.false_eq_true, ↓reduceIte, reduceCtorEq, exists_false,
        iff_false]
      split <;> simp [scenarioLines, featureLines]

/-- A text cannot end in a doc string. -/
theorem InDocString.finish (h : InDocString d) (he : t.kind = .eof) (language uri : String) :
    d.finish language uri t = .error (.unexpectedEnd t.location [.docStringSeparator]) := by
  have hexpected := expected_iff.mpr h
  obtain ⟨f, doc, hf, hd⟩ := h
  rw [hf] at hexpected
  simp [Draft.finish, hf, hd, Stage.unexpected, hexpected, Error.unexpected, he]

/-- Only inside of a doc string a separator is all that can come. -/
theorem inDocString_of_fails (h : Fails d t e) (he : MissesSeparator e) : InDocString d := by
  have hstage (hu : e = d.stage.unexpected t) : InDocString d := by
    rw [← expected_iff]
    rw [hu, Stage.unexpected, Error.unexpected] at he
    split at he
    · exact he
    · exact he
  cases h with
  | push hk h =>
    rcases push_error h with ⟨-, rfl⟩ | ⟨-, hu⟩
    · exact he.elim
    · exact hstage hu
  | finish hk h => exact hstage (finish_error h)

/-- The lines that have been taken leave a doc string open that is open in the draft. -/
theorem InDocString.leavesOpen {pre : List Token} (h : InDocString d) (hl : LanguagesLead pre)
    (hr : pre.foldlM Draft.push {} = .ok d) : leavesOpen false pre = true := by
  obtain ⟨m, hm, ht⟩ := follows_run hl hr
  obtain ⟨f, doc, hf, hd⟩ := h
  rw [← ht.doc]
  cases hdoc : inDoc m with
  | true => rfl
  | false =>
    have hn := hm.docString hdoc f hf
    rw [hd] at hn
    contradiction

end Drafts

section Parsing

variable (table : Table) (settings : Settings) (code source : String)

theorem tokenize_blocks : ∃ body,
    (tokenize table settings code source).tokens =
        body ++ [endAfter (lines source.toList).length] ∧ Blocks (lines source.toList) body := by
  obtain ⟨body, hb, hout, -⟩ :=
    readAll_blocks table settings (Reader.start table settings code) 0 (lines source.toList)
  simp only [Nat.zero_add] at hb
  exact ⟨body, hb, hout rfl⟩

variable {table settings code source}

/-- Before a line that has nothing to do with doc strings none is open. -/
theorem Outside.leavesOpen {pre post : List Token} {t : Token} (ht : Outside t)
    (hs : (tokenize table settings code source).tokens = pre ++ t :: post) :
    leavesOpen false pre = false := by
  cases hopen : FirstErrors.leavesOpen false pre with
  | false => rfl
  | true =>
    rcases readAll_inside table settings (Reader.start table settings code) 1 hs hopen with
      hk | hk | hk
    · exact absurd hk ht.1
    · exact absurd hk ht.2.1
    · exact absurd hk ht.2.2

/-- The end is the last line of a text. -/
theorem eq_endAfter {pre post : List Token} {t : Token}
    (hs : (tokenize table settings code source).tokens = pre ++ t :: post) (ht : t.kind = .eof) :
    t = endAfter (lines source.toList).length ∧ post = [] := by
  obtain ⟨body, eof, hb, -, hn⟩ := (tokenize_wellShaped table settings code source).ends
  obtain ⟨body', hb', -⟩ := tokenize_blocks table settings code source
  have he : eof = endAfter (lines source.toList).length := by
    have h := hb.symm.trans hb'
    exact List.cons.inj (List.append_inj' h rfl).2 |>.1
  rw [hs, he] at hb
  rcases List.eq_nil_or_concat post with rfl | ⟨init, last, rfl⟩
  · exact ⟨List.cons.inj (List.append_inj' hb rfl).2 |>.1, rfl⟩
  · rw [List.concat_eq_append, ← List.cons_append, ← List.append_assoc] at hb
    have hbody := (List.append_inj' hb rfl).1
    exact absurd ht (hn t (by rw [← hbody]; simp))

/-- While a doc string is open a draft takes every line of a text, up to its end. -/
theorem push_text {pre post : List Token} {t : Token} {d : Draft}
    (hs : (tokenize table settings code source).tokens = pre ++ t :: post)
    (hr : pre.foldlM Draft.push {} = .ok d) (hd : InDocString d) :
    (t.kind ≠ .eof ∧ ∃ d', d.push t = .ok d') ∨
      t = endAfter (lines source.toList).length ∧ post = [] := by
  have hl := languagesLead_of_wellShaped (tokenize_wellShaped table settings code source)
  rw [hs] at hl
  have hopen := hd.leavesOpen hl.of_append hr
  rcases readAll_inside table settings (Reader.start table settings code) 1 hs hopen with
    hk | hk | hk
  · exact .inl ⟨by simp [hk], hd.push (.inl hk)⟩
  · exact .inl ⟨by simp [hk], hd.push (.inr hk)⟩
  · exact .inr (eq_endAfter hs hk)

/-- If a text fails because a separator is missing, then at its end. -/
theorem ofTokens_missesSeparator {uri : String} {e : Document.Error}
    (h : ofTokens (tokenize table settings code source) uri = .error e) (he : MissesSeparator e) :
    e = .unexpectedEnd ⟨(lines source.toList).length + 1, 0⟩ [.docStringSeparator] := by
  obtain ⟨body, eof, hb, hk, -⟩ := (tokenize_wellShaped table settings code source).ends
  obtain ⟨pre, p, post, d, hs, -, hr, hf⟩ := build_error ⟨eof, by simp [hb], hk⟩ h
  have hd := inDocString_of_fails hf he
  rcases push_text hs hr hd with ⟨hp, d', hok⟩ | ⟨rfl, -⟩
  · cases hf with
    | push _ herr =>
      rw [hok] at herr
      cases herr
    | finish hp' _ => exact absurd hp' hp
  · cases hf with
    | push hp _ => exact absurd rfl hp
    | finish hp herr =>
      rw [hd.finish hp] at herr
      cases herr
      rfl

end Parsing

/-- Every text consists of lines outside of doc strings and of doc strings: a separator, content,
and a separator with the same delimiter, where the last doc string may stay open. After its lines
there is the end of the text. Inside of a doc string a line that starts with the other delimiter is
content. A draft with an open doc string takes every line of the text but its end, where it fails;
so no document fails at a line because it is no separator. -/
theorem tokenize_docStrings (table : Table) (settings : Settings) (code source : String) :
    let n := (lines source.toList).length
    let tokens := (tokenize table settings code source).tokens
    (∃ body, tokens = body ++ [{ kind := .eof, location := ⟨n + 1, 0⟩ }] ∧
      Blocks (lines source.toList) body) ∧
    (∀ (r : Reader) (doc : OpenDocString) (number : Nat) (line : List Char) (d : Delimiter),
      r.docString = some doc → Starts d line → d ≠ doc.delimiter →
        (r.read table settings number line).1.kind = .docStringContent) ∧
    (∀ pre t post d, tokens = pre ++ t :: post → pre.foldlM Draft.push {} = .ok d →
      InDocString d →
        (t.kind ≠ .eof ∧ ∃ d', d.push t = .ok d') ∨
        t.kind = .eof ∧ post = [] ∧ ∀ language uri, d.finish language uri t =
          .error (.unexpectedEnd ⟨n + 1, 0⟩ [.docStringSeparator])) ∧
    ∀ uri e, ofTokens (tokenize table settings code source) uri = .error e → MissesSeparator e →
      e = .unexpectedEnd ⟨n + 1, 0⟩ [.docStringSeparator] := by
  intro n tokens
  refine ⟨tokenize_blocks table settings code source, ?_, ?_, ?_⟩
  · intro r doc number line d hd hs hne
    rw [read_content table settings number hd fun h => hne (hs.unique h)]
  · intro pre t post d hs hr hd
    rcases push_text hs hr hd with ht | ⟨rfl, hp⟩
    · exact .inl ht
    · exact .inr ⟨rfl, hp, fun language uri => hd.finish rfl language uri⟩
  · intro uri e h he
    exact ofTokens_missesSeparator h he

example : (tokenize Conservation.sampleTable {} "en"
    "Given x\n\"\"\"\n```\nFeature: F\n\"\"\" y\n# note\n```\n\"\"\"").tokens.map (·.kind) =
    [.step, .docStringSeparator, .docStringContent, .docStringContent, .docStringSeparator,
      .comment, .docStringSeparator, .docStringContent, .eof] := by
  decide +kernel

end Brine.Proofs.DocStringBlocks
