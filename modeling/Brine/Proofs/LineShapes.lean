import Brine.Line.Reader
import Mathlib.Data.List.TakeWhile

namespace Brine.Proofs.LineShapes
open Line Text

/-- Lines that count nowhere but in doc strings. -/
def isTrivia : Kind → Bool
  | .empty | .comment | .language => true
  | _ => false

def insideAfter (inside : Bool) (k : Kind) : Bool :=
  inside ^^ decide (k = .docStringSeparator)

/-- What holds of the lines of every text. -/
structure WellShaped (ts : List Token) : Prop where
  /-- The last line is the end of the text, and no line before it is. -/
  ends : ∃ body eof, ts = body ++ [eof] ∧ eof.kind = .eof ∧ ∀ t ∈ body, t.kind ≠ .eof
  /-- From the first line on that counts, no line names the language. -/
  languages : ∀ t ∈ ts.dropWhile (isTrivia ·.kind), t.kind ≠ .language

/-- The lines of a text are some that do not count, then lines without one that names the language,
and the end. -/
theorem WellShaped.split {ts : List Token} (h : WellShaped ts) :
    ∃ leading body eof, ts = leading ++ (body ++ [eof]) ∧ eof.kind = .eof ∧
      (∀ t ∈ leading, isTrivia t.kind = true) ∧
      ∀ t ∈ body, t.kind ≠ .eof ∧ t.kind ≠ .language := by
  obtain ⟨body, eof, rfl, he, hb⟩ := h.ends
  have hl := h.languages
  have hd : (body ++ [eof]).dropWhile (isTrivia ·.kind) =
      body.dropWhile (isTrivia ·.kind) ++ [eof] := by
    rw [List.dropWhile_append]
    split
    · simp_all [isTrivia]
    · rfl
  rw [hd] at hl
  refine ⟨body.takeWhile (isTrivia ·.kind), body.dropWhile (isTrivia ·.kind), eof, ?_, he, ?_, ?_⟩
  · rw [← List.append_assoc, List.takeWhile_append_dropWhile]
  · intro t ht
    exact List.mem_takeWhile_imp (p := fun t : Token => isTrivia t.kind) ht
  · intro t ht
    exact ⟨hb t (List.dropWhile_subset _ ht), hl t (List.mem_append_left _ ht)⟩

theorem heading_kind {d : Dialect} {line : List Char} {kind : Kind} {keyword : String}
    {title : List Char} (h : heading? d line = some (kind, keyword, title)) :
    kind.isHeading = true := by
  unfold heading? at h
  obtain ⟨⟨k, keywords⟩, hm, hf⟩ := List.exists_of_findSome?_eq_some h
  obtain ⟨w, -, hw⟩ := List.exists_of_findSome?_eq_some hf
  have hk : k = kind := by
    simp only [Option.bind_eq_bind, Option.bind_eq_some_iff] at hw
    obtain ⟨rest, -, title', -, ht⟩ := hw
    cases ht
    rfl
  subst hk
  simp only [headingLists, List.mem_cons, Prod.mk.injEq, List.not_mem_nil, or_false] at hm
  rcases hm with ⟨rfl, -⟩ | ⟨rfl, -⟩ | ⟨rfl, -⟩ | ⟨rfl, -⟩ | ⟨rfl, -⟩ | ⟨rfl, -⟩ <;> rfl

theorem trimEnd_ne_nil {line : List Char} (h : trimStart line ≠ []) : trimEnd line ≠ [] := by
  simp only [trimStart, trimEnd, ne_eq, List.reverse_eq_nil_iff, List.dropWhile_eq_nil_iff,
    List.mem_reverse] at h ⊢
  exact h

structure LineShape (content : Bool) (t : Token) : Prop where
  not_eof : t.kind ≠ .eof
  language : t.kind = .language → content = false
  text : t.kind = .other → t.text ≠ ""

/-- A line that is no end, no language line and no plain text. -/
theorem LineShape.of_kind {content : Bool} {t : Token}
    (h : t.kind ≠ .eof ∧ t.kind ≠ .language ∧ t.kind ≠ .other) : LineShape content t :=
  ⟨h.1, fun hl => absurd hl h.2.1, fun ho => absurd ho h.2.2⟩

theorem keywordLine_shape (content : Bool) (d : Dialect) (location : Location) {line : List Char}
    (h : trimStart line ≠ []) :
    LineShape content (keywordLine d location line (trimStart line)) := by
  unfold keywordLine
  split
  · rename_i kind keyword title hh
    have hk := heading_kind hh
    apply LineShape.of_kind
    cases kind <;> simp [Kind.isHeading] at hk ⊢
  · split
    · exact .of_kind (by simp)
    · refine ⟨by simp, by simp, fun _ => ?_⟩
      have hn := trimEnd_ne_nil h
      simpa using hn

variable (table : Table) (settings : Settings) (r : Reader) (number : Nat)

theorem readDocLine_shape (d : OpenDocString) (line : List Char) :
    LineShape r.hasContent (r.readDocLine d number line).1 := by
  unfold Reader.readDocLine
  split <;> exact .of_kind (by simp)

theorem readPlain_shape (line : List Char) :
    LineShape r.hasContent (r.readPlain table settings number line).1 := by
  unfold Reader.readPlain
  simp only
  split
  · exact .of_kind (by simp)
  · unfold Reader.readComment
    split
    · rename_i hd
      refine ⟨by simp, fun _ => ?_, by simp⟩
      cases hc : r.hasContent <;> simp [hc] at hd ⊢
    · exact .of_kind (by simp)
  · exact .of_kind (by simp)
  · rename_i hh
    split
    · exact .of_kind (by simp)
    · split
      · exact .of_kind (by simp)
      · refine keywordLine_shape _ _ _ fun hn => ?_
        simp [hn] at hh

theorem read_shape (line : List Char) :
    LineShape r.hasContent (r.read table settings number line).1 := by
  unfold Reader.read
  cases r.docString with
  | some d => exact readDocLine_shape r number d line
  | none => exact readPlain_shape table settings r number line

theorem readDocLine_hasContent (d : OpenDocString) (line : List Char) :
    (r.readDocLine d number line).2.hasContent = r.hasContent := by
  unfold Reader.readDocLine
  split <;> rfl

theorem readPlain_hasContent (line : List Char) :
    (r.readPlain table settings number line).2.hasContent = r.hasContent := by
  unfold Reader.readPlain
  simp only
  split
  · rfl
  · unfold Reader.readComment
    split <;> rfl
  · rfl
  · split
    · rfl
    · split <;> rfl

/-- Once there has been content, there has; and a line that counts is content. -/
theorem read_hasContent (line : List Char) :
    (r.read table settings number line).2.hasContent =
      (r.hasContent || !isTrivia (r.read table settings number line).1.kind) := by
  have hr (p : Token × Reader) (hp : p.2.hasContent = r.hasContent) :
      (if p.1.kind = .empty ∨ p.1.kind = .comment ∨ p.1.kind = .language then p.2
        else { p.2 with hasContent := true }).hasContent =
          (r.hasContent || !isTrivia p.1.kind) := by
    split
    · rename_i hk
      rcases hk with hk | hk | hk <;> simp [hp, hk, isTrivia]
    · rename_i hk
      cases ht : p.1.kind <;> simp_all [isTrivia]
  unfold Reader.read
  cases r.docString with
  | some d => exact hr _ (readDocLine_hasContent r number d line)
  | none => exact hr _ (readPlain_hasContent table settings r number line)

theorem keywordLine_kind (d : Dialect) (location : Location) (line trimmed : List Char) :
    (keywordLine d location line trimmed).kind ≠ .docStringSeparator := by
  unfold keywordLine
  split
  · rename_i kind keyword title hh
    have hk := heading_kind hh
    intro he
    obtain rfl : kind = .docStringSeparator := he
    cases hk
  · split <;> simp

/-- Outside of doc strings exactly a separator opens one. -/
theorem readPlain_docString (hd : r.docString = none) (line : List Char) :
    (r.readPlain table settings number line).2.docString.isSome =
      insideAfter false (r.readPlain table settings number line).1.kind := by
  unfold Reader.readPlain
  simp only
  split
  · simp [insideAfter, hd]
  · unfold Reader.readComment
    split <;> simp [insideAfter, hd]
  · simp [insideAfter, hd]
  · split
    · simp [insideAfter]
    · split
      · simp [insideAfter, hd]
      · have hk := keywordLine_kind r.dialect ⟨number, indent line + 1⟩ line (trimStart line)
        simp [insideAfter, hd, hk]

/-- A line opens or closes a doc string exactly if it is a separator. -/
theorem read_docString (line : List Char) :
    (r.read table settings number line).2.docString.isSome =
      insideAfter r.docString.isSome (r.read table settings number line).1.kind := by
  have hkeep (p : Token × Reader) :
      (if p.1.kind = .empty ∨ p.1.kind = .comment ∨ p.1.kind = .language then p.2
        else { p.2 with hasContent := true }).docString = p.2.docString := by
    split <;> rfl
  unfold Reader.read
  cases hd : r.docString with
  | some doc =>
    simp only [hkeep]
    unfold Reader.readDocLine
    split <;> simp [insideAfter, hd]
  | none =>
    simp only [hkeep]
    exact readPlain_docString table settings r number hd line

/-- Inside of a doc string there is nothing but its content, up to a separator. -/
theorem read_inside (hd : r.docString.isSome = true) (line : List Char) :
    (r.read table settings number line).1.kind = .docStringSeparator ∨
      (r.read table settings number line).1.kind = .docStringContent := by
  obtain ⟨doc, hd⟩ := Option.isSome_iff_exists.mp hd
  simp only [Reader.read, hd, Reader.readDocLine]
  split
  · exact .inl rfl
  · exact .inr rfl

theorem readAll_cons (line : List Char) (ls : List (List Char)) :
    (r.readAll table settings number (line :: ls)).1 = (r.read table settings number line).1 ::
      ((r.read table settings number line).2.readAll table settings (number + 1) ls).1 :=
  rfl

variable (ls : List (List Char))

theorem readAll_ends : ∃ body eof, (r.readAll table settings number ls).1 = body ++ [eof] ∧
    eof.kind = .eof ∧ ∀ t ∈ body, t.kind ≠ .eof := by
  induction ls generalizing r number with
  | nil => exact ⟨[], _, rfl, rfl, by simp⟩
  | cons line ls ih =>
    obtain ⟨body, eof, hb, he, hn⟩ := ih (r.read table settings number line).2 (number + 1)
    refine ⟨(r.read table settings number line).1 :: body, eof, ?_, he, ?_⟩
    · rw [readAll_cons, hb, List.cons_append]
    · exact List.forall_mem_cons.mpr ⟨(read_shape table settings r number line).not_eof, hn⟩

theorem readAll_text : ∀ t ∈ (r.readAll table settings number ls).1, t.kind = .other →
    t.text ≠ "" := by
  induction ls generalizing r number with
  | nil => simp [Reader.readAll]
  | cons line ls ih =>
    rw [readAll_cons]
    exact List.forall_mem_cons.mpr ⟨(read_shape table settings r number line).text, ih _ _⟩

/-- After content no line names the language. -/
theorem readAll_no_language (h : r.hasContent = true) :
    ∀ t ∈ (r.readAll table settings number ls).1, t.kind ≠ .language := by
  induction ls generalizing r number with
  | nil => simp [Reader.readAll]
  | cons line ls ih =>
    rw [readAll_cons]
    refine List.forall_mem_cons.mpr ⟨fun hl => ?_, ih _ _ ?_⟩
    · have hc := (read_shape table settings r number line).language hl
      simp [h] at hc
    · simp [read_hasContent, h]

theorem readAll_languages :
    ∀ t ∈ (r.readAll table settings number ls).1.dropWhile (isTrivia ·.kind),
      t.kind ≠ .language := by
  induction ls generalizing r number with
  | nil => simp [Reader.readAll, isTrivia]
  | cons line ls ih =>
    rw [readAll_cons, List.dropWhile_cons]
    split
    · exact ih _ _
    · rename_i ht
      refine List.forall_mem_cons.mpr ⟨fun hl => ?_, readAll_no_language _ _ _ _ _ ?_⟩
      · simp [hl, isTrivia] at ht
      · simp [read_hasContent, ht]

theorem tokenize_wellShaped (code source : String) :
    WellShaped (tokenize table settings code source).tokens where
  ends := readAll_ends table settings _ 1 _
  languages := readAll_languages table settings _ 1 _

theorem tokenize_text (code source : String) :
    ∀ t ∈ (tokenize table settings code source).tokens, t.kind = .other → t.text ≠ "" :=
  readAll_text table settings _ 1 _

end Brine.Proofs.LineShapes
