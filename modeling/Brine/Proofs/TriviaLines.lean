import Brine.Proofs.BareDocuments
import Brine.Proofs.FirstErrors

namespace Brine.Proofs.TriviaLines
open Line Document LineShapes Entries DraftSteps FirstErrors BareDocuments Success

variable {before after u : List Token} {t c e h : Token} {d d' : Draft}

/-- A comment or a blank line outside of doc strings leaves a draft as it is, but for descriptions
and comments. -/
theorem push_trivia_bare (hd : ∀ f, d.stage = .feature f → f.docString = none)
    (ht : t.kind = .comment ∨ t.kind = .empty) :
    ∃ d', d.push t = .ok d' ∧ bareDraft d' = bareDraft d := by
  rcases ht with ht | ht
  · exact ⟨_, push_comment ht hd, rfl⟩
  · have hc : t.kind ≠ .comment := by simp [ht]
    cases hs : d.stage with
    | start tags =>
      refine ⟨d, ?_, rfl⟩
      rw [push_start hs hc, Draft.pushStart, ht]
    | feature f =>
      have hp := push_empty f d.ids ht
      rw [push_outside hs (hd f hs) hc]
      obtain ⟨r, hr, hb⟩ := map_eq_ok.mp hp
      obtain ⟨hf, hi⟩ := Prod.mk.inj hb
      rw [hr]
      refine ⟨_, rfl, ?_⟩
      simp only [bareDraft, bareStage, hs]
      rw [hf, hi]

theorem impliedEnd_insert (ha : after ≠ []) :
    impliedEnd (before ++ t :: after) = impliedEnd (before ++ after) := by
  rw [impliedEnd, impliedEnd, List.getLast?_append_of_ne_nil _ (List.cons_ne_nil t after),
    List.getLast?_append_of_ne_nil _ ha, List.getLast?_cons_of_ne_nil ha]

/-- Up to descriptions and comments a comment or a blank line more makes no difference. -/
theorem ofTokens_insert_bare (language uri : String) (hl : LanguagesLead before)
    (hn : ∀ t ∈ before, t.kind ≠ .eof) (ha : after ≠ []) (hd : leavesOpen false before = false)
    (ht : t.kind = .comment ∨ t.kind = .empty) :
    (ofTokens ⟨language, before ++ t :: after⟩ uri).map bare =
      (ofTokens ⟨language, before ++ after⟩ uri).map bare := by
  unfold ofTokens
  rw [impliedEnd_insert ha, build_foldlM hn, build_foldlM hn]
  cases hr : before.foldlM Draft.push {} with
  | error er => rfl
  | ok d =>
    obtain ⟨m, hf, htr⟩ := follows_run hl hr
    obtain ⟨d', hp, hb⟩ := push_trivia_bare (hf.docString (htr.doc.trans hd)) ht
    have hk : t.kind ≠ .eof := by rcases ht with ht | ht <;> simp [ht]
    rw [ok_bind, ok_bind, build_cons hk, hp]
    exact build_congr hb language uri _ after

theorem takeWhile_cut {α : Type} {q : α → Bool} {a : α} (hq : q a = false) (l x : List α) :
    (l ++ a :: x).takeWhile q = l.takeWhile q := by
  induction l with
  | nil => simp [hq]
  | cons b l ih => rw [List.cons_append, List.takeWhile_cons, List.takeWhile_cons, ih]

theorem textLines_cut (hh : isText h.kind = false) (b x : List Token) :
    textLines (b ++ h :: x) = textLines b := by
  rw [textLines, takeWhile_cut (q := fun t : Token => isText t.kind) hh, textLines]

/-- A description that has ended does not depend on what comes after its end. -/
theorem textLines_ended (hu : ¬ ∀ t ∈ u, isText t.kind = true) (x : List Token) :
    textLines (u ++ x) = textLines u := by
  obtain ⟨h, hm, hh⟩ : ∃ t ∈ u, isText t.kind = false := by simpa using hu
  obtain ⟨b, b', rfl⟩ := List.append_of_mem hm
  rw [List.append_assoc, List.cons_append, textLines_cut hh, textLines_cut hh]

/-- Text is followed by the text after it. -/
theorem textLines_append (hu : ∀ t ∈ u, isText t.kind = true) (x : List Token) :
    textLines (u ++ x) = textLines u ++ textLines x := by
  rw [textLines, textLines, textLines, List.takeWhile_append_of_pos hu,
    List.takeWhile_eq_self_iff.mpr hu, List.filter_append]

theorem textLines_comment (hc : c.kind = .comment) (x : List Token) :
    textLines (c :: x) = textLines x := by
  simp [textLines, hc, isText]

theorem textLines_empty (he : e.kind = .empty) (x : List Token) :
    textLines (e :: x) = e :: textLines x := by
  simp [textLines, he, isText]

def strip (l : List Token) : List Token :=
  (l.dropWhile (·.kind = .empty)).rdropWhile (·.kind = .empty)

theorem descriptionOf_eq (x : List Token) : descriptionOf x =
    match strip (textLines x) with
    | [] => none
    | lines => some ("\n".intercalate (lines.map lineText)) :=
  rfl

section Blank
variable {α : Type} {q : α → Bool} {x y : List α}

theorem dropWhile_append_some (hx : ∃ a ∈ x, q a = false) (y : List α) :
    (x ++ y).dropWhile q = x.dropWhile q ++ y := by
  have hne : x.dropWhile q ≠ [] := by
    obtain ⟨a, ha, hq⟩ := hx
    intro hn
    have := List.dropWhile_eq_nil_iff.mp hn a ha
    simp [hq] at this
  rw [List.dropWhile_append, if_neg (by simpa using hne)]

theorem rdropWhile_append_all (hy : ∀ a ∈ y, q a = true) (x : List α) :
    (x ++ y).rdropWhile q = x.rdropWhile q := by
  rw [List.rdropWhile, List.reverse_append, List.dropWhile_append_of_pos (by simpa using hy),
    ← List.rdropWhile]

theorem rdropWhile_append_some (hy : ∃ a ∈ y, q a = false) (x : List α) :
    (x ++ y).rdropWhile q = x ++ y.rdropWhile q := by
  rw [List.rdropWhile, List.reverse_append, dropWhile_append_some (by simpa using hy),
    List.reverse_append, List.reverse_reverse, ← List.rdropWhile]

end Blank

/-- A blank line before all or after all of the text is left out. -/
theorem strip_insert (he : e.kind = .empty) {x y : List Token}
    (h : (∀ t ∈ x, t.kind = .empty) ∨ ∀ t ∈ y, t.kind = .empty) :
    strip (x ++ e :: y) = strip (x ++ y) := by
  unfold strip
  rcases h with hx | hy
  · rw [List.dropWhile_append_of_pos (by simpa using hx),
      List.dropWhile_append_of_pos (by simpa using hx),
      List.dropWhile_cons_of_pos (by simpa using he)]
  · by_cases hx : ∀ t ∈ x, t.kind = .empty
    · rw [List.dropWhile_append_of_pos (by simpa using hx),
        List.dropWhile_append_of_pos (by simpa using hx),
        List.dropWhile_cons_of_pos (by simpa using he)]
    · have hx : ∃ t ∈ x, decide (t.kind = .empty) = false := by simpa using hx
      rw [dropWhile_append_some hx, dropWhile_append_some hx,
        rdropWhile_append_all (by simpa [he] using hy), rdropWhile_append_all (by simpa using hy)]

/-- A blank line between lines of text stays. -/
theorem strip_between {x y : List Token} (hx : ∃ t ∈ x, t.kind ≠ .empty)
    (hy : ∃ t ∈ y, t.kind ≠ .empty) (l : List Token) :
    strip (x ++ (l ++ y)) =
      x.dropWhile (·.kind = .empty) ++ l ++ y.rdropWhile (·.kind = .empty) := by
  unfold strip
  rw [dropWhile_append_some (by simpa using hx), ← List.append_assoc,
    rdropWhile_append_some (by simpa using hy)]

/-- What a line stands for depends on the lines after it by descriptions and contents of doc strings
only. -/
theorem lineEntries_congr {x y : List Token}
    (hd : t.kind.isHeading = true → descriptionOf x = descriptionOf y)
    (hc : t.kind = .docStringSeparator → contentOf x = contentOf y) :
    lineEntries t x = lineEntries t y := by
  unfold lineEntries
  cases hk : t.kind <;> simp only [hk, Kind.isHeading, reduceCtorEq, Bool.false_eq_true,
    false_implies, forall_const] at hd hc ⊢ <;> simp [hd, hc]

theorem contentOf_cut (hh : h.kind ≠ .docStringContent) (b x : List Token) :
    contentOf (b ++ h :: x) = contentOf b := by
  rw [contentOf,
    takeWhile_cut (q := fun t : Token => t.kind = .docStringContent) (by simpa using hh), contentOf]

theorem leavesOpen_same {inside : Bool} (hs : ∀ t ∈ ts, t.kind ≠ .docStringSeparator) :
    leavesOpen inside ts = inside := by
  induction ts with
  | nil => rfl
  | cons t ts ih =>
    obtain ⟨ht, hs⟩ := List.forall_mem_cons.mp hs
    have hi : insideAfter inside t.kind = inside := by simp [insideAfter, ht]
    rw [leavesOpen, List.foldl_cons, hi]
    exact ih hs

/-- A doc string that is closed again has its content before the end of the lines. -/
theorem contentOf_closed (hd : leavesOpen true ts = false) (x : List Token) :
    contentOf (ts ++ x) = contentOf ts := by
  obtain ⟨h, hm, hk⟩ : ∃ h ∈ ts, h.kind = .docStringSeparator := by
    apply Classical.byContradiction
    intro hn
    rw [leavesOpen_same (by simpa using hn)] at hd
    contradiction
  obtain ⟨b, b', rfl⟩ := List.append_of_mem hm
  have hh : h.kind ≠ .docStringContent := by simp [hk]
  rw [List.append_assoc, List.cons_append, contentOf_cut hh, contentOf_cut hh]

/-- A comment or a blank line stands for nothing, and takes nothing from what other lines stand for
if it leaves descriptions as they are. -/
theorem ofLines_insert (ht : t.kind = .comment ∨ t.kind = .empty) {inside : Bool}
    (hd : leavesOpen inside before = false)
    (hs : ∀ p h u, before = p ++ h :: u → h.kind.isHeading = true →
      descriptionOf (u ++ t :: after) = descriptionOf (u ++ after)) :
    ofLines inside (before ++ t :: after) = ofLines inside (before ++ after) := by
  induction before generalizing inside with
  | nil =>
    obtain rfl : inside = false := hd
    rcases ht with ht | ht <;> simp [ofLines, lineEntries, ht, insideAfter]
  | cons b before ih =>
    have hrest : ofLines (insideAfter inside b.kind) (before ++ t :: after) =
        ofLines (insideAfter inside b.kind) (before ++ after) :=
      ih hd fun p h u he => hs (b :: p) h u (by rw [he]; rfl)
    rw [List.cons_append, List.cons_append, ofLines, ofLines, hrest]
    cases inside with
    | true => rfl
    | false =>
      have hline : lineEntries b (before ++ t :: after) = lineEntries b (before ++ after) := by
        refine lineEntries_congr (hs [] b before rfl) ?_
        intro hk
        have hd : leavesOpen true before = false := by
          simpa [leavesOpen, insideAfter, hk] using hd
        rw [contentOf_closed hd, contentOf_closed hd]
      rw [hline]

/-- What the lines before a line stand for does not depend on what comes after it, if that line ends
a description and the content of a doc string. -/
theorem ofLines_cut (ht : isText h.kind = false) (hc : h.kind ≠ .docStringContent) (inside : Bool)
    (p : List Token) :
    ∃ es, ∀ x, ofLines inside (p ++ h :: x) = es ++ ofLines (leavesOpen inside p) (h :: x) := by
  induction p generalizing inside with
  | nil => exact ⟨[], fun x => rfl⟩
  | cons t p ih =>
    obtain ⟨es, hes⟩ := ih (insideAfter inside t.kind)
    refine ⟨(if inside then [] else lineEntries t p) ++ es, ?_⟩
    intro x
    have hline : lineEntries t (p ++ h :: x) = lineEntries t p := by
      refine lineEntries_congr (fun _ => ?_) (fun _ => contentOf_cut hc p x)
      rw [descriptionOf_eq, descriptionOf_eq, textLines_cut ht]
    rw [List.cons_append, ofLines, hline, hes, List.append_assoc]
    rfl

/-- The place between two parts of the lines is strictly between two lines of text that describe the
heading `h`; the lines `u` stand between the heading and the place. -/
structure Within (before after : List Token) (h : Token) (u : List Token) : Prop where
  heading : h.kind.isHeading = true
  split : ∃ p, before = p ++ h :: u
  text : ∀ t ∈ u, isText t.kind = true
  above : ∃ t ∈ u, t.kind = .other
  below : ∃ t ∈ after.takeWhile (isText ·.kind), t.kind = .other

/-- The description above the place. -/
def linesAbove (u : List Token) : List String :=
  ((textLines u).dropWhile (·.kind = .empty)).map lineText

/-- The description below the place. -/
def linesBelow (after : List Token) : List String :=
  ((textLines after).rdropWhile (·.kind = .empty)).map lineText

/-- Text is among the lines that count for a description. -/
theorem mem_textLines (ht : ∃ t ∈ ts.takeWhile (isText ·.kind), t.kind = .other) :
    ∃ t ∈ textLines ts, t.kind ≠ .empty := by
  obtain ⟨t, hm, hk⟩ := ht
  exact ⟨t, List.mem_filter.mpr ⟨hm, by simp [hk]⟩, by simp [hk]⟩

theorem all_empty (hn : ¬ ∃ t ∈ ts.takeWhile (isText ·.kind), t.kind = .other) :
    ∀ t ∈ textLines ts, t.kind = .empty := by
  intro t hm
  obtain ⟨hm, hc⟩ := List.mem_filter.mp hm
  have ho : t.kind ≠ .other := fun ho => hn ⟨t, hm, ho⟩
  have ht : isText t.kind = true := List.mem_takeWhile_imp (p := fun t : Token => isText t.kind) hm
  cases hk : t.kind <;> simp_all [isText]

theorem takeWhile_text (hu : ∀ t ∈ u, isText t.kind = true) :
    u.takeWhile (isText ·.kind) = u :=
  List.takeWhile_eq_self_iff.mpr hu

/-- A blank line that is not strictly between lines of text leaves descriptions as they are. -/
theorem descriptionOf_insert (he : e.kind = .empty) (hw : ∀ h u, ¬ Within before after h u)
    (hb : before = p ++ h :: u) (hh : h.kind.isHeading = true) :
    descriptionOf (u ++ e :: after) = descriptionOf (u ++ after) := by
  rw [descriptionOf_eq, descriptionOf_eq]
  by_cases hu : ∀ t ∈ u, isText t.kind = true
  · rw [textLines_append hu, textLines_append hu, textLines_empty he, strip_insert he]
    by_cases ha : ∃ t ∈ u, t.kind = .other
    · right
      apply all_empty
      intro hbelow
      exact hw h u ⟨hh, ⟨p, hb⟩, hu, ha, hbelow⟩
    · left
      apply all_empty
      rw [takeWhile_text hu]
      exact ha
  · rw [textLines_ended hu, textLines_ended hu]

theorem descriptionOf_comment (hc : c.kind = .comment) (u after : List Token) :
    descriptionOf (u ++ c :: after) = descriptionOf (u ++ after) := by
  rw [descriptionOf_eq, descriptionOf_eq]
  by_cases hu : ∀ t ∈ u, isText t.kind = true
  · rw [textLines_append hu, textLines_append hu, textLines_comment hc]
  · rw [textLines_ended hu, textLines_ended hu]

/-- A description with some lines at the place. -/
theorem descriptionOf_within (hw : Within before after h u) {l : List Token}
    (hl : textLines (l ++ after) = l ++ textLines after) :
    descriptionOf (u ++ (l ++ after)) =
      some ("\n".intercalate (linesAbove u ++ (l.map lineText ++ linesBelow after))) := by
  have ha : ∃ t ∈ textLines u, t.kind ≠ .empty := by
    apply mem_textLines
    rw [takeWhile_text hw.text]
    exact hw.above
  have hb : ∃ t ∈ textLines after, t.kind ≠ .empty := mem_textLines hw.below
  rw [descriptionOf_eq, textLines_append hw.text, hl, strip_between ha hb]
  have hne : (textLines u).dropWhile (·.kind = .empty) ≠ [] := by
    obtain ⟨t, hm, hk⟩ := ha
    intro hn
    exact hk (by simpa using List.dropWhile_eq_nil_iff.mp hn t hm)
  obtain ⟨t, ts, hts⟩ := List.exists_cons_of_ne_nil hne
  rw [linesAbove, linesBelow, hts]
  simp

/-- The end of the text is in the second of two parts. -/
theorem ends_after (hw : WellShaped (before ++ after)) (ha : after ≠ []) :
    ∃ rest eof, after = rest ++ [eof] ∧ eof.kind = .eof ∧
      ∀ t ∈ before ++ rest, t.kind ≠ .eof := by
  obtain ⟨body, eof, hb, he, hn⟩ := hw.ends
  obtain ⟨rest, last, rfl⟩ := (List.eq_nil_or_concat after).resolve_left ha
  rw [List.concat_eq_append, ← List.append_assoc] at hb
  obtain ⟨rfl, hl⟩ := List.append_inj' hb rfl
  cases hl
  exact ⟨rest, eof, List.concat_eq_append, he, hn⟩

theorem wellShaped_insert (hw : WellShaped (before ++ after)) (ha : after ≠ [])
    (ht : t.kind = .comment ∨ t.kind = .empty) : WellShaped (before ++ t :: after) where
  ends := by
    obtain ⟨rest, eof, rfl, he, hn⟩ := ends_after hw ha
    refine ⟨before ++ t :: rest, eof, by simp, he, ?_⟩
    intro u hu
    rcases List.mem_append.mp hu with hu | hu
    · exact hn u (List.mem_append_left _ hu)
    · rcases List.mem_cons.mp hu with rfl | hu
      · rcases ht with ht | ht <;> simp [ht]
      · exact hn u (List.mem_append_right _ hu)
  languages := by
    have hl := hw.languages
    have htrivia : isTrivia t.kind = true := by rcases ht with ht | ht <;> simp [ht, isTrivia]
    rw [List.dropWhile_append] at hl ⊢
    split at hl
    · rename_i hb
      rw [if_pos hb, List.dropWhile_cons_of_pos (by simpa using htrivia)]
      exact hl
    · rename_i hb
      rw [if_neg hb]
      intro u hu
      rcases List.mem_append.mp hu with hu | hu
      · exact hl u (List.mem_append_left _ hu)
      · rcases List.mem_cons.mp hu with rfl | hu
        · rcases ht with ht | ht <;> simp [ht]
        · exact hl u (List.mem_append_right _ hu)

/-- The document that lines make up, and the one that they make up with a comment or a blank line
more. -/
structure Compared (before after : List Token) (t : Token) (doc doc' : Document) : Prop where
  bare : bare doc' = bare doc
  entries : ofDocument doc = ofLines false (before ++ after)
  entries' : ofDocument doc' = ofLines false (before ++ t :: after)
  comments : doc.comments = commentsOf before ++ commentsOf after
  comments' : doc'.comments = commentsOf before ++ commentsOf (t :: after)

section Reading
variable {language uri : String}

/-- Either both runs fail alike, or both end in documents. -/
theorem ofTokens_compared (language uri : String) (hw : WellShaped (before ++ after))
    (hx : ∀ t ∈ before ++ after, t.kind = .other → t.text ≠ "") (ha : after ≠ [])
    (hd : leavesOpen false before = false) (ht : t.kind = .comment ∨ t.kind = .empty) :
    (∃ er, ofTokens ⟨language, before ++ after⟩ uri = .error er ∧
      ofTokens ⟨language, before ++ t :: after⟩ uri = .error er) ∨
    ∃ doc doc', ofTokens ⟨language, before ++ after⟩ uri = .ok doc ∧
      ofTokens ⟨language, before ++ t :: after⟩ uri = .ok doc' ∧
      Compared before after t doc doc' := by
  have hn : ∀ t ∈ before, t.kind ≠ .eof := by
    obtain ⟨rest, eof, -, -, hn⟩ := ends_after hw ha
    exact fun t ht => hn t (List.mem_append_left _ ht)
  have hl : LanguagesLead before := (languagesLead_of_wellShaped hw).of_append
  have hb := ofTokens_insert_bare language uri hl hn ha hd ht
  rcases map_eq_map hb with ⟨er, hr', hr⟩ | ⟨doc', doc, hr', hr, hbare⟩
  · exact .inl ⟨er, hr, hr'⟩
  · have hx' : ∀ u ∈ before ++ t :: after, u.kind = .other → u.text ≠ "" := by
      intro u hu ho
      rcases List.mem_append.mp hu with hu | hu
      · exact hx u (List.mem_append_left _ hu) ho
      · rcases List.mem_cons.mp hu with rfl | hu
        · rcases ht with ht | ht <;> simp [ht] at ho
        · exact hx u (List.mem_append_right _ hu) ho
    obtain ⟨he, hc⟩ := Conservation.ofTokens_entries hw hx hr
    obtain ⟨he', hc'⟩ := Conservation.ofTokens_entries (wellShaped_insert hw ha ht) hx' hr'
    have happend (x y : List Token) : commentsOf (x ++ y) = commentsOf x ++ commentsOf y := by
      simp [commentsOf]
    rw [happend] at hc hc'
    exact .inr ⟨doc, doc', hr, hr', hbare, he, he', hc, hc'⟩

theorem insertIdx_append {α : Type} (l r : List α) (a : α) :
    (l ++ r).insertIdx l.length a = l ++ a :: r := by
  induction l with
  | nil => rfl
  | cons b l ih => rw [List.cons_append, List.length_cons, List.insertIdx_succ_cons, ih]; rfl

/-- The document with a comment more, the one after `place` others. -/
def addComment (place : Nat) (c : Token) (doc : Document) : Document :=
  { doc with comments := doc.comments.insertIdx place ⟨c.location, c.text⟩ }

theorem compared_comment {doc doc' : Document} (hc : c.kind = .comment)
    (hd : leavesOpen false before = false) (h : Compared before after c doc doc') :
    doc' = addComment (commentsOf before).length c doc := by
  have hsame : ofLines false (before ++ c :: after) = ofLines false (before ++ after) :=
    ofLines_insert (.inl hc) hd fun _ _ u _ _ => descriptionOf_comment hc u after
  apply document_eq
  · exact h.bare
  · rw [h.entries', hsame, ← h.entries]
    rfl
  · have hcomment : commentsOf (c :: after) = ⟨c.location, c.text⟩ :: commentsOf after := by
      simp [commentsOf, hc]
    rw [h.comments', hcomment, addComment, h.comments, insertIdx_append]

theorem commentsOf_blank (he : e.kind = .empty) : commentsOf (e :: after) = commentsOf after := by
  simp [commentsOf, he]

theorem compared_blank {doc doc' : Document} (he : e.kind = .empty)
    (hd : leavesOpen false before = false) (hw : ∀ h u, ¬ Within before after h u)
    (h : Compared before after e doc doc') : doc' = doc := by
  have hsame : ofLines false (before ++ e :: after) = ofLines false (before ++ after) :=
    ofLines_insert (.inr he) hd fun _ _ _ hb hh => descriptionOf_insert he hw hb hh
  apply document_eq h.bare
  · rw [h.entries', hsame, h.entries]
  · rw [h.comments', commentsOf_blank he, h.comments]

/-- Both documents are alike but for one more blank line in the description of the heading `h`. -/
def GainsBlank (h : Token) (above below : List String) (doc doc' : Document) : Prop :=
  BareDocuments.bare doc' = BareDocuments.bare doc ∧ doc'.comments = doc.comments ∧
  ∃ es es',
    let described (lines : List String) :=
      Entry.heading h.kind h.location (h.keyword.getD "") h.text (some ("\n".intercalate lines))
    ofDocument doc = es ++ described (above ++ below) :: es' ∧
    ofDocument doc' = es ++ described (above ++ "" :: below) :: es'

theorem compared_within {doc doc' : Document} (he : e.kind = .empty)
    (hw : Within before after h u) (hp : ∀ p, before = p ++ h :: u → leavesOpen false p = false)
    (hc : Compared before after e doc doc') :
    GainsBlank h (linesAbove u) (linesBelow after) doc doc' := by
  obtain ⟨p, rfl⟩ := hw.split
  have ht : isText h.kind = false ∧ h.kind ≠ .docStringContent := by
    have hh := hw.heading
    cases hk : h.kind <;> simp [hk, Kind.isHeading] at hh <;> simp [isText]
  obtain ⟨es, hes⟩ := ofLines_cut ht.1 ht.2 false p
  rw [hp p rfl] at hes
  have hline (x : List Token) : ofLines false (h :: x) =
      .heading h.kind h.location (h.keyword.getD "") h.text (descriptionOf x) ::
        ofLines false x := by
    have hi : insideAfter false h.kind = false := by
      have hh := hw.heading
      cases hk : h.kind <;> simp [hk, Kind.isHeading] at hh <;> rfl
    rw [ofLines, hi, lineEntries_isHeading hw.heading]
    rfl
  -- After the heading both go on alike: the lines before the place are text.
  have hrest : ofLines false (u ++ e :: after) = ofLines false (u ++ after) := by
    refine ofLines_insert (.inr he) (leavesOpen_same ?_) ?_
    · intro t ht hk
      have := hw.text t ht
      simp [hk, isText] at this
    · intro p h u' hu hh
      have := hw.text h (by simp [hu])
      cases hk : h.kind <;> simp [hk, Kind.isHeading, isText] at hh this
  refine ⟨hc.bare, by rw [hc.comments', commentsOf_blank he, hc.comments], es,
    ofLines false (u ++ after), ?_, ?_⟩
  · have hdescription := descriptionOf_within hw (l := []) rfl
    rw [hc.entries, List.append_assoc, List.cons_append, hes, hline]
    rw [List.nil_append] at hdescription
    rw [hdescription]
    rfl
  · have hdescription := descriptionOf_within hw (l := [e]) (textLines_empty he after)
    have hblank : lineText e = "" := by simp [lineText, he]
    rw [hc.entries', List.append_assoc, List.cons_append, hes, hline, hrest]
    rw [List.singleton_append] at hdescription
    rw [hdescription, List.map_singleton, hblank]
    rfl

end Reading

/-- Comments and blank lines are transparent. Wherever no doc string is open, before the end of a
text, a comment more is listed in its place and changes nothing else; a blank line more changes
nothing at all, unless it is strictly between two lines of text that describe a heading: then their
description has one more blank line there. If reading fails, it fails alike. -/
theorem trivia_transparent (table : Table) (settings : Settings) (code source uri : String)
    (before after : List Token)
    (hs : (tokenize table settings code source).tokens = before ++ after) (ha : after ≠ [])
    (hd : leavesOpen false before = false) :
    let read (tokens : List Token) :=
      ofTokens ⟨(tokenize table settings code source).language, tokens⟩ uri
    (∀ c : Token, c.kind = .comment → read (before ++ c :: after) =
      (read (before ++ after)).map (addComment (commentsOf before).length c)) ∧
    (∀ e : Token, e.kind = .empty → (∀ h u, ¬ Within before after h u) →
      read (before ++ e :: after) = read (before ++ after)) ∧
    ∀ (e h : Token) (u : List Token), e.kind = .empty → Within before after h u →
      match read (before ++ after) with
      | .error er => read (before ++ e :: after) = .error er
      | .ok doc => ∃ doc', read (before ++ e :: after) = .ok doc' ∧
        GainsBlank h (linesAbove u) (linesBelow after) doc doc' := by
  intro read
  have hw := tokenize_wellShaped table settings code source
  have hx := tokenize_text table settings code source
  have hcompared {t : Token} (ht : t.kind = .comment ∨ t.kind = .empty) :=
    ofTokens_compared (tokenize table settings code source).language uri (hs ▸ hw) (hs ▸ hx) ha
      hd ht
  refine ⟨?_, ?_, ?_⟩
  · intro c hc
    rcases hcompared (.inl hc) with ⟨er, hr, hr'⟩ | ⟨doc, doc', hr, hr', h⟩
    · exact hr'.trans (congrArg (Except.map _) hr).symm
    · rw [compared_comment hc hd h] at hr'
      exact hr'.trans (congrArg (Except.map _) hr).symm
  · intro e he hn
    rcases hcompared (.inr he) with ⟨er, hr, hr'⟩ | ⟨doc, doc', hr, hr', h⟩
    · exact hr'.trans hr.symm
    · rw [compared_blank he hd hn h] at hr'
      exact hr'.trans hr.symm
  · intro e h u he hin
    have hp (p : List Token) (hb : before = p ++ h :: u) : leavesOpen false p = false := by
      rw [hb, List.append_assoc, List.cons_append] at hs
      cases hopen : leavesOpen false p with
      | false => rfl
      | true =>
        have hh := hin.heading
        rcases readAll_inside table settings (Reader.start table settings code) 1 hs hopen with
          hk | hk | hk <;> simp [hk, Kind.isHeading] at hh
    rcases hcompared (.inr he) with ⟨er, hr, hr'⟩ | ⟨doc, doc', hr, hr', hc⟩
    · rw [show read (before ++ after) = .error er from hr]
      exact hr'
    · rw [show read (before ++ after) = .ok doc from hr]
      exact ⟨doc', hr', compared_within he hin hp hc⟩

def describedText : String :=
  "Feature: F\n one\n two\nScenario: S\n"

def describedTitle : List Token :=
  [{ kind := .feature, location := ⟨1, 1⟩, keyword := some "Feature", text := "F" },
    { kind := .other, location := ⟨2, 2⟩, text := " one" }]

theorem trivia_transparent_sample :
    ∃ after, (tokenize Conservation.sampleTable {} "en" describedText).tokens =
        describedTitle ++ after ∧ after ≠ [] ∧ leavesOpen false describedTitle = false ∧
      ∃ h u, Within describedTitle after h u ∧ ∀ e : Token, e.kind = .empty →
        match ofTokens ⟨"en", describedTitle ++ after⟩ "" with
        | .error er => ofTokens ⟨"en", describedTitle ++ e :: after⟩ "" = .error er
        | .ok doc => ∃ doc', ofTokens ⟨"en", describedTitle ++ e :: after⟩ "" = .ok doc' ∧
          GainsBlank h (linesAbove u) (linesBelow after) doc doc' := by
  let after := (tokenize Conservation.sampleTable {} "en" describedText).tokens.drop 2
  have hs : (tokenize Conservation.sampleTable {} "en" describedText).tokens =
      describedTitle ++ after := by
    decide +kernel
  have ha : after ≠ [] := by decide +kernel
  have hw : Within describedTitle after
      { kind := .feature, location := ⟨1, 1⟩, keyword := some "Feature", text := "F" }
      [{ kind := .other, location := ⟨2, 2⟩, text := " one" }] :=
    ⟨rfl, ⟨[], rfl⟩, by simp [isText], by simp, by decide +kernel⟩
  refine ⟨after, hs, ha, rfl, _, _, hw, ?_⟩
  intro e he
  have hl : (tokenize Conservation.sampleTable {} "en" describedText).language = "en" := by
    decide +kernel
  have h := (trivia_transparent Conservation.sampleTable {} "en" describedText "" describedTitle
    after hs ha rfl).2.2 e _ _ he hw
  dsimp only at h
  rw [hl] at h
  exact h

end Brine.Proofs.TriviaLines
