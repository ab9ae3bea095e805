import Brine.Proofs.DraftEntries

namespace Brine.Proofs.Conservation
open Line Document DraftSteps Entries DraftEntries LineShapes

theorem textLines_cons_of {t : Token} (ts : List Token) (hk : t.kind = .other ∨ t.kind = .empty) :
    textLines (t :: ts) = t :: textLines ts := by
  rcases hk with hk | hk <;> simp [textLines, isText, hk]

theorem absorbLines_eq (lines : List String) (ts : List Token) :
    absorbLines lines ts =
      ((if lines.isEmpty then (textLines ts).dropWhile (·.kind = .empty)
        else textLines ts).map lineText).reverse ++ lines := by
  induction ts generalizing lines with
  | nil => simp [absorbLines, textLines]
  | cons t ts ih =>
    unfold absorbLines
    split
    · rename_i hk
      rw [ih, textLines_cons_of ts (.inl hk)]
      cases lines <;> simp [hk, lineText]
    · rename_i hk
      rw [ih, textLines_cons_of ts (.inr hk)]
      cases lines <;> simp [hk, lineText]
    · rename_i hk
      have ht : textLines (t :: ts) = textLines ts := by simp [textLines, isText, hk]
      rw [ih, ht]
    · rename_i ho he hc
      have hn : isText t.kind = false := by
        cases hk : t.kind <;> simp_all [isText]
      have ht : textLines (t :: ts) = [] := by
        simp [textLines, hn]
      simp [ht]

theorem lineText_eq_empty {t : Token} (h : t.kind = .other → t.text ≠ "")
    (hk : t.kind = .other ∨ t.kind = .empty) : lineText t = "" ↔ t.kind = .empty := by
  rcases hk with hk | hk
  · simp [lineText, hk, h hk]
  · simp [lineText, hk]

theorem dropWhile_blank {l : List Token} (h : ∀ t ∈ l, (lineText t = "" ↔ t.kind = .empty)) :
    (l.map lineText).dropWhile (· = "") = (l.dropWhile (·.kind = .empty)).map lineText := by
  induction l with
  | nil => rfl
  | cons t l ih =>
    obtain ⟨ht, hl⟩ := List.forall_mem_cons.mp h
    by_cases hk : t.kind = .empty
    · simp [hk, ht.mpr hk, ih hl]
    · have hn : lineText t ≠ "" := fun he => hk (ht.mp he)
      simp [hk, hn]

/-- A heading is described by the lines that follow it. -/
theorem description_absorb (tags : List Tag) (t : Token) {ts : List Token}
    (h : ∀ t ∈ ts, t.kind = .other → t.text ≠ "") :
    (absorb ts (.ofToken tags t)).description = descriptionOf ts := by
  -- The heading drops empty strings at the end, the lines drop blank lines: both are the same.
  have ht (u : Token) (hu : u ∈ (textLines ts).dropWhile (·.kind = .empty)) :
      lineText u = "" ↔ u.kind = .empty := by
    have hm := List.dropWhile_subset _ hu
    simp only [textLines, List.mem_filter, decide_eq_true_eq] at hm
    have hw : isText u.kind = true :=
      List.mem_takeWhile_imp (p := fun t : Token => isText t.kind) hm.1
    refine lineText_eq_empty (h u (List.takeWhile_subset _ hm.1)) ?_
    cases hk : u.kind <;> simp_all [isText]
  have hd : ((absorb ts (.ofToken tags t)).lines.dropWhile (· = "")).reverse =
      (((textLines ts).dropWhile (·.kind = .empty)).rdropWhile (·.kind = .empty)).map lineText := by
    rw [absorb, absorbLines_eq]
    simp only [Heading.ofToken, List.isEmpty_nil, ↓reduceIte, List.append_nil, ← List.map_reverse]
    rw [dropWhile_blank (fun u hu => ht u (List.mem_reverse.mp hu)), List.rdropWhile,
      List.map_reverse]
  unfold Heading.description descriptionOf
  rw [hd]
  cases ((textLines ts).dropWhile (·.kind = .empty)).rdropWhile (·.kind = .empty) <;> rfl

def absorbDoc (ts : List Token) (d : OpenDoc) : OpenDoc :=
  { d with
    lines := ((ts.takeWhile (·.kind = .docStringContent)).map (·.text)).reverse ++ d.lines }

def completed (f : OpenFeature) (ts : List Token) : OpenFeature :=
  match f.docString with
  | some d => { f with docString := none, block := f.block.map (fillDoc (absorbDoc ts d)) }
  | none => if f.describing then f.mapHeading (absorb ts) else f

def upcoming (f : OpenFeature) (ts : List Token) : List Entry :=
  ofOpenFeature (completed f ts) ++ ofLines f.docString.isSome ts

structure Sound (f : OpenFeature) : Prop where
  block : ∀ b, f.block = some b → Orderly b
  doc : f.docString ≠ none → f.describing = false

section Features

variable {f f' : OpenFeature} {t : Token} {ts : List Token}

theorem absorb_closing (h : Heading) (hk : isText t.kind = false) : absorb (t :: ts) h = h := by
  unfold absorb absorbLines
  cases ht : t.kind <;> simp [isText, ht] at hk <;> rfl

theorem completed_closing (hd : f.docString = none) (hk : isText t.kind = false) :
    completed f (t :: ts) = f := by
  simp only [completed, hd]
  split
  · exact mapHeading_of_id f fun h => absorb_closing h hk
  · rfl

theorem completed_describing (hd : f.docString = none) (hf : f.describing = true) :
    completed f ts = f.mapHeading (absorb ts) := by
  simp only [completed, hd, hf, ↓reduceIte]

theorem completed_quiet (hd : f.docString = none) (hf : f.describing = false) :
    completed f ts = f := by
  simp only [completed, hd, hf, Bool.false_eq_true, ↓reduceIte]

/-- A line that ends the description of the last heading. -/
theorem upcoming_closing (hd : f.docString = none) (hk : isText t.kind = false)
    (hi : f'.docString.isSome = insideAfter false t.kind)
    (h : ofOpenFeature (completed f' ts) = ofOpenFeature f ++ lineEntries t ts) :
    upcoming f (t :: ts) = upcoming f' ts := by
  have hf : f.docString.isSome = false := by simp [hd]
  rw [upcoming, upcoming, completed_closing hd hk, h, hf, hi, List.append_assoc]
  rfl

/-- A line that says nothing but what it adds to the last heading. -/
theorem upcoming_silent (hd : f.docString = none) (hd' : f'.docString = none)
    (hk : isText t.kind = true) (h : completed f (t :: ts) = completed f' ts) :
    upcoming f (t :: ts) = upcoming f' ts := by
  have hl : lineEntries t ts = [] := by
    cases ht : t.kind <;> simp [isText, ht] at hk <;> simp [lineEntries, ht]
  have hi : insideAfter false t.kind = false := by
    cases ht : t.kind <;> simp [isText, ht] at hk <;> rfl
  simp [upcoming, ofLines, h, hd, hd', hl, hi]

theorem mapHeading_frame (f : OpenFeature) (g : Heading → Heading) :
    (f.mapHeading g).docString = f.docString ∧ (f.mapHeading g).describing = f.describing := by
  unfold OpenFeature.mapHeading
  split
  · split <;> exact ⟨rfl, rfl⟩
  · exact ⟨rfl, rfl⟩
  · exact ⟨rfl, rfl⟩

/-- A line of a description. -/
theorem upcoming_mapHeading (hd : f.docString = none) (hf : f.describing = true)
    (hk : isText t.kind = true) {g : Heading → Heading}
    (hg : ∀ h, absorb (t :: ts) h = absorb ts (g h)) :
    upcoming f (t :: ts) = upcoming (f.mapHeading g) ts := by
  obtain ⟨hm, hm'⟩ := mapHeading_frame f g
  have hd' : (f.mapHeading g).docString = none := hm.trans hd
  have hf' : (f.mapHeading g).describing = true := hm'.trans hf
  refine upcoming_silent hd hd' hk ?_
  rw [completed_describing hd hf, completed_describing hd' hf', mapHeading_mapHeading]
  exact congrArg f.mapHeading (funext hg)

theorem lineEntries_heading {k : Kind} (hk : t.kind = k) (hh : k.isHeading = true)
    (ht : ∀ u ∈ ts, u.kind = .other → u.text ≠ "") :
    lineEntries t ts = [headingEntry k t ts] := by
  have hd := description_absorb [] t ht
  cases k <;> simp [Kind.isHeading] at hh <;> simp [lineEntries, hk, headingEntry, hd]

/-- A line that opens something with a heading. -/
theorem upcoming_heading {k : Kind} (hd : f.docString = none) (hk : t.kind = k)
    (hh : k.isHeading = true) (ht : ∀ u ∈ ts, u.kind = .other → u.text ≠ "")
    (hd' : f'.docString = none) (hf : f'.describing = true)
    (h : ofOpenFeature (f'.mapHeading (absorb ts)) = ofOpenFeature f ++ [headingEntry k t ts]) :
    upcoming f (t :: ts) = upcoming f' ts := by
  have hn : isText t.kind = false ∧ insideAfter false t.kind = false := by
    rw [hk]
    cases k <;> simp [Kind.isHeading] at hh <;> exact ⟨rfl, rfl⟩
  refine upcoming_closing hd hn.1 ?_ ?_
  · rw [hd', hn.2]
    rfl
  · rw [completed_describing hd' hf, lineEntries_heading hk hh ht, h]

/-- A line that ends a description and opens no doc string. -/
theorem upcoming_quiet (hd : f.docString = none) (hk : isText t.kind = false)
    (hi : insideAfter false t.kind = false) (hd' : f'.docString = none)
    (hf : f'.describing = false) (h : ofOpenFeature f' = ofOpenFeature f ++ lineEntries t ts) :
    upcoming f (t :: ts) = upcoming f' ts := by
  refine upcoming_closing hd hk ?_ ?_
  · rw [hd', hi]
    rfl
  · rw [completed_quiet hd' hf, h]

theorem openBlock_frame (f : OpenFeature) (ids : IdSource) (kind : BlockKind) (t : Token) :
    (f.openBlock ids kind t).1.docString = f.docString ∧
      (f.openBlock ids kind t).1.describing = true := by
  obtain ⟨-, -, hd⟩ := closeBlock_closed f ids
  exact ⟨hd, rfl⟩

theorem openRule_frame (f : OpenFeature) (ids : IdSource) (t : Token) :
    (f.openRule ids t).1.docString = f.docString ∧ (f.openRule ids t).1.describing = true := by
  obtain ⟨-, -, -, hd⟩ := closeRule_closed f ids
  exact ⟨hd, rfl⟩

theorem markBackground_frame (f : OpenFeature) :
    f.markBackground.docString = f.docString ∧ f.markBackground.describing = f.describing ∧
      f.markBackground.block = f.block := by
  unfold OpenFeature.markBackground
  split <;> exact ⟨rfl, rfl, rfl⟩

variable {ids : IdSource} {r : OpenFeature × IdSource}

/-- A line outside of doc strings leaves what the feature will say. -/
theorem taken_upcoming (hs : Sound f) (hd : f.docString = none)
    (ht : ∀ u ∈ ts, u.kind = .other → u.text ≠ "") (h : Taken f ids t r) :
    upcoming f (t :: ts) = upcoming r.1 ts := by
  cases h with
  | blank hk hf =>
    refine upcoming_mapHeading hd hf (by rw [hk]; rfl) fun h => ?_
    simp only [absorb, absorbLines, hk, Heading.addBlank]
    split <;> rfl
  | skipped hk hf =>
    refine upcoming_silent hd hd (by rw [hk]; rfl) ?_
    rw [completed_quiet hd hf, completed_quiet hd hf]
  | language hk =>
    refine upcoming_quiet hd (by rw [hk]; rfl) (by rw [hk]; rfl) hd rfl ?_
    rw [ofOpenFeature_leaveTags, lineEntries, hk, List.append_nil]
  | text hk hf =>
    refine upcoming_mapHeading hd hf (by rw [hk]; rfl) fun h => ?_
    simp only [absorb, absorbLines, hk, Heading.addLine]
  | tags hk =>
    refine upcoming_quiet hd (by rw [hk]; rfl) (by rw [hk]; rfl) hd rfl ?_
    rw [ofOpenFeature_addTags, lineEntries, hk]
  | rule hk hu =>
    obtain ⟨hd', hf⟩ := openRule_frame (quiet f) ids t
    refine upcoming_heading hd hk rfl ht (hd'.trans hd) hf ?_
    exact ofOpenFeature_openRule ids t ts hs.block
  | background hk hw _ =>
    obtain ⟨hd', hf⟩ := openBlock_frame (quiet f) ids .background t
    obtain ⟨hm, hm', -⟩ := markBackground_frame ((quiet f).openBlock ids .background t).1
    refine upcoming_heading hd hk rfl ht (hm.trans (hd'.trans hd)) (hm'.trans hf) ?_
    rw [ofOpenFeature_markBackground]
    -- A background lists no tags, so none may be waiting for it.
    exact ofOpenFeature_openBlock ids t ts hs.block fun _ => hw
  | scenario hk =>
    obtain ⟨hd', hf⟩ := openBlock_frame (quiet f) ids (.scenario .scenario) t
    refine upcoming_heading hd hk rfl ht (hd'.trans hd) hf ?_
    exact ofOpenFeature_openBlock ids t ts hs.block nofun
  | outline hk =>
    obtain ⟨hd', hf⟩ := openBlock_frame (quiet f) ids (.scenario .outline) t
    refine upcoming_heading hd hk rfl ht (hd'.trans hd) hf ?_
    exact ofOpenFeature_openBlock ids t ts hs.block nofun
  | examples b hk hb hu =>
    refine upcoming_heading hd hk rfl ht hd rfl ?_
    exact ofOpenFeature_openExamples ids t ts (block_of_scenario hb).1
  | step b hk hw hb hx ho =>
    refine upcoming_quiet hd (by rw [hk]; rfl) (by rw [hk]; rfl) hd rfl ?_
    rw [lineEntries, hk]
    exact ofOpenFeature_setBlock hb hw (ofOpenBlock_step hx ho ids t)
  | exampleRow b e hk hw hb ho =>
    refine upcoming_quiet hd (by rw [hk]; rfl) (by rw [hk]; rfl) hd rfl ?_
    rw [lineEntries, hk]
    exact ofOpenFeature_setBlock hb hw (ofOpenBlock_exampleRow ho (rowOf ids t).1)
  | firstRow b s hk hw hb ho hl ha =>
    refine upcoming_quiet hd (by rw [hk]; rfl) (by rw [hk]; rfl) hd rfl ?_
    rw [lineEntries, hk]
    refine ofOpenFeature_setBlock hb hw (ofOpenBlock_setArgument (hs.block b hb) hl ?_)
    rw [ha]
    rfl
  | nextRow b s location rows hk hw hb ho hl ha =>
    refine upcoming_quiet hd (by rw [hk]; rfl) (by rw [hk]; rfl) hd rfl ?_
    rw [lineEntries, hk]
    refine ofOpenFeature_setBlock hb hw (ofOpenBlock_setArgument (hs.block b hb) hl ?_)
    rw [ha]
    simp [OpenArgument.close, ofArgument, ofRow, rowOf]
  | doc b s hk hw hb ho hl ha =>
    refine upcoming_closing hd (by rw [hk]; rfl) (by rw [hk]; rfl) ?_
    have hc : completed { quiet f with docString := some (docOf t) } ts =
        { quiet f with block := some (setArgument b s (.docString
            (closedDoc (absorbDoc ts (docOf t))))), docString := none } := by
      simp only [completed, quiet, hb, Option.map_some, fillDoc_eq _ hl]
    rw [hc, lineEntries, hk]
    refine ofOpenFeature_setBlock hb hw (ofOpenBlock_setArgument (hs.block b hb) hl ?_)
    rw [ha]
    simp [OpenArgument.close, ofArgument, closedDoc, absorbDoc, docOf, contentOf]

theorem orderly_new (kind : BlockKind) (h : Heading) : Orderly { kind, heading := h } where
  steps hl := absurd rfl hl
  background _ := ⟨rfl, rfl⟩

theorem orderly_of_empty {b : OpenBlock} (hx : b.examples = []) (ho : b.openExamples = none) :
    Orderly b :=
  ⟨fun _ => ⟨hx, ho⟩, fun _ => ⟨hx, ho⟩⟩

theorem mapHeading_sound (hs : Sound f) (g : Heading → Heading) : Sound (f.mapHeading g) := by
  obtain ⟨hm, hm'⟩ := mapHeading_frame f g
  refine ⟨?_, by rw [hm, hm']; exact hs.doc⟩
  unfold OpenFeature.mapHeading
  split
  · rename_i b hb
    have ho := hs.block b hb
    split
    · rename_i e he
      rintro b' ⟨⟩
      exact ⟨fun hl => by simpa [he] using ho.steps hl,
        fun hk => by simpa [he] using ho.background hk⟩
    · rintro b' ⟨⟩
      exact ⟨ho.steps, ho.background⟩
  · exact hs.block
  · exact hs.block

theorem taken_sound (hs : Sound f) (hd : f.docString = none) (h : Taken f ids t r) :
    Sound r.1 := by
  have hn {P : Prop} : f.docString ≠ none → P := fun h => absurd hd h
  cases h with
  | blank => exact mapHeading_sound hs .addBlank
  | text => exact mapHeading_sound hs (·.addLine t.text)
  | skipped => exact hs
  | language | tags => exact ⟨hs.block, hn⟩
  | rule =>
    obtain ⟨hb, -, -, -⟩ := closeRule_closed (quiet f) ids
    obtain ⟨hd', -⟩ := openRule_frame (quiet f) ids t
    refine ⟨fun b h => ?_, fun h => hn (hd' ▸ h)⟩
    cases hb.symm.trans h
  | background =>
    obtain ⟨hd', -⟩ := openBlock_frame (quiet f) ids .background t
    obtain ⟨hm, -, hb⟩ := markBackground_frame ((quiet f).openBlock ids .background t).1
    refine ⟨?_, fun h => hn (hd' ▸ hm ▸ h)⟩
    rw [hb]
    rintro b ⟨⟩
    exact orderly_new _ _
  | scenario | outline =>
    obtain ⟨hd', -⟩ := openBlock_frame (quiet f) ids _ t
    refine ⟨?_, fun h => hn (hd' ▸ h)⟩
    rintro b ⟨⟩
    exact orderly_new _ _
  | examples b hk hb hu =>
    obtain ⟨kind, hk⟩ := (block_of_scenario hb).2
    obtain ⟨hl, -, hc⟩ := closeInner_closed b ids
    refine ⟨?_, hn⟩
    rintro b' ⟨⟩
    exact ⟨fun h => absurd hl h, fun h => by cases (hc.trans hk).symm.trans h⟩
  | step b hk hw hb hx ho =>
    refine ⟨?_, hn⟩
    rintro b' ⟨⟩
    exact orderly_of_empty hx ho
  | exampleRow b e hk hw hb ho =>
    refine ⟨?_, hn⟩
    rintro b' ⟨⟩
    have h := hs.block b hb
    exact ⟨fun hl => by simpa [ho] using h.steps hl, fun hk => by simpa [ho] using h.background hk⟩
  | firstRow b s hk hw hb ho hl | nextRow b s _ _ hk hw hb ho hl =>
    refine ⟨?_, hn⟩
    rintro b' ⟨⟩
    obtain ⟨hx, -⟩ := (hs.block b hb).steps (by simp [hl])
    exact orderly_of_empty hx ho
  | doc => exact ⟨hs.block, fun _ => rfl⟩

/-- A line of a doc string leaves what the feature will say. -/
theorem takenDoc_upcoming {d : OpenDoc} (hs : Sound f) (hd : f.docString = some d)
    (h : TakenDoc f d t f') : upcoming f (t :: ts) = upcoming f' ts := by
  cases h with
  | content hk =>
    have ha : absorbDoc (t :: ts) d = absorbDoc ts { d with lines := t.text :: d.lines } := by
      simp [absorbDoc, hk]
    simp [upcoming, completed, ofLines, insideAfter, hd, hk, ha]
  | closed hk =>
    -- Text after the doc string must not count as a description again.
    have hf := hs.doc (by simp [hd])
    have ha : absorbDoc (t :: ts) d = d := by simp [absorbDoc, hk]
    simp [upcoming, completed, ofLines, insideAfter, hd, hk, ha, hf]

theorem takenDoc_sound {d : OpenDoc} (hs : Sound f) (hd : f.docString = some d)
    (h : TakenDoc f d t f') : Sound f' := by
  have hf := hs.doc (by simp [hd])
  cases h with
  | content hk => exact ⟨hs.block, fun _ => hf⟩
  | closed hk =>
    refine ⟨fun b' hb' => ?_, fun h => absurd rfl h⟩
    obtain ⟨b, hb, rfl⟩ := Option.map_eq_some_iff.mp hb'
    have ho := hs.block b hb
    refine ⟨fun hl => ho.steps fun hn => hl ?_, ho.background⟩
    simp [fillDoc, hn]

end Features

def draftUpcoming (d : Draft) (ts : List Token) : List Entry :=
  match d.stage with
  | .start tags => (tags.getD []).map ofTag ++ ofLines false ts
  | .feature f => upcoming f ts

def DraftSound (d : Draft) : Prop :=
  ∀ f, d.stage = .feature f → Sound f

section Drafts

variable {d d' : Draft} {t : Token} {ts : List Token}

theorem ofLines_silent (hl : lineEntries t ts = []) (hi : insideAfter false t.kind = false) :
    ofLines false (t :: ts) = ofLines false ts := by
  simp [ofLines, hl, hi]

/-- A line leaves what the draft will say. -/
theorem draftTaken_upcoming (hs : DraftSound d) (ht : ∀ u ∈ ts, u.kind = .other → u.text ≠ "")
    (h : DraftTaken d t d') : draftUpcoming d (t :: ts) = draftUpcoming d' ts := by
  cases h with
  | comment hk hd =>
    have hl : lineEntries t ts = [] ∧ insideAfter false t.kind = false := by
      simp [lineEntries, insideAfter, hk]
    cases hd' : d.stage with
    | start tags => simp only [draftUpcoming, hd', ofLines_silent hl.1 hl.2]
    | feature f =>
      simp only [draftUpcoming, hd']
      refine upcoming_silent (hd f hd') (hd f hd') (by rw [hk]; rfl) ?_
      have ha (h : Heading) : absorb (t :: ts) h = absorb ts h := by
        simp only [absorb, absorbLines, hk]
      simp only [completed, hd f hd', funext ha]
  | leading tags hd hk =>
    have hl : lineEntries t ts = [] ∧ insideAfter false t.kind = false := by
      rcases hk with hk | hk <;> simp [lineEntries, insideAfter, hk]
    simp only [draftUpcoming, hd, ofLines_silent hl.1 hl.2]
  | tags tags hd hk =>
    simp [draftUpcoming, hd, ofLines, lineEntries, insideAfter, hk, tagEntries, ofTag_tagsOfLine]
  | feature tags hd hk =>
    have hl := lineEntries_heading hk rfl ht
    simp only [draftUpcoming, hd, upcoming, completed]
    simp [ofLines, hl, insideAfter, hk, OpenFeature.mapHeading, ofOpenFeature, ofHeading_absorb]
  | inside f f' doc hf hd h =>
    simp only [draftUpcoming, hf]
    exact takenDoc_upcoming (hs f hf) hd h
  | outside f r hf hd hk h =>
    simp only [draftUpcoming, hf]
    exact taken_upcoming (hs f hf) hd ht h

theorem draftTaken_sound (hs : DraftSound d) (h : DraftTaken d t d') : DraftSound d' := by
  cases h with
  | comment | leading => exact hs
  | tags =>
    intro f hf
    simp at hf
  | feature tags hd hk =>
    intro f hf
    obtain rfl := Stage.feature.inj hf
    exact ⟨fun b hb => by simp at hb, fun h => absurd rfl h⟩
  | inside f f' doc hf hd h =>
    rintro g ⟨⟩
    exact takenDoc_sound (hs f hf) hd h
  | outside f r hf hd hk h =>
    rintro g ⟨⟩
    exact taken_sound (hs f hf) hd h

theorem draftTaken_comments (h : DraftTaken d t d') :
    d.comments.reverse ++ commentsOf (t :: ts) = d'.comments.reverse ++ commentsOf ts := by
  have hc (hk : t.kind ≠ .comment) : commentsOf (t :: ts) = commentsOf ts := by
    simp [commentsOf, hk]
  cases h with
  | comment hk hd => simp [commentsOf, hk]
  | leading tags hd hk => rw [hc (by rcases hk with hk | hk <;> simp [hk])]
  | tags tags hd hk | feature tags hd hk => rw [hc (by simp [hk])]
  | inside f f' doc hf hd h => rw [hc (by cases h <;> simp [*])]
  | outside f r hf hd hk h => rw [hc hk]

theorem ofFeature_closeFeature {f : OpenFeature} (hs : Sound f) (hw : f.waiting = none)
    (ids : IdSource) (language : String) :
    ofFeature (Draft.closeFeature f ids language) = ofOpenFeature f := by
  obtain ⟨hb, hr, hc, -⟩ := closeRule_closed f ids
  rw [← ofOpenFeature_closeRule hs.block ids]
  simp [ofOpenFeature, Draft.closeFeature, ofFeature, ofHeading, hb, hr, hc, hw]

variable {language uri : String} {eof last : Token} {doc : Document}

/-- At the end of the text the document says what the draft has said. -/
theorem finish_upcoming (hs : DraftSound d) (he : eof.kind = .eof)
    (h : d.finish language uri last = .ok doc) :
    ofDocument doc = draftUpcoming d [eof] ∧ doc.comments = d.comments.reverse := by
  have hl : ofLines false [eof] = [] := by simp [ofLines, lineEntries, he]
  cases finished_of_finish h with
  | empty hd => simp [draftUpcoming, hd, hl, ofDocument]
  | feature f hd hn hw =>
    have hc : completed f [eof] = f := completed_closing hn (by rw [he]; rfl)
    have hf := ofFeature_closeFeature (hs f hd) hw d.ids language
    simp [draftUpcoming, hd, upcoming, hc, hn, hl, ofDocument, hf]

/-- A draft that takes all lines to come ends in a document with what it has said, and they say. -/
theorem build_upcoming {body : List Token} (hs : DraftSound d) (he : eof.kind = .eof)
    (hb : ∀ t ∈ body, t.kind ≠ .eof)
    (ht : ∀ t ∈ body ++ [eof], t.kind = .other → t.text ≠ "")
    (h : d.build language uri last (body ++ [eof]) = .ok doc) :
    ofDocument doc = draftUpcoming d (body ++ [eof]) ∧
      doc.comments = d.comments.reverse ++ commentsOf (body ++ [eof]) := by
  -- What the draft will say is the same before and after each line.
  induction body generalizing d with
  | nil =>
    simp only [List.nil_append, Draft.build, he, ↓reduceIte] at h
    have hc : commentsOf [eof] = [] := by simp [commentsOf, he]
    rw [List.nil_append, hc, List.append_nil]
    exact finish_upcoming hs he h
  | cons t body ih =>
    obtain ⟨hk, hb⟩ := List.forall_mem_cons.mp hb
    rw [List.cons_append] at h ht ⊢
    obtain ⟨-, ht⟩ := List.forall_mem_cons.mp ht
    obtain ⟨d', hd, h⟩ := draftTaken_of_build hk h
    rw [draftTaken_upcoming hs ht hd, draftTaken_comments hd]
    exact ih (draftTaken_sound hs hd) hb ht h

/-- The document that lines make up lists what they say. -/
theorem ofTokens_entries {source : Tokens} (hw : WellShaped source.tokens)
    (ht : ∀ t ∈ source.tokens, t.kind = .other → t.text ≠ "")
    (h : ofTokens source uri = .ok doc) :
    ofDocument doc = ofLines false source.tokens ∧ doc.comments = commentsOf source.tokens := by
  have hs : DraftSound {} := fun f hf => by simp at hf
  obtain ⟨body, eof, hb, he, hn⟩ := hw.ends
  unfold ofTokens at h
  rw [hb] at h ht ⊢
  exact build_upcoming hs he hn ht h

end Drafts

/-- Reading loses, repeats and reorders nothing: the document lists the tags, headings, steps, rows
and doc strings that the lines of the text say, in their order and with their places, and all of its
comments. -/
theorem parse_conserves {table : Table} {settings : Settings} {requested : Option String}
    {uri source : String} {doc : Document}
    (h : parse table settings requested uri source = .ok doc) :
    ofDocument doc = ofLines false
        (tokenize table settings (settings.initialLanguage requested) source).tokens ∧
      doc.comments = commentsOf
        (tokenize table settings (settings.initialLanguage requested) source).tokens := by
  have hs : DraftSound {} := fun f hf => by simp at hf
  obtain ⟨body, eof, hb, he, hn⟩ :=
    (tokenize_wellShaped table settings (settings.initialLanguage requested) source).ends
  have ht := tokenize_text table settings (settings.initialLanguage requested) source
  unfold parse ofTokens at h
  rw [hb] at h ht ⊢
  exact build_upcoming hs he hn ht h

def sampleTable : Table where
  dialects := [("en",
    { name := "English", native := "English", feature := ["Feature"], rule := ["Rule"],
      background := ["Background"], scenario := ["Scenario"], scenarioOutline := ["Outline"],
      examples := ["Examples"], context := ["Given "], action := [], outcome := [],
      conjunction := [], contrast := [] })]
  nonempty := by simp

def sampleText : String :=
  "@a\nFeature: F\n\n text\n\n more\n# note\nScenario: S\nGiven x\n" ++
    "\"\"\"\none\n\"\"\"\n@c\nExamples:\n| v |\n"

theorem parse_conserves_sample :
    ∃ doc, parse sampleTable {} none "" sampleText = .ok doc ∧
      ofDocument doc = ofLines false (tokenize sampleTable {} "en" sampleText).tokens ∧
      doc.comments = commentsOf (tokenize sampleTable {} "en" sampleText).tokens := by
  have ho : (parse sampleTable {} none "" sampleText).isOk = true := by decide +kernel
  cases h : parse sampleTable {} none "" sampleText with
  | error e => simp [h, Except.isOk, Except.toBool] at ho
  | ok doc => exact ⟨doc, rfl, parse_conserves h⟩

end Brine.Proofs.Conservation
