import Brine.Document.Parse
import Brine.Proofs.Success

namespace Brine.Proofs.DraftSteps
open Line Document Success

def quiet (f : OpenFeature) : OpenFeature :=
  { f with describing := false }

def Undecided (f : OpenFeature) : Prop :=
  ∀ w, f.waiting = some w → w.forScenario = false

def addTags (f : OpenFeature) (t : Token) : OpenFeature :=
  let w := f.waiting.getD { lines := [] }
  { quiet f with waiting := some { w with lines := t :: w.lines } }

def leaveTags (f : OpenFeature) : OpenFeature :=
  { quiet f with waiting := f.waiting.map fun w => { w with forScenario := true } }

def setArgument (b : OpenBlock) (s : OpenStep) (argument : OpenArgument) : OpenBlock :=
  { b with steps := { b.steps with last := some { s with argument } } }

def docOf (t : Token) : OpenDoc :=
  { location := t.location, delimiter := t.keyword.getD "", mediaType := t.mediaType }

inductive Taken (f : OpenFeature) (ids : IdSource) (t : Token) : OpenFeature × IdSource → Prop
  | blank : t.kind = .empty → f.describing = true → Taken f ids t (f.mapHeading .addBlank, ids)
  | skipped : t.kind = .empty → f.describing = false → Taken f ids t (f, ids)
  | language : t.kind = .language → Taken f ids t (leaveTags f, ids)
  | text : t.kind = .other → f.describing = true →
      Taken f ids t (f.mapHeading (·.addLine t.text), ids)
  | tags : t.kind = .tags → Taken f ids t (addTags f t, ids)
  | rule : t.kind = .rule → Undecided f → Taken f ids t ((quiet f).openRule ids t)
  | background : t.kind = .background → f.waiting = none → f.scopeHasBackground = false →
      Taken f ids t
        (((quiet f).openBlock ids .background t).1.markBackground,
          ((quiet f).openBlock ids .background t).2)
  | scenario : t.kind = .scenario →
      Taken f ids t ((quiet f).openBlock ids (.scenario .scenario) t)
  | outline : t.kind = .scenarioOutline →
      Taken f ids t ((quiet f).openBlock ids (.scenario .outline) t)
  | examples (b : OpenBlock) : t.kind = .examples → f.scenario? = some b → Undecided f →
      Taken f ids t ((quiet f).openExamples b ids t)
  | step (b : OpenBlock) : t.kind = .step → f.waiting = none → f.block = some b →
      b.examples = [] → b.openExamples = none →
      Taken f ids t
        ({ quiet f with block := some { b with steps := (b.steps.push ids t).1 } },
          (b.steps.push ids t).2)
  | exampleRow (b : OpenBlock) (e : OpenExamples) : t.kind = .tableRow → f.waiting = none →
      f.block = some b → b.openExamples = some e →
      Taken f ids t
        ({ quiet f with
           block := some { b with
             openExamples := some { e with rows := (rowOf ids t).1 :: e.rows } } },
          (rowOf ids t).2)
  | firstRow (b : OpenBlock) (s : OpenStep) : t.kind = .tableRow → f.waiting = none →
      f.block = some b → b.openExamples = none → b.steps.last = some s → s.argument = .none →
      Taken f ids t
        ({ quiet f with
           block := some (setArgument b s (.table t.location [(rowOf ids t).1])) }, (rowOf ids t).2)
  | nextRow (b : OpenBlock) (s : OpenStep) (location : Location) (rows : List Row) :
      t.kind = .tableRow → f.waiting = none → f.block = some b → b.openExamples = none →
      b.steps.last = some s → s.argument = .table location rows →
      Taken f ids t
        ({ quiet f with
           block := some (setArgument b s (.table location ((rowOf ids t).1 :: rows))) },
          (rowOf ids t).2)
  | doc (b : OpenBlock) (s : OpenStep) : t.kind = .docStringSeparator → f.waiting = none →
      f.block = some b → b.openExamples = none → b.steps.last = some s → s.argument = .none →
      Taken f ids t ({ quiet f with docString := some (docOf t) }, ids)

theorem undecided_iff (f : OpenFeature) :
    (f.waiting.all fun w => !w.forScenario) = true ↔ Undecided f := by
  cases hw : f.waiting <;> simp [Undecided, hw]

theorem block_of_scenario {f : OpenFeature} {b : OpenBlock} (h : f.scenario? = some b) :
    f.block = some b ∧ ∃ kind, b.kind = .scenario kind := by
  unfold OpenFeature.scenario? at h
  split at h
  · rename_i b' hb
    split at h
    · rename_i kind hk
      cases h
      exact ⟨hb, kind, hk⟩
    · contradiction
  · contradiction

section Lines

variable {f : OpenFeature} {ids : IdSource} {t : Token} {r : OpenFeature × IdSource}

theorem taken_of_pushStep (hk : t.kind = .step) (hw : f.waiting = none)
    (h : (quiet f).pushStep? ids t = some r) : Taken f ids t r := by
  unfold OpenFeature.pushStep? at h
  obtain ⟨b, hb, h⟩ := Option.bind_eq_some_iff.mp h
  obtain ⟨_, hg, h⟩ := Option.bind_eq_some_iff.mp h
  cases h
  unfold guard at hg
  split at hg
  · rename_i hn
    simp only [Bool.and_eq_true, List.isEmpty_iff, Option.isNone_iff_eq_none] at hn
    exact .step b hk hw hb hn.1 hn.2
  · contradiction

theorem taken_of_pushRow (hk : t.kind = .tableRow) (hw : f.waiting = none)
    (h : (quiet f).pushRow? ids t = some r) : Taken f ids t r := by
  unfold OpenFeature.pushRow? at h
  obtain ⟨b, hb, h⟩ := Option.bind_eq_some_iff.mp h
  simp only at h
  split at h
  · rename_i e he
    cases h
    exact .exampleRow b e hk hw hb he
  · rename_i he
    obtain ⟨s, hs, h⟩ := Option.bind_eq_some_iff.mp h
    split at h
    · rename_i hn
      cases h
      exact .firstRow b s hk hw hb he hs hn
    · rename_i location rows hn
      cases h
      exact .nextRow b s location rows hk hw hb he hs hn
    · contradiction

theorem taken_of_openDoc {f' : OpenFeature} (hk : t.kind = .docStringSeparator)
    (hw : f.waiting = none) (h : (quiet f).openDoc? t = some f') : Taken f ids t (f', ids) := by
  unfold OpenFeature.openDoc? at h
  obtain ⟨b, hb, h⟩ := Option.bind_eq_some_iff.mp h
  obtain ⟨s, hs, h⟩ := Option.bind_eq_some_iff.mp h
  split at h
  · rename_i ha he
    cases h
    exact .doc b s hk hw hb he hs ha
  · contradiction

/-- A line that is taken outside of doc strings is one of the cases. -/
theorem taken_of_push (h : f.push ids t = .ok r) : Taken f ids t r := by
  unfold OpenFeature.push at h
  cases hk : t.kind with
  | empty =>
    simp only [hk] at h
    cases h
    cases hd : f.describing with
    | true => simpa [hd] using .blank hk hd
    | false => simpa [hd] using .skipped hk hd
  | language =>
    simp only [hk] at h
    cases h
    exact .language hk
  | other =>
    simp only [hk] at h
    split at h
    · rename_i hd
      cases h
      exact .text hk hd
    · contradiction
  | tags =>
    simp only [hk] at h
    cases h
    exact .tags hk
  | rule =>
    simp only [hk] at h
    split at h
    · rename_i hu
      cases h
      exact .rule hk ((undecided_iff f).mp hu)
    · contradiction
  | background =>
    simp only [hk] at h
    split at h
    · contradiction
    · rename_i hw
      split at h
      · contradiction
      · rename_i hs
        cases h
        exact .background hk (by simpa using hw) (by simpa using hs)
  | scenario =>
    simp only [hk] at h
    cases h
    exact .scenario hk
  | scenarioOutline =>
    simp only [hk] at h
    cases h
    exact .outline hk
  | examples =>
    simp only [hk] at h
    split at h
    · rename_i b hb
      split at h
      · rename_i hu
        cases h
        exact .examples b hk hb ((undecided_iff f).mp hu)
      · contradiction
    · contradiction
  | step =>
    simp only [hk] at h
    split at h
    · rename_i hw
      split at h
      · rename_i r' hr
        cases h
        exact taken_of_pushStep hk (by simpa using hw) hr
      · contradiction
    · contradiction
  | tableRow =>
    simp only [hk] at h
    split at h
    · rename_i hw
      split at h
      · rename_i r' hr
        cases h
        exact taken_of_pushRow hk (by simpa using hw) hr
      · contradiction
    · contradiction
  | docStringSeparator =>
    simp only [hk] at h
    split at h
    · rename_i hw
      split at h
      · rename_i r' hr
        cases h
        obtain ⟨f', hf, rfl⟩ := Option.map_eq_some_iff.mp hr
        exact taken_of_openDoc hk (by simpa using hw) hf
      · contradiction
    · contradiction
  | feature | docStringContent | comment | eof =>
    simp only [hk] at h
    contradiction

end Lines

def closedDoc (d : OpenDoc) : DocString :=
  { location := d.location, delimiter := d.delimiter, mediaType := d.mediaType,
    content := "\n".intercalate d.lines.reverse }

def fillDoc (d : OpenDoc) (b : OpenBlock) : OpenBlock :=
  let last := b.steps.last.map ({ · with argument := .docString (closedDoc d) })
  { b with steps := { b.steps with last } }

theorem fillDoc_eq {b : OpenBlock} {s : OpenStep} (d : OpenDoc) (hl : b.steps.last = some s) :
    fillDoc d b = setArgument b s (.docString (closedDoc d)) := by
  simp only [fillDoc, setArgument, hl, Option.map_some]

inductive TakenDoc (f : OpenFeature) (d : OpenDoc) (t : Token) : OpenFeature → Prop
  | content : t.kind = .docStringContent →
      TakenDoc f d t { f with docString := some { d with lines := t.text :: d.lines } }
  | closed : t.kind = .docStringSeparator →
      TakenDoc f d t { f with docString := none, block := f.block.map (fillDoc d) }

theorem takenDoc_of_pushDoc {f f' : OpenFeature} {d : OpenDoc} {t : Token}
    (h : f.pushDoc d t = .ok f') : TakenDoc f d t f' := by
  unfold OpenFeature.pushDoc at h
  split at h
  · rename_i hk
    cases h
    exact .content hk
  · rename_i hk
    cases h
    exact .closed hk
  · contradiction

section Drafts

variable {d : Draft} {t : Token}

theorem push_comment (hk : t.kind = .comment)
    (hd : ∀ f, d.stage = .feature f → f.docString = none) :
    d.push t = .ok { d with comments := ⟨t.location, t.text⟩ :: d.comments } := by
  unfold Draft.push
  cases hs : d.stage with
  | start tags => simp only [hk, ↓reduceIte]
  | feature f => simp only [hd f hs, hk, ↓reduceIte]

theorem push_start {tags : Option (List Tag)} (hs : d.stage = .start tags)
    (hk : t.kind ≠ .comment) : d.push t = d.pushStart tags t := by
  simp only [Draft.push, hs, hk, ↓reduceIte]

theorem push_inDoc {f : OpenFeature} {doc : OpenDoc} (hf : d.stage = .feature f)
    (hd : f.docString = some doc) :
    d.push t = f.pushDoc doc t >>= fun f => pure { d with stage := .feature f } := by
  simp only [Draft.push, hf, hd]

theorem push_outside {f : OpenFeature} (hf : d.stage = .feature f) (hd : f.docString = none)
    (hk : t.kind ≠ .comment) :
    d.push t = f.push d.ids t >>= fun r => pure { d with ids := r.2, stage := .feature r.1 } := by
  simp only [Draft.push, hf, hd, hk, ↓reduceIte]

theorem build_cons {language uri : String} {last : Token} {ts : List Token} (hk : t.kind ≠ .eof) :
    d.build language uri last (t :: ts) = d.push t >>= fun d => d.build language uri last ts := by
  simp only [Draft.build, hk, ↓reduceIte]

end Drafts

inductive DraftTaken (d : Draft) (t : Token) : Draft → Prop
  | comment : t.kind = .comment → (∀ f, d.stage = .feature f → f.docString = none) →
      DraftTaken d t { d with comments := ⟨t.location, t.text⟩ :: d.comments }
  | leading (tags : Option (List Tag)) : d.stage = .start tags →
      t.kind = .empty ∨ t.kind = .language → DraftTaken d t d
  | tags (tags : Option (List Tag)) : d.stage = .start tags → t.kind = .tags →
      DraftTaken d t
        { d with
          ids := (tagsOfLine d.ids t.location.line t.items).2
          stage := .start (some
            (tags.getD [] ++ (tagsOfLine d.ids t.location.line t.items).1)) }
  | feature (tags : Option (List Tag)) : d.stage = .start tags → t.kind = .feature →
      DraftTaken d t { d with stage := .feature { heading := .ofToken (tags.getD []) t } }
  | inside (f f' : OpenFeature) (doc : OpenDoc) : d.stage = .feature f → f.docString = some doc →
      TakenDoc f doc t f' → DraftTaken d t { d with stage := .feature f' }
  | outside (f : OpenFeature) (r : OpenFeature × IdSource) : d.stage = .feature f →
      f.docString = none → t.kind ≠ .comment → Taken f d.ids t r →
      DraftTaken d t { d with ids := r.2, stage := .feature r.1 }

theorem draftTaken_of_push {d d' : Draft} {t : Token} (h : d.push t = .ok d') :
    DraftTaken d t d' := by
  cases hs : d.stage with
  | start tags =>
    by_cases hk : t.kind = .comment
    · have hd (f : OpenFeature) (hf : d.stage = .feature f) : f.docString = none := by
        simp [hs] at hf
      cases (push_comment hk hd).symm.trans h
      exact .comment hk hd
    · rw [push_start hs hk, Draft.pushStart] at h
      split at h
      · rename_i ht
        cases h
        exact .leading tags hs (.inl ht)
      · rename_i ht
        cases h
        exact .leading tags hs (.inr ht)
      · rename_i ht
        cases h
        exact .tags tags hs ht
      · rename_i ht
        cases h
        exact .feature tags hs ht
      · contradiction
  | feature f =>
    cases hd : f.docString with
    | some doc =>
      rw [push_inDoc hs hd, bind_eq_ok] at h
      obtain ⟨f', hr, h⟩ := h
      cases h
      exact .inside f f' doc hs hd (takenDoc_of_pushDoc hr)
    | none =>
      by_cases hk : t.kind = .comment
      · have hn (g : OpenFeature) (hg : d.stage = .feature g) : g.docString = none := by
          obtain rfl : f = g := by simpa [hs] using hg
          exact hd
        cases (push_comment hk hn).symm.trans h
        exact .comment hk hn
      · rw [push_outside hs hd hk, bind_eq_ok] at h
        obtain ⟨r, hr, h⟩ := h
        cases h
        exact .outside f r hs hd hk (taken_of_push hr)

section Texts

variable {d : Draft} {language uri : String} {last : Token} {doc : Document}

/-- The draft takes the first line, and then the others. -/
theorem draftTaken_of_build {t : Token} {ts : List Token} (hk : t.kind ≠ .eof)
    (h : d.build language uri last (t :: ts) = .ok doc) :
    ∃ d', DraftTaken d t d' ∧ d'.build language uri last ts = .ok doc := by
  rw [build_cons hk, bind_eq_ok] at h
  obtain ⟨d', hp, h⟩ := h
  exact ⟨d', draftTaken_of_push hp, h⟩

/-- Lines before the end are taken one after the other, whatever comes after them. -/
theorem build_foldlM {pre ts : List Token} (hp : ∀ t ∈ pre, t.kind ≠ .eof) :
    d.build language uri last (pre ++ ts) =
      pre.foldlM Draft.push d >>= fun d => d.build language uri last ts := by
  induction pre generalizing d with
  | nil => rfl
  | cons t pre ih =>
    obtain ⟨ht, hp⟩ := List.forall_mem_cons.mp hp
    rw [List.cons_append, build_cons ht, List.foldlM_cons, bind_assoc]
    exact bind_congr fun d' => ih hp

/-- What a draft can be at the end of its text, and the document that it gives. -/
inductive Finished (d : Draft) (language uri : String) : Document → Prop
  | empty : d.stage = .start none →
      Finished d language uri { uri, feature := none, comments := d.comments.reverse }
  | feature (f : OpenFeature) : d.stage = .feature f → f.docString = none → f.waiting = none →
      Finished d language uri
        { uri, feature := some (Draft.closeFeature f d.ids language)
          comments := d.comments.reverse }

theorem finished_of_finish (h : d.finish language uri last = .ok doc) :
    Finished d language uri doc := by
  unfold Draft.finish at h
  split at h
  · rename_i hs
    cases h
    exact .empty hs
  · contradiction
  · rename_i f hs
    split at h
    · contradiction
    · rename_i hn
      simp only [Bool.or_eq_true, not_or, Option.not_isSome_iff_eq_none] at hn
      cases h
      exact .feature f hs hn.1 hn.2

end Texts

end Brine.Proofs.DraftSteps
