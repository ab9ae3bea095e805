import Brine.Proofs.Acceptance
import Brine.Proofs.Conservation
import Brine.Proofs.Success

namespace Brine.Proofs.FirstErrors
open Line Document Grammar DraftSteps DraftViews DraftModes LineShapes Acceptance

/-- A draft does not take a line, or may not end where the text does. -/
inductive Fails (d : Draft) (t : Token) (e : Error) : Prop
  | push : t.kind ≠ .eof → d.push t = .error e → Fails d t e
  | finish {language uri : String} : t.kind = .eof → d.finish language uri t = .error e →
      Fails d t e

section Runs

variable {d d' : Draft} {language uri : String} {last t : Token} {pre ts : List Token} {e : Error}

theorem build_append (hp : ∀ t ∈ pre, t.kind ≠ .eof) (h : pre.foldlM Draft.push d = .ok d') :
    d.build language uri last (pre ++ ts) = d'.build language uri last ts := by
  rw [build_foldlM hp, h]
  rfl

theorem finish_error (h : d.finish language uri t = .error e) : e = d.stage.unexpected t := by
  unfold Draft.finish at h
  split at h
  · contradiction
  · cases h
    rfl
  · split at h
    · cases h
      rfl
    · contradiction

/-- A draft that fails at a line does so whatever comes after it. -/
theorem Fails.build (h : Fails d t e) (language uri : String) (last : Token) (rest : List Token) :
    d.build language uri last (t :: rest) = .error e := by
  cases h with
  | push ht h =>
    rw [build_cons ht, h]
    rfl
  | finish ht h =>
    simp only [Draft.build, ht, ↓reduceIte]
    unfold Draft.finish at h ⊢
    split at h
    · contradiction
    · exact h
    · split at h
      · rename_i hn
        simpa only [hn, ↓reduceIte] using h
      · contradiction

/-- Lines that end fail at one of them, and the draft takes those before it. -/
theorem build_error (hm : ∃ t ∈ ts, t.kind = .eof) (h : d.build language uri last ts = .error e) :
    ∃ pre p post d', ts = pre ++ p :: post ∧ (∀ t ∈ pre, t.kind ≠ .eof) ∧
      pre.foldlM Draft.push d = .ok d' ∧ Fails d' p e := by
  induction ts generalizing d with
  | nil => simp at hm
  | cons t ts ih =>
    by_cases ht : t.kind = .eof
    · simp only [Draft.build, ht, ↓reduceIte] at h
      exact ⟨[], t, ts, d, rfl, by simp, rfl, .finish ht h⟩
    · cases hd : d.push t with
      | error e' =>
        have hf : Fails d t e' := .push ht hd
        cases (hf.build language uri last ts).symm.trans h
        exact ⟨[], t, ts, d, rfl, by simp, rfl, hf⟩
      | ok d₁ =>
        have hm : ∃ t ∈ ts, t.kind = .eof := by simpa [ht] using hm
        rw [build_cons ht, hd] at h
        obtain ⟨pre, p, post, d', rfl, hp, hr, hf⟩ := ih hm h
        refine ⟨t :: pre, p, post, d', rfl, List.forall_mem_cons.mpr ⟨ht, hp⟩, ?_, hf⟩
        rw [List.foldlM_cons, hd]
        exact hr

end Runs

/-- Whether a doc string is open after lines. -/
def leavesOpen (inside : Bool) (ts : List Token) : Bool :=
  ts.foldl (fun inside t => insideAfter inside t.kind) inside

def scopeBackgrounds (ts : List Token) : Nat :=
  (ts.reverse.takeWhile (·.kind ≠ .rule)).countP (·.kind = .background)

def endsWithTags (ts : List Token) : Bool :=
  (ts.reverse.dropWhile (isTrivia ·.kind)).head?.any (·.kind = .tags)

def SecondBackground (pre : List Token) (t : Token) : Prop :=
  t.kind = .background ∧ scopeBackgrounds pre = 1 ∧ endsWithTags pre = false

section Lists

variable (pre : List Token) (t : Token)

theorem leavesOpen_concat (inside : Bool) :
    leavesOpen inside (pre ++ [t]) = insideAfter (leavesOpen inside pre) t.kind := by
  simp [leavesOpen]

theorem scopeBackgrounds_concat : scopeBackgrounds (pre ++ [t]) =
    if t.kind = .rule then 0
    else scopeBackgrounds pre + if t.kind = .background then 1 else 0 := by
  by_cases hr : t.kind = .rule <;> simp [scopeBackgrounds, hr, List.countP_cons]

theorem endsWithTags_concat : endsWithTags (pre ++ [t]) =
    if isTrivia t.kind then endsWithTags pre else decide (t.kind = .tags) := by
  cases ht : isTrivia t.kind <;> simp [endsWithTags, ht]

end Lists

def backgroundsIn : Mode → Nat
  | .within true _ => 1
  | _ => 0

def hasTags : Mode → Bool
  | .tagged | .within _ (.tags _) => true
  | _ => false

/-- A mode says of the lines before it what they say themselves. -/
structure Traces (pre : List Token) (m : Mode) : Prop where
  doc : inDoc m = leavesOpen false pre
  backgrounds : backgroundsIn m = scopeBackgrounds pre
  tags : hasTags m = endsWithTags pre
  start : (∀ t ∈ pre, isTrivia t.kind = true) → m = .start

theorem backgroundsIn_next {m m' : Mode} {k : Kind} (h : m.next k = some m') :
    backgroundsIn m' =
      if k = .rule then 0 else backgroundsIn m + if k = .background then 1 else 0 := by
  cases m with
  | start | tagged => cases k <;> cases h <;> rfl
  | within seen p =>
    cases seen <;> cases p <;> cases k <;>
      simp [Mode.next, Place.next, opened, Place.block] at h <;> grind [backgroundsIn]

theorem hasTags_next {m m' : Mode} {k : Kind} (h : m.next k = some m') :
    hasTags m' = decide (k = .tags) := by
  cases m with
  | start | tagged => cases k <;> cases h <;> rfl
  | within seen p =>
    cases p <;> cases k <;> simp [Mode.next, Place.next, opened, Place.block] at h <;>
      grind [hasTags]

def LanguagesLead (ts : List Token) : Prop :=
  ∀ pre t, pre ++ [t] <+: ts → t.kind = .language → ∀ u ∈ pre, isTrivia u.kind = true

theorem LanguagesLead.of_append {pre ts : List Token} (h : LanguagesLead (pre ++ ts)) :
    LanguagesLead pre := by
  intro pre' t hp
  exact h pre' t (hp.trans (List.prefix_append pre ts))

section Steps

variable {d d' : Draft} {m : Mode} {pre : List Token} {t : Token}

/-- A line that counts leads to a mode that says so. -/
theorem Traces.next {m' : Mode} (h : Traces pre m) (hk : inDoc m = true ∨ isTrivia t.kind = false)
    (hm : m.next t.kind = some m') : Traces (pre ++ [t]) m' where
  doc := by rw [inDoc_next hm, leavesOpen_concat, h.doc]
  backgrounds := by rw [backgroundsIn_next hm, scopeBackgrounds_concat, h.backgrounds]
  tags := by
    have ht : isTrivia t.kind = false := by
      rcases hk with hk | hk
      · -- Inside of a doc string the automaton takes nothing else.
        cases m with
        | start | tagged => cases hk
        | within seen p =>
          obtain ⟨b, rfl⟩ := eq_doc_of_inDoc hk
          cases ht : t.kind <;> simp [ht, Mode.next, Place.next] at hm <;> rfl
      · exact hk
    rw [hasTags_next hm, endsWithTags_concat, ht]
    rfl
  start := by
    intro hp
    obtain ⟨hp, ht⟩ := List.forall_mem_append.mp hp
    have ht : isTrivia t.kind = true := ht t (by simp)
    cases h.start hp
    simp [inDoc, ht] at hk

/-- A line that does not count leaves the mode as it is. -/
theorem Traces.same (h : Traces pre m) (hm : inDoc m = false) (hk : isTrivia t.kind = true) :
    Traces (pre ++ [t]) m where
  doc := by
    rw [leavesOpen_concat, ← h.doc, hm]
    cases ht : t.kind <;> simp [ht, isTrivia] at hk <;> rfl
  backgrounds := by
    rw [scopeBackgrounds_concat, h.backgrounds]
    cases ht : t.kind <;> simp [ht, isTrivia] at hk <;> rfl
  tags := by
    rw [endsWithTags_concat, h.tags, hk]
    rfl
  start := by
    intro hp
    exact h.start fun u hu => hp u (List.mem_append_left _ hu)

theorem follows_push (hf : Follows d m) (ht : Traces pre m) (hl : LanguagesLead (pre ++ [t]))
    (h : d.push t = .ok d') : ∃ m', Follows d' m' ∧ Traces (pre ++ [t]) m' := by
  by_cases hk : inDoc m = true ∨ isTrivia t.kind = false
  · have hd := push_leads hf hk
    rw [h] at hd
    cases hm : m.next t.kind with
    | none =>
      rw [hm] at hd
      obtain ⟨e, he⟩ := hd
      cases he
    | some m' =>
      rw [hm] at hd
      obtain ⟨d₁, he, hf'⟩ := hd
      cases he
      exact ⟨m', hf', ht.next hk hm⟩
  · simp only [not_or, Bool.not_eq_true, Bool.not_eq_false] at hk
    have hs : t.kind = .language → m = .start := fun hlang =>
      ht.start (hl pre t (List.prefix_refl _) hlang)
    obtain ⟨d₁, he, hf'⟩ := push_trivia hf hk.1 hk.2 hs
    cases h.symm.trans he
    exact ⟨m, hf', ht.same hk.1 hk.2⟩

/-- After lines that a draft has taken it is in a mode that tells what they were. -/
theorem follows_run (hl : LanguagesLead pre) (h : pre.foldlM Draft.push {} = .ok d) :
    ∃ m, Follows d m ∧ Traces pre m := by
  induction pre using List.reverseRecOn generalizing d with
  | nil =>
    cases h
    exact ⟨.start, rfl, rfl, rfl, rfl, fun _ => rfl⟩
  | append_singleton pre t ih =>
    rw [List.foldlM_append] at h
    cases hd : pre.foldlM Draft.push {} with
    | error e => simp [hd, bind, Except.bind] at h
    | ok d₁ =>
      simp only [hd, Success.ok_bind, List.foldlM_cons, List.foldlM_nil, bind_pure] at h
      obtain ⟨m, hf, ht⟩ := ih hl.of_append hd
      exact follows_push hf ht hl h

end Steps

def completion : Mode → List Kind
  | .tagged => [.feature]
  | .within _ (.doc _) => [.docStringSeparator]
  | .within _ (.tags _) => [.scenario]
  | _ => []

def ending (m : Mode) : List Token :=
  (completion m).map fun kind => { kind, location := ⟨1, 1⟩ }

def endOfText : Token where
  kind := .eof
  location := ⟨1, 0⟩

theorem ending_kinds (m : Mode) : ∀ t ∈ ending m, t.kind ≠ .eof ∧ t.kind ≠ .language := by
  intro t ht
  obtain ⟨k, hk, rfl⟩ := List.mem_map.mp ht
  unfold completion at hk
  split at hk <;> simp at hk <;> simp [hk]

theorem accepts_ending (m : Mode) :
    m.accepts (significant (inDoc m) (ending m ++ [endOfText])) = true := by
  cases m with
  | start | tagged => rfl
  | within seen p => cases p <;> rfl

theorem build_ending {d : Draft} {m : Mode} (h : Follows d m) (language uri : String)
    (last : Token) : ∃ doc, d.build language uri last (ending m ++ [endOfText]) = .ok doc :=
  (build_ok_iff h rfl (ending_kinds m)).mpr (accepts_ending m)

theorem wellShaped_ending {pre post : List Token} (m : Mode) (h : WellShaped (pre ++ post))
    (hp : ∀ t ∈ pre, t.kind ≠ .eof) : WellShaped (pre ++ (ending m ++ [endOfText])) := by
  have hend : ∀ t ∈ ending m ++ [endOfText], t.kind ≠ .language := by
    intro t ht
    rcases List.mem_append.mp ht with ht | ht
    · exact (ending_kinds m t ht).2
    · simp [List.mem_singleton.mp ht, endOfText]
  refine ⟨⟨pre ++ ending m, endOfText, by simp, rfl, ?_⟩, ?_⟩
  · intro t ht
    rcases List.mem_append.mp ht with ht | ht
    · exact hp t ht
    · exact (ending_kinds m t ht).1
  · intro t ht
    have hl := h.languages
    rw [List.dropWhile_append] at ht hl
    split at ht
    · exact hend t (List.dropWhile_subset _ ht)
    · rename_i hn
      rw [if_neg hn] at hl
      rcases List.mem_append.mp ht with ht | ht
      · exact hl t (List.mem_append_left _ ht)
      · exact hend t ht

def Repeats (d : Draft) (t : Token) : Prop :=
  t.kind = .background ∧ ∃ f, d.stage = .feature f ∧ f.docString = none ∧ f.waiting = none ∧
    f.scopeHasBackground = true

theorem push_feature_error {f : OpenFeature} {ids : IdSource} {t : Token} {e : Error}
    (h : f.push ids t = .error e) :
    (t.kind = .background ∧ f.waiting = none ∧ f.scopeHasBackground = true) ∧
        e = .secondBackground t.location ∨
      ¬(t.kind = .background ∧ f.waiting = none ∧ f.scopeHasBackground = true) ∧
        e = (Stage.feature f).unexpected t := by
  unfold OpenFeature.push at h
  cases hk : t.kind with
  | background =>
    simp only [hk] at h
    cases hw : f.waiting with
    | some w =>
      simp only [hw, Option.isNone_some, Bool.not_false, ↓reduceIte, Except.error.injEq] at h
      exact .inr ⟨by simp, h.symm⟩
    | none =>
      cases hs : f.scopeHasBackground with
      | true =>
        simp only [hw, hs, Option.isNone_none, Bool.not_true, Bool.false_eq_true, ↓reduceIte,
          Except.error.injEq] at h
        exact .inl ⟨by simp, h.symm⟩
      | false => simp [hw, hs] at h
  | empty | language | tags | scenario | scenarioOutline =>
    simp only [hk] at h
    contradiction
  | feature | docStringContent | comment | eof =>
    simp only [hk, Except.error.injEq] at h
    exact .inr ⟨by simp, h.symm⟩
  | other | rule =>
    simp only [hk] at h
    split at h
    · contradiction
    · cases h
      exact .inr ⟨by simp, rfl⟩
  | examples =>
    simp only [hk] at h
    refine .inr ⟨by simp, ?_⟩
    split at h
    · split at h
      · contradiction
      · cases h
        rfl
    · cases h
      rfl
  | step | tableRow | docStringSeparator =>
    simp only [hk] at h
    refine .inr ⟨by simp, ?_⟩
    split at h
    · split at h
      · contradiction
      · cases h
        rfl
    · cases h
      rfl

/-- What is wrong with a line that a draft does not take. -/
theorem push_error {d : Draft} {t : Token} {e : Error} (h : d.push t = .error e) :
    Repeats d t ∧ e = .secondBackground t.location ∨
      ¬Repeats d t ∧ e = d.stage.unexpected t := by
  cases hs : d.stage with
  | start tags =>
    have hr : ¬Repeats d t := by simp [Repeats, hs]
    refine .inr ⟨hr, ?_⟩
    by_cases hc : t.kind = .comment
    · rw [push_comment hc (by simp [hs])] at h
      cases h
    · rw [push_start hs hc, Draft.pushStart, hs] at h
      split at h <;> cases h
      rfl
  | feature f =>
    have hr : Repeats d t ↔ f.docString = none ∧
        (t.kind = .background ∧ f.waiting = none ∧ f.scopeHasBackground = true) := by
      simp only [Repeats, hs, Stage.feature.injEq, exists_eq_left']
      exact and_left_comm
    rw [hr]
    cases hd : f.docString with
    | some doc =>
      rw [push_inDoc hs hd] at h
      refine .inr ⟨by simp, ?_⟩
      unfold OpenFeature.pushDoc at h
      split at h <;> cases h
      simp [Stage.unexpected, Stage.expected, hd]
    | none =>
      by_cases hc : t.kind = .comment
      · have hn : ∀ g, d.stage = .feature g → g.docString = none := by
          intro g hg
          cases hs.symm.trans hg
          exact hd
        rw [push_comment hc hn] at h
        cases h
      · rw [push_outside hs hd hc] at h
        cases hp : f.push d.ids t with
        | ok r =>
          rw [hp] at h
          cases h
        | error e' =>
          rw [hp] at h
          cases h
          rcases push_feature_error hp with ⟨hb, he⟩ | ⟨hb, he⟩
          · exact .inl ⟨⟨rfl, hb⟩, he⟩
          · exact .inr ⟨fun h => hb h.2, he⟩

section Kinds

variable {d : Draft} {m : Mode} {pre : List Token} {t : Token}

theorem shows_seen {v : View} {seen : Bool} {p : Place} (h : Shows v seen p) :
    v.seen = seen ∧ v.waiting.isSome = hasTags (.within seen p) := by
  cases p with
  | tags b =>
    obtain ⟨block, rfl, -⟩ := h
    exact ⟨rfl, rfl⟩
  | _ =>
    cases h
    exact ⟨rfl, rfl⟩

/-- Outside of doc strings the lines before a background tell whether it repeats one. -/
theorem repeats_iff (hf : Follows d m) (ht : Traces pre m)
    (hd : leavesOpen false pre = true → t.kind ≠ .background) :
    Repeats d t ↔ SecondBackground pre t := by
  rw [← ht.doc] at hd
  unfold Repeats SecondBackground
  rw [← ht.backgrounds, ← ht.tags]
  refine and_congr_right fun hk => ?_
  have hm : inDoc m = false := by simpa [hk] using hd
  cases m with
  | start =>
    have hs : d.stage = .start none := hf
    simp [hs, backgroundsIn]
  | tagged =>
    obtain ⟨tags, hs⟩ := hf
    simp [hs, backgroundsIn]
  | within seen p =>
    obtain ⟨f, hs, hv⟩ := hf
    have hdoc : f.docString = none := by simpa [view, hm] using hv.docString
    obtain ⟨hseen, hwait⟩ := shows_seen hv
    have hw : f.waiting = none ↔ hasTags (.within seen p) = false := by
      rw [← hwait]
      simp [view]
    have hb : f.scopeHasBackground = seen := hseen
    simp only [hs, Stage.feature.injEq, exists_eq_left', hdoc, true_and, hw, hb]
    cases seen <;> simp [backgroundsIn]

end Kinds

section Texts

variable (table : Table) (settings : Settings) (r : Reader) (number : Nat)

/-- Inside of a doc string there is nothing but its content, up to a separator or the end. -/
theorem readAll_inside {ls : List (List Char)} {pre post : List Token} {t : Token}
    (h : (r.readAll table settings number ls).1 = pre ++ t :: post)
    (hd : leavesOpen r.docString.isSome pre = true) :
    t.kind = .docStringSeparator ∨ t.kind = .docStringContent ∨ t.kind = .eof := by
  induction ls generalizing r number pre with
  | nil =>
    cases pre with
    | nil =>
      cases h
      exact .inr (.inr rfl)
    | cons u pre => simp [Reader.readAll] at h
  | cons line ls ih =>
    rw [readAll_cons] at h
    cases pre with
    | nil =>
      cases h
      rcases read_inside table settings r number hd line with hc | hc
      · exact .inl hc
      · exact .inr (.inl hc)
    | cons u pre =>
      obtain ⟨rfl, h'⟩ := List.cons.inj h
      refine ih _ _ h' ?_
      rw [read_docString]
      exact hd

theorem readAll_docString {ls : List (List Char)} {pre post : List Token} {t : Token}
    (h : (r.readAll table settings number ls).1 = pre ++ t :: post)
    (hd : leavesOpen r.docString.isSome pre = true) : t.kind ≠ .background := by
  rcases readAll_inside table settings r number h hd with hk | hk | hk <;> simp [hk]

end Texts

theorem languagesLead_of_wellShaped {ts : List Token} (h : WellShaped ts) : LanguagesLead ts := by
  intro pre t hp hk
  obtain ⟨post, rfl⟩ := hp
  have hl := h.languages
  rw [List.append_assoc, List.dropWhile_append] at hl
  split at hl
  · rename_i he
    simpa [List.dropWhile_eq_nil_iff] using he
  · exact absurd hk (hl t (by simp))

/-- What the lines before a line and the line itself say about the error that it is. -/
structure Explains (pre : List Token) (p : Token) (e : Error) : Prop where
  location : e.location = p.location
  atEnd : p.kind = .eof ↔ ∃ expected, e = .unexpectedEnd p.location expected
  repeated : SecondBackground pre p ↔ e = .secondBackground p.location
  unexpected : p.kind ≠ .eof ∧ ¬SecondBackground pre p ↔
    ∃ expected, e = .unexpectedLine p.location expected p.describe

theorem explains_unexpected {pre : List Token} {p : Token} (expected : List Kind)
    (h : ¬SecondBackground pre p) : Explains pre p (.unexpected p expected) := by
  unfold Error.unexpected
  by_cases hk : p.kind = .eof
  · rw [if_pos hk]
    exact ⟨rfl, by simp [hk], by simp [h], by simp [hk]⟩
  · rw [if_neg hk]
    exact ⟨rfl, by simp [hk], by simp [h], by simp [hk, h]⟩

theorem explains_repeated {pre : List Token} {p : Token} (h : SecondBackground pre p) :
    Explains pre p (.secondBackground p.location) :=
  ⟨rfl, by simp [h.1], by simp [h], by simp [h]⟩

/-- The error at a line that fails is the one that the lines up to it call for. -/
theorem explains_fails {d : Draft} {pre : List Token} {p : Token} {e : Error}
    (hr : Repeats d p ↔ SecondBackground pre p) (h : Fails d p e) : Explains pre p e := by
  cases h with
  | finish hk h =>
    rw [finish_error h]
    refine explains_unexpected _ ?_
    simp [SecondBackground, hk]
  | push hk h =>
    rcases push_error h with ⟨hs, rfl⟩ | ⟨hs, rfl⟩
    · exact explains_repeated (hr.mp hs)
    · exact explains_unexpected _ fun h => hs (hr.mpr h)

/-- The error of a text is that of its first line that cannot stand where it does. All lines that
agree with the text up to that line fail in the same way, and the lines before it can go on to be
those of a document. Which error it is depends on that line: whether it is the end of the text, or a
second background that no tags stand right before. -/
theorem parse_error_first {table : Table} {settings : Settings} {requested : Option String}
    {uri source : String} {e : Error}
    (h : parse table settings requested uri source = .error e) :
    ∃ pre p post,
      (tokenize table settings (settings.initialLanguage requested) source).tokens =
        pre ++ p :: post ∧
      (∀ language uri rest, ofTokens ⟨language, pre ++ p :: rest⟩ uri = .error e) ∧
      (∃ rest, WellShaped (pre ++ rest) ∧
        ∀ language uri, ∃ doc, ofTokens ⟨language, pre ++ rest⟩ uri = .ok doc) ∧
      Explains pre p e := by
  have hw := tokenize_wellShaped table settings (settings.initialLanguage requested) source
  obtain ⟨body, eof, hb, he, -⟩ := hw.ends
  have hm : ∃ t ∈ (tokenize table settings (settings.initialLanguage requested) source).tokens,
      t.kind = .eof := ⟨eof, by simp [hb], he⟩
  obtain ⟨pre, p, post, d, hs, hp, hr, hf⟩ := build_error hm h
  have hdoc : leavesOpen false pre = true → p.kind ≠ .background :=
    readAll_docString table settings
      (Reader.start table settings (settings.initialLanguage requested)) 1 hs
  rw [hs] at hw
  obtain ⟨m, hm, ht⟩ := follows_run (languagesLead_of_wellShaped hw).of_append hr
  refine ⟨pre, p, post, hs, ?_, ⟨_, wellShaped_ending m hw hp, ?_⟩, ?_⟩
  · intro language uri rest
    rw [ofTokens, build_append hp hr]
    exact hf.build language uri _ rest
  · intro language uri
    rw [ofTokens, build_append hp hr]
    exact build_ending hm language uri _
  · exact explains_fails (repeats_iff hm ht hdoc) hf

def twoBackgrounds : String :=
  "Feature: F\nBackground:\nRule: R\nBackground:\nGiven x\n# note\nBackground:\nScenario: S\n"

theorem parse_error_first_sample :
    parse Conservation.sampleTable {} none "" twoBackgrounds = .error (.secondBackground ⟨7, 1⟩) ∧
      ∃ pre p post,
        (tokenize Conservation.sampleTable {} "en" twoBackgrounds).tokens = pre ++ p :: post ∧
        (∀ language uri rest, ofTokens ⟨language, pre ++ p :: rest⟩ uri =
          .error (.secondBackground ⟨7, 1⟩)) ∧
        (∃ rest, WellShaped (pre ++ rest) ∧
          ∀ language uri, ∃ doc, ofTokens ⟨language, pre ++ rest⟩ uri = .ok doc) ∧
        Explains pre p (.secondBackground ⟨7, 1⟩) := by
  have h : parse Conservation.sampleTable {} none "" twoBackgrounds =
      .error (.secondBackground ⟨7, 1⟩) := by decide +kernel
  exact ⟨h, parse_error_first h⟩

end Brine.Proofs.FirstErrors
