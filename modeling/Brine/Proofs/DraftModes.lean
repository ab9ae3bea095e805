import Brine.Proofs.DraftViews
import Brine.Proofs.LineShapes

namespace Brine.Proofs.DraftModes
open Line Document Grammar DraftSteps DraftViews LineShapes

def Shows (v : View) (seen : Bool) : Place → Prop
  | .scope => v = { seen, describing := true }
  | .heading k => v = { seen, block := some { kind := k }, describing := true }
  | .step k => v = { seen, block := some { kind := k, last := some .nothing } }
  | .table k => v = { seen, block := some { kind := k, last := some .table } }
  | .doc k =>
    v = { seen, block := some { kind := k, last := some .nothing }, docString := true }
  | .closed k => v = { seen, block := some { kind := k, last := some .docString } }
  | .examples =>
    v = { seen, block := some { kind := .scenario, examples := true, openExamples := true },
          describing := true }
  | .rows =>
    v = { seen, block := some { kind := .scenario, examples := true, openExamples := true } }
  | .tags k => ∃ block, v = { seen, block, waiting := some false } ∧ block.map (·.kind) = k

def Agree : Option View → Option Mode → Prop
  | some v, some (.within seen p) => Shows v seen p
  | none, none => True
  | _, _ => False

/-- Outside of doc strings a line leads a view where it leads the place that it stands for. -/
theorem agree_next {v : View} {seen : Bool} {p : Place} {k : Kind} (h : Shows v seen p)
    (hp : ∀ b, p ≠ .doc b) (hk : isTrivia k = false) : Agree (v.next k) (p.next seen k) := by
  -- Both sides are tables over places and kinds of lines.
  cases p with
  | doc b => exact absurd rfl (hp b)
  | tags b =>
    obtain ⟨block, rfl, rfl⟩ := h
    rcases block with _ | ⟨_ | _, last, examples, openExamples⟩ <;> cases k <;>
      simp [isTrivia] at hk <;> simp [View.next, Place.next, Place.block, opened, Agree, Shows]
  | scope | examples | rows =>
    cases h
    cases seen <;> cases k <;> simp [isTrivia] at hk <;>
      simp [View.next, View.addStep, View.addRow, View.openDoc, Place.next, Place.block, opened,
        Agree, Shows]
  | heading b | step b | table b | closed b =>
    cases h
    cases b <;> cases seen <;> cases k <;> simp [isTrivia] at hk <;>
      simp [View.next, View.addStep, View.addRow, View.openDoc, Place.next, Place.block, opened,
        Agree, Shows]

theorem agree_nextInDoc {v : View} {seen : Bool} {b : Block} {k : Kind}
    (h : Shows v seen (.doc b)) : Agree (v.nextInDoc k) ((Place.doc b).next seen k) := by
  cases h
  cases k <;> simp [View.nextInDoc, Place.next, Agree, Shows]

def inDoc : Mode → Bool
  | .within _ (.doc _) => true
  | _ => false

theorem eq_doc_of_inDoc {seen : Bool} {p : Place} (h : inDoc (.within seen p) = true) :
    ∃ b, p = .doc b := by
  cases p with
  | doc b => exact ⟨b, rfl⟩
  | _ => cases h

theorem Shows.docString {v : View} {seen : Bool} {p : Place} (h : Shows v seen p) :
    v.docString = inDoc (.within seen p) := by
  cases p with
  | tags b =>
    obtain ⟨block, rfl, -⟩ := h
    rfl
  | _ =>
    cases h
    rfl

/-- The text may end where no doc string is open and no tags are waiting. -/
theorem Shows.mayEnd {v : View} {seen : Bool} {p : Place} (h : Shows v seen p) :
    (!(v.docString || v.waiting.isSome)) = (Mode.within seen p).mayEnd := by
  cases p with
  | tags b =>
    obtain ⟨block, rfl, -⟩ := h
    rfl
  | _ =>
    cases h
    rfl

def startMode : Option (List Tag) → Mode
  | none => .start
  | some _ => .tagged

def Follows (d : Draft) : Mode → Prop
  | .start => d.stage = .start none
  | .tagged => ∃ tags, d.stage = .start (some tags)
  | .within seen p => ∃ f, d.stage = .feature f ∧ Shows (view f) seen p

def Leads (r : Except Error Draft) : Option Mode → Prop
  | some m => ∃ d, r = .ok d ∧ Follows d m
  | none => ∃ e, r = .error e

theorem leads_of_agree {α : Type} {r : Except Error α} {g : α → OpenFeature} {c : α → Draft}
    {m : Option Mode} (hc : ∀ a, (c a).stage = .feature (g a))
    (h : Agree (r.toOption.map fun a => view (g a)) m) : Leads (r >>= fun a => pure (c a)) m := by
  match r, m with
  | .ok a, some (.within seen p) => exact ⟨c a, rfl, g a, hc a, h⟩
  | .error e, none => exact ⟨e, rfl⟩
  | .ok a, none | .ok a, some .start | .ok a, some .tagged | .error e, some m => exact h.elim

section Drafts

variable {d : Draft} {m : Mode} {t : Token}

theorem Follows.of_stage {d' : Draft} (h : Follows d m) (hs : d'.stage = d.stage) :
    Follows d' m := by
  cases m <;> simpa only [Follows, hs] using h

/-- Before the feature, tags and the feature are all that can come. -/
theorem pushStart_leads (tags : Option (List Tag)) (hs : d.stage = .start tags)
    (hk : isTrivia t.kind = false) : Leads (d.push t) ((startMode tags).next t.kind) := by
  have ho : (startMode tags).next t.kind = Mode.start.next t.kind := by
    cases tags <;> cases t.kind <;> rfl
  rw [ho]
  have hc : t.kind ≠ .comment := by
    intro hc
    simp [hc, isTrivia] at hk
  rw [push_start hs hc, Draft.pushStart]
  cases ht : t.kind with
  | tags => exact ⟨_, rfl, _, rfl⟩
  | feature => exact ⟨_, rfl, _, rfl, rfl⟩
  | empty | comment | language => simp [ht, isTrivia] at hk
  | _ => exact ⟨_, rfl⟩

/-- A line leads a draft where it leads the automaton. -/
theorem push_leads (h : Follows d m) (hk : inDoc m = true ∨ isTrivia t.kind = false) :
    Leads (d.push t) (m.next t.kind) := by
  cases m with
  | start =>
    rcases hk with hk | hk
    · cases hk
    · exact pushStart_leads none h hk
  | tagged =>
    rcases hk with hk | hk
    · cases hk
    · obtain ⟨tags, hs⟩ := h
      exact pushStart_leads (some tags) hs hk
  | within seen p =>
    obtain ⟨f, hf, hs⟩ := h
    have hv := hs.docString
    cases hd : f.docString with
    | some doc =>
      have hp : inDoc (.within seen p) = true := by simpa [view, hd] using hv.symm
      obtain ⟨b, rfl⟩ := eq_doc_of_inDoc hp
      rw [push_inDoc hf hd]
      refine leads_of_agree (fun _ => rfl) ?_
      rw [view_pushDoc t hd]
      exact agree_nextInDoc hs
    | none =>
      have hp : inDoc (.within seen p) = false := by simpa [view, hd] using hv.symm
      have ht : isTrivia t.kind = false := by simpa [hp] using hk
      rw [push_outside hf hd (by rintro hc; simp [hc, isTrivia] at ht)]
      refine leads_of_agree (fun _ => rfl) ?_
      rw [view_push]
      exact agree_next hs (by rintro b rfl; cases hp) ht

theorem Follows.docString (h : Follows d m) (hm : inDoc m = false) :
    ∀ f, d.stage = .feature f → f.docString = none := by
  intro f hf
  cases m with
  | start =>
    have hs : d.stage = .start none := h
    simp [hs] at hf
  | tagged =>
    obtain ⟨tags, hs⟩ := h
    simp [hs] at hf
  | within seen p =>
    obtain ⟨g, hg, hs⟩ := h
    obtain rfl : g = f := by simpa [hg] using hf
    have hv := hs.docString
    rw [hm] at hv
    simpa [view] using hv

/-- Outside of doc strings blank lines and comments leave the mode as it is; so do language lines
before the feature. -/
theorem push_trivia (h : Follows d m) (hm : inDoc m = false) (hk : isTrivia t.kind = true)
    (hl : t.kind = .language → m = .start) : Leads (d.push t) (some m) := by
  have hd := h.docString hm
  by_cases hc : t.kind = .comment
  · exact ⟨_, push_comment hc hd, h.of_stage rfl⟩
  · cases m with
    | start =>
      have hs : d.stage = .start none := h
      refine ⟨d, ?_, hs⟩
      rw [push_start hs hc]
      cases ht : t.kind <;> simp_all [isTrivia, Draft.pushStart]
    | tagged =>
      obtain ⟨tags, hs⟩ := h
      refine ⟨d, ?_, tags, hs⟩
      rw [push_start hs hc]
      cases ht : t.kind <;> simp_all [isTrivia, Draft.pushStart]
    | within seen p =>
      obtain ⟨f, hf, hs⟩ := h
      have ht : t.kind = .empty := by
        cases ht : t.kind <;> simp_all [isTrivia]
      rw [push_outside hf (hd f hf) hc]
      refine leads_of_agree (fun _ => rfl) ?_
      rw [view_push, ht]
      exact hs

theorem finish_iff (h : Follows d m) (language uri : String) (eof : Token) :
    (∃ doc, d.finish language uri eof = .ok doc) ↔ m.mayEnd = true := by
  cases m with
  | start =>
    have hs : d.stage = .start none := h
    simp [Draft.finish, hs, Mode.mayEnd]
  | tagged =>
    obtain ⟨tags, hs⟩ := h
    simp [Draft.finish, hs, Mode.mayEnd]
  | within seen p =>
    obtain ⟨f, hf, hs⟩ := h
    have hw : (f.docString.isSome || f.waiting.isSome) = !(Mode.within seen p).mayEnd := by
      rw [← hs.mayEnd]
      simp [view]
    simp only [Draft.finish, hf, hw]
    cases (Mode.within seen p).mayEnd <;> simp

end Drafts

end Brine.Proofs.DraftModes
