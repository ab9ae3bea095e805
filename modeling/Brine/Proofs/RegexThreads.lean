import Brine.Proofs.RegexMeaning

namespace Brine.Proofs.RegexThreads
open Regex RegexMeaning

inductive Does : List Task → (before mid after : List Char) → List Mark → Prop
  | nil {b a : List Char} : Does [] b [] a []
  | run {r : Regex} {ts : List Task} {b m m' a : List Char} {ms ms' : List Mark} :
      Spans r b m (m' ++ a) ms → Does ts (b ++ m) m' a ms' →
      Does (.run r :: ts) b (m ++ m') a (ms' ++ ms)
  | again {g : Bool} {r : Regex} {ts : List Task} {b m m' a : List Char} {ms ms' : List Mark} :
      Spans (.star g r) b m (m' ++ a) ms → Does ts (b ++ m) m' a ms' →
      Does (.again g r :: ts) b (m ++ m') a (ms' ++ ms)
  | close {i : Nat} {ts : List Task} {b m a : List Char} {ms : List Mark} : Does ts b m a ms →
      Does (.close i :: ts) b m a (ms ++ [⟨i, true, b.length⟩])

variable {b m a rest : List Char} {ms : List Mark} {r : Regex} {ts : List Task} {t t' : Thread}

/-- Whatever the thread `t'` still does, `t` does with the marks in between. -/
def Leads (b rest : List Char) (t t' : Thread) : Prop :=
  ∃ ms₀, t'.marks = ms₀ ++ t.marks ∧
    ∀ m a ms, m ++ a = rest → Does t'.tasks b m a ms → Does t.tasks b m a (ms ++ ms₀)

theorem Leads.refl : Leads b rest t t :=
  ⟨[], rfl, fun m a ms _ h => by simpa using h⟩

theorem Leads.trans {t'' : Thread} (h : Leads b rest t t') (h' : Leads b rest t' t'') :
    Leads b rest t t'' := by
  obtain ⟨ms₁, e₁, d₁⟩ := h
  obtain ⟨ms₂, e₂, d₂⟩ := h'
  refine ⟨ms₂ ++ ms₁, by rw [e₂, e₁, List.append_assoc], ?_⟩
  intro m a ms hm hd
  have := d₁ m a _ hm (d₂ m a ms hm hd)
  rwa [List.append_assoc] at this

/-- A thread with the same marks leads to another if its tasks can be done whenever the other's
can. -/
theorem Leads.of_tasks {us : List Task} {marks : List Mark}
    (h : ∀ m a ms, m ++ a = rest → Does us b m a ms → Does ts b m a ms) :
    Leads b rest ⟨ts, marks⟩ ⟨us, marks⟩ :=
  ⟨[], rfl, fun m a ms hm hd => by simpa using h m a ms hm hd⟩

theorem does_run : Does (.run r :: ts) b m a ms ↔
    ∃ m₁ m₂ ms₁ ms₂, m = m₁ ++ m₂ ∧ ms = ms₂ ++ ms₁ ∧
      Spans r b m₁ (m₂ ++ a) ms₁ ∧ Does ts (b ++ m₁) m₂ a ms₂ := by
  constructor
  · rintro (_ | _)
    exact ⟨_, _, _, _, rfl, rfl, ‹_›, ‹_›⟩
  · rintro ⟨m₁, m₂, ms₁, ms₂, rfl, rfl, h₁, h₂⟩
    exact .run h₁ h₂

theorem does_again {g : Bool} :
    Does (.again g r :: ts) b m a ms ↔ Does (.run (.star g r) :: ts) b m a ms := by
  constructor
  · rintro (_ | _)
    exact .run ‹_› ‹_›
  · rintro (_ | _)
    exact .again ‹_› ‹_›

/-- A task that reads nothing may be passed over. -/
theorem does_run_nil (hs : Spans r b [] (m ++ a) []) (h : Does ts b m a ms) :
    Does (.run r :: ts) b m a ms := by
  have hd : Does (.run r :: ts) b ([] ++ m) a (ms ++ []) := .run hs (by simpa using h)
  simpa using hd

theorem does_cat {x y : Regex} (h : Does (.run x :: .run y :: ts) b m a ms) :
    Does (.run (.cat x y) :: ts) b m a ms := by
  obtain ⟨m₁, _, ms₁, _, rfl, rfl, h₁, h⟩ := does_run.mp h
  obtain ⟨m₂, m₃, ms₂, ms₃, rfl, rfl, h₂, h₃⟩ := does_run.mp h
  rw [← List.append_assoc, List.append_assoc ms₃]
  exact .run (.cat (by simpa using h₁) h₂) (by simpa using h₃)

theorem does_more {g : Bool} (h : Does (.run r :: .again g r :: ts) b m a ms) :
    Does (.run (.star g r) :: ts) b m a ms ∧ Does (.run (.plus g r) :: ts) b m a ms := by
  obtain ⟨m₁, _, ms₁, _, rfl, rfl, h₁, h⟩ := does_run.mp h
  obtain ⟨m₂, m₃, ms₂, ms₃, rfl, rfl, h₂, h₃⟩ := does_run.mp (does_again.mp h)
  have h₁ : Spans r b m₁ (m₂ ++ (m₃ ++ a)) ms₁ := by simpa using h₁
  have h₃ : Does ts (b ++ (m₁ ++ m₂)) m₃ a ms₃ := by simpa using h₃
  rw [← List.append_assoc, List.append_assoc ms₃]
  exact ⟨.run (.more h₁ h₂) h₃, .run (.plus h₁ h₂) h₃⟩

theorem leads_group {i : Nat} {marks : List Mark} :
    Leads b rest ⟨.run (.group i r) :: ts, marks⟩
      ⟨.run r :: .close i :: ts, ⟨i, false, b.length⟩ :: marks⟩ := by
  refine ⟨[⟨i, false, b.length⟩], rfl, ?_⟩
  intro m a ms _ h
  obtain ⟨m₁, _, ms₁, _, rfl, rfl, h₁, h⟩ := does_run.mp h
  cases h with
  | close h₂ => simpa using Does.run (.group h₁) h₂

/-- Both ways to go on from a choice, in either order. -/
theorem leads_prefer {more less us : List Task} {marks : List Mark} {g : Bool}
    (hm : ∀ m a ms, m ++ a = rest → Does more b m a ms → Does us b m a ms)
    (hl : ∀ m a ms, m ++ a = rest → Does less b m a ms → Does us b m a ms)
    (h : t' ∈ if g = true then [(⟨more, marks⟩ : Thread), ⟨less, marks⟩]
      else [⟨less, marks⟩, ⟨more, marks⟩]) : Leads b rest ⟨us, marks⟩ t' := by
  have h : t' = ⟨more, marks⟩ ∨ t' = ⟨less, marks⟩ := by cases g <;> simp_all [or_comm]
  rcases h with rfl | rfl
  · exact .of_tasks hm
  · exact .of_tasks hl

/-- One step of a thread. -/
theorem unfold_leads (h : t' ∈ t.unfold b.length b.getLast? rest.head?) : Leads b rest t t' := by
  obtain ⟨tasks, marks⟩ := t
  match tasks with
  | [] => simp [Thread.unfold] at h
  | .close i :: ts =>
    simp only [Thread.unfold, List.mem_singleton] at h
    subst h
    exact ⟨[⟨i, true, b.length⟩], rfl, fun m a ms _ h => .close h⟩
  | .again g r :: ts =>
    exact leads_prefer (fun m a ms _ h => does_again.mpr (does_more h).1)
      (fun m a ms _ h => does_again.mpr (does_run_nil .stop h)) h
  | .run r :: ts =>
    cases r with
    | empty =>
      simp only [Thread.unfold, List.mem_singleton] at h
      subst h
      exact .of_tasks fun m a ms _ h => does_run_nil .empty h
    | set s => simp [Thread.unfold] at h
    | look l =>
      simp only [Thread.unfold] at h
      split at h
      · rename_i hl
        rw [List.mem_singleton] at h
        subst h
        exact .of_tasks fun m a ms hm h => does_run_nil (.look (hm ▸ hl)) h
      · simp at h
    | group i r =>
      simp only [Thread.unfold, List.mem_singleton] at h
      subst h
      exact leads_group
    | cat x y =>
      simp only [Thread.unfold, List.mem_singleton] at h
      subst h
      exact .of_tasks fun m a ms _ h => does_cat h
    | alt x y =>
      simp only [Thread.unfold, List.mem_cons, List.not_mem_nil, or_false] at h
      rcases h with rfl | rfl
      · refine .of_tasks fun m a ms _ h => ?_
        obtain ⟨m₁, m₂, ms₁, ms₂, rfl, rfl, h₁, h₂⟩ := does_run.mp h
        exact .run (.left h₁) h₂
      · refine .of_tasks fun m a ms _ h => ?_
        obtain ⟨m₁, m₂, ms₁, ms₂, rfl, rfl, h₁, h₂⟩ := does_run.mp h
        exact .run (.right h₁) h₂
    | opt g r =>
      refine leads_prefer (fun m a ms _ h => ?_) (fun m a ms _ h => does_run_nil .skip h) h
      obtain ⟨m₁, m₂, ms₁, ms₂, rfl, rfl, h₁, h₂⟩ := does_run.mp h
      exact .run (.take h₁) h₂
    | star g r =>
      simp only [Thread.unfold] at h
      split at h
      · exact leads_prefer (fun m a ms _ h => (does_more h).1)
          (fun m a ms _ h => does_run_nil .stop h) h
      · rw [List.mem_singleton] at h
        subst h
        exact .of_tasks fun m a ms _ h => does_again.mp h
    | plus g r =>
      simp only [Thread.unfold, List.mem_singleton] at h
      subst h
      exact .of_tasks fun m a ms _ h => (does_more h).2

/-- All steps until threads wait. -/
theorem settle_leads {n : Nat} {seen : List (List Task)} {threads : List Thread}
    (h : t' ∈ settle b.length b.getLast? rest.head? n seen threads) :
    ∃ t ∈ threads, Leads b rest t t' := by
  induction n generalizing seen threads with
  | zero => simp [settle] at h
  | succ n ih =>
    cases threads with
    | nil => simp [settle] at h
    | cons t threads =>
      rw [settle] at h
      split at h
      · obtain ⟨u, hu, hl⟩ := ih h
        exact ⟨u, List.mem_cons_of_mem _ hu, hl⟩
      · split at h
        · rw [List.mem_singleton.mp h]
          exact ⟨t, List.mem_cons_self, .refl⟩
        · split at h
          · rcases List.mem_cons.mp h with rfl | h
            · exact ⟨t', List.mem_cons_self, .refl⟩
            · obtain ⟨u, hu, hl⟩ := ih h
              exact ⟨u, List.mem_cons_of_mem _ hu, hl⟩
          · obtain ⟨u, hu, hl⟩ := ih h
            rcases List.mem_append.mp hu with hu | hu
            · exact ⟨t, List.mem_cons_self, (unfold_leads hu).trans hl⟩
            · exact ⟨u, List.mem_cons_of_mem _ hu, hl⟩

/-- The threads after a character, and what they have done so far. -/
theorem read_leads {c : Char} (h : t.read c = some t') (hd : Does t'.tasks (b ++ [c]) m a ms) :
    t'.marks = t.marks ∧ Does t.tasks b (c :: m) a ms := by
  obtain ⟨tasks, marks⟩ := t
  match tasks with
  | .run (.set s) :: ts =>
    simp only [Thread.read, Option.ite_none_right_eq_some, Option.some.injEq] at h
    obtain ⟨hc, rfl⟩ := h
    exact ⟨rfl, by simpa using Does.run (.set hc) hd⟩

def finished (start place : Nat) (settled : List Thread) (best : Option Match) : Option Match :=
  ((settled.find? (·.tasks.isEmpty)).map fun t => ⟨start, place, t.marks⟩) <|> best

theorem advance_nil {effort start place : Nat} {before : Option Char} {threads : List Thread}
    {best : Option Match} :
    advance effort start [] place before threads best =
      finished start place (settle place before none effort [] threads) best := rfl

theorem advance_cons {effort start place : Nat} {before : Option Char} {c : Char}
    {threads : List Thread} {best : Option Match} :
    advance effort start (c :: rest) place before threads best =
      let settled := settle place before (some c) effort [] threads
      match settled.filterMap (·.read c) with
      | [] => finished start place settled best
      | threads => advance effort start rest (place + 1) (some c) threads
          (finished start place settled best) := rfl

theorem finished_sound {n start : Nat} {threads : List Thread} {best : Option Match} {k : Match}
    (h : finished start b.length (settle b.length b.getLast? rest.head? n [] threads) best =
      some k) :
    best = some k ∨ ∃ t ∈ threads, ∃ m a ms, m ++ a = rest ∧
      k = ⟨start, (b ++ m).length, ms ++ t.marks⟩ ∧ Does t.tasks b m a ms := by
  unfold finished at h
  cases hf : (settle b.length b.getLast? rest.head? n [] threads).find? (·.tasks.isEmpty) with
  | none =>
    rw [hf] at h
    exact .inl h
  | some t' =>
    rw [hf] at h
    cases h
    have he : t'.tasks = [] := by simpa using List.find?_some hf
    obtain ⟨t, ht, ms₀, hm, hd⟩ := settle_leads (List.mem_of_find?_eq_some hf)
    refine .inr ⟨t, ht, [], rest, ms₀, rfl, by simp [hm], ?_⟩
    simpa using hd [] rest [] rfl (he ▸ .nil)

/-- A match that is reported is what one of the threads does. -/
theorem advance_sound {effort start : Nat} {threads : List Thread} {best : Option Match} {k : Match}
    (h : advance effort start rest b.length b.getLast? threads best = some k) :
    best = some k ∨ ∃ t ∈ threads, ∃ m a ms, m ++ a = rest ∧
      k = ⟨start, (b ++ m).length, ms ++ t.marks⟩ ∧ Does t.tasks b m a ms := by
  induction rest generalizing b threads best with
  | nil => exact finished_sound (advance_nil ▸ h)
  | cons c rest ih =>
    rw [advance_cons] at h
    dsimp only at h
    split at h
    · exact finished_sound h
    · rcases ih (b := b ++ [c]) (by simpa using h) with h | ⟨t'', ht'', m, a, ms, hm, rfl, hd⟩
      · exact finished_sound h
      · obtain ⟨t', ht', hr⟩ := List.mem_filterMap.mp ht''
        have ht' : t' ∈ settle b.length b.getLast? (c :: rest).head? effort [] threads := ht'
        obtain ⟨t, ht, ms₀, hms, hl⟩ := settle_leads ht'
        obtain ⟨hmarks, hd⟩ := read_leads hr hd
        refine .inr ⟨t, ht, c :: m, a, ms ++ ms₀, by simp [hm], ?_, hl _ _ _ (by simp [hm]) hd⟩
        simp [hmarks, hms]

theorem matchHere_sound {k : Match} (h : r.matchHere b.length b.getLast? rest = some k) :
    ∃ m a, m ++ a = rest ∧ k.start = b.length ∧ k.stop = (b ++ m).length ∧
      Spans r b m a k.marks := by
  rcases advance_sound h with h | ⟨t, ht, m, a, ms, hm, rfl, hd⟩
  · contradiction
  · rw [List.mem_singleton.mp ht] at hd
    obtain ⟨m₁, m₂, ms₁, ms₂, rfl, rfl, h₁, h₂⟩ := does_run.mp hd
    cases h₂ with
    | nil =>
      exact ⟨m₁, a, by simpa using hm, rfl, by simp, by simpa [List.mem_singleton.mp ht] using h₁⟩

theorem search_sound {k : Match} (h : r.search b.length b.getLast? rest = some k) :
    ∃ b' m a, b' ++ (m ++ a) = b ++ rest ∧ k.start = b'.length ∧ k.stop = (b' ++ m).length ∧
      Spans r b' m a k.marks := by
  induction rest generalizing b with
  | nil =>
    obtain ⟨m, a, hm, hs, he, hd⟩ := matchHere_sound h
    exact ⟨b, m, a, by rw [hm], hs, he, hd⟩
  | cons c rest ih =>
    rw [search] at h
    split at h
    · rename_i hk
      cases h
      obtain ⟨m, a, hm, hs, he, hd⟩ := matchHere_sound hk
      exact ⟨b, m, a, by rw [hm], hs, he, hd⟩
    · simpa using ih (b := b ++ [c]) (by simpa using h)

/-- What is found in a text is a match of the expression. -/
theorem find_sound {text : List Char} {k : Match} (h : r.find text = some k) :
    ∃ b m a, b ++ (m ++ a) = text ∧ k.start = b.length ∧ k.stop = (b ++ m).length ∧
      Spans r b m a k.marks :=
  search_sound (b := []) (by simpa [find, findFrom] using h)

end Brine.Proofs.RegexThreads
