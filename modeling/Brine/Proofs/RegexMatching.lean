import Brine.Proofs.RegexThreads
import Mathlib.Data.List.Nodup
import Mathlib.Logic.Relation

namespace Brine.Proofs.RegexMatching
open Regex RegexMeaning RegexThreads

variable {b m a rest : List Char} {ms : List Mark} {r : Regex} {ts : List Task} {t t' : Thread}

def works : Regex → List Task → List (List Task)
  | .empty, k => [.run .empty :: k]
  | .set s, k => [.run (.set s) :: k]
  | .look l, k => [.run (.look l) :: k]
  | .group i r, k => (.run (.group i r) :: k) :: (.close i :: k) :: works r (.close i :: k)
  | .cat x y, k => (.run (.cat x y) :: k) :: (works x (.run y :: k) ++ works y k)
  | .alt x y, k => (.run (.alt x y) :: k) :: (works x k ++ works y k)
  | .opt g r, k => (.run (.opt g r) :: k) :: works r k
  | .star g r, k => (.run (.star g r) :: k) :: (.again g r :: k) :: works r (.again g r :: k)
  | .plus g r, k => (.run (.plus g r) :: k) :: (.again g r :: k) :: works r (.again g r :: k)

theorem length_works (r : Regex) (k : List Task) : (works r k).length ≤ 2 * r.size := by
  induction r generalizing k with
  | empty | set _ | look _ => simp [works, size]
  | group _ _ ih | opt _ _ ih | star _ _ ih | plus _ _ ih =>
    have := ih k
    have := ih
    grind [works, size]
  | cat _ _ ihx ihy | alt _ _ ihx ihy => grind [works, size]

theorem run_mem_works (r : Regex) (k : List Task) : .run r :: k ∈ works r k := by
  cases r <;> simp [works]

def nexts (before after : Option Char) (ts : List Task) : List (List Task) :=
  (Thread.unfold 0 before after ⟨ts, []⟩).map (·.tasks)

theorem unfold_tasks {place : Nat} {before after : Option Char} :
    (t.unfold place before after).map (·.tasks) = nexts before after t.tasks := by
  match t with
  | ⟨[], _⟩ => rfl
  | ⟨.close _ :: _, _⟩ => rfl
  | ⟨.again g _ :: _, _⟩ => cases g <;> rfl
  | ⟨.run r :: _, _⟩ =>
    cases r with
    | look l => cases hl : l.holds before after <;> simp [nexts, Thread.unfold, hl]
    | opt g _ => cases g <;> rfl
    | star g r => cases g <;> cases hr : r.nullable <;> simp [nexts, Thread.unfold, hr]
    | _ => rfl

section
variable {before after : Option Char} {k us : List Task} {x y : Regex} {g : Bool}

@[simp] theorem nexts_empty : nexts before after (.run .empty :: k) = [k] := rfl

@[simp] theorem nexts_set {s : CharSet} : nexts before after (.run (.set s) :: k) = [] := rfl

@[simp] theorem nexts_look {l : Look} :
    nexts before after (.run (.look l) :: k) = if l.holds before after then [k] else [] := by
  cases h : l.holds before after <;> simp [nexts, Thread.unfold, h]

@[simp] theorem nexts_group {i : Nat} :
    nexts before after (.run (.group i r) :: k) = [.run r :: .close i :: k] := rfl

@[simp] theorem nexts_close {i : Nat} : nexts before after (.close i :: k) = [k] := rfl

@[simp] theorem nexts_cat : nexts before after (.run (.cat x y) :: k) = [.run x :: .run y :: k] :=
  rfl

@[simp] theorem nexts_alt :
    nexts before after (.run (.alt x y) :: k) = [.run x :: k, .run y :: k] := rfl

@[simp] theorem mem_nexts_opt :
    us ∈ nexts before after (.run (.opt g r) :: k) ↔ us = .run r :: k ∨ us = k := by
  cases g <;> simp [nexts, Thread.unfold, or_comm]

@[simp] theorem mem_nexts_again :
    us ∈ nexts before after (.again g r :: k) ↔ us = .run r :: .again g r :: k ∨ us = k := by
  cases g <;> simp [nexts, Thread.unfold, or_comm]

/-- A repetition of what may be empty begins at once, any other where it would go on. -/
@[simp] theorem mem_nexts_star : us ∈ nexts before after (.run (.star g r) :: k) ↔
    if r.nullable then us = .run r :: .again g r :: k ∨ us = k else us = .again g r :: k := by
  cases g <;> cases hr : r.nullable <;> simp [nexts, Thread.unfold, hr, or_comm]

@[simp] theorem nexts_plus :
    nexts before after (.run (.plus g r) :: k) = [.run r :: .again g r :: k] := rfl

/-- A step of the work of an expression, reading a character or not, leads to work of that
expression or to what comes after it. -/
theorem nexts_works (h : ts ∈ works r k)
    (hu : us ∈ nexts before after ts ∨ ∃ s, ts = .run (.set s) :: us) :
    us ∈ works r k ∨ us = k := by
  induction r generalizing k with
  | empty | set _ =>
    obtain rfl := List.mem_singleton.mp h
    exact .inr (by simpa [eq_comm] using hu)
  | look l =>
    obtain rfl := List.mem_singleton.mp h
    exact .inr (by grind [nexts_look])
  | group i r ih =>
    simp only [works, List.mem_cons] at h ⊢
    rcases h with rfl | rfl | h
    · obtain rfl : us = .run r :: .close i :: k := by simpa using hu
      exact .inl (.inr (.inr (run_mem_works r _)))
    · exact .inr (by simpa using hu)
    · rcases ih h with h | h
      · exact .inl (.inr (.inr h))
      · exact .inl (.inr (.inl h))
  | cat x y ihx ihy =>
    simp only [works, List.mem_cons, List.mem_append] at h ⊢
    rcases h with rfl | h | h
    · obtain rfl : us = .run x :: .run y :: k := by simpa using hu
      exact .inl (.inr (.inl (run_mem_works x _)))
    · rcases ihx h with h | rfl
      · exact .inl (.inr (.inl h))
      · exact .inl (.inr (.inr (run_mem_works y _)))
    · rcases ihy h with h | h
      · exact .inl (.inr (.inr h))
      · exact .inr h
  | alt x y ihx ihy =>
    simp only [works, List.mem_cons, List.mem_append] at h ⊢
    rcases h with rfl | h | h
    · obtain rfl | rfl : us = .run x :: k ∨ us = .run y :: k := by simpa using hu
      · exact .inl (.inr (.inl (run_mem_works x _)))
      · exact .inl (.inr (.inr (run_mem_works y _)))
    · rcases ihx h with h | h
      · exact .inl (.inr (.inl h))
      · exact .inr h
    · rcases ihy h with h | h
      · exact .inl (.inr (.inr h))
      · exact .inr h
  | opt g r ih =>
    simp only [works, List.mem_cons] at h ⊢
    rcases h with rfl | h
    · obtain rfl | h : us = .run r :: k ∨ us = k := by simpa using hu
      · exact .inl (.inr (run_mem_works r _))
      · exact .inr h
    · rcases ih h with h | h
      · exact .inl (.inr h)
      · exact .inr h
  | star g r ih | plus g r ih =>
    simp only [works, List.mem_cons] at h ⊢
    have hrun := run_mem_works r (.again g r :: k)
    rcases h with rfl | rfl | h
    · simp at hu
      grind
    · obtain rfl | h : us = .run r :: .again g r :: k ∨ us = k := by simpa using hu
      · exact .inl (.inr (.inr hrun))
      · exact .inr h
    · rcases ih h with h | h
      · exact .inl (.inr (.inr h))
      · exact .inl (.inr (.inl h))

end

def allWorks (r : Regex) : List (List Task) :=
  [] :: works r []

theorem step_allWorks {before after : Option Char} {us : List Task} (h : ts ∈ allWorks r)
    (hu : us ∈ nexts before after ts ∨ ∃ s, ts = .run (.set s) :: us) : us ∈ allWorks r := by
  rcases List.mem_cons.mp h with rfl | h
  · simp [nexts, Thread.unfold] at hu
  · rcases nexts_works h hu with h | rfl
    · exact List.mem_cons_of_mem _ h
    · exact List.mem_cons_self

theorem length_allWorks : 3 * (allWorks r).length ≤ r.effort := by
  have := length_works r []
  simp only [allWorks, List.length_cons, effort]
  omega

section
variable {W seen : List (List Task)} {threads : List Thread} {n place : Nat}
  {before after : Option Char}

theorem length_lt_of_not_mem (hd : seen.Nodup) (hs : seen ⊆ W) (ht : ts ∈ W) (hn : ts ∉ seen) :
    seen.length < W.length := by
  have hd' : (ts :: seen).Nodup := List.nodup_cons.mpr ⟨hn, hd⟩
  exact hd'.length_le_of_subset (List.cons_subset.mpr ⟨ht, hs⟩)

theorem nexts_waiting (h : t.isWaiting = true) : nexts before after t.tasks = [] := by
  match t with
  | ⟨[], _⟩ => rfl
  | ⟨.run (.set _) :: _, _⟩ => rfl

theorem length_unfold : (t.unfold place before after).length ≤ 2 := by
  match t with
  | ⟨[], _⟩ | ⟨.close _ :: _, _⟩ => simp [Thread.unfold]
  | ⟨.again g _ :: _, _⟩ => cases g <;> simp [Thread.unfold]
  | ⟨.run r :: _, _⟩ => cases r <;> simp only [Thread.unfold] <;> grind

/-- What the rounds of `settle` leave: threads with different work, none of which has been met
before. -/
theorem settle_tasks (hW : ∀ ts ∈ W, ∀ us ∈ nexts before after ts, us ∈ W)
    (ht : ∀ t ∈ threads, t.tasks ∈ W) :
    ((settle place before after n seen threads).map (·.tasks)).Nodup ∧
      ∀ t ∈ settle place before after n seen threads, t.tasks ∈ W ∧ t.tasks ∉ seen := by
  induction n generalizing seen threads with
  | zero => simp [settle]
  | succ n ih =>
    cases threads with
    | nil => simp [settle]
    | cons t threads =>
      obtain ⟨ht, hts⟩ := List.forall_mem_cons.mp ht
      rw [settle]
      split
      · exact ih hts
      · rename_i hseen
        split
        · simpa [hseen] using ht
        · split
          · obtain ⟨hd, hm⟩ := @ih (t.tasks :: seen) threads hts
            constructor
            · rw [List.map_cons, List.nodup_cons]
              refine ⟨?_, hd⟩
              intro hmem
              obtain ⟨t', ht', he⟩ := List.mem_map.mp hmem
              exact (hm t' ht').2 (by simp [he])
            · intro t' ht'
              rcases List.mem_cons.mp ht' with rfl | ht'
              · exact ⟨ht, hseen⟩
              · exact ⟨(hm t' ht').1, fun hs => (hm t' ht').2 (List.mem_cons_of_mem _ hs)⟩
          · have hu : ∀ t' ∈ t.unfold place before after ++ threads, t'.tasks ∈ W := by
              intro t' ht'
              rcases List.mem_append.mp ht' with ht' | ht'
              · exact hW _ ht _ (unfold_tasks ▸ List.mem_map_of_mem ht')
              · exact hts t' ht'
            obtain ⟨hd, hm⟩ := @ih (t.tasks :: seen) _ hu
            exact ⟨hd, fun t' ht' =>
              ⟨(hm t' ht').1, fun hs => (hm t' ht').2 (List.mem_cons_of_mem _ hs)⟩⟩

/-- A set of work that `settle` has gone through: what waits in it is left, all other is followed
further. -/
def Explored (before after : Option Char) (settled : List Thread) (seen V : List (List Task)) :
    Prop :=
  ∀ ts ∈ V, ts ∉ seen →
    (Thread.isWaiting ⟨ts, []⟩ = true → ts ∈ settled.map (·.tasks)) ∧
      ∀ us ∈ nexts before after ts, us ∈ V

/-- Unless a thread has finished, `settle` goes through all the work that it is given. -/
theorem settle_explores (hW : ∀ ts ∈ W, ∀ us ∈ nexts before after ts, us ∈ W)
    (hd : seen.Nodup) (hs : seen ⊆ W) (ht : ∀ t ∈ threads, t.tasks ∈ W)
    (hn : 2 * (W.length - seen.length) + threads.length ≤ n)
    (hf : ∀ t ∈ settle place before after n seen threads, t.tasks ≠ []) :
    ∃ V, seen ⊆ V ∧ (∀ t ∈ threads, t.tasks ∈ V) ∧
      Explored before after (settle place before after n seen threads) seen V := by
  induction n generalizing seen threads with
  | zero =>
    obtain rfl : threads = [] := by
      apply List.eq_nil_of_length_eq_zero
      omega
    exact ⟨seen, List.Subset.refl _, by simp, fun ts h hn => absurd h hn⟩
  | succ n ih =>
    cases threads with
    | nil => exact ⟨seen, List.Subset.refl _, by simp, fun ts h hn => absurd h hn⟩
    | cons t threads =>
      obtain ⟨ht, hts⟩ := List.forall_mem_cons.mp ht
      rw [List.length_cons] at hn
      rw [settle] at hf ⊢
      split
      · rename_i hseen
        rw [if_pos hseen] at hf
        obtain ⟨V, hV, htV, he⟩ := ih hd hs hts (by omega) hf
        exact ⟨V, hV, List.forall_mem_cons.mpr ⟨hV hseen, htV⟩, he⟩
      · rename_i hseen
        rw [if_neg hseen] at hf
        have hlt := length_lt_of_not_mem hd hs ht hseen
        have hd' : (t.tasks :: seen).Nodup := List.nodup_cons.mpr ⟨hseen, hd⟩
        have hs' : t.tasks :: seen ⊆ W := List.cons_subset.mpr ⟨ht, hs⟩
        have hlen : (t.tasks :: seen).length = seen.length + 1 := rfl
        split
        · rename_i hempty
          rw [if_pos hempty] at hf
          simp_all
        · rename_i hempty
          rw [if_neg hempty] at hf
          split
          · rename_i hwait
            rw [if_pos hwait] at hf
            obtain ⟨V, hV, htV, he⟩ := ih hd' hs' hts (by omega)
              fun t' ht' => hf t' (List.mem_cons_of_mem _ ht')
            obtain ⟨htV', hV⟩ := List.cons_subset.mp hV
            refine ⟨V, hV, List.forall_mem_cons.mpr ⟨htV', htV⟩, ?_⟩
            intro ts hts hnot
            by_cases heq : ts = t.tasks
            · subst heq
              exact ⟨fun _ => by simp, by simp [nexts_waiting hwait]⟩
            · obtain ⟨h, h'⟩ := he ts hts (by simp [heq, hnot])
              exact ⟨fun hw => List.mem_cons_of_mem _ (h hw), h'⟩
          · rename_i hwait
            rw [if_neg hwait] at hf
            have hu : ∀ t' ∈ t.unfold place before after ++ threads, t'.tasks ∈ W := by
              intro t' ht'
              rcases List.mem_append.mp ht' with ht' | ht'
              · exact hW _ ht _ (unfold_tasks ▸ List.mem_map_of_mem ht')
              · exact hts t' ht'
            have h2 : (t.unfold place before after).length ≤ 2 := length_unfold
            obtain ⟨V, hV, htV, he⟩ := ih hd' hs' hu (by rw [List.length_append]; omega) hf
            obtain ⟨htV', hV⟩ := List.cons_subset.mp hV
            refine ⟨V, hV, List.forall_mem_cons.mpr ⟨htV', ?_⟩, ?_⟩
            · exact fun t' ht' => htV t' (List.mem_append_right _ ht')
            · intro ts hts hnot
              by_cases heq : ts = t.tasks
              · subst heq
                refine ⟨fun hw => absurd hw hwait, fun us hus => ?_⟩
                have hmap : us ∈ (t.unfold place before after).map (·.tasks) := unfold_tasks ▸ hus
                obtain ⟨t', ht', rfl⟩ := List.mem_map.mp hmap
                exact htV t' (List.mem_append_left _ ht')
              · exact he ts hts (by simp [heq, hnot])

abbrev Reaches (before after : Option Char) : List Task → List Task → Prop :=
  Relation.ReflTransGen fun ts us => us ∈ nexts before after ts

/-- Unless a thread has finished, whatever waits on the way of a thread is left by `settle`. -/
theorem settle_reaches (hW : ∀ ts ∈ W, ∀ us ∈ nexts before after ts, us ∈ W)
    (ht : ∀ t ∈ threads, t.tasks ∈ W) (hn : 2 * W.length + threads.length ≤ n)
    (hf : ∀ t ∈ settle place before after n [] threads, t.tasks ≠ []) (hm : t ∈ threads)
    (hr : Reaches before after t.tasks ts) (hw : Thread.isWaiting ⟨ts, []⟩ = true) :
    ∃ t' ∈ settle place before after n [] threads, t'.tasks = ts := by
  obtain ⟨V, _, htV, he⟩ := settle_explores hW List.nodup_nil (List.nil_subset _) ht
    (by simpa using hn) hf
  have hV : ∀ us, Reaches before after t.tasks us → us ∈ V := by
    intro us hus
    induction hus with
    | refl => exact htV t hm
    | tail _ hstep ih => exact (he _ ih (by simp)).2 _ hstep
  exact List.mem_map.mp ((he ts (hV ts hr) (by simp)).1 hw)

end

theorem does_append {us : List Task} {m' : List Char} {ms' : List Mark}
    (h : Does ts b m (m' ++ a) ms) (h' : Does us (b ++ m) m' a ms') :
    Does (ts ++ us) b (m ++ m') a (ms' ++ ms) := by
  generalize ha : m' ++ a = a' at h
  induction h with
  | nil => simpa using h'
  | run hs _ ih =>
    subst ha
    simpa using Does.run (by simpa using hs) (ih (by simpa using h') rfl)
  | again hs _ ih =>
    subst ha
    simpa using Does.again (by simpa using hs) (ih (by simpa using h') rfl)
  | close _ ih =>
    subst ha
    simpa using Does.close (ih h' rfl)

/-- A task for an expression: to run it or, for a repetition, to go on with it. -/
inductive For : Task → Regex → Prop
  | run {r : Regex} : For (.run r) r
  | again {g : Bool} {r : Regex} : For (.again g r) (.star g r)

theorem For.star {before after : Option Char} {g : Bool} {τ : Task} {k : List Task}
    (h : For τ (.star g r)) :
    Reaches before after (τ :: k) (.run r :: .again g r :: k) ∧
      Reaches before after (τ :: k) k := by
  have hmore : Reaches before after (.again g r :: k) (.run r :: .again g r :: k) :=
    .single (by simp)
  have hless : Reaches before after (.again g r :: k) k := .single (by simp)
  cases h with
  | again => exact ⟨hmore, hless⟩
  | run =>
    cases hr : r.nullable with
    | true => exact ⟨.single (by simp [hr]), .single (by simp [hr])⟩
    | false => exact ⟨.head (by simp [hr]) hmore, .head (by simp [hr]) hless⟩

/-- Tasks that a match begins with: steps lead to the end of them, or to the first character of the
match. -/
def Begins (b m a : List Char) (us k : List Task) : Prop :=
  match m with
  | [] => Reaches b.getLast? a.head? us k
  | c :: m => ∃ s ts ms, Reaches b.getLast? (some c) us (.run (.set s) :: (ts ++ k)) ∧
      s.contains c = true ∧ Does ts (b ++ [c]) m a ms

theorem Begins.trans {us vs k : List Task} (h : Reaches b.getLast? (m ++ a).head? us vs)
    (h' : Begins b m a vs k) : Begins b m a us k := by
  cases m with
  | nil => exact .trans h h'
  | cons c m =>
    obtain ⟨s, ts, ms, hr, hc, hd⟩ := h'
    exact ⟨s, ts, ms, .trans h hr, hc, hd⟩

/-- A match that is followed by one of further tasks. -/
theorem Begins.append {m' : List Char} {us k : List Task} (ts : List Task)
    (h : Begins b m (m' ++ a) us (ts ++ k)) (h' : Begins (b ++ m) m' a (ts ++ k) k)
    (hd : Does ts (b ++ m) m' a ms) : Begins b (m ++ m') a us k := by
  cases m with
  | nil => exact .trans h (by simpa using h')
  | cons c m =>
    obtain ⟨s, us', ms', hr, hc, hd'⟩ := h
    exact ⟨s, us' ++ ts, ms ++ ms', by simpa using hr, hc, does_append hd' (by simpa using hd)⟩

theorem does_single {τ : Task} (h : Spans r b m a ms) (hτ : For τ r) :
    Does [τ] b m a ms := by
  cases hτ with
  | run =>
    have hd : Does [.run r] b (m ++ []) a ([] ++ ms) := .run (by simpa using h) .nil
    simpa using hd
  | @again g r =>
    have hd : Does [.again g r] b (m ++ []) a ([] ++ ms) := .again (by simpa using h) .nil
    simpa using hd

theorem spans_begins (h : Spans r b m a ms) {τ : Task} (hτ : For τ r) (k : List Task) :
    Begins b m a (τ :: k) k := by
  induction h generalizing τ k with
  | empty =>
    cases hτ
    exact .single (by simp)
  | set hc =>
    cases hτ
    exact ⟨_, [], _, .refl, hc, .nil⟩
  | look hl =>
    cases hτ
    exact .single (by simp [hl])
  | @group i r b m a ms _ ih =>
    cases hτ
    have hc : Begins (b ++ m) [] a (.close i :: k) k := .single (by simp)
    have hb : Begins b (m ++ []) a (.run r :: .close i :: k) k :=
      .append [.close i] (ih .run _) hc (.close .nil)
    rw [List.append_nil] at hb
    exact .trans (.single (by simp)) hb
  | cat _ h₂ ih₁ ih₂ =>
    cases hτ
    have hb := Begins.append [_] (ih₁ .run _) (ih₂ .run k) (does_single h₂ .run)
    exact .trans (.single (by simp)) hb
  | left _ ih =>
    cases hτ
    exact .trans (.single (by simp)) (ih .run k)
  | right _ ih =>
    cases hτ
    exact .trans (.single (by simp)) (ih .run k)
  | skip =>
    cases hτ
    exact .single (by simp)
  | take _ ih =>
    cases hτ
    exact .trans (.single (by simp)) (ih .run k)
  | stop => exact hτ.star.2
  | more _ h₂ ih₁ ih₂ =>
    have hb := Begins.append [_] (ih₁ .run _) (ih₂ .again k) (does_single h₂ .again)
    exact .trans hτ.star.1 hb
  | plus _ h₂ ih₁ ih₂ =>
    cases hτ
    have hb := Begins.append [_] (ih₁ .run _) (ih₂ .again k) (does_single h₂ .again)
    exact .trans (.single (by simp)) hb

theorem does_begins (h : Does ts b m a ms) : Begins b m a ts [] := by
  induction h with
  | nil => exact .refl
  | run hs h ih => exact .append _ (by simpa using spans_begins hs .run _) (by simpa using ih) h
  | again hs h ih => exact .append _ (by simpa using spans_begins hs .again _) (by simpa using ih) h
  | close _ ih => exact .trans (.single (by simp)) ih

theorem finished_isSome {start place : Nat} {settled : List Thread} {best : Option Match}
    (h : best.isSome = true ∨ ∃ t ∈ settled, t.tasks = []) :
    (finished start place settled best).isSome = true := by
  unfold finished
  cases hf : settled.find? (·.tasks.isEmpty) with
  | some t => simp
  | none =>
    rcases h with h | ⟨t, ht, he⟩
    · simpa using h
    · exact absurd (List.find?_eq_none.mp hf t ht) (by simp [he])

theorem advance_isSome {effort start place : Nat} {before : Option Char} {threads : List Thread}
    {best : Option Match} (h : best.isSome = true ∨
      ∃ t ∈ settle place before rest.head? effort [] threads, t.tasks = []) :
    (advance effort start rest place before threads best).isSome = true := by
  induction rest generalizing place before threads best with
  | nil => exact finished_isSome h
  | cons c rest ih =>
    have hf : (finished start place (settle place before (some c) effort [] threads) best).isSome =
        true := finished_isSome h
    rw [advance_cons]
    dsimp only
    split
    · exact hf
    · exact ih (.inl hf)

theorem read_tasks {c : Char} (h : t.read c = some t') :
    ∃ s, t.tasks = .run (.set s) :: t'.tasks := by
  match t with
  | ⟨.run (.set s) :: ts, marks⟩ =>
    simp only [Thread.read, Option.ite_none_right_eq_some, Option.some.injEq] at h
    obtain ⟨_, rfl⟩ := h
    exact ⟨s, rfl⟩

/-- If a thread can do its tasks then a match is found, of this thread or of another. -/
theorem advance_complete {start : Nat} {threads : List Thread} {best : Option Match}
    (ht : ∀ t ∈ threads, t.tasks ∈ allWorks r) (hl : threads.length ≤ (allWorks r).length)
    (hm : t ∈ threads) (h : Does t.tasks b m a ms) :
    (advance r.effort start (m ++ a) b.length b.getLast? threads best).isSome = true := by
  induction m generalizing b threads t best ms with
  | nil =>
    by_cases hf : ∃ t ∈ settle b.length b.getLast? a.head? r.effort [] threads, t.tasks = []
    · exact advance_isSome (.inr hf)
    · have hn := length_allWorks (r := r)
      have hW {ts} (h : ts ∈ allWorks r) : ∀ us ∈ nexts b.getLast? a.head? ts, us ∈ allWorks r :=
        fun us hu => step_allWorks h (.inl hu)
      exact absurd (settle_reaches (fun ts => hW) ht (by omega)
        (fun t ht he => hf ⟨t, ht, he⟩) hm (does_begins h) rfl) hf
  | cons c m ih =>
    by_cases hf : ∃ t ∈ settle b.length b.getLast? (some c) r.effort [] threads, t.tasks = []
    · exact advance_isSome (.inr hf)
    · have hn := length_allWorks (r := r)
      have hW : ∀ ts ∈ allWorks r, ∀ us ∈ nexts b.getLast? (some c) ts, us ∈ allWorks r :=
        fun ts h us hu => step_allWorks h (.inl hu)
      obtain ⟨s, ts, ms', hr, hc, hd⟩ := does_begins h
      rw [List.append_nil] at hr
      obtain ⟨t', ht', he⟩ := settle_reaches hW ht (by omega)
        (fun t ht he => hf ⟨t, ht, he⟩) hm hr rfl
      obtain ⟨hnodup, hmem⟩ :
          ((settle b.length b.getLast? (some c) r.effort [] threads).map (·.tasks)).Nodup ∧
            ∀ t ∈ settle b.length b.getLast? (some c) r.effort [] threads,
              t.tasks ∈ allWorks r ∧ t.tasks ∉ [] := settle_tasks hW ht
      have hread : t'.read c = some ⟨ts, t'.marks⟩ := by
        obtain ⟨tasks, marks⟩ := t'
        simp only at he
        subst he
        simp [Thread.read, hc]
      have hnext := List.mem_filterMap.mpr ⟨t', ht', hread⟩
      rw [List.cons_append, advance_cons]
      dsimp only
      split
      · rename_i hnil
        rw [hnil] at hnext
        contradiction
      · suffices hs : (advance r.effort start (m ++ a) (b ++ [c]).length (b ++ [c]).getLast?
            ((settle b.length b.getLast? (some c) r.effort [] threads).filterMap (·.read c))
            (finished start b.length
              (settle b.length b.getLast? (some c) r.effort [] threads) best)).isSome = true by
          simpa using hs
        refine ih ?_ ?_ hnext hd
        · intro t'' ht''
          obtain ⟨u, hu, hru⟩ := List.mem_filterMap.mp ht''
          exact @step_allWorks r _ none none _ (hmem u hu).1 (.inr (read_tasks hru))
        · calc _ ≤ _ := List.length_filterMap_le _ _
            _ = _ := (List.length_map (·.tasks)).symm
            _ ≤ _ := hnodup.length_le_of_subset fun ts h => by
              obtain ⟨u, hu, rfl⟩ := List.mem_map.mp h
              exact (hmem u hu).1

theorem matchHere_complete (h : Matches r b m a) :
    (r.matchHere b.length b.getLast? (m ++ a)).isSome = true := by
  obtain ⟨ms, h⟩ := h
  have ht : ∀ t ∈ [(⟨[.run r], []⟩ : Thread)], t.tasks ∈ allWorks r := by
    simp [allWorks, run_mem_works]
  have hl : [(⟨[.run r], []⟩ : Thread)].length ≤ (allWorks r).length := by simp [allWorks]
  exact advance_complete ht hl List.mem_cons_self (does_single h .run)

theorem search_complete {b' : List Char} (h : Matches r (b' ++ b) m a) :
    (r.search b'.length b'.getLast? (b ++ (m ++ a))).isSome = true := by
  induction b generalizing b' with
  | nil =>
    have hk := matchHere_complete (b := b') (by simpa using h)
    rw [List.nil_append]
    cases hma : m ++ a with
    | nil => simpa [search, hma] using hk
    | cons c rest =>
      rw [hma] at hk
      rw [search]
      split
      · rfl
      · simp_all
  | cons c b ih =>
    rw [List.cons_append, search]
    split
    · rfl
    · have hs : (r.search (b' ++ [c]).length (b' ++ [c]).getLast? (b ++ (m ++ a))).isSome = true :=
        ih (by simpa using h)
      simpa using hs

/-- A match is found exactly if there is one. -/
theorem find_isSome {text : List Char} :
    (r.find text).isSome = true ↔ ∃ b m a, b ++ (m ++ a) = text ∧ Matches r b m a := by
  constructor
  · intro h
    obtain ⟨k, hk⟩ := Option.isSome_iff_exists.mp h
    obtain ⟨b, m, a, ht, _, _, hs⟩ := find_sound hk
    exact ⟨b, m, a, ht, ⟨_, hs⟩⟩
  · rintro ⟨b, m, a, rfl, h⟩
    have hs : (r.search ([] : List Char).length ([] : List Char).getLast? (b ++ (m ++ a))).isSome =
        true := search_complete (by simpa using h)
    simpa [find, findFrom] using hs

end Brine.Proofs.RegexMatching
