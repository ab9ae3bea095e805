import Brine.Proofs.RegexThreads
import Brine.Snippet

namespace Brine.Proofs.SnippetSearch
open Regex Snippet RegexMeaning RegexThreads

def matchAt (r : Regex) (text : List Char) (place : Nat) : Option Match :=
  r.matchHere place (text.take place).getLast? (text.drop place)

/-- A parameter could stand for what is between two places: it is the preferred match of the
expression there, it is not empty, and it does not cut a word. -/
structure Stands (r : Regex) (text : List Char) (start stop : Nat) : Prop where
  found : ∃ m, matchAt r text start = some m ∧ m.stop = stop
  filled : start < stop
  left : isEdge (text.take start).getLast? = true
  right : isEdge (text.drop stop).head? = true

variable {r : Regex} {text b rest : List Char} {k : Match} {n place start stop s : Nat}

theorem matchAt_append (b rest : List Char) :
    matchAt r (b ++ rest) b.length = r.matchHere b.length b.getLast? rest := by
  rw [matchAt, List.take_left, List.drop_left]

/-- A match is a piece of the text. -/
theorem matchAt_sound (h : matchAt r text place = some k) (hp : place ≤ text.length) :
    ∃ b m a, b ++ (m ++ a) = text ∧ place = b.length ∧ k.stop = (b ++ m).length ∧
      Spans r b m a k.marks := by
  have hlength : (text.take place).length = place := List.length_take_of_le hp
  obtain ⟨m, a, hm, -, he, hspans⟩ := matchHere_sound (b := text.take place) (by rwa [hlength])
  exact ⟨text.take place, m, a, by rw [hm, List.take_append_drop], hlength.symm, he, hspans⟩

theorem matchHere_start (h : r.matchHere b.length b.getLast? rest = some k) :
    k.start = b.length := by
  obtain ⟨_, _, _, hs, -⟩ := matchHere_sound h
  exact hs

theorem search_some (h : r.search b.length b.getLast? rest = some k) :
    b.length ≤ k.start ∧ matchAt r (b ++ rest) k.start = some k ∧
      ∀ s, b.length ≤ s → s < k.start → matchAt r (b ++ rest) s = none := by
  induction rest generalizing b with
  | nil =>
    have hstart : k.start = b.length := matchHere_start h
    refine ⟨by omega, ?_, by omega⟩
    rw [hstart, matchAt_append]
    exact h
  | cons c rest ih =>
    rw [search] at h
    split at h
    · rename_i hk
      cases h
      have hstart : k.start = b.length := matchHere_start hk
      refine ⟨by omega, ?_, by omega⟩
      rw [hstart, matchAt_append]
      exact hk
    · rename_i hnone
      obtain ⟨hb, hk, hfirst⟩ := ih (b := b ++ [c]) (by simpa using h)
      have happend : b ++ [c] ++ rest = b ++ c :: rest := by simp
      rw [List.length_append, List.length_singleton] at hb
      rw [happend] at hk
      refine ⟨by omega, hk, fun s hs hlt => ?_⟩
      by_cases hsb : s = b.length
      · rw [hsb, matchAt_append]
        exact hnone
      · have hs' : (b ++ [c]).length ≤ s := by
          rw [List.length_append, List.length_singleton]
          omega
        rw [← happend]
        exact hfirst s hs' hlt

theorem search_none (h : r.search b.length b.getLast? rest = none) :
    ∀ s, b.length ≤ s → s ≤ (b ++ rest).length → matchAt r (b ++ rest) s = none := by
  induction rest generalizing b with
  | nil =>
    intro s hs hle
    rw [List.append_nil] at hle
    obtain rfl : s = b.length := by omega
    rw [matchAt_append]
    exact h
  | cons c rest ih =>
    rw [search] at h
    split at h
    · contradiction
    · rename_i hnone
      have happend : b ++ [c] ++ rest = b ++ c :: rest := by simp
      have hrest := ih (b := b ++ [c]) (by simpa using h)
      rw [happend, List.length_append, List.length_singleton] at hrest
      intro s hs hle
      by_cases hsb : s = b.length
      · rw [hsb, matchAt_append]
        exact hnone
      · exact hrest s (by omega) hle

theorem findFrom_eq (hp : place ≤ text.length) : r.findFrom text place =
    r.search (text.take place).length (text.take place).getLast? (text.drop place) := by
  rw [findFrom, List.length_take_of_le hp]

/-- The leftmost match at or after a place. -/
theorem findFrom_some (hp : place ≤ text.length) (h : r.findFrom text place = some k) :
    place ≤ k.start ∧ matchAt r text k.start = some k ∧
      ∀ s, place ≤ s → s < k.start → matchAt r text s = none := by
  rw [findFrom_eq hp] at h
  have hfirst := search_some h
  rwa [List.take_append_drop, List.length_take_of_le hp] at hfirst

theorem findFrom_none (hp : place ≤ text.length) (h : r.findFrom text place = none) :
    ∀ s, place ≤ s → s ≤ text.length → matchAt r text s = none := by
  rw [findFrom_eq hp] at h
  have hnone := search_none h
  rwa [List.take_append_drop, List.length_take_of_le hp] at hnone

theorem matchHere_nil {before : Option Char} (h : r.matchHere place before [] = some k) :
    k.stop = place := by
  simp only [matchHere, advance, Option.orElse_eq_orElse, Option.orElse_eq_or, Option.or_none,
    Option.map_eq_some_iff] at h
  obtain ⟨t, -, rfl⟩ := h
  rfl

theorem Stands.bounds (h : Stands r text start stop) :
    start ≤ text.length ∧ stop ≤ text.length := by
  obtain ⟨m, hm, hstop⟩ := h.found
  have hfilled := h.filled
  by_cases hstart : start ≤ text.length
  · obtain ⟨b, m', a, rfl, -, he, -⟩ := matchAt_sound hm hstart
    refine ⟨hstart, ?_⟩
    simp only [List.length_append] at he ⊢
    omega
  · -- Behind the end of the text there is nothing left to match.
    rw [matchAt, List.drop_eq_nil_of_le (by omega)] at hm
    have := matchHere_nil hm
    omega

theorem stands_iff (h : matchAt r text k.start = some k) :
    Stands r text k.start stop ↔ isBounded text k = true ∧ stop = k.stop := by
  simp only [isBounded, Bool.and_eq_true, decide_eq_true_eq]
  constructor
  · intro hs
    obtain ⟨m, hm, rfl⟩ := hs.found
    obtain rfl : k = m := Option.some.inj (h.symm.trans hm)
    exact ⟨⟨⟨hs.filled, hs.left⟩, hs.right⟩, rfl⟩
  · intro hb
    obtain ⟨⟨⟨hfilled, hleft⟩, hright⟩, rfl⟩ := hb
    exact ⟨⟨k, h, rfl⟩, hfilled, hleft, hright⟩

/-- One round of the search: nothing stands before the match that it finds. -/
theorem round_some (hp : place ≤ text.length) (h : r.findFrom text place = some k) :
    place ≤ k.start ∧ matchAt r text k.start = some k ∧
      ∀ s e, place ≤ s → Stands r text s e → k.start ≤ s := by
  obtain ⟨hplace, hmatch, hfirst⟩ := findFrom_some hp h
  refine ⟨hplace, hmatch, fun s e hs hv => Nat.le_of_not_lt fun hlt => ?_⟩
  obtain ⟨m, hm, -⟩ := hv.found
  rw [hfirst s hs hlt] at hm
  contradiction

/-- Past a match that is not bounded nothing is missed. -/
theorem round_next (h : matchAt r text k.start = some k) (hb : ¬isBounded text k = true)
    (hs : k.start ≤ s) (hv : Stands r text s stop) : k.start + 1 ≤ s := by
  refine Nat.lt_of_le_of_ne hs ?_
  rintro rfl
  exact hb ((stands_iff h).mp hv).1

/-- The search finds the first place where a value stands. -/
theorem firstBounded_some (h : firstBounded r text n place = some (start, stop)) :
    place ≤ start ∧ Stands r text start stop ∧
      ∀ s e, place ≤ s → Stands r text s e → start ≤ s := by
  fun_induction firstBounded r text n place with
  | case1 | case2 | case3 => contradiction
  | case4 n place hp k hk hb =>
    obtain ⟨hplace, hmatch, hfirst⟩ := round_some (Nat.le_of_not_lt hp) hk
    cases h
    exact ⟨hplace, (stands_iff hmatch).mpr ⟨hb, rfl⟩, hfirst⟩
  | case5 n place hp k hk hb ih =>
    obtain ⟨hplace, hmatch, hfirst⟩ := round_some (Nat.le_of_not_lt hp) hk
    obtain ⟨hstart, hstands, hleast⟩ := ih h
    refine ⟨by omega, hstands, fun s e hs hv => ?_⟩
    exact hleast s e (round_next hmatch hb (hfirst s e hs hv) hv) hv

/-- As many rounds as there are places left are enough to see that nothing stands there. -/
theorem firstBounded_none (hn : text.length < n + place) (h : firstBounded r text n place = none) :
    ∀ s e, place ≤ s → ¬Stands r text s e := by
  intro s e hs hv
  fun_induction firstBounded r text n place with
  | case1 place =>
    have := hv.bounds
    omega
  | case2 n place hp =>
    have := hv.bounds
    omega
  | case3 n place hp hk =>
    obtain ⟨m, hm, -⟩ := hv.found
    rw [findFrom_none (Nat.le_of_not_lt hp) hk s hs hv.bounds.1] at hm
    contradiction
  | case4 => contradiction
  | case5 n place hp k hk hb ih =>
    obtain ⟨hplace, hmatch, hfirst⟩ := round_some (Nat.le_of_not_lt hp) hk
    exact ih (by omega) h (round_next hmatch hb (hfirst s e hs hv) hv)

theorem firstBounded_end (h : text.length < place) : firstBounded r text n place = none := by
  cases n with
  | zero => rfl
  | succ n => rw [firstBounded, if_pos h]

/-- The search ends by itself: more rounds change nothing. -/
theorem firstBounded_rounds {n' : Nat} (hn : text.length < n + place)
    (hn' : text.length < n' + place) :
    firstBounded r text n place = firstBounded r text n' place := by
  fun_induction firstBounded r text n place generalizing n' with
  | case1 place => rw [firstBounded_end (by omega)]
  | case2 n place hp => rw [firstBounded_end hp]
  | case3 n place hp hk =>
    cases n' with
    | zero => omega
    | succ n' => rw [firstBounded, if_neg hp, hk]
  | case4 n place hp k hk hb =>
    cases n' with
    | zero => omega
    | succ n' => simp only [firstBounded, if_neg hp, hk, if_pos hb]
  | case5 n place hp k hk hb ih =>
    cases n' with
    | zero => omega
    | succ n' =>
      obtain ⟨hplace, -⟩ := round_some (Nat.le_of_not_lt hp) hk
      simp only [firstBounded, if_neg hp, hk, if_neg hb]
      exact ih (by omega) (by omega)

end Brine.Proofs.SnippetSearch
