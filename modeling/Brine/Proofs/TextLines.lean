import Brine.Text.Blank
import Brine.Text.Lines
import Mathlib.Data.List.Basic

namespace Brine.Proofs.TextLines
open Text

section Blanks

variable {left right line : List Char}

theorem indent_append (hl : ∀ c ∈ left, isBlank c = true) (rest : List Char) :
    indent (left ++ rest) = left.length + indent rest := by
  rw [indent, indent, List.takeWhile_append_of_pos hl, List.length_append]

theorem trimStart_append (hl : ∀ c ∈ left, isBlank c = true) (rest : List Char) :
    trimStart (left ++ rest) = trimStart rest := by
  rw [trimStart, List.dropWhile_append_of_pos hl, trimStart]

theorem trimEnd_append_blank (hr : ∀ c ∈ right, isBlank c = true) (line : List Char) :
    trimEnd (line ++ right) = trimEnd line := by
  have hb : ∀ c ∈ right.reverse, isBlank c = true := fun c hc => hr c (List.mem_reverse.mp hc)
  rw [trimEnd, List.reverse_append, List.dropWhile_append_of_pos hb, trimEnd]

/-- A line that starts with a character that is not blank has no indent. -/
theorem takeWhile_solid (h : ∀ d ∈ line.head?, isBlank d = false) (rest : List Char)
    (hn : line ≠ []) : (line ++ rest).takeWhile isBlank = [] := by
  cases line with
  | nil => exact absurd rfl hn
  | cons d line => simp [h d rfl]

theorem trimStart_solid (h : ∀ d ∈ line.head?, isBlank d = false) (rest : List Char)
    (hn : line ≠ []) : trimStart (line ++ rest) = line ++ rest := by
  cases line with
  | nil => exact absurd rfl hn
  | cons d line => simp [trimStart, h d rfl]

theorem trimEnd_solid (h : ∀ d ∈ line.getLast?, isBlank d = false) :
    trimEnd line = line := by
  rcases List.eq_nil_or_concat' line with he | ⟨start, c, he⟩
  · subst he
    rfl
  · subst he
    simp [trimEnd, h c (by simp)]

end Blanks

structure IsLine (l : List Char) : Prop where
  newline : '\n' ∉ l
  carriage : l.getLast? ≠ some '\r'

def onFirst (c : Char) : List (List Char) → List (List Char)
  | [] => [[c]]
  | line :: more => (c :: line) :: more

section Lines

variable {l rest : List Char} {ls : List (List Char)} {c : Char}

theorem lines_cons (hn : c ≠ '\n') (hr : c = '\r' → rest.head? ≠ some '\n') :
    lines (c :: rest) = onFirst c (lines rest) := by
  have hcr : ∀ rest', c = '\r' → rest = '\n' :: rest' → False := by
    intro rest' hc he
    exact hr hc (by rw [he]; rfl)
  rw [lines.eq_4 c rest hn hcr]
  cases lines rest <;> rfl

theorem onFirst_append (hl : ls ≠ []) (ms : List (List Char)) :
    onFirst c (ls ++ ms) = onFirst c ls ++ ms := by
  cases ls with
  | nil => exact absurd rfl hl
  | cons l ls => rfl

/-- A carriage return before a newline goes with it. -/
theorem lines_carriage (hr : rest.head? = some '\n') : lines ('\r' :: rest) = lines rest := by
  cases rest with
  | nil => cases hr
  | cons d rest =>
    cases Option.some.inj hr
    rfl

theorem lines_ne_nil (hr : rest ≠ []) : lines rest ≠ [] := by
  rw [lines.eq_def]
  split
  · exact absurd rfl hr
  · simp
  · simp
  · split
    · simp
    · simp

theorem IsLine.tail (h : IsLine (c :: l)) : IsLine l := by
  refine ⟨fun hm => h.newline (List.mem_cons_of_mem c hm), ?_⟩
  intro hlast
  exact h.carriage (by rw [List.getLast?_cons, hlast]; rfl)

/-- The first character of a line goes on the line that the others make up. -/
theorem IsLine.lines_cons (h : IsLine (c :: l)) (rest : List Char) :
    lines (c :: (l ++ rest)) = onFirst c (lines (l ++ rest)) := by
  apply TextLines.lines_cons
  · rintro rfl
    exact h.newline List.mem_cons_self
  · rintro rfl
    cases l with
    | nil => exact absurd rfl h.carriage
    | cons d l =>
      intro hd
      exact h.tail.newline (Option.some.inj hd ▸ List.mem_cons_self)

/-- A line ends at a newline. -/
theorem lines_line (h : IsLine l) (rest : List Char) :
    lines (l ++ '\n' :: rest) = l :: lines rest := by
  induction l with
  | nil => rfl
  | cons c l ih =>
    rw [List.cons_append, h.lines_cons, ih h.tail]
    rfl

/-- The last line of a text needs no newline. -/
theorem lines_last (h : IsLine l) (hl : l ≠ []) : lines l = [l] := by
  induction l with
  | nil => exact absurd rfl hl
  | cons c l ih =>
    have hc := h.lines_cons []
    rw [List.append_nil] at hc
    rw [hc]
    cases l with
    | nil => rfl
    | cons d l =>
      rw [ih h.tail (List.cons_ne_nil d l)]
      rfl

/-- What comes after a newline is split apart from what comes before. -/
theorem lines_append (before rest : List Char) :
    lines (before ++ '\n' :: rest) = lines (before ++ ['\n']) ++ lines rest := by
  induction before with
  | nil => rfl
  | cons c before ih =>
    have hh : (before ++ ['\n']).head? = (before ++ '\n' :: rest).head? := by
      cases before <;> rfl
    rw [List.cons_append, List.cons_append]
    by_cases hn : c = '\n'
    · rw [hn]
      exact congrArg (List.cons []) ih
    · by_cases hr : c = '\r' ∧ (before ++ '\n' :: rest).head? = some '\n'
      · rw [hr.1, lines_carriage hr.2, lines_carriage (hh.trans hr.2), ih]
      · have hr' : c = '\r' → (before ++ '\n' :: rest).head? ≠ some '\n' := not_and.mp hr
        rw [lines_cons hn hr', lines_cons hn (by rw [hh]; exact hr'), ih,
          onFirst_append (lines_ne_nil (by simp))]

/-- The first lines of a text and the others are those of two texts that make it up. -/
theorem lines_split (text : List Char) (k : Nat) :
    ∃ block rest, text = block ++ rest ∧ lines block = (lines text).take k ∧
      lines rest = (lines text).drop k := by
  fun_induction lines text generalizing k with
  | case1 => exact ⟨[], [], rfl, by simp [lines], by simp [lines]⟩
  | case2 rest ih =>
    cases k with
    | zero => exact ⟨[], '\n' :: rest, rfl, rfl, rfl⟩
    | succ k =>
      obtain ⟨block, rest', rfl, hb, hr⟩ := ih k
      exact ⟨'\n' :: block, rest', rfl, by rw [lines, hb]; rfl, hr⟩
  | case3 rest ih =>
    cases k with
    | zero => exact ⟨[], '\r' :: '\n' :: rest, rfl, rfl, rfl⟩
    | succ k =>
      obtain ⟨block, rest', rfl, hb, hr⟩ := ih k
      exact ⟨'\r' :: '\n' :: block, rest', rfl, by rw [lines, hb]; rfl, hr⟩
  | case4 c rest hn _ hnone _ =>
    obtain rfl : rest = [] := by
      cases rest with
      | nil => rfl
      | cons d rest => exact absurd hnone (lines_ne_nil (List.cons_ne_nil d rest))
    have hc : lines [c] = [[c]] := lines_cons hn (by simp)
    cases k with
    | zero => exact ⟨[], [c], rfl, rfl, hc⟩
    | succ k => exact ⟨[c], [], rfl, by simpa using hc, by simp [lines]⟩
  | case5 c rest hn hr line more hsome ih =>
    have hhead : c = '\r' → rest.head? ≠ some '\n' := by
      intro hc hh
      obtain ⟨rest', rfl⟩ := List.head?_eq_some_iff.mp hh
      exact hr rest' hc rfl
    cases k with
    | zero => exact ⟨[], c :: rest, rfl, rfl, by rw [lines_cons hn hhead, hsome]; rfl⟩
    | succ k =>
      obtain ⟨block, rest', rfl, hb, hrest⟩ := ih (k + 1)
      rw [hsome, List.take_succ_cons] at hb
      rw [hsome, List.drop_succ_cons] at hrest
      have hblock : block ≠ [] := by
        rintro rfl
        contradiction
      rw [List.head?_append_of_ne_nil _ hblock] at hhead
      exact ⟨c :: block, rest', rfl, by rw [lines_cons hn hhead, hb]; rfl, hrest⟩

/-- The lines of a text that lines joined by newlines start. The last of them needs no newline where
the text ends. -/
theorem lines_intercalate {after : List Char} (hl : ∀ l ∈ ls, IsLine l) (hn : ls ≠ [])
    (hr : rest = '\n' :: after ∨ rest = [] ∧ after = [] ∧ ls.getLast? ≠ some []) :
    lines (['\n'].intercalate ls ++ rest) = ls ++ lines after := by
  induction ls with
  | nil => exact absurd rfl hn
  | cons l ls ih =>
    obtain ⟨h, hl⟩ := List.forall_mem_cons.mp hl
    cases ls with
    | nil =>
      rw [List.intercalate_singleton]
      rcases hr with rfl | ⟨rfl, rfl, hne⟩
      · exact lines_line h after
      · rw [List.append_nil, lines_last h (fun he => hne (by rw [he]; rfl))]
        rfl
    | cons m ls =>
      rw [List.getLast?_cons_cons] at hr
      rw [List.intercalate_cons_cons, List.append_assoc, List.append_assoc, List.singleton_append,
        lines_line h, ih hl (List.cons_ne_nil m ls) hr]
      rfl

/-- The parts of a text between newlines have none. -/
theorem not_mem_splitOn (text : List Char) : ∀ l ∈ text.splitOn '\n', '\n' ∉ l := by
  induction text with
  | nil => simp
  | cons c text ih =>
    rw [List.splitOn_cons_eq_if_modifyHead]
    split
    · exact List.forall_mem_cons.mpr ⟨by simp, ih⟩
    · rename_i hc
      obtain ⟨l, ls, hl⟩ := List.exists_cons_of_ne_nil (List.splitOn_ne_nil '\n' text)
      rw [hl] at ih ⊢
      obtain ⟨h, hls⟩ := List.forall_mem_cons.mp ih
      refine List.forall_mem_cons.mpr ⟨?_, hls⟩
      intro hm
      rcases List.mem_cons.mp hm with he | hm
      · exact hc (beq_iff_eq.mpr he.symm)
      · exact h hm

/-- Every part of a text that is joined stands in it. -/
theorem infix_intercalate (sep : List Char) (hl : l ∈ ls) : l <:+: sep.intercalate ls := by
  induction ls with
  | nil => cases hl
  | cons m ls ih =>
    cases ls with
    | nil =>
      have he : sep.intercalate [m] = m := List.intercalate_singleton
      rw [List.mem_singleton.mp hl]
      exact he.symm ▸ List.infix_refl m
    | cons k ls =>
      rw [List.intercalate_cons_cons]
      rcases List.mem_cons.mp hl with rfl | hl
      · rw [List.append_assoc]
        exact (List.prefix_append l _).isInfix
      · exact (ih hl).trans (List.suffix_append _ _).isInfix

end Lines

end Brine.Proofs.TextLines
