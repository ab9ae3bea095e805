import Brine.Line.Items
import Brine.Proofs.TextLines
import Mathlib.Data.List.TakeWhile

namespace Brine.Proofs.WrittenRows
open Line Text TextLines

def escapeChar (c : Char) : List Char :=
  if c = '\\' then ['\\', '\\']
  else if c = '|' then ['\\', '|']
  else if c = '\n' then ['\\', 'n']
  else [c]

def escapeCell (value : List Char) : List Char :=
  value.flatMap escapeChar

def IsEdge (c : Char) : Prop :=
  isBlank c = true → c = '\n'

instance (c : Char) : Decidable (IsEdge c) :=
  inferInstanceAs (Decidable (isBlank c = true → c = '\n'))

/-- A value with the blanks that are written around it. -/
structure PaddedCell where
  left : List Char
  value : List Char
  right : List Char
  left_blank : ∀ c ∈ left, isBlank c = true
  right_blank : ∀ c ∈ right, isBlank c = true
  first : ∀ c ∈ value.head?, IsEdge c
  last : ∀ c ∈ value.getLast?, IsEdge c

namespace PaddedCell

/-- The text of a cell up to the pipe that ends it. -/
def raw (c : PaddedCell) : List Char :=
  c.left ++ (escapeCell c.value ++ c.right)

def text (c : PaddedCell) : List Char :=
  c.raw ++ ['|']

def lead (c : PaddedCell) : List Char :=
  if c.value = [] then c.left ++ c.right else c.left

end PaddedCell

def rowText (indent : List Char) (cells : List PaddedCell) : List Char :=
  indent ++ '|' :: cells.flatMap PaddedCell.text

theorem unescapeCell_cons {c : Char} (h : c ≠ '\\') (rest : List Char) :
    unescapeCell (c :: rest) = c :: unescapeCell rest := by
  rw [unescapeCell]
  all_goals simp_all

theorem unescapeCell_escapeCell (value : List Char) : unescapeCell (escapeCell value) = value := by
  induction value with
  | nil => rfl
  | cons c value ih =>
    rw [escapeCell, List.flatMap_cons, ← escapeCell]
    by_cases hs : c = '\\'
    · subst hs
      simp [escapeChar, unescapeCell, ih]
    · by_cases hp : c = '|'
      · subst hp
        simp [escapeChar, unescapeCell, ih]
      · by_cases hn : c = '\n'
        · subst hn
          simp [escapeChar, unescapeCell, ih]
        · rw [escapeChar, if_neg hs, if_neg hp, if_neg hn, List.singleton_append,
            unescapeCell_cons hs, ih]

theorem escapeChar_ne_nil (c : Char) : escapeChar c ≠ [] := by
  unfold escapeChar
  split
  · simp
  · split
    · simp
    · split <;> simp

theorem escapeChar_solid {c : Char} (h : IsEdge c) : ∀ d ∈ escapeChar c, isBlank d = false := by
  unfold escapeChar
  split
  · exact List.forall_mem_cons.mpr ⟨rfl, List.forall_mem_singleton.mpr rfl⟩
  · split
    · exact List.forall_mem_cons.mpr ⟨rfl, List.forall_mem_singleton.mpr rfl⟩
    · split
      · exact List.forall_mem_cons.mpr ⟨rfl, List.forall_mem_singleton.mpr rfl⟩
      · rename_i hn
        intro d hd
        rw [List.mem_singleton.mp hd]
        cases hb : isBlank c with
        | false => rfl
        | true => exact absurd (h hb) hn

theorem escapeCell_head {value : List Char} (hf : ∀ c ∈ value.head?, IsEdge c) :
    ∀ d ∈ (escapeCell value).head?, isBlank d = false := by
  intro d hd
  cases value with
  | nil => simp [escapeCell] at hd
  | cons c rest =>
    obtain ⟨e, more, he⟩ := List.exists_cons_of_ne_nil (escapeChar_ne_nil c)
    rw [escapeCell, List.flatMap_cons, he] at hd
    obtain rfl : e = d := by simpa using hd
    exact escapeChar_solid (hf c rfl) e (by simp [he])

theorem escapeCell_last {value : List Char} (hl : ∀ c ∈ value.getLast?, IsEdge c) :
    ∀ d ∈ (escapeCell value).getLast?, isBlank d = false := by
  intro d hd
  rcases List.eq_nil_or_concat' value with he | ⟨start, c, he⟩
  · simp [he, escapeCell] at hd
  · subst he
    rw [escapeCell, List.flatMap_append, List.flatMap_singleton,
      List.getLast?_append_of_ne_nil _ (escapeChar_ne_nil c)] at hd
    exact escapeChar_solid (hl c (by simp)) d (List.mem_of_getLast? hd)

theorem escapeCell_eq_nil {value : List Char} : escapeCell value = [] ↔ value = [] := by
  cases value with
  | nil => simp [escapeCell]
  | cons c rest => simp [escapeCell, escapeChar_ne_nil]

namespace PaddedCell

variable (c : PaddedCell)

theorem trim_raw : trim c.raw = escapeCell c.value := by
  rw [trim, raw, trimStart_append c.left_blank]
  by_cases hv : c.value = []
  · have he : trimStart c.right = [] := by
      simpa [trimStart, List.dropWhile_eq_nil_iff] using c.right_blank
    rw [escapeCell_eq_nil.mpr hv, List.nil_append, he]
    rfl
  · have hn : escapeCell c.value ≠ [] := fun he => hv (escapeCell_eq_nil.mp he)
    rw [trimStart_solid (escapeCell_head c.first) _ hn, trimEnd_append_blank c.right_blank,
      trimEnd_solid (escapeCell_last c.last)]

theorem indent_raw : indent c.raw = c.lead.length := by
  rw [raw, indent_append c.left_blank, lead]
  by_cases hv : c.value = []
  · have hr : c.right.takeWhile isBlank = c.right := List.takeWhile_eq_self_iff.mpr c.right_blank
    rw [if_pos hv, escapeCell_eq_nil.mpr hv, List.nil_append, indent, hr, List.length_append]
  · have hn : escapeCell c.value ≠ [] := fun he => hv (escapeCell_eq_nil.mp he)
    rw [if_neg hv, indent, takeWhile_solid (escapeCell_head c.first) _ hn]
    rfl

/-- A written cell is read as its value, at the column where the value starts. -/
theorem cell_raw (column : Nat) :
    cell column c.raw = ⟨column + c.lead.length, String.ofList c.value⟩ := by
  rw [cell, c.indent_raw, c.trim_raw, unescapeCell_escapeCell]

end PaddedCell

def EndsNone (cs : List Char) : Prop :=
  ∀ column start raw rest, cellsFrom column start raw (cs ++ rest) =
    cellsFrom (column + cs.length) start (cs.reverse ++ raw) rest

theorem EndsNone.append {cs ds : List Char} (hc : EndsNone cs) (hd : EndsNone ds) :
    EndsNone (cs ++ ds) := by
  intro column start raw rest
  rw [List.append_assoc, hc, hd, List.length_append, List.reverse_append, List.append_assoc,
    Nat.add_assoc]

theorem EndsNone.flatMap {α : Type} {f : α → List Char} {l : List α}
    (h : ∀ a ∈ l, EndsNone (f a)) : EndsNone (l.flatMap f) := by
  induction l with
  | nil =>
    intro column start raw rest
    rfl
  | cons a l ih =>
    obtain ⟨ha, hl⟩ := List.forall_mem_cons.mp h
    exact ha.append (ih hl)

theorem endsNone_single {c : Char} (hp : c ≠ '|') (hs : c ≠ '\\') : EndsNone [c] := by
  intro column start raw rest
  rw [List.singleton_append, cellsFrom]
  all_goals simp_all

theorem endsNone_pair (c : Char) : EndsNone ['\\', c] := by
  intro column start raw rest
  rfl

theorem endsNone_blanks {cs : List Char} (h : ∀ c ∈ cs, isBlank c = true) : EndsNone cs := by
  have hf : EndsNone (cs.flatMap ([·])) := by
    apply EndsNone.flatMap
    intro c hc
    have hb := h c hc
    apply endsNone_single
    · intro he
      rw [he] at hb
      contradiction
    · intro he
      rw [he] at hb
      contradiction
  simpa using hf

theorem endsNone_escapeCell (value : List Char) : EndsNone (escapeCell value) := by
  apply EndsNone.flatMap
  intro c _
  unfold escapeChar
  split
  · exact endsNone_pair _
  · rename_i hs
    split
    · exact endsNone_pair _
    · rename_i hp
      split
      · exact endsNone_pair _
      · exact endsNone_single hp hs

theorem PaddedCell.endsNone_raw (c : PaddedCell) : EndsNone c.raw :=
  (endsNone_blanks c.left_blank).append
    ((endsNone_escapeCell c.value).append (endsNone_blanks c.right_blank))

def itemsFrom (column : Nat) : List PaddedCell → List Item
  | [] => []
  | c :: cells =>
    ⟨column + c.lead.length, String.ofList c.value⟩ :: itemsFrom (column + c.text.length) cells

theorem cellsFrom_cells (column : Nat) (cells : List PaddedCell) :
    cellsFrom column column [] (cells.flatMap PaddedCell.text) = itemsFrom column cells := by
  induction cells generalizing column with
  | nil => rfl
  | cons c cells ih =>
    have hl : column + c.text.length = column + c.raw.length + 1 := by
      simp [PaddedCell.text]
      omega
    rw [List.flatMap_cons, PaddedCell.text, List.append_assoc, c.endsNone_raw,
      List.singleton_append, cellsFrom, List.append_nil, List.reverse_reverse, c.cell_raw, ih,
      itemsFrom, hl]

theorem cellItems_items {indent : List Char} (hi : ∀ c ∈ indent, isBlank c = true)
    (cells : List PaddedCell) :
    cellItems (rowText indent cells) = itemsFrom (indent.length + 2) cells := by
  have hd : (rowText indent cells).dropWhile (· ≠ '|') = '|' :: cells.flatMap PaddedCell.text := by
    rw [rowText, List.dropWhile_append_of_pos]
    · simp
    · intro c hc
      have hb := hi c hc
      simp only [ne_eq, decide_eq_true_eq]
      intro he
      rw [he] at hb
      contradiction
  have hl : (rowText indent cells).length - (cells.flatMap PaddedCell.text).length + 1 =
      indent.length + 2 := by
    simp only [rowText, List.length_append, List.length_cons]
    omega
  rw [cellItems, hd]
  simp only [hl]
  exact cellsFrom_cells _ cells

theorem map_text_itemsFrom (column : Nat) (cells : List PaddedCell) :
    (itemsFrom column cells).map (·.text) = cells.map fun c => String.ofList c.value := by
  induction cells generalizing column with
  | nil => rfl
  | cons c cells ih => rw [itemsFrom, List.map_cons, List.map_cons, ih]

theorem itemsFrom_append (column : Nat) (before : List PaddedCell) (c : PaddedCell)
    (after : List PaddedCell) : (itemsFrom column (before ++ c :: after))[before.length]? =
      some ⟨column + (before.flatMap PaddedCell.text).length + c.lead.length,
        String.ofList c.value⟩ := by
  induction before generalizing column with
  | nil => rfl
  | cons b before ih =>
    rw [List.cons_append, itemsFrom, List.length_cons, List.getElem?_cons_succ, ih,
      List.flatMap_cons, List.length_append, Nat.add_assoc column, Nat.add_assoc column]

theorem PaddedCell.text_of_value (c : PaddedCell) (h : c.value ≠ []) :
    c.text = c.lead ++ (escapeCell c.value ++ (c.right ++ ['|'])) := by
  rw [text, raw, lead, if_neg h]
  simp

theorem PaddedCell.text_of_empty (c : PaddedCell) (h : c.value = []) :
    c.text = c.lead ++ ['|'] := by
  rw [text, raw, lead, if_pos h, escapeCell_eq_nil.mpr h]
  rfl

theorem rowText_append (indent : List Char) (before : List PaddedCell) (c : PaddedCell)
    (after : List PaddedCell) : rowText indent (before ++ c :: after) =
      rowText indent before ++ (c.text ++ after.flatMap PaddedCell.text) := by
  simp [rowText]

/-- The cells of a written row are read as their values, in order and one for each. A value is read
at the column after the characters that stand before it in the row; if it is empty, these go up to
the pipe that ends its cell. -/
theorem cellItems_rowText {indent : List Char} (hi : ∀ c ∈ indent, isBlank c = true)
    (cells : List PaddedCell) :
    (cellItems (rowText indent cells)).map (·.text) =
      cells.map (fun c => String.ofList c.value) ∧
    ∀ before c after, cells = before ++ c :: after → ∃ start rest,
      rowText indent cells = start ++ rest ∧
      (cellItems (rowText indent cells))[before.length]? =
        some ⟨start.length + 1, String.ofList c.value⟩ ∧
      (c.value ≠ [] → start = rowText indent before ++ c.left ∧ escapeCell c.value <+: rest) ∧
      (c.value = [] → start = rowText indent before ++ (c.left ++ c.right) ∧ ['|'] <+: rest) := by
  rw [cellItems_items hi]
  refine ⟨map_text_itemsFrom _ cells, ?_⟩
  intro before c after hc
  subst hc
  have hcolumn : indent.length + 2 + (before.flatMap PaddedCell.text).length + c.lead.length =
      (rowText indent before ++ c.lead).length + 1 := by
    simp only [rowText, List.length_append, List.length_cons]
    omega
  rw [itemsFrom_append, hcolumn, rowText_append]
  by_cases hv : c.value = []
  · have hl : c.lead = c.left ++ c.right := if_pos hv
    refine ⟨rowText indent before ++ c.lead, '|' :: after.flatMap PaddedCell.text, ?_, rfl,
      fun hn => absurd hv hn, fun _ => ⟨by rw [hl], List.prefix_append ['|'] _⟩⟩
    simp [c.text_of_empty hv]
  · have hl : c.lead = c.left := if_neg hv
    refine ⟨rowText indent before ++ c.lead,
      escapeCell c.value ++ (c.right ++ '|' :: after.flatMap PaddedCell.text), ?_, rfl,
      fun _ => ⟨by rw [hl], List.prefix_append _ _⟩, fun hn => absurd hn hv⟩
    simp [c.text_of_value hv]

def sampleIndent : List Char :=
  [' ', '\t']

def sampleCells : List PaddedCell :=
  [⟨[' '], ['a', '|', '\\'], ['\t', ' '], List.all_eq_true.mp rfl, List.all_eq_true.mp rfl,
      by rintro c ⟨⟩; decide, by rintro c ⟨⟩; decide⟩,
    ⟨[' '], [], [' ', ' '], List.all_eq_true.mp rfl, List.all_eq_true.mp rfl,
      by rintro c ⟨⟩, by rintro c ⟨⟩⟩,
    ⟨[], ['\\', 'n', '\n'], [' '], List.all_eq_true.mp rfl, List.all_eq_true.mp rfl,
      by rintro c ⟨⟩; decide, by rintro c ⟨⟩; decide⟩]

example : rowText sampleIndent sampleCells = " \t| a\\|\\\\\t |   |\\\\n\\n |".toList := by
  decide +kernel

theorem cellItems_rowText_sample :
    (∀ c ∈ sampleIndent, isBlank c = true) ∧
    (cellItems (rowText sampleIndent sampleCells)).map (·.text) = ["a|\\", "", "\\n\n"] ∧
    ∃ start rest, rowText sampleIndent sampleCells = start ++ rest ∧
      (cellItems (rowText sampleIndent sampleCells))[2]? = some ⟨start.length + 1, "\\n\n"⟩ ∧
      escapeCell ['\\', 'n', '\n'] <+: rest := by
  have hi : ∀ c ∈ sampleIndent, isBlank c = true := List.all_eq_true.mp rfl
  obtain ⟨ht, hc⟩ := cellItems_rowText hi sampleCells
  obtain ⟨start, rest, hr, hs, hv, -⟩ := hc (sampleCells.take 2) _ [] rfl
  exact ⟨hi, ht.trans (by decide +kernel), start, rest, hr, hs, (hv (by decide)).2⟩

end Brine.Proofs.WrittenRows
