import Brine.Proofs.FirstErrors

namespace Brine.Proofs.LineRuns
open Line Text LineShapes Acceptance FirstErrors

section Reading

variable (table : Table) (settings : Settings)

/-- The same line of a text, `k` lines further down. -/
def later (k : Nat) (t : Token) : Token :=
  { t with location := { t.location with line := t.location.line + k } }

def Later (k : Nat) (p q : Token × Reader) : Prop :=
  q = (later k p.1, p.2)

theorem keywordLine_later (dialect : Dialect) (n k column : Nat) (line trimmed : List Char) :
    keywordLine dialect ⟨n + k, column⟩ line trimmed =
      later k (keywordLine dialect ⟨n, column⟩ line trimmed) := by
  unfold keywordLine
  cases heading? dialect trimmed with
  | some h => rfl
  | none => cases step? dialect trimmed <;> rfl

theorem readDocLine_later (r : Reader) (doc : OpenDocString) (n k : Nat) (line : List Char) :
    Later k (r.readDocLine doc n line) (r.readDocLine doc (n + k) line) := by
  unfold Reader.readDocLine
  cases after? doc.delimiter.chars (trimStart line) <;> rfl

theorem readComment_later (r : Reader) (n k : Nat) (line : List Char) :
    Later k (r.readComment table settings n line) (r.readComment table settings (n + k) line) := by
  unfold Reader.readComment
  cases if r.hasContent then none else directive? line <;> rfl

theorem readPlain_later (r : Reader) (n k : Nat) (line : List Char) :
    Later k (r.readPlain table settings n line) (r.readPlain table settings (n + k) line) := by
  unfold Reader.readPlain
  dsimp only
  split
  · rfl
  · exact readComment_later table settings r n k line
  · rfl
  · split
    · rfl
    · split
      · rfl
      · rw [keywordLine_later]
        rfl

/-- How a line is read does not depend on its number, but for the place. -/
theorem read_later (r : Reader) (n k : Nat) (line : List Char) :
    Later k (r.read table settings n line) (r.read table settings (n + k) line) := by
  unfold Reader.read
  cases r.docString with
  | some doc =>
    dsimp only
    rw [readDocLine_later r doc n k line]
    rfl
  | none =>
    dsimp only
    rw [readPlain_later table settings r n k line]
    rfl

theorem readAll_later (r : Reader) (n k : Nat) (ls : List (List Char)) :
    r.readAll table settings (n + k) ls =
      ((r.readAll table settings n ls).1.map (later k), (r.readAll table settings n ls).2) := by
  induction ls generalizing r n with
  | nil => rfl
  | cons line ls ih =>
    rw [Reader.readAll, Reader.readAll, read_later table settings r n k line]
    dsimp only
    rw [Nat.add_right_comm, ih]
    rfl

theorem readAll_kinds (r : Reader) (n m : Nat) (ls : List (List Char)) :
    (r.readAll table settings n ls).1.map (·.kind) =
      (r.readAll table settings m ls).1.map (·.kind) := by
  have hkinds (k : Nat) : (r.readAll table settings k ls).1.map (·.kind) =
      (r.readAll table settings 0 ls).1.map (·.kind) := by
    have hlater := readAll_later table settings r 0 k ls
    rw [Nat.zero_add] at hlater
    rw [hlater, List.map_map]
    rfl
  rw [hkinds n, hkinds m]

/-- Reading lines one after another. -/
theorem readAll_append (r : Reader) (number : Nat) (ls : List (List Char)) :
    ∃ (ts : List Token) (r' : Reader), ts.length = ls.length ∧
      r'.docString.isSome = leavesOpen r.docString.isSome ts ∧
      r'.hasContent = (r.hasContent || ts.any (!isTrivia ·.kind)) ∧
      ∀ rest, (r.readAll table settings number (ls ++ rest)).1 =
        ts ++ (r'.readAll table settings (number + ls.length) rest).1 := by
  induction ls generalizing r number with
  | nil => exact ⟨[], r, rfl, rfl, by simp, fun rest => rfl⟩
  | cons line ls ih =>
    obtain ⟨ts, r', hlen, hopen, hc, hr⟩ := ih (r.read table settings number line).2 (number + 1)
    rw [read_docString] at hopen
    rw [read_hasContent, Bool.or_assoc] at hc
    refine ⟨(r.read table settings number line).1 :: ts, r', by simp [hlen], hopen, hc, ?_⟩
    intro rest
    rw [List.cons_append, readAll_cons, hr, List.length_cons, Nat.add_right_comm, Nat.add_assoc]
    rfl

end Reading

section Kinds

variable {inside : Bool} {ts us : List Token}

theorem significant_append : significant inside (ts ++ us) =
    significant inside ts ++ significant (leavesOpen inside ts) us := by
  induction ts generalizing inside with
  | nil => rfl
  | cons t ts ih =>
    rw [List.cons_append, leavesOpen, List.foldl_cons, ← leavesOpen, significant, significant]
    split
    · rename_i ht
      have hi : insideAfter inside t.kind = inside := by
        cases hk : t.kind <;> simp [hk, isTrivia] at ht <;> simp [insideAfter]
      rw [ih, hi]
    · rw [ih, List.cons_append]

theorem significant_kinds (h : ts.map (·.kind) = us.map (·.kind)) :
    significant inside ts = significant inside us := by
  induction ts generalizing inside us with
  | nil =>
    rw [List.map_nil, eq_comm, List.map_eq_nil_iff] at h
    rw [h]
  | cons t ts ih =>
    cases us with
    | nil => cases h
    | cons u us =>
      obtain ⟨hk, h⟩ := List.cons.inj h
      have hk : t.kind = u.kind := hk
      rw [significant, significant, hk, ih h, ih h]

/-- The first line that counts. -/
theorem head_significant (ts : List Token) :
    (significant false ts).head? = (ts.find? (!isTrivia ·.kind)).map (·.kind) := by
  induction ts with
  | nil => rfl
  | cons t ts ih => cases ht : isTrivia t.kind <;> simp [significant, ht, ih]

theorem significant_content (hc : ∀ t ∈ ts, t.kind = .docStringContent) (us : List Token) :
    significant true (ts ++ us) =
      List.replicate ts.length .docStringContent ++ significant true us := by
  induction ts with
  | nil => rfl
  | cons t ts ih =>
    obtain ⟨ht, hc⟩ := List.forall_mem_cons.mp hc
    rw [List.cons_append, significant_cons (.inl rfl), ht, List.length_cons, List.replicate_succ,
      List.cons_append, ← ih hc]
    rfl

theorem mem_significant {inside : Bool} {k : Kind} (h : k ∈ significant inside ts) :
    ∃ t ∈ ts, t.kind = k := by
  induction ts generalizing inside with
  | nil => cases h
  | cons t ts ih =>
    rw [significant] at h
    split at h
    · obtain ⟨u, hu, hk⟩ := ih h
      exact ⟨u, List.mem_cons_of_mem t hu, hk⟩
    · rcases List.mem_cons.mp h with h | h
      · exact ⟨t, List.mem_cons_self, h.symm⟩
      · obtain ⟨u, hu, hk⟩ := ih h
        exact ⟨u, List.mem_cons_of_mem t hu, hk⟩

end Kinds

end Brine.Proofs.LineRuns
