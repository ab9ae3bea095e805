import Brine.Expression.Token
import Brine.Proofs.Success

namespace Brine.Proofs.ExpressionReading
open Text Expression Success

/-- An item of an expression, with its escapes resolved. -/
inductive Item where
  | char (c : Char)
  /-- A blank that is not escaped. -/
  | blank (c : Char)
  | optional (text : List Char)
  | parameter (name : String)
  /-- A slash that is not escaped. -/
  | slash
deriving DecidableEq

inductive ReadsOptional : (source text rest : List Char) → Prop
  | close {rest : List Char} : ReadsOptional (')' :: rest) [] rest
  | escaped {c : Char} {source text rest : List Char} : ReadsOptional source text rest →
      ReadsOptional ('\\' :: c :: source) (c :: text) rest
  | char {c : Char} {source text rest : List Char} : c ∉ ['\\', ')', '(', '\x7b'] →
      ReadsOptional source text rest → ReadsOptional (c :: source) (c :: text) rest

/-- The items that the source of an expression stands for. -/
inductive Reads : List Char → List Item → Prop
  | nil : Reads [] []
  | escaped {c : Char} {source : List Char} {items : List Item} : Reads source items →
      Reads ('\\' :: c :: source) (.char c :: items)
  /-- A backslash before nothing is a character. -/
  | backslash : Reads ['\\'] [.char '\\']
  | blank {c : Char} {source : List Char} {items : List Item} : isBlank c = true →
      Reads source items → Reads (c :: source) (.blank c :: items)
  | optional {source text rest : List Char} {items : List Item} :
      ReadsOptional source text rest → text ≠ [] → Reads rest items →
      Reads ('(' :: source) (.optional text :: items)
  | parameter {name rest : List Char} {items : List Item} :
      (∀ c ∈ name, c ≠ '\x7b' ∧ c ≠ '\x7d') → Reads rest items →
      Reads ('\x7b' :: (name ++ '\x7d' :: rest)) (.parameter (String.ofList name) :: items)
  | slash {source : List Char} {items : List Item} : Reads source items →
      Reads ('/' :: source) (.slash :: items)
  | char {c : Char} {source : List Char} {items : List Item} : isBlank c = false →
      c ∉ ['\\', '\x7b', '\x7d', '(', ')', '/'] → Reads source items →
      Reads (c :: source) (.char c :: items)

variable {source text text' rest rest' : List Char} {items items' : List Item}

theorem readsOptional_unique (h : ReadsOptional source text rest)
    (h' : ReadsOptional source text' rest') : text' = text ∧ rest' = rest := by
  induction h generalizing text' with
  | close =>
    cases h' with
    | close => exact ⟨rfl, rfl⟩
    | char hc _ => simp at hc
  | escaped _ ih =>
    cases h' with
    | escaped h' =>
      obtain ⟨rfl, rfl⟩ := ih h'
      exact ⟨rfl, rfl⟩
    | char hc _ => simp at hc
  | char hc _ ih =>
    cases h' with
    | close => simp at hc
    | escaped _ => simp at hc
    | char _ h' =>
      obtain ⟨rfl, rfl⟩ := ih h'
      exact ⟨rfl, rfl⟩

/-- The first of some elements cuts a list in one way. -/
theorem cut_unique {α : Type} {p : α → Prop} {u u' x x' : List α} {d d' : α}
    (h : ∀ e ∈ u, ¬p e) (h' : ∀ e ∈ u', ¬p e) (hd : p d) (hd' : p d')
    (he : u ++ d :: x = u' ++ d' :: x') : u' = u ∧ d' = d ∧ x' = x := by
  induction u generalizing u' with
  | nil =>
    cases u' with
    | nil => simpa [eq_comm] using he
    | cons e u' =>
      obtain ⟨rfl, -⟩ := List.cons.inj he
      exact absurd hd (h' _ List.mem_cons_self)
  | cons e u ih =>
    cases u' with
    | nil =>
      obtain ⟨rfl, -⟩ := List.cons.inj he
      exact absurd hd' (h _ List.mem_cons_self)
    | cons e' u' =>
      simp only [List.cons_append, List.cons.injEq] at he
      obtain ⟨rfl, he⟩ := he
      obtain ⟨rfl, rfl, rfl⟩ := ih (fun e he => h e (List.mem_cons_of_mem _ he))
        (fun e he => h' e (List.mem_cons_of_mem _ he)) he
      exact ⟨rfl, rfl, rfl⟩

/-- A source stands for one list of items. -/
theorem reads_unique (h : Reads source items) (h' : Reads source items') : items' = items := by
  induction h generalizing items' with
  | nil =>
    cases h'
    rfl
  | escaped _ ih =>
    cases h' with
    | escaped h' => rw [ih h']
    | blank hb _ => simp [isBlank, Ranges.holds, blanks] at hb
    | char _ hc _ => simp at hc
  | backslash =>
    cases h' with
    | backslash => rfl
    | blank hb _ => simp [isBlank, Ranges.holds, blanks] at hb
    | char _ hc _ => simp at hc
  | blank hb _ ih =>
    cases h' with
    | blank _ h' => rw [ih h']
    | char hc _ _ => simp [hb] at hc
    | _ => simp [isBlank, Ranges.holds, blanks] at hb
  | optional ho _ _ ih =>
    cases h' with
    | optional ho' _ h' =>
      obtain ⟨rfl, rfl⟩ := readsOptional_unique ho ho'
      rw [ih h']
    | blank hb _ => simp [isBlank, Ranges.holds, blanks] at hb
    | char _ hc _ => simp at hc
  | parameter hn _ ih =>
    generalize hs : '\x7b' :: (_ ++ '\x7d' :: _) = s at h'
    cases h' with
    | parameter hn' h' =>
      obtain ⟨-, hs⟩ := List.cons.inj hs
      obtain ⟨rfl, -, rfl⟩ := cut_unique (p := (· = '\x7d')) (fun c hc => (hn c hc).2)
        (fun c hc => (hn' c hc).2) rfl rfl hs
      rw [ih h']
    | blank hb _ =>
      cases hs
      simp [isBlank, Ranges.holds, blanks] at hb
    | char _ hc _ =>
      cases hs
      simp at hc
    | _ => cases hs
  | slash _ ih =>
    cases h' with
    | slash h' => rw [ih h']
    | blank hb _ => simp [isBlank, Ranges.holds, blanks] at hb
    | char _ hc _ => simp at hc
  | char hb hc _ ih =>
    cases h' with
    | char _ _ h' => rw [ih h']
    | blank hb' _ => simp [hb] at hb'
    | _ => simp at hc

def tokenItems : Token → List Item
  | .text t => t.toList.map .char
  | .space t => t.toList.map .blank
  | .parameter name _ => [.parameter name]
  | .optional t => [.optional t.toList]
  | .slash _ => [.slash]

def pending (mode : Mode) (run : List Char) : List Item :=
  run.reverse.map (if mode = .space then Item.blank else Item.char)

def Completes (mode : Mode) (run source : List Char) (items : List Item) : Prop :=
  match mode with
  | .text | .space => ∃ more, Reads source more ∧ items = pending mode run ++ more
  | .parameter _ => ∃ name rest more, source = name ++ '\x7d' :: rest ∧
      (∀ c ∈ name, c ≠ '\x7b' ∧ c ≠ '\x7d') ∧ Reads rest more ∧
      items = .parameter (String.ofList (run.reverse ++ name)) :: more
  | .optional _ => ∃ text rest more, ReadsOptional source text rest ∧ run.reverse ++ text ≠ [] ∧
      Reads rest more ∧ items = .optional (run.reverse ++ text) :: more

def Spaced (tokens : List Token) : Prop :=
  ∀ t, .space t ∈ tokens → t.toList ≠ []

section
variable {mode : Mode} {pos : Nat} {run : List Char} {tokens : List Token}

theorem completes_open (hp : ∀ start, mode ≠ .parameter start)
    (ho : ∀ start, mode ≠ .optional start) : Completes mode run source items ↔
      ∃ more, Reads source more ∧ items = pending mode run ++ more := by
  cases mode with
  | text | space => rfl
  | parameter start => exact absurd rfl (hp start)
  | optional start => exact absurd rfl (ho start)

theorem flush_items : (flush mode run tokens).flatMap tokenItems =
    pending mode run ++ tokens.flatMap tokenItems := by
  unfold flush pending
  cases run with
  | nil => simp
  | cons c run =>
    by_cases hm : mode = .space
    · simp [hm, tokenItems]
    · simp [hm, tokenItems]

theorem spaced_flush (h : Spaced tokens) : Spaced (flush mode run tokens) := by
  unfold flush
  split
  · exact h
  · rename_i hr
    split
    · intro t ht
      rcases List.mem_cons.mp ht with heq | ht
      · cases heq
        simpa using hr
      · exact h t ht
    · intro t ht
      rcases List.mem_cons.mp ht with heq | ht
      · cases heq
      · exact h t ht

theorem spaced_cons {t : Token} (ht : ∀ text, t ≠ .space text) (h : Spaced tokens) :
    Spaced (t :: tokens) := by
  intro text hm
  rcases List.mem_cons.mp hm with rfl | hm
  · exact absurd rfl (ht text)
  · exact h text hm

/-- A character of text goes on with the text that has been collected, or comes after the space. -/
theorem started_items {c : Char} {more : List Item}
    (hp : ∀ start, mode ≠ .parameter start) (ho : ∀ start, mode ≠ .optional start)
    (h : tokens.flatMap tokenItems =
      pending .text (c :: if mode = .text then run else []) ++ more) :
    (if mode = .text then tokens else flush mode run tokens).flatMap tokenItems =
      pending mode run ++ .char c :: more := by
  cases mode with
  | text => simp [pending, h]
  | space => simp [pending, flush_items, h]
  | parameter start => exact absurd rfl (hp start)
  | optional start => exact absurd rfl (ho start)

theorem spaced_started (h : Spaced tokens) :
    Spaced (if mode = .text then tokens else flush mode run tokens) := by
  split
  · exact h
  · exact spaced_flush h

theorem scan_completes (h : scan mode pos run source = .ok tokens) :
    Completes mode run source (tokens.flatMap tokenItems) ∧ Spaced tokens := by
  fun_induction scan mode pos run source generalizing tokens with
  | case1 pos run =>
    cases h
    exact ⟨⟨[], .nil, by rw [flush_items]; rfl⟩, spaced_flush (by simp [Spaced])⟩
  | case2 pos run =>
    cases h
    exact ⟨⟨[], .nil, by rw [flush_items]; rfl⟩, spaced_flush (by simp [Spaced])⟩
  | case3 => contradiction
  | case4 => contradiction
  | case5 start pos run rest ih =>
    simp only [bind_eq_ok, pure_eq_ok] at h
    obtain ⟨ts, hs, rfl⟩ := h
    obtain ⟨⟨more, hr, he⟩, hsp⟩ := ih hs
    refine ⟨⟨[], rest, more, rfl, by simp, hr, ?_⟩, spaced_cons (by simp) hsp⟩
    simpa [tokenItems, pending] using he
  | case6 => contradiction
  | case7 start pos run c rest hc hb ih =>
    obtain ⟨⟨name, rest', more, rfl, hn, hr, he⟩, hsp⟩ := ih h
    refine ⟨⟨c :: name, rest', more, rfl, ?_, hr, by simpa using he⟩, hsp⟩
    intro d hd
    rcases List.mem_cons.mp hd with rfl | hd
    · exact ⟨hb, hc⟩
    · exact hn d hd
  | case8 => simp [scan] at h
  | case9 start pos run e rest ih =>
    obtain ⟨⟨text, rest', more, ho, hne, hr, he⟩, hsp⟩ := ih h
    exact ⟨⟨e :: text, rest', more, .escaped ho, by simp, hr, by simpa using he⟩, hsp⟩
  | case10 => contradiction
  | case11 start pos run rest hne _ ih =>
    simp only [bind_eq_ok, pure_eq_ok] at h
    obtain ⟨ts, hs, rfl⟩ := h
    obtain ⟨⟨more, hr, he⟩, hsp⟩ := ih hs
    refine ⟨⟨[], rest, more, .close, by simpa using hne, hr, ?_⟩, spaced_cons (by simp) hsp⟩
    simpa [tokenItems, pending] using he
  | case12 => contradiction
  | case13 => contradiction
  | case14 start pos run c rest h₁ h₂ h₃ h₄ ih =>
    obtain ⟨⟨text, rest', more, ho, hne, hr, he⟩, hsp⟩ := ih h
    exact ⟨⟨c :: text, rest', more, .char (by simp [h₁, h₂, h₃, h₄]) ho, by simp, hr,
      by simpa using he⟩, hsp⟩
  | case15 mode pos run hp ho started before =>
    rename_i ih
    obtain ⟨ts, hs, rfl⟩ := map_eq_ok.mp h
    obtain ⟨⟨more, hr, he⟩, hsp⟩ := ih hs
    cases hr
    exact ⟨(completes_open hp ho).mpr ⟨_, .backslash, started_items hp ho he⟩, spaced_started hsp⟩
  | case16 mode pos run hp ho started before e rest =>
    rename_i ih
    obtain ⟨ts, hs, rfl⟩ := map_eq_ok.mp h
    obtain ⟨⟨more, hr, he⟩, hsp⟩ := ih hs
    exact ⟨(completes_open hp ho).mpr ⟨_, .escaped hr, started_items hp ho he⟩, spaced_started hsp⟩
  | case17 pos run c rest _ hb _ _ =>
    rename_i ih
    obtain ⟨⟨more, hr, he⟩, hsp⟩ := ih h
    exact ⟨⟨_, .blank hb hr, by simpa [pending] using he⟩, hsp⟩
  | case18 mode pos run c rest hp ho _ hb _ ih =>
    obtain ⟨ts, hs, rfl⟩ := map_eq_ok.mp h
    obtain ⟨⟨more, hr, he⟩, hsp⟩ := ih hs
    refine ⟨(completes_open hp ho).mpr ⟨_, .blank hb hr, ?_⟩, spaced_flush hsp⟩
    rw [flush_items, he]
    rfl
  | case19 mode pos run rest hp ho _ _ =>
    rename_i ih
    obtain ⟨ts, hs, rfl⟩ := map_eq_ok.mp h
    obtain ⟨⟨name, rest', more, rfl, hn, hr, he⟩, hsp⟩ := ih hs
    refine ⟨(completes_open hp ho).mpr ⟨_, .parameter hn hr, ?_⟩, spaced_flush hsp⟩
    rw [flush_items, he]
    rfl
  | case20 mode pos run rest hp ho _ _ _ =>
    rename_i ih
    obtain ⟨ts, hs, rfl⟩ := map_eq_ok.mp h
    obtain ⟨⟨text, rest', more, hread, hne, hr, he⟩, hsp⟩ := ih hs
    refine ⟨(completes_open hp ho).mpr ⟨_, .optional hread hne hr, ?_⟩, spaced_flush hsp⟩
    rw [flush_items, he]
    rfl
  | case21 mode pos run rest hp ho _ _ _ _ =>
    rename_i ih
    obtain ⟨ts, hs, rfl⟩ := map_eq_ok.mp h
    obtain ⟨⟨more, hr, he⟩, hsp⟩ := ih hs
    refine ⟨(completes_open hp ho).mpr ⟨_, .slash hr, ?_⟩,
      spaced_flush (spaced_cons (by simp) hsp)⟩
    rw [flush_items, List.flatMap_cons, he]
    rfl
  | case22 => contradiction
  | case23 mode pos run c rest hp ho started before h₁ h₂ h₃ h₄ h₅ h₆ =>
    rename_i ih
    obtain ⟨ts, hs, rfl⟩ := map_eq_ok.mp h
    obtain ⟨⟨more, hr, he⟩, hsp⟩ := ih hs
    have hc : c ∉ ['\\', '\x7b', '\x7d', '(', ')', '/'] := by
      rw [not_or] at h₆
      simp [h₁, h₃, h₄, h₅, h₆.1, h₆.2]
    exact ⟨(completes_open hp ho).mpr ⟨_, .char (by simpa using h₂) hc hr, started_items hp ho he⟩,
      spaced_started hsp⟩

/-- The tokens of a source have the items that it stands for. -/
theorem tokens_reads (h : Expression.tokens source = .ok tokens) :
    Reads source (tokens.flatMap tokenItems) ∧ Spaced tokens := by
  obtain ⟨⟨more, hr, he⟩, hs⟩ := scan_completes h
  rw [he]
  exact ⟨hr, hs⟩

theorem scan_optional_plain {start : Nat} {c : Char} (hc : c ≠ '\\') :
    scan (.optional start) pos run (c :: rest) =
      if c = ')' then
        if run.isEmpty then .error (.emptyOptional start)
        else do return .optional (String.ofList run.reverse) :: (← scan .text (pos + 1) [] rest)
      else if c = '\x7b' then .error (.parameterInOptional pos)
      else if c = '(' then .error (.nestedOptional pos)
      else scan (.optional start) (pos + c.utf8Size) (c :: run) rest := by
  cases rest with
  | nil => rw [scan.eq_6, if_neg hc]
  | cons e rest => rw [scan.eq_7, if_neg hc]

theorem scan_optional {start : Nat} (h : ReadsOptional source text rest)
    (hr : ∀ pos, ∃ ts, scan .text pos [] rest = .ok ts) (pos : Nat) (run : List Char)
    (hne : run.reverse ++ text ≠ []) : ∃ ts, scan (.optional start) pos run source = .ok ts := by
  induction h generalizing pos run with
  | close =>
    obtain ⟨ts, hs⟩ := hr (pos + 1)
    have hrun : run ≠ [] := by simpa using hne
    refine ⟨.optional (String.ofList run.reverse) :: ts, ?_⟩
    rw [scan_optional_plain (by decide)]
    simp [hrun, hs]
  | @escaped c _ _ _ _ ih =>
    obtain ⟨ts, hs⟩ := ih hr (pos + 1 + c.utf8Size) (c :: run) (by simp)
    exact ⟨ts, by simpa [scan] using hs⟩
  | @char c _ _ _ hc _ ih =>
    obtain ⟨ts, hs⟩ := ih hr (pos + c.utf8Size) (c :: run) (by simp)
    obtain ⟨h₁, h₂, h₃, h₄⟩ : c ≠ '\\' ∧ c ≠ ')' ∧ c ≠ '(' ∧ c ≠ '\x7b' := by simpa using hc
    refine ⟨ts, ?_⟩
    rw [scan_optional_plain h₁, if_neg h₂, if_neg h₄, if_neg h₃]
    exact hs

theorem scan_parameter {name : List Char} {start : Nat}
    (h : ∀ c ∈ name, c ≠ '\x7b' ∧ c ≠ '\x7d')
    (hr : ∀ pos, ∃ ts, scan .text pos [] rest = .ok ts) (pos : Nat) (run : List Char) :
    ∃ ts, scan (.parameter start) pos run (name ++ '\x7d' :: rest) = .ok ts := by
  induction name generalizing pos run with
  | nil =>
    obtain ⟨ts, hs⟩ := hr (pos + 1)
    refine ⟨.parameter (String.ofList run.reverse) start :: ts, ?_⟩
    simp [scan, hs]
  | cons c name ih =>
    obtain ⟨hc, hn⟩ := List.forall_mem_cons.mp h
    obtain ⟨ts, hs⟩ := ih hn (pos + c.utf8Size) (c :: run)
    exact ⟨ts, by simpa [scan, hc] using hs⟩

theorem open_mode (h : mode = .text ∨ mode = .space) :
    (∀ start, mode = .parameter start → False) ∧ ∀ start, mode = .optional start → False := by
  rcases h with rfl | rfl <;> simp

/-- A backslash makes the character after it a character of text. -/
theorem scan_escaped {e : Char} (hm : mode = .text ∨ mode = .space) :
    scan mode pos run ('\\' :: e :: rest) =
      (fun tokens => if mode = .text then tokens else flush mode run tokens) <$>
        scan .text (pos + 1 + e.utf8Size) (e :: if mode = .text then run else []) rest := by
  obtain ⟨hp, ho⟩ := open_mode hm
  rw [scan.eq_9 _ _ _ _ _ _ hp ho, if_pos rfl]

/-- A backslash at the end is a character of text itself. -/
theorem scan_backslash (hm : mode = .text ∨ mode = .space) :
    scan mode pos run ['\\'] =
      (fun tokens => if mode = .text then tokens else flush mode run tokens) <$>
        scan .text (pos + 1) ('\\' :: if mode = .text then run else []) [] := by
  obtain ⟨hp, ho⟩ := open_mode hm
  rw [scan.eq_8 _ _ _ _ hp ho, if_pos rfl]

theorem scan_plain {c : Char} (hc : c ≠ '\\') (hm : mode = .text ∨ mode = .space) :
    scan mode pos run (c :: rest) =
      if isBlank c then
        if mode = .space then scan .space (pos + c.utf8Size) (c :: run) rest
        else flush mode run <$> scan .space (pos + c.utf8Size) [c] rest
      else if c = '\x7b' then flush mode run <$> scan (.parameter pos) (pos + 1) [] rest
      else if c = '(' then flush mode run <$> scan (.optional pos) (pos + 1) [] rest
      else if c = '/' then
        (fun tokens => flush mode run (.slash pos :: tokens)) <$> scan .text (pos + 1) [] rest
      else if c = '\x7d' ∨ c = ')' then .error (.unexpectedCharacter c pos)
      else (fun tokens => if mode = .text then tokens else flush mode run tokens) <$>
        scan .text (pos + c.utf8Size) (c :: if mode = .text then run else []) rest := by
  obtain ⟨hp, ho⟩ := open_mode hm
  cases rest with
  | nil => rw [scan.eq_8 _ _ _ _ hp ho, if_neg hc]
  | cons e rest => rw [scan.eq_9 _ _ _ _ _ _ hp ho, if_neg hc]

theorem exists_map_ok {x : Except Error (List Token)} {g : List Token → List Token}
    (h : ∃ ts, x = .ok ts) : ∃ ts, g <$> x = .ok ts := by
  obtain ⟨ts, rfl⟩ := h
  exact ⟨g ts, rfl⟩

/-- A source that stands for items has tokens. -/
theorem scan_of_reads (h : Reads source items) (hm : mode = .text ∨ mode = .space) (pos : Nat)
    (run : List Char) : ∃ ts, scan mode pos run source = .ok ts := by
  induction h generalizing mode pos run with
  | nil => rcases hm with rfl | rfl <;> exact ⟨_, rfl⟩
  | @escaped c source items _ ih =>
    rw [scan_escaped hm]
    exact exists_map_ok (ih (.inl rfl) _ _)
  | backslash =>
    rw [scan_backslash hm]
    exact exists_map_ok ⟨_, rfl⟩
  | @blank c source items hb _ ih =>
    have hc : c ≠ '\\' := by
      rintro rfl
      revert hb
      decide
    rw [scan_plain hc hm, if_pos hb]
    split
    · exact ih (.inr rfl) _ _
    · exact exists_map_ok (ih (.inr rfl) _ _)
  | @optional source text rest items ht hne _ ih =>
    rw [scan_plain (by decide) hm, if_neg (by decide), if_neg (by decide), if_pos rfl]
    refine exists_map_ok (scan_optional ht (fun pos => ih (.inl rfl) pos []) _ _ ?_)
    simpa using hne
  | @parameter name rest items hn _ ih =>
    rw [scan_plain (by decide) hm, if_neg (by decide), if_pos rfl]
    exact exists_map_ok (scan_parameter hn (fun pos => ih (.inl rfl) pos []) _ _)
  | @slash source items _ ih =>
    rw [scan_plain (by decide) hm, if_neg (by decide), if_neg (by decide), if_neg (by decide),
      if_pos rfl]
    exact exists_map_ok (ih (.inl rfl) _ _)
  | @char c source items hb hc _ ih =>
    obtain ⟨h₁, h₂, h₃, h₄, h₅, h₆⟩ : c ≠ '\\' ∧ c ≠ '\x7b' ∧ c ≠ '\x7d' ∧ c ≠ '(' ∧ c ≠ ')' ∧
        c ≠ '/' := by simpa using hc
    have h₇ : ¬(c = '\x7d' ∨ c = ')') := by simp [h₃, h₅]
    rw [scan_plain h₁ hm, if_neg (by simp [hb]), if_neg h₂, if_neg h₄, if_neg h₆, if_neg h₇]
    exact exists_map_ok (ih (.inl rfl) _ _)

end

end Brine.Proofs.ExpressionReading
