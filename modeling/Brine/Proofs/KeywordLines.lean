import Brine.Proofs.DefaultLanguage
import Brine.Proofs.ExpressionReading
import Brine.Proofs.StepKeywords

namespace Brine.Proofs.KeywordLines
open Line Text LineShapes DefaultLanguage StepKeywords

/-- The keywords of headings can be told apart: none has a colon, and none is listed under two
kinds. -/
structure Clear (lists : List (Kind × List String)) : Prop where
  colon : ∀ entry ∈ lists, ∀ w ∈ entry.2, ':' ∉ w.toList
  alone : ∀ entry ∈ lists, ∀ other ∈ lists, ∀ w ∈ entry.2, w ∈ other.2 → entry.1 = other.1

def headingIn (lists : List (Kind × List String)) (line : List Char) :
    Option (Kind × String × List Char) :=
  lists.findSome? fun (kind, keywords) => keywords.findSome? fun keyword => do
    let rest ← after? keyword.toList line
    let title ← after? [':'] rest
    return (kind, keyword, trim title)

theorem headingIn_headingLists (d : Dialect) : headingIn (headingLists d) = heading? d := rfl

/-- What the line is as a heading: a keyword of the kind, a colon, and the rest. -/
structure HeadingOf (lists : List (Kind × List String)) (line : List Char) (kind : Kind)
    (keyword : String) (rest : List Char) : Prop where
  listed : Listed lists kind keyword
  starts : line = keyword.toList ++ ':' :: rest

section Headings

variable {lists lists' : List (Kind × List String)} {line rest rest' : List Char}
  {kind kind' : Kind} {keyword keyword' : String}

theorem Clear.not_colon (h : Clear lists) (hl : Listed lists kind keyword) :
    ':' ∉ keyword.toList := by
  obtain ⟨words, hm, hw⟩ := hl
  exact h.colon _ hm keyword hw

theorem Clear.kind_eq (h : Clear lists) (hl : Listed lists kind keyword)
    (hl' : Listed lists kind' keyword) : kind = kind' := by
  obtain ⟨words, hm, hw⟩ := hl
  obtain ⟨words', hm', hw'⟩ := hl'
  exact h.alone _ hm _ hm' keyword hw hw'

theorem Clear.congr (h : Clear lists) (hs : ∀ a w, Listed lists a w ↔ Listed lists' a w) :
    Clear lists' where
  colon := by
    intro entry hm w hw
    exact h.not_colon ((hs entry.1 w).mpr ⟨entry.2, hm, hw⟩)
  alone := by
    intro entry hm other hm' w hw hw'
    exact h.kind_eq ((hs entry.1 w).mpr ⟨entry.2, hm, hw⟩) ((hs other.1 w).mpr ⟨other.2, hm', hw'⟩)

/-- The keyword ends at the first colon of the line, so a line is one heading at most. -/
theorem HeadingOf.unique (hc : Clear lists) (h : HeadingOf lists line kind keyword rest)
    (h' : HeadingOf lists line kind' keyword' rest') :
    kind = kind' ∧ keyword = keyword' ∧ rest = rest' := by
  have hcut : ∀ {kind : Kind} {w : String}, Listed lists kind w → ∀ c ∈ w.toList, ¬c = ':' := by
    rintro kind w hl c hm rfl
    exact hc.not_colon hl hm
  obtain ⟨hk, -, hr⟩ := ExpressionReading.cut_unique (hcut h'.listed) (hcut h.listed) rfl rfl
    (h'.starts.symm.trans h.starts)
  obtain rfl := String.toList_inj.mp hk
  exact ⟨hc.kind_eq h.listed h'.listed, rfl, hr⟩

theorem headingOf_of_headingIn {title : List Char}
    (h : headingIn lists line = some (kind, keyword, title)) :
    ∃ rest, HeadingOf lists line kind keyword rest ∧ title = trim rest := by
  obtain ⟨⟨k, words⟩, hm, hf⟩ := List.exists_of_findSome?_eq_some h
  obtain ⟨w, hw, he⟩ := List.exists_of_findSome?_eq_some hf
  simp only [Option.bind_eq_bind, Option.bind_eq_some_iff, after?_iff] at he
  obtain ⟨_, rfl, rest, rfl, he⟩ := he
  cases he
  exact ⟨rest, ⟨⟨words, hm, hw⟩, rfl⟩, rfl⟩

theorem headingIn_ne_none (h : HeadingOf lists line kind keyword rest) :
    headingIn lists line ≠ none := by
  obtain ⟨⟨words, hm, hw⟩, rfl⟩ := h
  intro hn
  have hn := List.findSome?_eq_none_iff.mp (List.findSome?_eq_none_iff.mp hn _ hm) keyword hw
  have hk : after? keyword.toList (keyword.toList ++ ':' :: rest) = some (':' :: rest) :=
    after?_iff.mpr rfl
  have hcolon : after? [':'] (':' :: rest) = some rest := after?_iff.mpr rfl
  simp [hk, hcolon] at hn

/-- A heading is found exactly as it is in the line. -/
theorem headingIn_eq_some (hc : Clear lists) {title : List Char} :
    headingIn lists line = some (kind, keyword, title) ↔
      ∃ rest, HeadingOf lists line kind keyword rest ∧ title = trim rest := by
  refine ⟨headingOf_of_headingIn, ?_⟩
  rintro ⟨rest, h, rfl⟩
  obtain ⟨⟨kind', keyword', title⟩, hs⟩ := Option.ne_none_iff_exists'.mp (headingIn_ne_none h)
  obtain ⟨rest', h', rfl⟩ := headingOf_of_headingIn hs
  obtain ⟨rfl, rfl, rfl⟩ := h.unique hc h'
  exact hs

theorem headingIn_eq_none : headingIn lists line = none ↔
    ∀ kind keyword rest, ¬HeadingOf lists line kind keyword rest := by
  constructor
  · exact fun hn kind keyword rest h => headingIn_ne_none h hn
  · intro h
    rw [Option.eq_none_iff_forall_ne_some]
    rintro ⟨kind, keyword, title⟩ hs
    obtain ⟨rest, hh, -⟩ := headingOf_of_headingIn hs
    exact h kind keyword rest hh

/-- Only which keyword is listed under which kind matters. -/
theorem headingIn_congr (hc : Clear lists) (hs : ∀ a w, Listed lists a w ↔ Listed lists' a w) :
    headingIn lists = headingIn lists' := by
  funext line
  apply Option.ext
  rintro ⟨kind, keyword, title⟩
  rw [headingIn_eq_some hc, headingIn_eq_some (hc.congr hs)]
  refine exists_congr fun rest => and_congr_left fun _ => ?_
  exact ⟨fun h => ⟨(hs _ _).mp h.listed, h.starts⟩, fun h => ⟨(hs _ _).mpr h.listed, h.starts⟩⟩

end Headings

/-- The line is neither blank nor a comment, tags, a separator of doc strings or a row. -/
structure Plain (line : List Char) : Prop where
  head : (trimStart line).head? ∉ [none, some '#', some '@', some '|']
  separator : ∀ d : Delimiter, ¬d.chars <+: trimStart line

/-- What a line is that keywords decide. -/
inductive Classified (d : Dialect) (location : Location) (line : List Char) : Token → Prop
  | heading {kind : Kind} {keyword : String} {rest : List Char} :
      HeadingOf (headingLists d) (trimStart line) kind keyword rest →
      Classified d location line
        { kind, location, keyword := some keyword, text := String.ofList (trim rest) }
  | step {keyword : String} {type : KeywordType} {rest : List Char} :
      (∀ kind w r, ¬HeadingOf (headingLists d) (trimStart line) kind w r) →
      StepOf d (trimStart line) keyword type rest →
      Classified d location line
        { kind := .step, location, keyword := some keyword, keywordType := some type,
          text := String.ofList (trimEnd rest) }
  | other :
      (∀ kind w r, ¬HeadingOf (headingLists d) (trimStart line) kind w r) →
      (∀ t w, Listed d.stepLists t w → ¬w.toList <+: trimStart line) →
      Classified d location line
        { kind := .other, location, text := String.ofList (trimEnd line) }

section Lines

variable {d d' : Dialect} {location : Location} {line : List Char} {t t' : Token}

theorem keywordLine_classified (d : Dialect) (location : Location) (line : List Char) :
    Classified d location line (keywordLine d location line (trimStart line)) := by
  unfold keywordLine
  rw [← headingIn_headingLists]
  cases hh : headingIn (headingLists d) (trimStart line) with
  | some found =>
    obtain ⟨kind, keyword, title⟩ := found
    obtain ⟨rest, h, rfl⟩ := headingOf_of_headingIn hh
    exact .heading h
  | none =>
    have hn := headingIn_eq_none.mp hh
    cases hs : step? d (trimStart line) with
    | some found =>
      obtain ⟨keyword, type, text⟩ := found
      obtain ⟨rest, h, rfl⟩ := stepOf_of_step? hs
      exact .step hn h
    | none => exact .other hn (step?_eq_none.mp hs)

/-- A line is one thing only. -/
theorem Classified.unique (hc : Clear (headingLists d)) (h : Classified d location line t)
    (h' : Classified d location line t') : t = t' := by
  cases h with
  | heading hh =>
    cases h' with
    | heading hh' =>
      obtain ⟨rfl, rfl, rfl⟩ := hh.unique hc hh'
      rfl
    | step hn _ => exact absurd hh (hn _ _ _)
    | other hn _ => exact absurd hh (hn _ _ _)
  | step hn hs =>
    cases h' with
    | heading hh' => exact absurd hh' (hn _ _ _)
    | step _ hs' =>
      obtain ⟨rfl, rfl, rfl⟩ := hs.unique hs'
      rfl
    | other _ hno =>
      obtain ⟨t, ht⟩ := hs.joint.types_nonempty
      exact absurd ⟨_, hs.starts.symm⟩ (hno t _ ht)
  | other hn hno =>
    cases h' with
    | heading hh' => exact absurd hh' (hn _ _ _)
    | step _ hs' =>
      obtain ⟨t, ht⟩ := hs'.joint.types_nonempty
      exact absurd ⟨_, hs'.starts.symm⟩ (hno t _ ht)
    | other => rfl

/-- A line outside of doc strings that nothing but keywords decides. -/
theorem read_plain {table : Table} {settings : Settings} {r : Reader} {number : Nat}
    (hd : r.docString = none) (hp : Plain line) :
    r.read table settings number line =
      (keywordLine r.dialect ⟨number, indent line + 1⟩ line (trimStart line),
        { r with hasContent := true }) := by
  have ho : opening? (trimStart line) = none := by
    rw [opening?, List.findSome?_eq_none_iff]
    intro d _
    have ha : after? d.chars (trimStart line) = none := by
      rw [Option.eq_none_iff_forall_ne_some]
      exact fun rest hr => hp.separator d ⟨rest, (after?_iff.mp hr).symm⟩
    rw [ha]
    rfl
  have hr : r.readPlain table settings number line =
      (keywordLine r.dialect ⟨number, indent line + 1⟩ line (trimStart line), r) := by
    have hh := hp.head
    cases he : trimStart line with
    | nil => simp [he] at hh
    | cons c rest =>
      rw [he] at ho
      simp only [he, List.head?_cons, List.mem_cons, reduceCtorEq, Option.some.injEq, false_or,
        List.not_mem_nil, or_false, not_or] at hh
      obtain ⟨hhash, hat, hpipe⟩ := hh
      simp [Reader.readPlain, he, ho, hpipe]
  have hk := keywordLine_counts r.dialect ⟨number, indent line + 1⟩ line (trimStart line)
  rw [Reader.read, hd]
  dsimp only
  rw [hr]
  generalize keywordLine r.dialect _ _ _ = token at hk
  have ht : ¬(token.kind = .empty ∨ token.kind = .comment ∨ token.kind = .language) := by
    rintro (he | he | he) <;> simp [he, isTrivia] at hk
  rw [if_neg ht, ← hd]

end Lines

/-- What a line is when its headings are looked for in these lists. -/
def keywordLineIn (lists : List (Kind × List String)) (d : Dialect) (location : Location)
    (line trimmed : List Char) : Token :=
  match headingIn lists trimmed with
  | some (kind, keyword, title) =>
    { kind, location, keyword := some keyword, text := String.ofList title }
  | none =>
    match step? d trimmed with
    | some (keyword, type, text) =>
      { kind := .step, location, keyword := some keyword, keywordType := some type,
        text := String.ofList text }
    | none => { kind := .other, location, text := String.ofList (trimEnd line) }

theorem keywordLineIn_headingLists (d : Dialect) :
    keywordLineIn (headingLists d) d = keywordLine d := rfl

/-- The same keywords are listed under the same kinds and types, in whatever order and how often. -/
structure SameKeywords (d d' : Dialect) : Prop where
  headings : ∀ kind w, Listed (headingLists d) kind w ↔ Listed (headingLists d') kind w
  steps : ∀ type w, Listed d.stepLists type w ↔ Listed d'.stepLists type w

def SameList {α : Type} (p q : α × List String) : Prop :=
  p.1 = q.1 ∧ ∀ w, w ∈ p.2 ↔ w ∈ q.2

theorem listed_cons {α : Type} {p : α × List String} {lists : List (α × List String)} {a : α}
    {w : String} : Listed (p :: lists) a w ↔ (p.1 = a ∧ w ∈ p.2) ∨ Listed lists a w := by
  constructor
  · rintro ⟨words, hm, hw⟩
    rcases List.mem_cons.mp hm with rfl | hm
    · exact .inl ⟨rfl, hw⟩
    · exact .inr ⟨words, hm, hw⟩
  · rintro (⟨rfl, hw⟩ | ⟨words, hm, hw⟩)
    · exact ⟨p.2, List.mem_cons_self, hw⟩
    · exact ⟨words, List.mem_cons_of_mem _ hm, hw⟩

theorem listed_same {α : Type} {lists lists' : List (α × List String)}
    (h : List.Forall₂ SameList lists lists') (a : α) (w : String) :
    Listed lists a w ↔ Listed lists' a w := by
  induction h with
  | nil => rfl
  | cons hp _ ih => rw [listed_cons, listed_cons, hp.1, hp.2 w, ih]

/-- To order the entries of some lists in another way or to repeat them keeps the keywords. -/
theorem SameKeywords.of_lists {d d' : Dialect}
    (h : List.Forall₂ SameList (headingLists d) (headingLists d'))
    (h' : List.Forall₂ SameList d.stepLists d'.stepLists) : SameKeywords d d' :=
  ⟨listed_same h, listed_same h'⟩

theorem listed_perm {α : Type} {lists lists' : List (α × List String)} (h : lists.Perm lists')
    (a : α) (w : String) : Listed lists a w ↔ Listed lists' a w :=
  exists_congr fun _ => and_congr_left fun _ => h.mem_iff

section Orders

variable {d d' : Dialect}

theorem SameKeywords.stepOf (h : SameKeywords d d') {line rest : List Char} {keyword : String}
    {type : KeywordType} :
    StepOf d line keyword type rest ↔ StepOf d' line keyword type rest := by
  have htypes : (Listed d.stepLists · keyword) = (Listed d'.stepLists · keyword) := by
    funext t
    exact propext (h.steps t keyword)
  constructor
  · intro hs
    exact ⟨htypes ▸ hs.joint, hs.starts, fun t w hw => hs.longest t w ((h.steps t w).mpr hw)⟩
  · intro hs
    exact ⟨htypes ▸ hs.joint, hs.starts, fun t w hw => hs.longest t w ((h.steps t w).mp hw)⟩

theorem SameKeywords.step? (h : SameKeywords d d') : Line.step? d = Line.step? d' := by
  funext line
  apply Option.ext
  rintro ⟨keyword, type, text⟩
  rw [step?_eq_some, step?_eq_some]
  exact exists_congr fun rest => and_congr_left fun _ => h.stepOf

/-- No order of the lists or in them changes what a line is. -/
theorem keywordLineIn_eq (hc : Clear (headingLists d)) (h : SameKeywords d d')
    {lists : List (Kind × List String)} (hp : lists.Perm (headingLists d')) :
    keywordLineIn lists d' = keywordLine d := by
  have hl : ∀ kind w, Listed (headingLists d) kind w ↔ Listed lists kind w := fun kind w =>
    (h.headings kind w).trans (listed_perm hp kind w).symm
  rw [← keywordLineIn_headingLists]
  funext location line trimmed
  rw [keywordLineIn, keywordLineIn, headingIn_congr hc hl, h.step?]

theorem keywordLine_same (hc : Clear (headingLists d)) (h : SameKeywords d d') :
    keywordLine d' = keywordLine d :=
  keywordLineIn_eq hc h (List.Perm.refl _)

end Orders

/-- The same code, with dialects of the same keywords. -/
def SameEntry (e e' : String × Dialect) : Prop :=
  e.1 = e'.1 ∧ SameKeywords e.2 e'.2

section Tables

variable {entries entries' : List (String × Dialect)} {table table' : Table}

theorem lookup_same (h : List.Forall₂ SameEntry entries entries') (code : String) :
    (entries.lookup code = none ∧ entries'.lookup code = none) ∨
      ∃ d d', entries.lookup code = some d ∧ entries'.lookup code = some d' ∧
        SameKeywords d d' := by
  induction h with
  | nil => exact .inl ⟨rfl, rfl⟩
  | @cons e e' entries entries' he _ ih =>
    obtain ⟨known, d⟩ := e
    obtain ⟨known', d'⟩ := e'
    obtain ⟨hcode, hsame⟩ := he
    obtain rfl : known = known' := hcode
    by_cases hc : code = known
    · subst hc
      exact .inr ⟨d, d', List.lookup_cons_self, List.lookup_cons_self, hsame⟩
    · rw [lookup_cons_ne hc, lookup_cons_ne hc]
      exact ih

theorem foldl_least_same (h : List.Forall₂ SameEntry entries entries') {e e' : String × Dialect}
    (he : SameEntry e e') :
    SameEntry (entries.foldl (fun a b => if b.1 < a.1 then b else a) e)
      (entries'.foldl (fun a b => if b.1 < a.1 then b else a) e') := by
  induction h generalizing e e' with
  | nil => exact he
  | @cons b b' _ _ hb _ ih =>
    refine ih ?_
    dsimp only
    rw [← he.1, ← hb.1]
    split
    · exact hb
    · exact he

theorem resolve_same (h : List.Forall₂ SameEntry table.dialects table'.dialects)
    (default code : String) :
    SameEntry (table.resolve default code) (table'.resolve default code) := by
  have hleast : SameEntry table.least table'.least := by
    obtain ⟨entries, hne⟩ := table
    obtain ⟨entries', hne'⟩ := table'
    cases h with
    | nil => contradiction
    | cons he h => exact foldl_least_same h he
  unfold Table.resolve Table.get?
  rcases lookup_same h code with ⟨hn, hn'⟩ | ⟨d, d', hd, hd', hs⟩
  · rcases lookup_same h default with ⟨hm, hm'⟩ | ⟨d, d', hd, hd', hs⟩
    · rcases lookup_same h fallbackLanguage with ⟨hf, hf'⟩ | ⟨d, d', hd, hd', hs⟩
      · simpa [hn, hn', hm, hm', hf, hf'] using hleast
      · simp [hn, hn', hm, hm', hd, hd', SameEntry, hs]
    · simp [hn, hn', hd, hd', SameEntry, hs]
  · simp [hd, hd', SameEntry, hs]

theorem resolve_mem (table : Table) (default code : String) :
    table.resolve default code ∈ table.dialects := by
  obtain ⟨before, after, he, -⟩ := List.lookup_eq_some_iff.mp (resolve_entry default code)
  rw [he]
  simp

end Tables

structure Alike (r r' : Reader) : Prop where
  language : r.language = r'.language
  keywords : SameKeywords r.dialect r'.dialect
  clear : Clear (headingLists r.dialect)
  docString : r.docString = r'.docString
  hasContent : r.hasContent = r'.hasContent

def Agree (p p' : Token × Reader) : Prop :=
  p.1 = p'.1 ∧ Alike p.2 p'.2

/-- A line counts as content for both readers or for neither. -/
theorem Agree.counted {p p' : Token × Reader} (h : Agree p p') :
    Agree
      (p.1, if p.1.kind = .empty ∨ p.1.kind = .comment ∨ p.1.kind = .language then p.2
        else { p.2 with hasContent := true })
      (p'.1, if p'.1.kind = .empty ∨ p'.1.kind = .comment ∨ p'.1.kind = .language then p'.2
        else { p'.2 with hasContent := true }) := by
  obtain ⟨ht, ha⟩ := h
  refine ⟨ht, ?_⟩
  dsimp only
  rw [← ht]
  split
  · exact ha
  · exact ⟨ha.language, ha.keywords, ha.clear, ha.docString, rfl⟩

section Texts

variable {table table' : Table} {r r' : Reader}
  (ht : List.Forall₂ SameEntry table.dialects table'.dialects)
  (hc : ∀ entry ∈ table.dialects, Clear (headingLists entry.2))
  (settings : Settings) (number : Nat) (line : List Char)

theorem readDocLine_agree (h : Alike r r') (doc : OpenDocString) :
    Agree (r.readDocLine doc number line) (r'.readDocLine doc number line) := by
  unfold Reader.readDocLine
  split
  · exact ⟨rfl, h.language, h.keywords, h.clear, rfl, h.hasContent⟩
  · exact ⟨rfl, h⟩

include ht hc

theorem readComment_agree (h : Alike r r') :
    Agree (r.readComment table settings number line)
      (r'.readComment table' settings number line) := by
  unfold Reader.readComment
  rw [← h.hasContent]
  split
  · rename_i code _
    obtain ⟨hcode, hsame⟩ := resolve_same ht settings.defaultLanguage (String.ofList code)
    have hclear := hc _ (resolve_mem table settings.defaultLanguage (String.ofList code))
    exact ⟨rfl, hcode, hsame, hclear, h.docString, rfl⟩
  · exact ⟨rfl, h⟩

theorem readPlain_agree (h : Alike r r') :
    Agree (r.readPlain table settings number line) (r'.readPlain table' settings number line) := by
  unfold Reader.readPlain
  dsimp only
  split
  · exact ⟨rfl, h⟩
  · exact readComment_agree ht hc settings number line h
  · exact ⟨rfl, h⟩
  · split
    · exact ⟨rfl, h.language, h.keywords, h.clear, rfl, h.hasContent⟩
    · split
      · exact ⟨rfl, h⟩
      · rw [keywordLine_same h.clear h.keywords]
        exact ⟨rfl, h⟩

theorem read_agree (h : Alike r r') :
    Agree (r.read table settings number line) (r'.read table' settings number line) := by
  unfold Reader.read
  rw [← h.docString]
  cases r.docString with
  | some doc => exact (readDocLine_agree number line h doc).counted
  | none => exact (readPlain_agree ht hc settings number line h).counted

theorem readAll_agree (h : Alike r r') (ls : List (List Char)) :
    (r.readAll table settings number ls).1 = (r'.readAll table' settings number ls).1 ∧
      Alike (r.readAll table settings number ls).2 (r'.readAll table' settings number ls).2 := by
  induction ls generalizing r r' number with
  | nil => exact ⟨rfl, h⟩
  | cons line ls ih =>
    have hline : Agree (r.read table settings number line) (r'.read table' settings number line) :=
      read_agree ht hc settings number line h
    obtain ⟨htokens, hlast⟩ := ih (number + 1) hline.2
    exact ⟨congrArg₂ List.cons hline.1 htokens, hlast⟩

theorem tokenize_same (code source : String) :
    tokenize table' settings code source = tokenize table settings code source := by
  obtain ⟨hcode, hsame⟩ := resolve_same ht settings.defaultLanguage code
  have hstart : Alike (.start table settings code) (.start table' settings code) :=
    ⟨hcode, hsame, hc _ (resolve_mem table settings.defaultLanguage code), rfl, rfl⟩
  obtain ⟨htokens, hlast⟩ := readAll_agree ht hc settings 1 hstart (lines source.toList)
  exact congrArg₂ Tokens.mk hlast.language.symm htokens.symm

end Texts

/-- What a line is that keywords decide is said by `Classified`, whatever the order of the lists and
the keywords in them, if the keywords of headings can be told apart; and so no text has other lines
when all its keywords are listed in another way. -/
theorem keywords_canonical (table : Table) (settings : Settings) :
    (∀ (r : Reader) (number : Nat) (line : List Char), r.docString = none →
      Clear (headingLists r.dialect) → Plain line →
      (∀ t, Classified r.dialect ⟨number, indent line + 1⟩ line t ↔
        t = (r.read table settings number line).1) ∧
      ∀ d', SameKeywords r.dialect d' → ∀ lists, lists.Perm (headingLists d') →
        keywordLineIn lists d' ⟨number, indent line + 1⟩ line (trimStart line) =
          (r.read table settings number line).1) ∧
    ∀ table', (∀ entry ∈ table.dialects, Clear (headingLists entry.2)) →
      List.Forall₂ SameEntry table.dialects table'.dialects → ∀ code source,
        tokenize table' settings code source = tokenize table settings code source := by
  constructor
  · intro r number line hd hc hp
    rw [read_plain hd hp]
    constructor
    · intro t
      have hline := keywordLine_classified r.dialect ⟨number, indent line + 1⟩ line
      constructor
      · intro h
        exact h.unique hc hline
      · rintro rfl
        exact hline
    · intro d' hs lists hl
      rw [keywordLineIn_eq hc hs hl]
  · intro table' hc ht code source
    exact tokenize_same ht hc settings code source

/-- The keywords of headings can be told apart in each language that is known from the start. -/
theorem builtin_clear : ∀ entry ∈ Table.builtin.dialects, Clear (headingLists entry.2) := by
  have hc : ∀ entry ∈ Table.builtin.dialects, ∀ list ∈ headingLists entry.2, ∀ w ∈ list.2,
      ':' ∉ w.toList := by decide +kernel
  have ha : ∀ entry ∈ Table.builtin.dialects, ∀ list ∈ headingLists entry.2,
      ∀ other ∈ headingLists entry.2, ∀ w ∈ list.2, w ∈ other.2 → list.1 = other.1 := by
    decide +kernel
  exact fun entry he => ⟨hc entry he, ha entry he⟩

def shuffled (d : Dialect) : Dialect :=
  let twice (words : List String) := words.reverse ++ words
  { d with
    feature := twice d.feature, rule := twice d.rule, background := twice d.background
    scenario := twice d.scenario, scenarioOutline := twice d.scenarioOutline
    examples := twice d.examples, context := twice d.context, action := twice d.action
    outcome := twice d.outcome, conjunction := twice d.conjunction
    contrast := twice d.contrast }

theorem shuffled_same (d : Dialect) : SameKeywords d (shuffled d) := by
  apply SameKeywords.of_lists
  · simp [headingLists, shuffled, SameList]
  · simp [Dialect.stepLists, shuffled, SameList]

def shuffledTable : Table where
  dialects := Table.builtin.dialects.map fun entry => (entry.1, shuffled entry.2)
  nonempty := by simp [Table.builtin]

def outlineLine : List Char :=
  "  Scenario Outline: Given: x ".toList

theorem keywords_canonical_sample :
    let r := Reader.start Table.builtin {} "en"
    (r.docString = none ∧ Clear (headingLists r.dialect) ∧ Plain outlineLine ∧
      (∀ t, Classified r.dialect ⟨1, indent outlineLine + 1⟩ outlineLine t ↔
        t = (r.read Table.builtin {} 1 outlineLine).1) ∧
      keywordLineIn (headingLists (shuffled r.dialect)).reverse (shuffled r.dialect)
        ⟨1, indent outlineLine + 1⟩ outlineLine (trimStart outlineLine) =
          (r.read Table.builtin {} 1 outlineLine).1) ∧
    (List.Forall₂ SameEntry Table.builtin.dialects shuffledTable.dialects ∧
      ∀ code source,
        tokenize shuffledTable {} code source = tokenize Table.builtin {} code source) := by
  have hclear : Clear (headingLists (Reader.start Table.builtin {} "en").dialect) :=
    builtin_clear _ (resolve_mem Table.builtin ({} : Settings).defaultLanguage "en")
  have hplain : Plain outlineLine := by
    refine ⟨by decide, fun d => ?_⟩
    cases d <;> decide
  have hsame : List.Forall₂ SameEntry Table.builtin.dialects shuffledTable.dialects := by
    rw [shuffledTable, List.forall₂_map_right_iff, List.forall₂_same]
    exact fun entry _ => ⟨rfl, shuffled_same entry.2⟩
  obtain ⟨hline, htable⟩ := keywords_canonical Table.builtin {}
  obtain ⟨hiff, horder⟩ :=
    hline (Reader.start Table.builtin {} "en") 1 outlineLine rfl hclear hplain
  exact ⟨⟨rfl, hclear, hplain, hiff, horder _ (shuffled_same _) _ (List.reverse_perm _)⟩,
    hsame, htable shuffledTable builtin_clear hsame⟩

end Brine.Proofs.KeywordLines
