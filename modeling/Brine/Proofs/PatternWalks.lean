import Brine.Proofs.PatternEmbedding
import Brine.Proofs.PatternGroups
import Brine.Proofs.PatternPrefixes

namespace Brine.Proofs.PatternWalks
open Regex Success PatternReaders PatternTokens PatternRuns PatternEmbedding PatternGroups
open PatternPrefixes

variable {s s' : Scanner} {t : Token} {ts us : List Token} {d d' : Draft} {ready ready' : Bool}

def repeatable : Token → Bool
  | .atom _ | .close | .quantifier .. => true
  | _ => false

/-- Whether a token can come next: a repetition needs an expression before it, a closing
parenthesis an open group. -/
def Fits (ready : Bool) (outer : List Flags) : Token → Prop
  | .quantifier .. => ready = true
  | .close => outer ≠ []
  | _ => True

theorem fits_close {outer : List Flags} (h : Fits ready outer t) : t = .close → outer ≠ [] := by
  intro ht
  subst ht
  exact h

def nameOf? : Token → Option String
  | .openCapture name => name
  | _ => none

/-- The names of the groups that tokens open. -/
def names (ts : List Token) : List String :=
  ts.filterMap nameOf?

theorem names_cons : names (t :: ts) = (nameOf? t).toList ++ names ts := by
  cases h : nameOf? t <;> simp [names, h]

theorem names_append : names (ts ++ us) = names ts ++ names us :=
  List.filterMap_append

def isReady (d : Draft) : Bool :=
  match d.group.pieces with
  | some _ :: _ => true
  | _ => false

theorem after_outer {f : Flags} {rest : List Char} :
    (s.after t f rest).outer.length =
      match t with
      | .openCapture _ | .openPlain => s.outer.length + 1
      | .close => s.outer.length - 1
      | _ => s.outer.length := by
  cases t <;> simp [Scanner.after]

theorem push_exists (hl : Level ⟨s, d⟩) (hf : Fits (isReady d) s.outer t)
    (hn : ∀ name ∈ nameOf? t, name ∉ d.names) : ∃ d', d.push t = .ok d' := by
  have hl : s.outer.length = d.outer.length := hl
  cases t with
  | atom | flags | bar | openPlain => exact ⟨_, rfl⟩
  | quantifier low high greedy =>
    have hf : isReady d = true := hf
    unfold isReady at hf
    split at hf
    · rename_i hp
      exact ⟨_, push_iff.mpr (.quantifier hp)⟩
    · contradiction
  | openCapture name => exact ⟨_, push_iff.mpr (.openCapture name hn)⟩
  | close =>
    have hf : s.outer ≠ [] := hf
    obtain ⟨parent, outer, ho⟩ : ∃ parent outer, d.outer = parent :: outer := by
      apply List.exists_cons_of_ne_nil
      intro hnil
      rw [hnil] at hl
      exact hf (List.eq_nil_of_length_eq_zero hl)
    exact ⟨_, push_iff.mpr (.close ho)⟩

def Leaves (ts : List Token) : Prop :=
  ∀ r, .atom r ∈ ts → r.indices = []

variable [Engine]

/-- The names of groups that are written in a pattern, each as often as it is written. -/
def writtenNames (pattern : List Char) : List String :=
  match tokens pattern with
  | .ok ts => names ts
  | .error _ => []

theorem next_iff : s.next = .ok (some (t, s')) ↔ ∃ c cs f' rest,
    skip s.flags.verbose s.rest = c :: cs ∧ Taken s.flags c cs t f' rest ∧
      s' = s.after t f' rest := by
  unfold Scanner.next
  cases skip s.flags.verbose s.rest with
  | nil => simp
  | cons c cs =>
    simp only [bind_eq_ok, pure_eq_ok, Prod.exists, Option.some.injEq, Prod.mk.injEq,
      List.cons.injEq]
    constructor
    · rintro ⟨t', f', rest, ht, rfl, rfl⟩
      exact ⟨c, cs, f', rest, ⟨rfl, rfl⟩, token_ok.mp ht, rfl⟩
    · rintro ⟨_, _, f', rest, ⟨rfl, rfl⟩, ht, rfl⟩
      exact ⟨t, f', rest, token_ok.mpr ht, rfl, rfl⟩

theorem next_eq_none : s.next = .ok none ↔ skip s.flags.verbose s.rest = [] := by
  unfold Scanner.next
  cases skip s.flags.verbose s.rest with
  | nil => simp
  | cons c cs =>
    simp only [bind_eq_ok, pure_eq_ok, reduceCtorEq, and_false, exists_false]

/-- The scanner goes over these tokens; `ready` says whether there is an expression that can be
repeated. -/
inductive Walk : Scanner → Bool → List Token → Scanner → Bool → Prop
  | nil {s : Scanner} {ready : Bool} : Walk s ready [] s ready
  | cons {s s₁ s' : Scanner} {ready ready' : Bool} {t : Token} {ts : List Token} :
      s.next = .ok (some (t, s₁)) → Fits ready s.outer t → Walk s₁ (repeatable t) ts s' ready' →
      Walk s ready (t :: ts) s' ready'

/-- The scanner goes over these tokens to the end of the text; all groups have been closed, and the
flags are `g`. -/
inductive Balanced : Scanner → Bool → List Token → (g : Flags) → Prop
  | nil {s : Scanner} {ready : Bool} : s.next = .ok none → s.outer = [] →
      Balanced s ready [] s.flags
  | cons {s s₁ : Scanner} {ready : Bool} {t : Token} {ts : List Token} {g : Flags} :
      s.next = .ok (some (t, s₁)) → Fits ready s.outer t → Balanced s₁ (repeatable t) ts g →
      Balanced s ready (t :: ts) g

theorem Walk.append {s'' : Scanner} {ready'' : Bool} (h : Walk s ready ts s' ready')
    (h' : Walk s' ready' us s'' ready'') : Walk s ready (ts ++ us) s'' ready'' := by
  induction h with
  | nil => exact h'
  | cons hs hf _ ih => exact .cons hs hf (ih h')

theorem Walk.balanced {g : Flags} (h : Walk s ready ts s' ready') (h' : Balanced s' ready' us g) :
    Balanced s ready (ts ++ us) g := by
  induction h with
  | nil => exact h'
  | cons hs hf _ ih => exact .cons hs hf (ih h')

/-- What a walk leaves of a balanced text is balanced. -/
theorem Walk.remainder {g : Flags} (h : Walk s ready ts s' ready') (h' : Balanced s ready us g) :
    ∃ us', Balanced s' ready' us' g := by
  induction h generalizing us with
  | nil => exact ⟨us, h'⟩
  | cons hs _ _ ih =>
    cases h' with
    | nil hs' =>
      rw [hs] at hs'
      cases hs'
    | cons hs' _ hb =>
      rw [hs] at hs'
      cases hs'
      exact ih hb

/-- An expression that could be repeated does no harm. -/
theorem Walk.of_unready (h : Walk s false ts s' ready') (ready : Bool) :
    ∃ ready'', Walk s ready ts s' ready'' := by
  cases h with
  | nil => exact ⟨ready, .nil⟩
  | @cons _ _ _ _ _ t _ hs hf h =>
    refine ⟨_, .cons hs ?_ h⟩
    cases t with
    | quantifier => exact absurd hf Bool.false_ne_true
    | _ => exact hf

/-- What a token does to the draft. -/
theorem push_ok (hs : s.next = .ok (some (t, s'))) (hl : Level ⟨s, d⟩) (h : d.push t = .ok d') :
    Fits (isReady d) s.outer t ∧ isReady d' = repeatable t ∧ Level ⟨s', d'⟩ ∧
      d'.names = (nameOf? t).toList ++ d.names ∧ ∀ name ∈ nameOf? t, name ∉ d.names := by
  obtain ⟨c, cs, f', rest, -, -, rfl⟩ := next_iff.mp hs
  have hl : s.outer.length = d.outer.length := hl
  cases push_iff.mp h with
  | atom | flags | bar => exact ⟨trivial, rfl, hl, rfl, by simp [nameOf?]⟩
  | quantifier hp => exact ⟨by simp [Fits, isReady, hp], rfl, hl, rfl, by simp [nameOf?]⟩
  | openPlain => exact ⟨trivial, rfl, congrArg (· + 1) hl, rfl, by simp [nameOf?]⟩
  | openCapture name hnew => exact ⟨trivial, rfl, congrArg (· + 1) hl, rfl, hnew⟩
  | close ho =>
    rw [ho, List.length_cons] at hl
    refine ⟨?_, rfl, ?_, rfl, by simp [nameOf?]⟩
    · exact List.ne_nil_of_length_pos (by omega)
    · simp [Level, Scanner.after, hl]

theorem balanced_of_scan {n : Nat} (hn : s.rest.length < n) (h : scan n s = .ok ts)
    (hl : Level ⟨s, d⟩) (hd : ts.foldlM Draft.push d = .ok d') (ho : d'.outer = [])
    (hu : d.names.Nodup) :
    (∃ g, Balanced s (isReady d) ts g) ∧ ((names ts).reverse ++ d.names).Nodup := by
  induction n generalizing s ts d with
  | zero => omega
  | succ n ih =>
    obtain ⟨hs, rfl⟩ | ⟨t, s₁, ts, hs, hts, rfl⟩ := scan_succ_eq_ok.mp h
    · cases hd
      have hl : s.outer.length = d'.outer.length := hl
      rw [ho] at hl
      exact ⟨⟨_, .nil hs (List.eq_nil_of_length_eq_zero hl)⟩, hu⟩
    · rw [List.foldlM_cons, bind_eq_ok] at hd
      obtain ⟨d₁, hd₁, hd⟩ := hd
      obtain ⟨hf, hr, hl₁, hnames, hnew⟩ := push_ok hs hl hd₁
      have hlen := next_length hs
      have hu₁ : d₁.names.Nodup := by
        rw [hnames]
        cases hname : nameOf? t with
        | none => exact hu
        | some name => exact List.nodup_cons.mpr ⟨hnew name hname, hu⟩
      obtain ⟨⟨g, hb⟩, hu'⟩ := ih (by omega) hts hl₁ hd hu₁
      rw [hr] at hb
      refine ⟨⟨g, .cons hs hf hb⟩, ?_⟩
      rw [hnames] at hu'
      cases hname : nameOf? t <;> simpa [names_cons, hname] using hu'

theorem Balanced.scan {g : Flags} (h : Balanced s ready ts g) {n : Nat} (hn : s.rest.length < n) :
    scan n s = .ok ts := by
  induction h generalizing n with
  | nil hs ho =>
    obtain ⟨n, rfl⟩ : ∃ k, n = k + 1 := ⟨n - 1, by omega⟩
    simp [Regex.scan, hs]
  | cons hs hf _ ih =>
    obtain ⟨n, rfl⟩ : ∃ k, n = k + 1 := ⟨n - 1, by omega⟩
    have hlen := next_length hs
    simp [Regex.scan, hs, @ih n (by omega)]

theorem Balanced.fold {g : Flags} (h : Balanced s ready ts g) (hl : Level ⟨s, d⟩)
    (hr : isReady d = ready) (hu : ((names ts).reverse ++ d.names).Nodup) :
    ∃ d', ts.foldlM Draft.push d = .ok d' ∧ d'.outer = [] := by
  induction h generalizing d with
  | @nil s ready hs ho =>
    have hl : s.outer.length = d.outer.length := hl
    rw [ho] at hl
    exact ⟨d, rfl, List.eq_nil_of_length_eq_zero hl.symm⟩
  | @cons s s₁ ready t ts g hs hf _ ih =>
    subst hr
    have hnew : ∀ name ∈ nameOf? t, name ∉ d.names := by
      intro name hname hm
      have hname : nameOf? t = some name := hname
      simp [names_cons, hname, List.nodup_append] at hu
      grind
    obtain ⟨d₁, hd₁⟩ := push_exists hl hf hnew
    obtain ⟨-, hr, hl₁, hnames, -⟩ := push_ok hs hl hd₁
    have hu₁ : ((names ts).reverse ++ d₁.names).Nodup := by
      rw [hnames]
      cases hname : nameOf? t <;> simpa [names_cons, hname] using hu
    obtain ⟨d', hd', ho⟩ := ih hl₁ hr hu₁
    exact ⟨d', by rw [List.foldlM_cons, hd₁]; exact hd', ho⟩

theorem Balanced.leaves {g : Flags} (h : Balanced s ready ts g) : Leaves ts := by
  induction h with
  | nil => exact fun r hm => absurd hm List.not_mem_nil
  | cons hs _ _ ih =>
    intro r hm
    rcases List.mem_cons.mp hm with rfl | hm
    · obtain ⟨c, cs, f', rest, -, ht, -⟩ := next_iff.mp hs
      exact taken_leaf ht
    · exact ih r hm

variable {pattern : List Char}

theorem Balanced.tokens {g : Flags} (h : Balanced { rest := pattern } ready ts g) :
    tokens pattern = .ok ts :=
  h.scan (Nat.lt_succ_self _)

theorem Balanced.writtenNames {g : Flags} (h : Balanced { rest := pattern } ready ts g) :
    writtenNames pattern = names ts := by
  rw [PatternWalks.writtenNames, h.tokens]

theorem balanced_of_parse {r : Regex} (h : parse pattern = .ok r) :
    ∃ ts g, Balanced { rest := pattern } false ts g ∧ (names ts).Nodup := by
  simp only [parse, Regex.tokens, bind_eq_ok] at h
  obtain ⟨ts, hs, d, hd, hf⟩ := h
  have hl : Level ⟨{ rest := pattern }, {}⟩ := rfl
  obtain ⟨⟨g, hb⟩, hu⟩ := balanced_of_scan (Nat.lt_succ_self _) hs hl hd (finish_ok hf).1 .nil
  exact ⟨ts, g, hb, (List.reverse_perm _).nodup_iff.mp (by simpa using hu)⟩

/-- A pattern whose groups are closed denotes an expression exactly if no name comes up twice. -/
theorem Balanced.parse_iff {g : Flags} (h : Balanced { rest := pattern } false ts g) :
    (∃ r, parse pattern = .ok r) ↔ (names ts).Nodup := by
  constructor
  · intro ⟨r, hr⟩
    obtain ⟨ts', g', h', hu⟩ := balanced_of_parse hr
    obtain rfl : ts' = ts := Except.ok.inj (h'.tokens.symm.trans h.tokens)
    exact hu
  · intro hu
    have hl : Level ⟨{ rest := pattern }, {}⟩ := rfl
    obtain ⟨d, hd, ho⟩ := h.fold hl rfl (by simpa using (List.reverse_perm _).nodup_iff.mpr hu)
    refine ⟨d.group.close, ?_⟩
    simp [parse, h.tokens, hd, Draft.finish, ho]

/-- A run with the verbose flag off is a walk. -/
theorem walk_of_steps {p q : Reading} (h : Steps p q) (hl : Level p) :
    ∃ ts, Walk p.scanner (isReady p.draft) ts q.scanner (isReady q.draft) ∧
      q.draft.names = (names ts).reverse ++ p.draft.names := by
  induction h using Relation.ReflTransGen.head_induction_on with
  | refl => exact ⟨[], .nil, rfl⟩
  | @head p p₁ hs _ ih =>
    obtain ⟨ts, hw, hnames⟩ := ih (step_level hs hl)
    cases hs with
    | @mk f f' outer c cs rest t d d' hv ht hd =>
      have hn : (⟨f, outer, c :: cs⟩ : Scanner).next =
          .ok (some (t, (⟨f, outer, c :: cs⟩ : Scanner).after t f' rest)) :=
        (next_cons hv).mpr ⟨f', rest, ht, rfl⟩
      obtain ⟨hf, hr, -, hd', -⟩ := push_ok hn hl hd
      refine ⟨t :: ts, .cons hn hf (hr ▸ hw), ?_⟩
      rw [hnames, hd']
      cases hname : nameOf? t <;> simp [names_cons, hname]

end Brine.Proofs.PatternWalks
