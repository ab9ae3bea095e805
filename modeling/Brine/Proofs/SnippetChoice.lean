import Brine.Proofs.SnippetMatching

namespace Brine.Proofs.SnippetChoice
open Regex Snippet ExpressionReading ExpressionChoices Registries SnippetSearch SnippetCandidates
  SnippetMatching

section
variable [Engine]

/-- A type that suggestions use could stand for what is between two places of a text. -/
def Offers (type : ParameterType) (text : List Char) (start stop : Nat) : Prop :=
  type.forSnippets = true ∧ ∃ r, type.regex = .ok r ∧ Stands r text start stop

structure Best (registry : Registry) (text : List Char) (place : Nat) (c : Snippet.Candidate) :
    Prop where
  behind : place ≤ c.start
  /-- It is of the first of the types that could stand for it. -/
  first : ∃ before type after, registry.types = before ++ type :: after ∧ type.name = c.name ∧
    Offers type text c.start c.stop ∧ ∀ t ∈ before, ¬Offers t text c.start c.stop
  leftmost : ∀ t ∈ registry.types, ∀ s e, place ≤ s → Offers t text s e → c.start ≤ s
  longest : ∀ t ∈ registry.types, ∀ e, Offers t text c.start e → e ≤ c.stop

/-- The pieces from a place on: each is the best one behind the piece before it, and behind the last
one there is none. -/
inductive Splits (registry : Registry) (text : List Char) : Nat → List Snippet.Candidate → Prop
  | done {place : Nat} : (∀ t ∈ registry.types, ∀ s e, place ≤ s → ¬Offers t text s e) →
      Splits registry text place []
  | next {place : Nat} {c : Snippet.Candidate} {pieces : List Snippet.Candidate} :
      Best registry text place c → Splits registry text c.stop pieces →
      Splits registry text place (c :: pieces)

end

variable {registry : Registry} {text : List Char} {place n : Nat} {c d b : Snippet.Candidate}
  {candidates pieces : List Snippet.Candidate} {type : ParameterType}

theorem betterThan_iff : c.betterThan d = true ↔
    c.start < d.start ∨ c.start = d.start ∧ d.stop < c.stop := by
  simp [Candidate.betterThan]

theorem not_betterThan_iff : c.betterThan d = false ↔
    d.start < c.start ∨ d.start = c.start ∧ c.stop ≤ d.stop := by
  rw [← Bool.not_eq_true, betterThan_iff]
  omega

def FirstBest (candidates : List Snippet.Candidate) (c : Snippet.Candidate) : Prop :=
  ∃ before after, candidates = before ++ c :: after ∧ (∀ d ∈ before, c.betterThan d = true) ∧
    ∀ d ∈ after, d.betterThan c = false

theorem FirstBest.cons (h : FirstBest (d :: candidates) c) (hd : d.betterThan b = true) :
    FirstBest (b :: d :: candidates) c := by
  obtain ⟨before, after, he, hb, ha⟩ := h
  refine ⟨b :: before, after, by rw [he, List.cons_append], ?_, ha⟩
  refine List.forall_mem_cons.mpr ⟨?_, hb⟩
  cases before with
  | nil =>
    obtain ⟨rfl, -⟩ := List.cons.inj he
    exact hd
  | cons d' before =>
    obtain ⟨rfl, -⟩ := List.cons.inj he
    have hcd := betterThan_iff.mp (hb d List.mem_cons_self)
    rw [betterThan_iff] at hd ⊢
    omega

theorem FirstBest.insert (h : FirstBest (b :: candidates) c) (hd : d.betterThan b = false) :
    FirstBest (b :: d :: candidates) c := by
  obtain ⟨before, after, he, hb, ha⟩ := h
  cases before with
  | nil =>
    obtain ⟨rfl, rfl⟩ := List.cons.inj he
    exact ⟨[], d :: candidates, rfl, by simp, List.forall_mem_cons.mpr ⟨hd, ha⟩⟩
  | cons b' before =>
    obtain ⟨rfl, rfl⟩ := List.cons.inj he
    obtain ⟨hcb, hbefore⟩ := List.forall_mem_cons.mp hb
    have hcd : c.betterThan d = true := by
      rw [betterThan_iff] at hcb ⊢
      rw [not_betterThan_iff] at hd
      omega
    exact ⟨b :: d :: before, after, rfl,
      List.forall_mem_cons.mpr ⟨hcb, List.forall_mem_cons.mpr ⟨hcd, hbefore⟩⟩, ha⟩

theorem FirstBest.bound (h : FirstBest candidates c) (hd : d ∈ candidates) :
    c.start < d.start ∨ c.start = d.start ∧ d.stop ≤ c.stop := by
  obtain ⟨before, after, rfl, hb, ha⟩ := h
  rcases List.mem_append.mp hd with hd | hd
  · have hcd := betterThan_iff.mp (hb d hd)
    omega
  · rcases List.mem_cons.mp hd with rfl | hd
    · exact .inr ⟨rfl, Nat.le_refl _⟩
    · exact not_betterThan_iff.mp (ha d hd)

theorem foldl_pick_some : ∃ c, candidates.foldl pick (some b) = some c ∧
    FirstBest (b :: candidates) c := by
  induction candidates generalizing b with
  | nil => exact ⟨b, rfl, [], [], rfl, by simp, by simp⟩
  | cons d candidates ih =>
    rw [List.foldl_cons, pick]
    cases hd : d.betterThan b with
    | true =>
      obtain ⟨c, hc, hfirst⟩ := @ih d
      exact ⟨c, hc, hfirst.cons hd⟩
    | false =>
      obtain ⟨c, hc, hfirst⟩ := @ih b
      exact ⟨c, hc, hfirst.insert hd⟩

/-- The candidate that is picked. -/
theorem foldl_pick : match candidates.foldl pick none with
    | some c => FirstBest candidates c
    | none => candidates = [] := by
  cases candidates with
  | nil => rfl
  | cons b candidates =>
    obtain ⟨c, hc, hfirst⟩ := @foldl_pick_some b candidates
    rw [List.foldl_cons, pick, hc]
    exact hfirst

/-- The text of an expression whose parameters stand for pieces, one each. -/
def refill : List Item → List (List Char) → Option (List Char)
  | [], [] => some []
  | .char c :: items, raws | .blank c :: items, raws => (c :: ·) <$> refill items raws
  | .parameter _ :: items, raw :: raws => (raw ++ ·) <$> refill items raws
  | _, _ => none

theorem refill_literal (l : List Char) (items : List Item) (raws : List (List Char)) :
    refill (l.map literal ++ items) raws = (l ++ ·) <$> refill items raws := by
  induction l with
  | nil => simp
  | cons c l ih =>
    rw [List.map_cons, List.cons_append]
    cases hb : Text.isBlank c <;> simp [literal, hb, refill, ih, Function.comp_def]

theorem piece_drop (hc : c.start ≤ c.stop) : text.drop c.start =
    (candidatePiece text c).raw ++ text.drop c.stop := by
  have hdrop : text.drop c.stop = (text.drop c.start).drop (c.stop - c.start) := by
    rw [List.drop_drop, Nat.add_sub_cancel' hc]
  rw [hdrop, candidatePiece, List.take_append_drop]

theorem gap_drop (h : place ≤ c.start) : text.drop place =
    (text.drop place).take (c.start - place) ++ text.drop c.start := by
  have hdrop : text.drop c.start = (text.drop place).drop (c.start - place) := by
    rw [List.drop_drop, Nat.add_sub_cancel' h]
  rw [hdrop, List.take_append_drop]

section
variable [Engine]

def first? (text : List Char) (place : Nat) (type : ParameterType) : Option Snippet.Candidate :=
  if type.forSnippets then
    match type.regex with
    | .ok r => (firstBounded r text (text.length + 1) place).map fun (start, stop) =>
        ⟨type.name, start, stop⟩
    | .error _ => none
  else none

theorem best?_eq : best? (candidateTypes registry) text place =
    (registry.types.filterMap (first? text place)).foldl pick none := by
  rw [best?, candidateTypes, List.filterMap_filterMap, List.filterMap_filter]
  congr 2
  funext type
  unfold first?
  cases type.forSnippets with
  | false => rfl
  | true => cases hr : type.regex <;> rfl

theorem first?_some (h : first? text place type = some c) :
    type.name = c.name ∧ place ≤ c.start ∧ Offers type text c.start c.stop ∧
      ∀ s e, place ≤ s → Offers type text s e → c.start ≤ s := by
  unfold first? at h
  split at h
  · rename_i hs
    split at h
    · rename_i r hr
      obtain ⟨⟨start, stop⟩, hf, rfl⟩ := Option.map_eq_some_iff.mp h
      obtain ⟨hplace, hstands, hleast⟩ := firstBounded_some hf
      refine ⟨rfl, hplace, ⟨hs, r, hr, hstands⟩, fun s e hle ho => ?_⟩
      obtain ⟨-, r', hr', hv⟩ := ho
      obtain rfl : r = r' := Except.ok.inj (hr.symm.trans hr')
      exact hleast s e hle hv
    · contradiction
  · contradiction

theorem first?_none (h : first? text place type = none) (s e : Nat) (hs : place ≤ s) :
    ¬Offers type text s e := by
  intro ho
  obtain ⟨hsnippets, r, hr, hv⟩ := ho
  simp only [first?, hsnippets, hr, if_true, Option.map_eq_none_iff] at h
  exact firstBounded_none (by omega) h s e hs hv

/-- What a type offers at one place. -/
theorem Offers.stop_unique {s e e' : Nat} (h : Offers type text s e) (h' : Offers type text s e') :
    e' = e := by
  obtain ⟨-, r, hr, ⟨m, hm, rfl⟩, -⟩ := h
  obtain ⟨-, r', hr', ⟨m', hm', rfl⟩, -⟩ := h'
  obtain rfl : r = r' := Except.ok.inj (hr.symm.trans hr')
  obtain rfl : m = m' := Option.some.inj (hm.symm.trans hm')
  rfl

theorem FirstBest.best (h : FirstBest (registry.types.filterMap (first? text place)) c) :
    Best registry text place c := by
  -- Whatever a type offers, its first candidate is there or before.
  have hoffer {t : ParameterType} (ht : t ∈ registry.types) {s e : Nat} (hs : place ≤ s)
      (ho : Offers t text s e) : ∃ d, first? text place t = some d ∧ d.start ≤ s ∧
        (c.start < d.start ∨ c.start = d.start ∧ d.stop ≤ c.stop) := by
    cases hd : first? text place t with
    | none => exact absurd ho (first?_none hd s e hs)
    | some d =>
      obtain ⟨-, -, -, hleast⟩ := first?_some hd
      exact ⟨d, rfl, hleast s e hs ho, h.bound (List.mem_filterMap.mpr ⟨t, ht, hd⟩)⟩
  obtain ⟨before, after, he, hbefore, -⟩ := h
  obtain ⟨ts, us, htypes, hts, hus⟩ := List.filterMap_eq_append_iff.mp he
  obtain ⟨vs, type, ws, rfl, hvs, hc, -⟩ := List.filterMap_eq_cons_iff.mp hus
  obtain ⟨hname, hplace, hoffers, -⟩ := first?_some hc
  refine ⟨hplace, ⟨ts ++ vs, type, ws, by rw [htypes, List.append_assoc], hname, hoffers, ?_⟩,
    fun t ht s e hs ho => ?_, fun t ht e ho => ?_⟩
  · intro t ht ho
    rcases List.mem_append.mp ht with ht | ht
    · cases hd : first? text place t with
      | none => exact first?_none hd _ _ hplace ho
      | some d =>
        obtain ⟨-, -, hdoffers, hleast⟩ := first?_some hd
        have hcd := betterThan_iff.mp (hbefore d (hts ▸ List.mem_filterMap.mpr ⟨t, ht, hd⟩))
        have hle := hleast _ _ hplace ho
        have hstart : c.start = d.start := by omega
        rw [hstart] at ho
        have hstop := hdoffers.stop_unique ho
        omega
    · exact first?_none (hvs t ht) _ _ hplace ho
  · obtain ⟨d, -, hle, hcd⟩ := hoffer ht hs ho
    omega
  · obtain ⟨d, hd, hle, hcd⟩ := hoffer ht hplace ho
    obtain ⟨-, -, hdoffers, -⟩ := first?_some hd
    have hstart : c.start = d.start := by omega
    rw [hstart] at ho
    have hstop := hdoffers.stop_unique ho
    omega

theorem best?_best (h : best? (candidateTypes registry) text place = some c) :
    Best registry text place c := by
  have hpick := @foldl_pick (registry.types.filterMap (first? text place))
  rw [← best?_eq, h] at hpick
  exact hpick.best

theorem best?_none (h : best? (candidateTypes registry) text place = none) :
    ∀ t ∈ registry.types, ∀ s e, place ≤ s → ¬Offers t text s e := by
  have hpick := @foldl_pick (registry.types.filterMap (first? text place))
  rw [← best?_eq, h] at hpick
  intro t ht s e hs
  exact first?_none (List.filterMap_eq_nil_iff.mp hpick t ht) s e hs

theorem Best.bounds (h : Best registry text place c) : c.start < c.stop ∧ c.stop ≤ text.length := by
  obtain ⟨_, type, _, -, -, ⟨-, r, -, hstands⟩, -⟩ := h.first
  exact ⟨hstands.filled, hstands.bounds.2⟩

/-- As many rounds as there are places left are enough to find all pieces. -/
theorem splits_candidatesFrom (h : text.length < n + place) :
    Splits registry text place (candidatesFrom (candidateTypes registry) text n place) := by
  fun_induction candidatesFrom (candidateTypes registry) text n place with
  | case1 place =>
    refine .done fun t _ s e hs ho => ?_
    obtain ⟨-, r, -, hstands⟩ := ho
    have := hstands.bounds
    omega
  | case2 n place hb => exact .done (best?_none hb)
  | case3 n place c hb ih =>
    have hbest := best?_best hb
    have hbehind := hbest.behind
    have hbounds := hbest.bounds
    exact .next hbest (ih (by omega))

theorem best?_end (h : text.length < place) :
    best? (candidateTypes registry) text place = none := by
  cases hb : best? (candidateTypes registry) text place with
  | none => rfl
  | some c =>
    have hbest := best?_best hb
    have hbehind := hbest.behind
    have hbounds := hbest.bounds
    omega

/-- There is no piece left when the rounds are over: more of them change nothing. -/
theorem candidatesFrom_rounds {n' : Nat} (hn : text.length < n + place)
    (hn' : text.length < n' + place) :
    candidatesFrom (candidateTypes registry) text n place =
      candidatesFrom (candidateTypes registry) text n' place := by
  fun_induction candidatesFrom (candidateTypes registry) text n place generalizing n' with
  | case1 place =>
    cases n' with
    | zero => rfl
    | succ n' => rw [candidatesFrom, best?_end (by omega)]
  | case2 n place hb =>
    cases n' with
    | zero => rfl
    | succ n' => rw [candidatesFrom, hb]
  | case3 n place c hb ih =>
    have hbest := best?_best hb
    have hbehind := hbest.behind
    have hbounds := hbest.bounds
    cases n' with
    | zero => omega
    | succ n' =>
      have hrest := @ih n' (by omega) (by omega)
      simp only [candidatesFrom, hb, hrest]

/-- The pieces do not overlap, and none of them is empty. -/
theorem Splits.apart (h : Splits registry text place pieces) :
    (∀ c ∈ pieces, place ≤ c.start ∧ c.start < c.stop ∧ c.stop ≤ text.length) ∧
      pieces.Pairwise fun c d => c.stop ≤ d.start := by
  induction h with
  | done => simp
  | @next place c pieces hbest _ ih =>
    obtain ⟨hpieces, hpairwise⟩ := ih
    have hbehind := hbest.behind
    have hbounds := hbest.bounds
    refine ⟨List.forall_mem_cons.mpr ⟨⟨hbehind, hbounds⟩, fun d hd => ?_⟩,
      List.pairwise_cons.mpr ⟨fun d hd => (hpieces d hd).1, hpairwise⟩⟩
    have := hpieces d hd
    omega

theorem refill_snippetItems (h : Splits registry text place pieces) :
    refill (snippetItems text place pieces) (pieces.map fun c => (candidatePiece text c).raw) =
      some (text.drop place) := by
  induction h with
  | @done place _ =>
    have hrefill := refill_literal (text.drop place) [] []
    simpa [snippetItems, refill] using hrefill
  | @next place c pieces hbest _ ih =>
    rw [snippetItems, List.map_cons, refill_literal, refill, ih]
    have hpiece := @piece_drop text c (Nat.le_of_lt hbest.bounds.1)
    simp only [Option.map_eq_map, Option.map_some]
    rw [← hpiece, ← gap_drop hbest.behind]

/-- A suggestion replaces the leftmost pieces of its text, of those the longest, each by the first
type that it could have. The search for them and the rounds of the suggestion end by themselves.
With its escapes removed and the pieces in the place of its parameters it is the text. -/
theorem generate_splits {text : String} (h : Reached registry) :
    ∃ pieces, Splits registry text.toList 0 pieces ∧
      (∀ c ∈ pieces, c.start < c.stop ∧ c.stop ≤ text.toList.length) ∧
      (pieces.Pairwise fun c d => c.stop ≤ d.start) ∧
      (generate registry text).names = pieces.map (·.name) ∧
      (generate registry text).source =
        String.ofList (Snippet.sourceFrom text.toList 0 pieces) ∧
      (∃ items, Reads (generate registry text).source.toList items ∧
        items.filterMap itemName? = pieces.map (·.name) ∧
        refill items (pieces.map fun c => (candidatePiece text.toList c).raw) = some text.toList) ∧
      (∀ n, text.toList.length < n →
        candidatesFrom (candidateTypes registry) text.toList n 0 = pieces) ∧
      ∀ r n place, text.toList.length < n + place → firstBounded r text.toList n place =
        firstBounded r text.toList (text.toList.length + 1) place := by
  have hsplits : Splits registry text.toList 0 (replaced registry text) :=
    splits_candidatesFrom (by omega)
  obtain ⟨hpieces, hpairwise⟩ := hsplits.apart
  refine ⟨replaced registry text, hsplits, fun c hc => (hpieces c hc).2, hpairwise, rfl, rfl,
    ⟨suggestedItems registry text, reads_generate h.named, names_items 0, ?_⟩, fun n hn => ?_,
    fun r n place hn => ?_⟩
  · exact refill_snippetItems hsplits
  · exact candidatesFrom_rounds (by omega) (by omega)
  · exact firstBounded_rounds hn (by omega)

end

/-- A number that goes on as a word stays, and of the two types that a number with a point could
start with the longer one is taken. -/
theorem generate_splits_sample :
    Reached {} ∧ ∃ pieces, Splits {} "é5 7b -3.5 (7)".toList 0 pieces ∧
      pieces.map (·.name) = ["float", "int"] ∧
      ∃ items, Reads (generate {} "é5 7b -3.5 (7)").source.toList items ∧
        refill items (pieces.map fun c => (candidatePiece "é5 7b -3.5 (7)".toList c).raw) =
          some "é5 7b -3.5 (7)".toList := by
  have hnames : (generate {} "é5 7b -3.5 (7)").names = ["float", "int"] := by
    decide +kernel
  obtain ⟨pieces, hsplits, -, -, hn, -, ⟨items, hreads, -, hrefill⟩, -⟩ :=
    @generate_splits {} _ "é5 7b -3.5 (7)" .builtins
  exact ⟨.builtins, pieces, hsplits, hn ▸ hnames, items, hreads, hrefill⟩

end Brine.Proofs.SnippetChoice
