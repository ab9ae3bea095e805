import Brine.Expression.Compile
import Brine.Proofs.ExpressionGrammar

namespace Brine.Proofs.ExpressionErrors
open Text Expression Success ExpressionReading ExpressionChoices ExpressionPatterns
open ExpressionPositions
  ExpressionGrammar

def mark? : Error → Option Char
  | .unterminatedParameter _ | .parameterInOptional _ | .parameterInAlternation _
  | .undefinedParameterType _ _ => some '\x7b'
  | .unterminatedOptional _ | .emptyOptional _ | .nestedOptional _ => some '('
  | .emptyAlternative _ => some '/'
  | .unexpectedCharacter c _ => some c
  | .regex _ => none

structure Stretch (earlier run later : List Item) : Prop where
  solid : ∀ i ∈ run, isSpace i = false
  start : earlier = [] ∨ ∃ items c, earlier = items ++ [.blank c]
  stop : later = [] ∨ ∃ c items, later = .blank c :: items

/-- A slash of a source at a byte offset. It is in the first stretch between blanks that is not
allowed, next to the first alternative there that has no character. -/
def EmptyAlternativeAt (source : List Char) (position : Nat) : Prop :=
  ∃ earlier before after later left right,
    Reads source (earlier ++ (before ++ .slash :: after) ++ later) ∧
      Stretch earlier (before ++ .slash :: after) later ∧ AllowedRuns earlier ∧
      Bounds before after ∧ source = left ++ '/' :: right ∧ position = byteSize left ∧
      Reads left (earlier ++ before) ∧ Reads right (after ++ later)

variable {source : List Char} {segment tokens : List Token} {nodes : List Node} {e : Error}
  {registry : Registry} {name : String} {start p : Nat}

theorem Stretch.prepend {earlier run later : List Item} (h : Stretch earlier run later)
    {items : List Item} {blanks : List Char} (hb : blanks ≠ []) :
    Stretch (items ++ (blanks.map .blank ++ earlier)) run later := by
  refine ⟨h.solid, .inr ?_, h.stop⟩
  rcases h.start with rfl | ⟨items', c, rfl⟩
  · refine ⟨items ++ blanks.dropLast.map .blank, blanks.getLast hb, ?_⟩
    rw [List.append_nil, List.append_assoc]
    congr 1
    rw [← List.map_singleton, ← List.map_append, List.dropLast_append_getLast]
  · exact ⟨_, c, by rw [← List.append_assoc, ← List.append_assoc]⟩

/-- The first stretch that is not allowed gives the error. -/
theorem nodesFrom_error (h : Solid segment) (hs : Spaced tokens)
    (hf : Filled (segment.reverse ++ tokens)) (he : nodesFrom segment tokens = .error e) :
    ∃ earlier run later, segment.reverse ++ tokens = earlier ++ run ++ later ∧
      Stretch (earlier.flatMap tokenItems) (run.flatMap tokenItems) (later.flatMap tokenItems) ∧
      AllowedRuns (earlier.flatMap tokenItems) ∧ Refused run e := by
  fun_induction nodesFrom segment tokens with
  | case1 segment =>
    rw [List.append_nil] at hf ⊢
    refine ⟨[], segment.reverse, [], by simp, ⟨solid_items h.reverse, .inl rfl, .inl rfl⟩, ?_,
      segmentNodes_error h.reverse hf he⟩
    simp [AllowedRuns, Allowed]
  | case2 segment t rest ih =>
    have hfilled : Filled segment.reverse := fun u hu => hf u (List.mem_append_left _ hu)
    have ht : t.toList ≠ [] := hs t List.mem_cons_self
    rcases bind_eq_error.mp he with hb | ⟨before, hb, he⟩
    · refine ⟨[], segment.reverse, .space t :: rest, by simp,
        ⟨solid_items h.reverse, .inl rfl, .inr ?_⟩, ?_, segmentNodes_error h.reverse hfilled hb⟩
      · obtain ⟨c, blanks, hc⟩ := List.exists_cons_of_ne_nil ht
        exact ⟨c, blanks.map .blank ++ rest.flatMap tokenItems, by simp [tokenItems, hc]⟩
      · simp [AllowedRuns, Allowed]
    · rcases bind_eq_error.mp he with ha | ⟨after, -, he⟩
      · -- The segment before the space is allowed, so the error comes from behind it.
        obtain ⟨earlier, run, later, hrest, hstretch, hallowed, hrefused⟩ :=
          ih solid_nil (fun u hu => hs u (List.mem_cons_of_mem _ hu))
            (fun u hu => hf u (List.mem_append_right _ (List.mem_cons_of_mem _ hu))) ha
        rw [List.reverse_nil, List.nil_append] at hrest
        refine ⟨segment.reverse ++ .space t :: earlier, run, later, by simp [hrest], ?_, ?_,
          hrefused⟩
        · rw [items_space]
          exact hstretch.prepend ht
        · rw [items_space, allowedRuns_blanks (solid_items h.reverse) ht]
          exact ⟨segmentNodes_allowed h.reverse hfilled hb, hallowed⟩
      · cases he
  | case3 segment t rest ht ih =>
    have hcons : segment.reverse ++ t :: rest = (t :: segment).reverse ++ rest := by simp
    rw [hcons] at hf ⊢
    exact ih (h.cons ht) (fun u hu => hs u (List.mem_cons_of_mem _ hu)) hf he

theorem mem_segmentNodes (h : segmentNodes segment = .ok nodes)
    (hm : .parameter name start ∈ nodes) : .parameter name start ∈ segment := by
  cases stretchNodes_of_segment h with
  | plain =>
    obtain ⟨t, ht, hn⟩ := List.mem_filterMap.mp hm
    cases t <;> cases hn
    exact ht
  | choice => simp at hm

/-- The parameters of nodes are those of tokens. -/
theorem mem_nodesFrom (h : nodesFrom segment tokens = .ok nodes)
    (hm : .parameter name start ∈ nodes) : .parameter name start ∈ segment.reverse ++ tokens := by
  fun_induction nodesFrom segment tokens generalizing nodes with
  | case1 segment => simpa using mem_segmentNodes h hm
  | case2 segment t rest ih =>
    simp only [bind_eq_ok, pure_eq_ok] at h
    obtain ⟨before, hb, after, ha, rfl⟩ := h
    rcases List.mem_append.mp hm with hm | hm
    · exact List.mem_append_left _ (mem_segmentNodes hb hm)
    · have hm : .parameter name start ∈ after := by simpa using hm
      exact List.mem_append_right _ (List.mem_cons_of_mem _ (ih ha hm))
  | case3 segment t rest _ ih => simpa using ih h hm

/-- What stands at the position of an error. -/
structure Located (source : List Char) (e : Error) (p : Nat) : Prop where
  mark : ∃ c, mark? e = some c ∧ CharAt source p c
  /-- A name without a type is the text between the braces. -/
  parameter : ∀ name, e = .undefinedParameterType name p → ParameterAt source p name
  alternative : e = .emptyAlternative p → EmptyAlternativeAt source p

theorem located_of_errorAt (h : ErrorAt source e) (hp : e.position? = some p) :
    Located source e p := by
  cases e with
  | parameterInAlternation q | emptyAlternative q | undefinedParameterType name q => exact h.elim
  | regex cause => contradiction
  | unterminatedParameter q | unterminatedOptional q | emptyOptional q | nestedOptional q
  | parameterInOptional q | unexpectedCharacter c q =>
    cases hp
    exact ⟨⟨_, rfl, h⟩, by simp, by simp⟩

/-- The slash of a refused stretch. -/
theorem emptyAlternativeAt {earlier run later : List Token}
    (ht : Expression.tokens source = .ok tokens)
    (hs : tokens = earlier ++ run ++ later)
    (hstretch : Stretch (earlier.flatMap tokenItems) (run.flatMap tokenItems)
      (later.flatMap tokenItems))
    (hallowed : AllowedRuns (earlier.flatMap tokenItems)) {us vs : List Token}
    (hrun : run = us ++ .slash p :: vs)
    (hb : Bounds (us.flatMap tokenItems) (vs.flatMap tokenItems)) :
    EmptyAlternativeAt source p := by
  subst hs hrun
  have hreads := (tokens_reads ht).1
  have hsplit : earlier ++ (us ++ .slash p :: vs) ++ later =
      (earlier ++ us) ++ .slash p :: (vs ++ later) := by simp
  obtain ⟨left, right, hsource, hp, hleft, hright⟩ := tokens_divides (hsplit ▸ ht)
  simp only [List.flatMap_append] at hreads hstretch hleft hright
  exact ⟨_, _, _, _, left, right, hreads, hstretch, hallowed, hb, hsource, hp, hleft, hright⟩

theorem nodes_error (h : Expression.nodes source = .error e) (hp : e.position? = some p) :
    Located source e p := by
  rcases bind_eq_error.mp h with ht | ⟨tokens, ht, hn⟩
  · have hat : ResultAt source (.error e) := ht ▸ tokens_at source
    exact located_of_errorAt hat hp
  · have hat : ResultAt source (.ok tokens) := ht ▸ tokens_at source
    obtain ⟨earlier, run, later, hs, hstretch, hallowed, hrefused⟩ :=
      nodesFrom_error solid_nil (tokens_reads ht).2 (tokens_filled ht) hn
    rw [List.reverse_nil, List.nil_append] at hs
    cases hrefused with
    | @parameter name start _ hm =>
      cases hp
      have hparameter : ParameterAt source p name := by
        refine hat (.parameter name p) ?_
        rw [hs]
        exact List.mem_append_left _ (List.mem_append_right _ hm)
      exact ⟨⟨_, rfl, hparameter.charAt⟩, by simp, by simp⟩
    | alternative hrun hb =>
      cases hp
      have halternative := emptyAlternativeAt ht hs hstretch hallowed hrun hb
      refine ⟨⟨_, rfl, ?_⟩, by simp, fun _ => halternative⟩
      refine hat (.slash p) ?_
      simp [hs, hrun]

section
variable [Regex.Engine]

/-- A parameter without a type, or a pattern of a type that is none. -/
theorem sourceFrom_error {group : Nat} (h : sourceFrom registry group nodes = .error e) :
    (∃ cause, e = .regex cause) ∨ ∃ name start, e = .undefinedParameterType name start ∧
      .parameter name start ∈ nodes ∧ registry.get? name = none := by
  fun_induction sourceFrom registry group nodes with
  | case1 => contradiction
  | case2 group p rest ih | case3 group alternatives rest ih =>
    rcases bind_eq_error.mp h with h | ⟨_, -, h⟩
    · simpa using ih h
    · contradiction
  | case4 group name start rest hnone =>
    cases h
    exact .inr ⟨name, start, rfl, List.mem_cons_self, hnone⟩
  | case5 =>
    cases h
    exact .inl ⟨_, rfl⟩
  | case6 group name start rest type htype regex hr ih =>
    rcases bind_eq_error.mp h with h | ⟨_, -, h⟩
    · rcases ih h with hregex | ⟨name', start', he, hm, hnone⟩
      · exact .inl hregex
      · exact .inr ⟨name', start', he, List.mem_cons_of_mem _ hm, hnone⟩
    · contradiction

/-- An error of an expression that has a position is about a character of its text, which stands
there: at the byte offset that the position gives. -/
theorem compile_error_place {text : String} (h : Expression.compile registry text = .error e)
    (hp : e.position? = some p) :
    p < byteSize text.toList ∧ Located text.toList e p := by
  have hlocated : Located text.toList e p := by
    rcases bind_eq_error.mp h with h | ⟨s, -, h⟩
    · rcases bind_eq_error.mp h with h | ⟨nodes, hn, h⟩
      · exact nodes_error h hp
      · rcases bind_eq_error.mp h with h | ⟨s, -, h⟩
        · rcases sourceFrom_error h with ⟨cause, rfl⟩ | ⟨name, start, rfl, hm, -⟩
          · contradiction
          · cases hp
            obtain ⟨tokens, ht, hn⟩ := bind_eq_ok.mp hn
            have hat : ResultAt text.toList (.ok tokens) := ht ▸ tokens_at text.toList
            have hparameter : ParameterAt text.toList p name :=
              hat (.parameter name p) (mem_nodesFrom hn hm)
            refine ⟨⟨_, rfl, hparameter.charAt⟩, ?_, by simp⟩
            intro name' he
            cases he
            exact hparameter
        · contradiction
    · split at h
      · contradiction
      · cases h
        contradiction
  obtain ⟨c, -, hc⟩ := hlocated.mark
  exact ⟨hc.lt, hlocated⟩

end

/-- The slash in front of an alternative that may be left out, after two characters of two bytes. -/
theorem compile_error_place_sample :
    Expression.compile {} "thé café/(s)" = .error (.emptyAlternative 10) ∧
      10 < byteSize "thé café/(s)".toList ∧
      Located "thé café/(s)".toList (.emptyAlternative 10) 10 := by
  have hn : Expression.nodes "thé café/(s)".toList = .error (.emptyAlternative 10) := by
    decide +kernel
  have h : Expression.compile {} "thé café/(s)" = .error (.emptyAlternative 10) := by
    simp only [Expression.compile, Source.ofText, hn, bind, Except.bind]
  exact ⟨h, compile_error_place h rfl⟩

end Brine.Proofs.ExpressionErrors
