import Brine.Proofs.DocStringBlocks

namespace Brine.Proofs.StepKeywords
open Line Text Dialect

def Listed {α : Type} (lists : List (α × List String)) (a : α) (word : String) : Prop :=
  ∃ words, (a, words) ∈ lists ∧ word ∈ words

inductive JointType (types : KeywordType → Prop) : KeywordType → Prop
  | one {t : KeywordType} : types t → (∀ t', types t' → t' = t) → JointType types t
  | several {t t' : KeywordType} : types t → types t' → t ≠ t' → JointType types .unknown

section Types

variable {types : KeywordType → Prop} {t t' : KeywordType}

theorem JointType.unique (h : JointType types t) (h' : JointType types t') : t = t' := by
  cases h with
  | one ht hall =>
    cases h' with
    | one ht' _ => exact (hall _ ht').symm
    | several h₁ h₂ hne => exact absurd ((hall _ h₁).trans (hall _ h₂).symm) hne
  | several h₁ h₂ hne =>
    cases h' with
    | one _ hall => exact absurd ((hall _ h₁).trans (hall _ h₂).symm) hne
    | several => rfl

theorem JointType.of_type (h : types t) : ∃ t', JointType types t' := by
  by_cases hall : ∀ t', types t' → t' = t
  · exact ⟨t, .one h hall⟩
  · push Not at hall
    obtain ⟨t', h', hne⟩ := hall
    exact ⟨.unknown, .several h' h hne⟩

theorem JointType.types_nonempty (h : JointType types t) : ∃ t', types t' := by
  cases h with
  | one h _ => exact ⟨_, h⟩
  | several h _ _ => exact ⟨_, h⟩

/-- One more type. -/
theorem JointType.add (h : JointType types t) (type : KeywordType) :
    JointType (fun t' => types t' ∨ t' = type) (if t = type then t else .unknown) := by
  cases h with
  | one ht hall =>
    split
    · rename_i he
      exact .one (.inl ht) fun t' ht' => ht'.elim (hall t') fun h => h.trans he.symm
    · rename_i hne
      exact .several (.inl ht) (.inr rfl) hne
  | several h₁ h₂ hne => split <;> exact .several (.inl h₁) (.inl h₂) hne

end Types

def entries (d : Dialect) : List (KeywordType × String) :=
  d.stepLists.flatMap fun (type, keywords) => keywords.map fun keyword => (type, keyword)

theorem mem_entries {d : Dialect} {t : KeywordType} {w : String} :
    (t, w) ∈ entries d ↔ Listed d.stepLists t w := by
  simp only [entries, Listed, List.mem_flatMap, List.mem_map, Prod.mk.injEq]
  constructor
  · rintro ⟨⟨t', words⟩, hm, w', hw, rfl, rfl⟩
    exact ⟨words, hm, hw⟩
  · rintro ⟨words, hm, hw⟩
    exact ⟨(t, words), hm, w, hw, rfl, rfl⟩

theorem mergedKeywords_entries (d : Dialect) :
    d.mergedKeywords =
      (entries d).foldl (fun known (type, keyword) => addKeyword type keyword known) [] := by
  rw [mergedKeywords, entries, List.foldl_flatMap]
  simp only [List.foldl_map]

def typesOf (entries : List (KeywordType × String)) (keyword : String) (t : KeywordType) : Prop :=
  (t, keyword) ∈ entries

/-- A list in which each keyword of some entries stands once, with what its types say together. -/
structure Merged (entries : List (KeywordType × String)) (known : List (String × KeywordType)) :
    Prop where
  nodup : (known.map (·.1)).Nodup
  types : ∀ w t, (w, t) ∈ known ↔ JointType (typesOf entries w) t

theorem addKeyword_cases (type : KeywordType) (keyword : String)
    (known : List (String × KeywordType)) :
    (keyword ∉ known.map (·.1) ∧ addKeyword type keyword known = known ++ [(keyword, type)]) ∨
      ∃ before old after, known = before ++ (keyword, old) :: after ∧
        addKeyword type keyword known =
          before ++ (keyword, if old = type then old else .unknown) :: after := by
  induction known with
  | nil => exact .inl ⟨by simp, rfl⟩
  | cons entry known ih =>
    obtain ⟨w, t⟩ := entry
    by_cases hw : w = keyword
    · subst hw
      exact .inr ⟨[], t, known, rfl, by simp [addKeyword]⟩
    · rcases ih with ⟨hn, he⟩ | ⟨before, old, after, rfl, he⟩
      · exact .inl ⟨by simp [Ne.symm hw, hn], by simp [addKeyword, hw, he]⟩
      · exact .inr ⟨(w, t) :: before, old, after, rfl, by simp [addKeyword, hw, he]⟩

section Adding

variable {entries : List (KeywordType × String)} {known known' : List (String × KeywordType)}
  {type joint : KeywordType} {keyword : String}

theorem typesOf_same :
    typesOf (entries ++ [(type, keyword)]) keyword =
      fun t => typesOf entries keyword t ∨ t = type := by
  funext t
  simp [typesOf]

theorem typesOf_other {w : String} (hw : w ≠ keyword) :
    typesOf (entries ++ [(type, keyword)]) w = typesOf entries w := by
  funext t
  simp [typesOf, hw]

/-- Only the added keyword changes, and it gets what its types say together with the new one. -/
theorem Merged.update (h : Merged entries known) (hn : (known'.map (·.1)).Nodup)
    (hother : ∀ w t, w ≠ keyword → ((w, t) ∈ known' ↔ (w, t) ∈ known))
    (hsame : ∀ t, (keyword, t) ∈ known' ↔ t = joint)
    (hjoint : JointType (fun t => typesOf entries keyword t ∨ t = type) joint) :
    Merged (entries ++ [(type, keyword)]) known' := by
  refine ⟨hn, fun w t => ?_⟩
  by_cases hw : w = keyword
  · subst hw
    rw [hsame, typesOf_same]
    constructor
    · rintro rfl
      exact hjoint
    · exact fun ht => ht.unique hjoint
  · rw [hother w t hw, h.types, typesOf_other hw]

theorem Merged.add_new (h : Merged entries known) (hn : keyword ∉ known.map (·.1)) :
    Merged (entries ++ [(type, keyword)]) (known ++ [(keyword, type)]) := by
  have hnone : ∀ t, ¬typesOf entries keyword t := by
    intro t ht
    obtain ⟨t', ht'⟩ := JointType.of_type ht
    exact hn (List.mem_map.mpr ⟨_, (h.types keyword t').mpr ht', rfl⟩)
  refine h.update ?_ (fun w t hw => by simp [hw]) (fun t => ?_)
    (.one (.inr rfl) fun t ht => ht.resolve_left (hnone t))
  · rw [List.map_append, List.nodup_append]
    refine ⟨h.nodup, by simp, ?_⟩
    rintro w hw w' hw' rfl
    obtain rfl : w = keyword := List.mem_singleton.mp hw'
    exact hn hw
  · have hk : (keyword, t) ∉ known := fun ht => hn (List.mem_map.mpr ⟨_, ht, rfl⟩)
    simp [hk]

theorem Merged.add_known {before after : List (String × KeywordType)} {old : KeywordType}
    (h : Merged entries (before ++ (keyword, old) :: after)) :
    Merged (entries ++ [(type, keyword)])
      (before ++ (keyword, if old = type then old else .unknown) :: after) := by
  have hold : JointType (typesOf entries keyword) old := (h.types keyword old).mp (by simp)
  have hd := h.nodup
  have hkeys : ∀ new : KeywordType, (before ++ (keyword, new) :: after).map (·.1) =
      (before ++ (keyword, old) :: after).map (·.1) := by simp
  refine h.update (hkeys _ ▸ hd) (fun w t hw => by simp [hw]) (fun t => ?_) (hold.add type)
  -- The keyword stands nowhere else.
  simp only [List.map_append, List.map_cons, List.nodup_append, List.nodup_cons] at hd
  have hbefore : (keyword, t) ∉ before := fun ht =>
    hd.2.2 keyword (List.mem_map.mpr ⟨_, ht, rfl⟩) keyword List.mem_cons_self rfl
  have hafter : (keyword, t) ∉ after := fun ht => hd.2.1.1 (List.mem_map.mpr ⟨_, ht, rfl⟩)
  simp [hbefore, hafter]

theorem Merged.add (h : Merged entries known) (type : KeywordType) (keyword : String) :
    Merged (entries ++ [(type, keyword)]) (addKeyword type keyword known) := by
  rcases addKeyword_cases type keyword known with ⟨hn, he⟩ | ⟨before, old, after, rfl, he⟩
  · rw [he]
    exact h.add_new hn
  · rw [he]
    exact h.add_known

theorem Merged.foldl (h : Merged entries known) (more : List (KeywordType × String)) :
    Merged (entries ++ more)
      (more.foldl (fun known (type, keyword) => addKeyword type keyword known) known) := by
  induction more generalizing entries known with
  | nil => simpa using h
  | cons entry more ih =>
    have hs := ih (h.add entry.1 entry.2)
    rwa [List.append_assoc] at hs

end Adding

theorem mergedKeywords_merged (d : Dialect) : Merged (entries d) d.mergedKeywords := by
  have hnil : Merged [] [] := by
    refine ⟨by simp, fun w t => ⟨by simp, fun h => ?_⟩⟩
    obtain ⟨t', ht'⟩ := h.types_nonempty
    cases ht'
  rw [mergedKeywords_entries]
  exact hnil.foldl (entries d)

/-- Each step keyword stands among them once, with what the lists that contain it say together. -/
theorem mem_stepKeywords {d : Dialect} {w : String} {t : KeywordType} :
    (w, t) ∈ d.stepKeywords ↔ JointType (Listed d.stepLists · w) t := by
  have ht : typesOf (entries d) w = (Listed d.stepLists · w) := by
    funext t
    exact propext mem_entries
  rw [stepKeywords, List.mem_mergeSort, (mergedKeywords_merged d).types, ht]

theorem Listed.stepKeyword {d : Dialect} {t : KeywordType} {w : String}
    (h : Listed d.stepLists t w) : ∃ t', (w, t') ∈ d.stepKeywords := by
  obtain ⟨t', ht'⟩ : ∃ t', JointType (Listed d.stepLists · w) t' := JointType.of_type h
  exact ⟨t', mem_stepKeywords.mpr ht'⟩

theorem stepKeywords_sorted (d : Dialect) :
    d.stepKeywords.Pairwise fun a b => b.1.utf8ByteSize ≤ a.1.utf8ByteSize := by
  have h : d.stepKeywords.Pairwise fun a b => decide (b.1.utf8ByteSize ≤ a.1.utf8ByteSize) :=
    List.pairwise_mergeSort (fun a b c hab hbc => by simp at hab hbc ⊢; omega)
      (fun a b => by simp; omega) d.mergedKeywords
  exact h.imp of_decide_eq_true

/-- What the line is as a step: it starts with the longest keyword there is, whose type is what the
lists that contain it say together. -/
structure StepOf (d : Dialect) (line : List Char) (keyword : String) (type : KeywordType)
    (rest : List Char) : Prop where
  joint : JointType (Listed d.stepLists · keyword) type
  starts : line = keyword.toList ++ rest
  longest : ∀ t w, Listed d.stepLists t w → w.toList <+: line → w.length ≤ keyword.length

section Longest

variable {d : Dialect} {line rest rest' : List Char} {keyword keyword' : String}
  {type type' : KeywordType}

theorem StepOf.unique (h : StepOf d line keyword type rest)
    (h' : StepOf d line keyword' type' rest') :
    keyword = keyword' ∧ type = type' ∧ rest = rest' := by
  obtain ⟨t, ht⟩ := h.joint.types_nonempty
  obtain ⟨t', ht'⟩ := h'.joint.types_nonempty
  have hle := h'.longest t keyword ht ⟨rest, h.starts.symm⟩
  have hge := h.longest t' keyword' ht' ⟨rest', h'.starts.symm⟩
  have hlen : keyword.toList.length = keyword'.toList.length := by
    rw [String.length_toList, String.length_toList]
    exact Nat.le_antisymm hle hge
  obtain ⟨hk, hr⟩ := List.append_inj (h.starts.symm.trans h'.starts) hlen
  obtain rfl := String.toList_inj.mp hk
  exact ⟨rfl, h.joint.unique h'.joint, hr⟩

theorem after?_iff {start line rest : List Char} :
    after? start line = some rest ↔ line = start ++ rest := by
  refine ⟨SourcePlaces.after?_eq_some, ?_⟩
  rintro rfl
  exact DocStringBlocks.after?_append start rest

/-- Of two words that a line starts with the one with more bytes has more characters. -/
theorem length_le_of_bytes {v w : String} (hv : v.toList <+: line) (hw : w.toList <+: line)
    (h : v.utf8ByteSize ≤ w.utf8ByteSize) : v.length ≤ w.length := by
  by_contra hlt
  have hlen : w.toList.length ≤ v.toList.length := by
    rw [String.length_toList, String.length_toList]
    exact Nat.le_of_not_le hlt
  obtain ⟨more, he⟩ := List.prefix_of_prefix_length_le hw hv hlen
  obtain rfl : v = w ++ String.ofList more := by
    rw [← String.toList_inj, String.toList_append, String.toList_ofList, he]
  rw [String.utf8ByteSize_append] at h
  have hempty : String.ofList more = "" := String.utf8ByteSize_eq_zero_iff.mp (by omega)
  simp [hempty] at hlt

theorem stepOf_of_step? {text : List Char} (h : step? d line = some (keyword, type, text)) :
    ∃ rest, StepOf d line keyword type rest ∧ text = trimEnd rest := by
  obtain ⟨before, ⟨w, t⟩, later, hl, hw, hbefore⟩ := List.findSome?_eq_some_iff.mp h
  obtain ⟨rest, hr, he⟩ := Option.map_eq_some_iff.mp hw
  cases he
  have hm : (keyword, type) ∈ d.stepKeywords := by simp [hl]
  refine ⟨rest, ⟨mem_stepKeywords.mp hm, after?_iff.mp hr, ?_⟩, rfl⟩
  intro t w hlisted hprefix
  obtain ⟨t', ht'⟩ := hlisted.stepKeyword
  rw [hl] at ht'
  -- The keywords before the first that fits do not fit, and those after it are no longer.
  rcases List.mem_append.mp ht' with hb | hb
  · obtain ⟨rest', hrest'⟩ := hprefix
    have hn := hbefore _ hb
    simp [after?_iff.mpr hrest'.symm] at hn
  · have hs := stepKeywords_sorted d
    rw [hl, List.pairwise_append, List.pairwise_cons] at hs
    have hbytes : w.utf8ByteSize ≤ keyword.utf8ByteSize := by
      rcases List.mem_cons.mp hb with hb | hb
      · cases hb
        exact Nat.le_refl _
      · exact hs.2.1.1 _ hb
    exact length_le_of_bytes hprefix ⟨rest, (after?_iff.mp hr).symm⟩ hbytes

theorem step?_ne_none {t : KeywordType} {w : String} (h : Listed d.stepLists t w)
    (hw : w.toList <+: line) : step? d line ≠ none := by
  obtain ⟨rest, hr⟩ := hw
  obtain ⟨t', ht'⟩ := h.stepKeyword
  intro hn
  have hnone := List.findSome?_eq_none_iff.mp hn _ ht'
  simp [after?_iff.mpr hr.symm] at hnone

/-- A step is read off a line exactly as it is in it. -/
theorem step?_eq_some {text : List Char} : step? d line = some (keyword, type, text) ↔
    ∃ rest, StepOf d line keyword type rest ∧ text = trimEnd rest := by
  refine ⟨stepOf_of_step?, ?_⟩
  rintro ⟨rest, h, rfl⟩
  obtain ⟨t, ht⟩ := h.joint.types_nonempty
  obtain ⟨⟨keyword', type', text⟩, hs⟩ :=
    Option.ne_none_iff_exists'.mp (step?_ne_none ht ⟨rest, h.starts.symm⟩)
  obtain ⟨rest', h', rfl⟩ := stepOf_of_step? hs
  obtain ⟨rfl, rfl, rfl⟩ := h.unique h'
  exact hs

theorem step?_eq_none : step? d line = none ↔
    ∀ t w, Listed d.stepLists t w → ¬w.toList <+: line := by
  constructor
  · exact fun hn t w h hw => step?_ne_none h hw hn
  · intro h
    rw [Option.eq_none_iff_forall_ne_some]
    rintro ⟨keyword, type, text⟩ hs
    obtain ⟨rest, hstep, -⟩ := step?_eq_some.mp hs
    obtain ⟨t, ht⟩ := hstep.joint.types_nonempty
    exact h t keyword ht ⟨rest, hstep.starts.symm⟩

end Longest

end Brine.Proofs.StepKeywords
