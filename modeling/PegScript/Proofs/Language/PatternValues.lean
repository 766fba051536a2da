import PegScript.Proofs.Language.Values

/-!
# The values of patterns and parameters

The rules for patterns and parameters keep what is known of their values.  The actions sort the
elements of a pattern and may refuse them; what they accept is made of the given elements.
-/

namespace PegScript

namespace Language

open Destructuring

/-! ## Sorting the elements of a pattern -/

/-- What a partial function gives on a list comes from the elements of the list. -/
theorem exists_of_mem_mapM {α β : Type} {f : α → Option β} {as : List α} {bs : List β}
    (h : as.mapM f = some bs) : ∀ b ∈ bs, ∃ a ∈ as, f a = some b := by
  induction as generalizing bs with
  | nil =>
      cases h
      simp
  | cons a as ih =>
      simp only [List.mapM_cons, Option.bind_eq_bind, Option.bind_eq_some_iff,
        Option.pure_def, Option.some.injEq] at h
      obtain ⟨b, hb, bs', hbs', rfl⟩ := h
      intro c hc
      rcases List.mem_cons.mp hc with rfl | hc
      · exact ⟨a, List.mem_cons_self, hb⟩
      · obtain ⟨a', ha', hfa'⟩ := ih hbs' c hc
        exact ⟨a', List.mem_cons_of_mem _ ha', hfa'⟩

/-- The elements before the rest element and the rest itself are among the given elements. -/
theorem mem_of_splitRest? {elements front : List PatternElement} {last : Option Pattern}
    (h : splitRest? elements = some (front, last)) :
    (∀ e ∈ front, e ∈ elements) ∧ ∀ p, last = some p → .rest p ∈ elements := by
  simp only [splitRest?] at h
  split at h
  case h_1 pattern hlast =>
    split at h
    · cases h
    · cases h
      refine ⟨fun e he => List.dropLast_subset _ he, ?_⟩
      rintro p ⟨⟩
      exact List.mem_of_getLast? hlast
  case h_2 =>
    split at h
    · cases h
    · cases h
      refine ⟨fun e he => he, ?_⟩
      rintro p ⟨⟩

theorem sound_of_toProp? {e : PatternElement} {p : PatternProp}
    (he : Sound e.pieces) (h : toProp? e = some p) : Sound p.pieces := by
  cases e <;> cases h
  exact he

theorem sound_of_toItem? {e : PatternElement} {i : ArrayItem}
    (he : Sound e.pieces) (h : toItem? e = some i) : Sound i.pieces := by
  cases e <;> cases h
  exact he

theorem sound_of_objectPattern? {elements : List PatternElement} {p : Pattern}
    (helements : ∀ e ∈ elements, Sound e.pieces) (h : objectPattern? elements = some p) :
    Sound p.pieces ∧ p.Destructures := by
  simp only [objectPattern?, Option.bind_eq_bind, Option.bind_eq_some_iff] at h
  obtain ⟨⟨front, last⟩, hsplit, props, hprops, hp⟩ := h
  obtain ⟨hfront, hlast⟩ := mem_of_splitRest? hsplit
  have hsound : ∀ prop ∈ props, Sound prop.pieces := by
    intro prop hprop
    obtain ⟨e, he, heq⟩ := exists_of_mem_mapM hprops prop hprop
    exact sound_of_toProp? (helements e (hfront e he)) heq
  have hobject : ∃ rest : Option String, p = .object props rest ∧
      ∀ name ∈ rest, isVariable name = true := by
    rcases last with _ | name | _ | _
    · cases hp
      exact ⟨none, rfl, by simp⟩
    · cases hp
      have hname := helements _ (hlast _ rfl)
      refine ⟨some name, rfl, ?_⟩
      simpa [PatternElement.pieces] using hname
    · cases hp
    · cases hp
  obtain ⟨rest, rfl, hrest⟩ := hobject
  simp only [Pattern.pieces, Everywhere.cons, Everywhere.patternProps]
  exact ⟨⟨⟨trivial, hrest⟩, hsound⟩, trivial⟩

theorem sound_of_arrayPattern? {elements : List PatternElement} {p : Pattern}
    (helements : ∀ e ∈ elements, Sound e.pieces) (h : arrayPattern? elements = some p) :
    Sound p.pieces ∧ p.Destructures := by
  simp only [arrayPattern?, Option.bind_eq_bind, Option.bind_eq_some_iff,
    Option.some.injEq] at h
  obtain ⟨⟨front, last⟩, hsplit, items, hitems, rfl⟩ := h
  obtain ⟨hfront, hlast⟩ := mem_of_splitRest? hsplit
  have hsound : ∀ item ∈ items, Sound item.pieces := by
    intro item hitem
    obtain ⟨e, he, heq⟩ := exists_of_mem_mapM hitems item hitem
    exact sound_of_toItem? (helements e (hfront e he)) heq
  have hrest : Sound (patternPieces? last) := by
    cases last with
    | none => simp
    | some p => exact helements _ (hlast p rfl)
  simp only [Pattern.pieces, Everywhere.cons, Everywhere.append, Everywhere.arrayItems]
  exact ⟨⟨⟨trivial, trivial⟩, hsound, hrest⟩, trivial⟩

/-! ## Patterns -/

theorem keeps_pattern : Keeps .pattern := by
  simp +contextual [pattern, buildIdentPattern]

theorem keeps_objectPattern : Keeps .objectPattern := by
  simp [objectPattern]
  refine ensures_listOf (fun e : PatternElement => Sound e.pieces) (fun _ hv => hv) ?_ ?_
  · intro elements helements
    simpa [buildObjectPattern] using fun p => sound_of_objectPattern? helements
  · simpa [buildObjectPattern] using fun p => sound_of_objectPattern? (by simp)

theorem keeps_arrayPattern : Keeps .arrayPattern := by
  simp [arrayPattern]
  refine ensures_listOf (fun e : PatternElement => Sound e.pieces) (fun _ hv => hv) ?_ ?_
  · intro elements helements
    simpa [buildArrayPattern] using fun p => sound_of_arrayPattern? helements
  · simpa [buildArrayPattern] using fun p => sound_of_arrayPattern? (by simp)

theorem keeps_objectPatternElement : Keeps .objectPatternElement := by
  simp [objectPatternElement, buildRestName, buildPatternProp, PatternElement.pieces]
  intro key hkey
  refine ⟨fun target htarget => ⟨fun default hdefault => ?_, hkey, htarget⟩,
    fun default hdefault hfree => ?_, fun hfree => ⟨hfree, hkey⟩⟩
  · exact ⟨hkey, htarget, hdefault⟩
  · exact ⟨⟨hfree, hkey⟩, hdefault⟩

theorem keeps_arrayPatternElement : Keeps .arrayPatternElement := by
  simp +contextual [arrayPatternElement, restPattern, patternWithDefault, buildRestPattern,
    buildArrayItem, PatternElement.pieces]

theorem keeps_defaultValue : Keeps .defaultValue := by
  simp +contextual [defaultValue]

/-! ## Parameters -/

/-- If only the last parameter may be a rest parameter and rest parameters have no default, the rest
parameter is last and has no default. -/
theorem restLast_of_restIsLast {params : List Param} (hlast : restIsLast params = true)
    (hdefault : ∀ p ∈ params, p.rest = true → p.default = none) : RestLast params := by
  rintro front p back rfl hrest
  refine ⟨?_, by simp [hdefault p (by simp) hrest]⟩
  by_contra hback
  have hmem : p ∈ (front ++ p :: back).dropLast := by
    rw [List.dropLast_append_of_ne_nil (List.cons_ne_nil p back),
      List.dropLast_cons_of_ne_nil hback]
    simp
  have hnot := List.all_eq_true.mp hlast p hmem
  simp [hrest] at hnot

theorem keeps_paramList : Keeps .paramList := by
  simp [paramList]
  refine ensures_listOf SoundParam (fun _ hv => hv) ?_ ?_
  · intro params hparams
    simp [buildParamList]
    intro hlast
    refine ⟨params, ⟨fun p hp => (hparams p hp).1, ?_⟩, rfl⟩
    exact restLast_of_restIsLast hlast fun p hp => (hparams p hp).2
  · simp [buildParamList]
    intro _
    refine ⟨[], ⟨by simp, ?_⟩, rfl⟩
    exact restLast_of_restIsLast rfl (by simp)

theorem keeps_param : Keeps .param := by
  simp +contextual [param, restPattern, patternWithDefault, buildRestParam, buildParam,
    SoundParam]

end Language

end PegScript
