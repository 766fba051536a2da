import PegScript.JavaScript.Lower

/-!
# The steps of lowering

What each step of lowering does to the state, and a way to reason about the result of a lowering
from the results of its steps: `Yields` says that a lowering gives a result with some property,
where the names that were noted in the state have a property of their own.
-/

namespace PegScript

namespace JavaScript

open Lower

variable {α β : Type}

/-- A text in another one stands there as it is. -/
@[simp, grind =]
theorem toString_string (text : String) : toString text = text := rfl

/-! ## Runs of single steps -/

namespace Lower

theorem bind_apply (m : Lower α) (f : α → Lower β) (s : Emitter) :
    (m >>= f) s = (m s).bind fun p => f p.1 p.2 := rfl

theorem need_apply (h : Helper) (s : Emitter) :
    need h s = .ok (h.name, { s with helpers := s.helpers.insert h }) := rfl

/-- The name of a helper is known before. -/
theorem need_bind (h : Helper) (f : String → Lower β) :
    need h >>= f = need h >>= fun _ => f h.name := rfl

theorem freshNumber_apply (s : Emitter) :
    freshNumber s = .ok (s.counter + 1, { s with counter := s.counter + 1 }) := rfl

theorem hoist_apply (name : String) (s : Emitter) :
    hoist name s = .ok ((), { s with scopes := addToScope name s.scopes }) := rfl

theorem line_apply (text : String) (s : Emitter) :
    line text s = .ok (String.ofList (List.replicate (2 * s.level) ' ') ++ text ++ "\n", s) := rfl

theorem readAs_apply (name : String) (s : Emitter) :
    readAs name s = .ok
      ((match s.rebind with
        | some rebind => if rebind.name = name then rebind.reference else name
        | none => name), s) := by
  change (match s.rebind with
    | some rebind => pure (if rebind.name = name then rebind.reference else name)
    | none => pure name : Lower String) s = _
  cases s.rebind <;> rfl

theorem indented_apply (m : Lower α) (s : Emitter) :
    indented m s = (m { s with level := s.level + 1 }).map
      fun p => (p.1, { p.2 with level := p.2.level - 1 }) := rfl

theorem inScope_apply (m : Lower α) (s : Emitter) :
    inScope m s = (m { s with scopes := [] :: s.scopes }).map
      fun p => ((p.1, p.2.scopes.headD []), { p.2 with scopes := p.2.scopes.tail }) := rfl

theorem rebinding_apply (name reference : String) (m : Lower α) (s : Emitter) :
    rebinding name reference m s = (m { s with rebind := some ⟨name, reference⟩ }).map
      fun p => (p.1, { p.2 with rebind := s.rebind }) := rfl

theorem declarations_apply (names : List String) (s : Emitter) :
    declarations names s = .ok (String.join (names.map fun name =>
      String.ofList (List.replicate (2 * s.level) ' ') ++ declaration name ++ "\n"), s) := by
  have hlines : names.mapM (fun name => line (declaration name)) s =
      .ok (names.map fun name =>
        String.ofList (List.replicate (2 * s.level) ' ') ++ declaration name ++ "\n", s) := by
    induction names with
    | nil => rfl
    | cons name names ih =>
        rw [List.mapM_cons, bind_apply, line_apply]
        change (names.mapM (fun name => line (declaration name)) s).bind _ = _
        rw [ih]
        rfl
  change (names.mapM (fun name => line (declaration name)) s).bind _ = _
  rw [hlines]
  rfl

theorem bind_eq_ok {m : Lower α} {f : α → Lower β} {s : Emitter} {r : β × Emitter}
    (h : (m >>= f) s = .ok r) : ∃ a s', m s = .ok (a, s') ∧ f a s' = .ok r := by
  rw [bind_apply] at h
  cases hm : m s with
  | error d =>
      rw [hm] at h
      cases h
  | ok p =>
      rw [hm] at h
      exact ⟨p.1, p.2, rfl, h⟩

theorem bind_eq_error {m : Lower α} {f : α → Lower β} {s : Emitter} {d : Defect}
    (h : (m >>= f) s = .error d) :
    m s = .error d ∨ ∃ a s', m s = .ok (a, s') ∧ f a s' = .error d := by
  rw [bind_apply] at h
  cases hm : m s with
  | error d' =>
      rw [hm] at h
      cases h
      exact Or.inl rfl
  | ok p =>
      rw [hm] at h
      exact Or.inr ⟨p.1, p.2, rfl, h⟩

end Lower

/-! ## Results of lowerings -/

/-- The names that lowering took note of have the property `N`: those to read others under, and
those to declare. -/
structure Emitter.Knows (N : String → Prop) (s : Emitter) : Prop where
  rebind : ∀ r ∈ s.rebind, N r.reference
  scopes : ∀ scope ∈ s.scopes, ∀ name ∈ scope, N name

/-- A lowering that takes note of names with the property `N` gives a result with the property `Q`,
if it gives one. -/
def Yields (N : String → Prop) (Q : α → Prop) (m : Lower α) : Prop :=
  ∀ s a s', s.Knows N → m s = .ok (a, s') → s'.Knows N ∧ Q a

section Yields

variable {N : String → Prop} {Q : α → Prop} {R : β → Prop} {m : Lower α}

theorem yields_pure {a : α} (h : Q a) : Yields N Q (pure a) := by
  rintro s b s' hs ⟨⟩
  exact ⟨hs, h⟩

theorem Yields.bind {f : α → Lower β} (hm : Yields N Q m) (hf : ∀ a, Q a → Yields N R (f a)) :
    Yields N R (m >>= f) := by
  intro s b s'' hs h
  obtain ⟨a, s', hfirst, hsecond⟩ := bind_eq_ok h
  obtain ⟨hs', ha⟩ := hm s a s' hs hfirst
  exact hf a ha s' b s'' hs' hsecond

theorem Yields.mono {Q' : α → Prop} (hm : Yields N Q m) (h : ∀ a, Q a → Q' a) : Yields N Q' m := by
  intro s a s' hs hrun
  obtain ⟨hs', ha⟩ := hm s a s' hs hrun
  exact ⟨hs', h a ha⟩

theorem Yields.map {f : α → β} (hm : Yields N Q m) (hf : ∀ a, Q a → R (f a)) :
    Yields N R (do return f (← m)) :=
  hm.bind fun a ha => yields_pure (hf a ha)

theorem yields_throw {d : Defect} : Yields N Q (throw d) := by
  rintro s a s' hs ⟨⟩

theorem yields_need (h : Helper) : Yields N (· = h.name) (need h) := by
  rintro s a s' hs ⟨⟩
  exact ⟨⟨hs.rebind, hs.scopes⟩, rfl⟩

theorem yields_freshNumber : Yields N (fun _ => True) freshNumber := by
  rintro s a s' hs ⟨⟩
  exact ⟨⟨hs.rebind, hs.scopes⟩, trivial⟩

theorem addToScope_eq (name : String) (scopes : List (List String)) :
    addToScope name scopes = scopes.modifyHead (· ++ [name]) := by
  cases scopes <;> rfl

theorem mem_addToScope {name name' : String} {scopes : List (List String)} {scope : List String}
    (hscope : scope ∈ addToScope name scopes) (hname : name' ∈ scope) :
    name' = name ∨ ∃ scope ∈ scopes, name' ∈ scope := by
  cases scopes with
  | nil => cases hscope
  | cons first scopes =>
      simp only [addToScope, List.mem_cons] at hscope
      rcases hscope with rfl | hscope
      · simp only [List.mem_append, List.mem_singleton] at hname
        rcases hname with hname | hname
        · exact Or.inr ⟨first, List.mem_cons_self, hname⟩
        · exact Or.inl hname
      · exact Or.inr ⟨scope, List.mem_cons_of_mem _ hscope, hname⟩

theorem yields_hoist {name : String} (hname : N name) : Yields N (fun _ => True) (hoist name) := by
  rintro s a s' hs ⟨⟩
  refine ⟨⟨hs.rebind, ?_⟩, trivial⟩
  intro scope hscope name' hmem
  rcases mem_addToScope hscope hmem with rfl | ⟨scope', hscope', hmem'⟩
  · exact hname
  · exact hs.scopes scope' hscope' name' hmem'

theorem yields_readAs (name : String) :
    Yields N (fun text => text = name ∨ N text) (readAs name) := by
  intro s text s' hs h
  rw [readAs_apply] at h
  cases h
  refine ⟨hs, ?_⟩
  split
  case h_1 rebind hrebind =>
    split
    · exact Or.inr (hs.rebind rebind hrebind)
    · exact Or.inl rfl
  case h_2 => exact Or.inl rfl

/-- A text of blanks. -/
def IsBlank (text : String) : Prop :=
  ∃ n, text = String.ofList (List.replicate n ' ')

theorem yields_indentation : Yields N IsBlank indentation := by
  rintro s a s' hs ⟨⟩
  exact ⟨hs, _, rfl⟩

theorem yields_line (text : String) :
    Yields N (fun l => ∃ blanks, IsBlank blanks ∧ l = blanks ++ text ++ "\n") (line text) := by
  rintro s a s' hs ⟨⟩
  exact ⟨hs, _, ⟨_, rfl⟩, rfl⟩

/-- Preparing the state, lowering and cleaning up the state again. -/
theorem Yields.around {m' : Lower β} (hm : Yields N Q m) (before : Emitter → Emitter)
    (after : Emitter → α × Emitter → β × Emitter) (h : ∀ s, m' s = (m (before s)).map (after s))
    (hbefore : ∀ s, s.Knows N → (before s).Knows N)
    (hafter : ∀ s a s', s.Knows N → s'.Knows N → Q a →
      (after s (a, s')).2.Knows N ∧ R (after s (a, s')).1) : Yields N R m' := by
  intro s b s'' hs hrun
  rw [h s] at hrun
  cases hinner : m (before s) with
  | error d =>
      rw [hinner] at hrun
      cases hrun
  | ok r =>
      rw [hinner] at hrun
      obtain ⟨hs', hr⟩ := hm _ r.1 r.2 (hbefore s hs) hinner
      have hend := hafter s r.1 r.2 hs hs' hr
      rw [Except.ok.inj hrun] at hend
      exact hend

theorem Yields.indented (hm : Yields N Q m) : Yields N Q (indented m) := by
  refine hm.around _ _ (indented_apply m) (fun s hs => ⟨hs.rebind, hs.scopes⟩) ?_
  intro s a s' hs hs' ha
  exact ⟨⟨hs'.rebind, hs'.scopes⟩, ha⟩

theorem Yields.inScope (hm : Yields N Q m) :
    Yields N (fun r => Q r.1 ∧ ∀ name ∈ r.2, N name) (inScope m) := by
  refine hm.around _ _ (inScope_apply m) ?_ ?_
  · intro s hs
    exact ⟨hs.rebind, by simpa using hs.scopes⟩
  · intro s a s' hs hs' ha
    have houter : ∀ scope ∈ s'.scopes.tail, ∀ name ∈ scope, N name :=
      fun scope hscope => hs'.scopes scope (List.mem_of_mem_tail hscope)
    refine ⟨⟨hs'.rebind, houter⟩, ha, ?_⟩
    intro name hname
    cases hscopes : s'.scopes with
    | nil =>
        rw [hscopes] at hname
        cases hname
    | cons scope scopes =>
        rw [hscopes] at hname
        exact hs'.scopes scope (by simp [hscopes]) name hname

theorem Yields.rebinding {reference : String} (hm : Yields N Q m) (href : N reference)
    (name : String) : Yields N Q (rebinding name reference m) := by
  refine hm.around _ _ (rebinding_apply name reference m) ?_ ?_
  · intro s hs
    refine ⟨?_, hs.scopes⟩
    rintro r ⟨⟩
    exact href
  · intro s a s' hs hs' ha
    exact ⟨⟨hs.rebind, hs'.scopes⟩, ha⟩

/-- The text declares names with the property `N`, one to a line. -/
def DeclaresNames (N : String → Prop) (text : String) : Prop :=
  ∃ (names : List String) (blanks : String), (∀ name ∈ names, N name) ∧ IsBlank blanks ∧
    text = String.join (names.map fun name => blanks ++ declaration name ++ "\n")

theorem yields_declarations {names : List String} (h : ∀ name ∈ names, N name) :
    Yields N (DeclaresNames N) (declarations names) := by
  intro s text s' hs hrun
  rw [declarations_apply] at hrun
  cases hrun
  exact ⟨hs, names, _, h, ⟨_, rfl⟩, rfl⟩

/-- Lines between braces. -/
theorem Yields.braces {P R : String → Prop} {lines : Lower String} (h : Yields N P lines)
    (hbraces : ∀ text blanks, P text → IsBlank blanks →
      R (" \x7b\n" ++ text ++ blanks ++ "\x7d")) : Yields N R (braces lines) :=
  h.indented.bind fun text htext => yields_indentation.map fun blanks hblanks =>
    hbraces text blanks htext hblanks

/-- The body of a function, with its declarations in front. -/
theorem Yields.functionBody {P R : String → Prop} {lines : Lower String} (h : Yields N P lines)
    (hempty : P "" → R " \x7b\x7d")
    (hbraces : ∀ declared text blanks, DeclaresNames N declared → P text → IsBlank blanks →
      R (" \x7b\n" ++ (declared ++ text) ++ blanks ++ "\x7d")) :
    Yields N R (functionBody lines) := by
  refine h.indented.inScope.bind ?_
  rintro ⟨text, names⟩ ⟨htext, hnames⟩
  dsimp only
  split
  case isTrue hnone =>
    have hnil : text = "" := by
      simp only [Bool.and_eq_true, String.isEmpty_iff] at hnone
      exact hnone.1
    rw [hnil] at htext
    exact yields_pure (hempty htext)
  case isFalse =>
    refine Yields.braces (P := fun lines => ∃ declared, DeclaresNames N declared ∧
      lines = declared ++ text) ((yields_declarations hnames).map fun declared hdeclared =>
        ⟨declared, hdeclared, rfl⟩) ?_
    rintro lines blanks ⟨declared, hdeclared, rfl⟩ hblanks
    exact hbraces declared text blanks hdeclared htext hblanks

/-- The body of an arrow function that has only a result. -/
theorem Yields.arrowTail {P R : String → Prop} {result : Lower String} (h : Yields N P result)
    (hplain : ∀ text, P text → R (" " ++ arrowResult text))
    (hbraces : ∀ declared text blanks blanks', DeclaresNames N declared → P text →
      IsBlank blanks → IsBlank blanks' →
      R (" \x7b\n" ++ (declared ++ (blanks' ++ tailText .returned text ++ "\n")) ++ blanks
        ++ "\x7d")) :
    Yields N R (arrowTail result) := by
  refine h.indented.inScope.bind ?_
  rintro ⟨text, names⟩ ⟨htext, hnames⟩
  dsimp only
  split
  case isTrue => exact yields_pure (hplain text htext)
  case isFalse =>
    refine Yields.braces (P := fun lines => ∃ declared blanks', DeclaresNames N declared ∧
        IsBlank blanks' ∧ lines = declared ++ (blanks' ++ tailText .returned text ++ "\n")) ?_ ?_
    · refine (yields_declarations hnames).bind fun declared hdeclared => (yields_line _).map ?_
      rintro line ⟨blanks, hblanks, rfl⟩
      exact ⟨declared, blanks, hdeclared, hblanks, rfl⟩
    · rintro lines blanks ⟨declared, blanks', hdeclared, hblanks', rfl⟩ hblanks
      exact hbraces declared text blanks blanks' hdeclared htext hblanks hblanks'

end Yields

/-! ## Statements whose form depends on their parts -/

theorem stmtText_decl_some (kind : DeclKind) (pattern : Pattern) (init : Expr) :
    stmtText (.decl kind pattern (some init)) = do
      let text ← patternText pattern
      let value ← exprText init
      return s!"{kind.keyword} {text} = {grouped init value};" := by
  simp [stmtText, exprText?]

theorem stmtText_decl_none (kind : DeclKind) (pattern : Pattern) :
    stmtText (.decl kind pattern none) = do
      let text ← patternText pattern
      if kind = .constDecl || !isIdentPattern pattern then throw .missingInitializer
      else return s!"{kind.keyword} {text};" := by
  simp [stmtText, exprText?]

/-- What a guarded evaluation evaluates inside its function: an `await` is done by the helper. -/
def guarded : Expr → Expr
  | .await operand => operand
  | e => e

theorem stmtText_guard (pattern : Option Pattern) (e : Expr) (error : String) (fallback : Block) :
    stmtText (.guard pattern e error fallback) =
      guardText e.awaits (do return grouped (guarded e) (← exprText (guarded e))) error
        (blockLines .discarded fallback) (patternText? pattern) := by
  cases e <;> rfl

/-- The call of a helper that evaluates a text for a guarded evaluation. -/
def guardCall (isAsync : Bool) (body : String) : String :=
  if isAsync then s!"await {Helper.safeAsync.name}(async () => {body})"
  else s!"{Helper.safe.name}(() => {body})"

theorem guardText_eq (isAsync : Bool) (expr : Lower String) (error : String)
    (fallback : Lower String) (binding : Lower (Option String)) :
    guardText isAsync expr error fallback binding = do
      let id ← freshNumber
      let result := s!"_res{id}"
      let _ ← need (if isAsync then .safeAsync else .safe)
      let body ← expr
      let failed ← braces do return (← line s!"const {error} = {result}.error;") ++ (← fallback)
      let start ← indentation
      let bound ← binding
      return s!"let {result} = {guardCall isAsync (arrowResult body)};\n" ++ start
        ++ s!"if (!{result}.ok)" ++ failed
        ++ match bound with
          | some pattern => "\n" ++ start ++ s!"let {pattern} = {result}.value;"
          | none => "" := by
  unfold guardText
  refine bind_congr fun id => ?_
  rw [need_bind]
  cases isAsync <;> rfl

end JavaScript

end PegScript
