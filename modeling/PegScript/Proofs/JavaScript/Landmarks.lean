import PegScript.Proofs.JavaScript.Marks

/-!
# Lowering along the landmarks

Lowering meets the landmarks of a tree one after the other.  At a construct it takes the next
number, and for a pipeline it has the innermost scope declare a variable with that number; a scope
it lowers with a list of variables of its own, which it declares before the lines of the scope.

`Lays` says of a lowering which landmarks it meets, and that what it met can be seen in the texts at
hand: the text of every construct, and what is written for every scope.  Every lowering lays out
the landmarks of its tree (`lays_exprText` to `lays_stmtTexts`).
-/

namespace PegScript

namespace JavaScript

open Lower

/-! ## Names and texts of scopes -/

/-- The variable of the pipeline that has the number. -/
def reference (n : Nat) : String :=
  s!"_ref{n}"

/-- The variables that the innermost scope declares for what is met in it. -/
def namesFrom (n : Nat) (ls : List Landmark) : List String :=
  ((ownFrom n ls).filter (·.1.isPipeline)).map fun p => reference p.2

theorem namesFrom_append (n : Nat) (ls ls' : List Landmark) :
    namesFrom n (ls ++ ls') =
      namesFrom n ls ++ namesFrom (n + (constructsAmong ls).length) ls' := by
  rw [namesFrom, ownFrom_append, List.filter_append, List.map_append]
  rfl

/-- The blanks before a statement. -/
def blanksAt (level : Nat) : String :=
  String.ofList (List.replicate (2 * level) ' ')

/-- The lines of a scope between braces, behind the declarations of its variables. -/
def scopeBody (level : Nat) (names : List String) (lines : String) : String :=
  " \x7b\n" ++ (String.join (names.map fun name => blanksAt level ++ declaration name ++ "\n")
    ++ lines) ++ blanksAt (level - 1) ++ "\x7d"

@[grind ←]
theorem Occurs.scopeBody {text lines : String} {level : Nat} {names : List String}
    (h : Occurs text lines) : Occurs text (scopeBody level names lines) :=
  h.append_right.append_right.append_left.append_left

/-- How the lines of a block, with the variables that it declares, are written as a body. -/
inductive Written (block : Block) (level : Nat) (names : List String) (lines : String) :
    String → Prop
  | braces : Written block level names lines (scopeBody level names lines)
  | empty (hnames : names = []) (hlines : lines = "") :
      Written block level names lines " \x7b\x7d"
  /-- An arrow function that only has a result to give. -/
  | result {tail : Expr} {text : String} (hnames : names = []) (hblock : block = ⟨[], some tail⟩)
      (hlines : lines = blanksAt level ++ tailText .returned text ++ "\n") :
      Written block level names lines (" " ++ arrowResult text)

end JavaScript

open JavaScript Lower

/-- The variables that a scope declares. -/
def Scope.names (scope : Scope) : List String :=
  namesFrom scope.start scope.landmarks

/-- The construct is lowered to the text where it takes the number. -/
def Piece.HasText (p : Piece) (n : Nat) (text : String) : Prop :=
  match p with
  | .expr e => ∃ s s' : Emitter, s.counter + 1 = n ∧ exprText e s = .ok (text, s')
  | .stmt st => ∃ s s' : Emitter, s.counter + 1 = n ∧ stmtText st s = .ok (text, s')
  | _ => False

section Gives

variable {α β : Type} {P : β → Prop}

/-- Every result of the lowering has the property. -/
def Gives (P : β → Prop) (m : Lower β) : Prop :=
  ∀ s b s', m s = .ok (b, s') → P b

theorem gives_pure {b : β} (hb : P b) : Gives P (pure b) := by
  rintro s _ _ ⟨⟩
  exact hb

theorem Gives.bind {Q : α → Prop} {m : Lower α} {f : α → Lower β} (hm : Gives Q m)
    (hf : ∀ a, Q a → Gives P (f a)) : Gives P (m >>= f) := by
  intro s b s'' hrun
  obtain ⟨a, s', hfirst, hrest⟩ := bind_eq_ok hrun
  exact hf a (hm s a s' hfirst) s' b s'' hrest

theorem gives_bind {m : Lower α} {f : α → Lower β} (hf : ∀ a, Gives P (f a)) :
    Gives P (m >>= f) :=
  Gives.bind (Q := fun _ => True) (fun _ _ _ _ => trivial) fun a _ => hf a

theorem of_freshNumber {f : Nat → Lower β} {s s' : Emitter} {b : β}
    (hrun : (freshNumber >>= f) s = .ok (b, s')) (hf : Gives P (f (s.counter + 1))) : P b :=
  hf _ b s' hrun

end Gives

/-- A construct gives values to its names in its text. -/
theorem Piece.HasText.occurs {p : Piece} {n : Nat} {text mark : String} (h : p.HasText n text)
    (hp : p.isNumbered = true) (hmark : mark ∈ p.kind.marks n) : Occurs mark text := by
  have hamong : OccursAmong mark (p.kind.marks n) := ⟨mark, hmark, .refl mark⟩
  unfold Piece.isNumbered at hp
  split at hp
  case h_1 head stages =>
    obtain ⟨s, s', rfl, hrun⟩ := h
    rw [exprText] at hrun
    split at hrun
    case isTrue => cases hrun
    case isFalse =>
      refine of_freshNumber hrun (gives_bind fun _ => gives_bind fun h => gives_bind fun values =>
        gives_pure ?_)
      exact Occurs.pipelineSteps (.inl hamong)
  case h_2 binding start stop step body =>
    obtain ⟨s, s', rfl, hrun⟩ := h
    rw [stmtText] at hrun
    refine of_freshNumber hrun (gives_bind fun a => gives_bind fun b => gives_bind fun c =>
      gives_bind fun lines => gives_pure ?_)
    exact (Occurs.countingHead (.inl hamong)).append_left
  case h_3 pattern e error fallback =>
    obtain ⟨s, s', rfl, hrun⟩ := h
    rw [stmtText_guard, guardText_eq] at hrun
    refine of_freshNumber hrun (gives_bind fun _ => gives_bind fun body => gives_bind fun failed =>
      gives_bind fun start => gives_bind fun bound => gives_pure ?_)
    exact (Occurs.guardLine (.inl hamong)).append_left.append_left.append_left.append_left
  case h_4 => cases hp

theorem trimmed_braces {lines : Lower String} : Gives Trimmed (braces lines) :=
  gives_bind fun _ => gives_bind fun _ => gives_pure (Trimmed.append (by decide))

theorem trimmed_bodyText (body : Block) : Gives Trimmed (bodyText body) := by
  obtain ⟨stmts, tail⟩ := body
  rw [bodyText]
  split
  · exact gives_pure (by decide)
  · exact trimmed_braces

/-- The text of a construct ends in a visible character. -/
theorem Piece.HasText.trimmed {p : Piece} {n : Nat} {text : String} (h : p.HasText n text)
    (hp : p.isNumbered = true) : Trimmed text := by
  unfold Piece.isNumbered at hp
  split at hp
  case h_1 head stages =>
    obtain ⟨s, s', rfl, hrun⟩ := h
    rw [exprText] at hrun
    split at hrun
    case isTrue => cases hrun
    case isFalse =>
      refine of_freshNumber hrun (gives_bind fun _ => gives_bind fun h => gives_bind fun values =>
        gives_pure ?_)
      exact Trimmed.append (t := ")") (by decide)
  case h_2 binding start stop step body =>
    obtain ⟨s, s', rfl, hrun⟩ := h
    rw [stmtText] at hrun
    refine of_freshNumber hrun (gives_bind fun a => gives_bind fun b => gives_bind fun c =>
      (trimmed_bodyText body).bind fun lines hlines => gives_pure ?_)
    exact hlines.append
  case h_3 pattern e error fallback =>
    obtain ⟨s, s', rfl, hrun⟩ := h
    rw [stmtText_guard, guardText_eq] at hrun
    refine of_freshNumber hrun (gives_bind fun _ => gives_bind fun body =>
      trimmed_braces.bind fun failed hfailed => gives_bind fun start => gives_bind fun bound =>
        gives_pure ?_)
    cases bound with
    | none => exact (String.append_empty ▸ hfailed.append)
    | some pattern => exact (Trimmed.append (t := ".value;") (by decide)).append.append
  case h_4 => cases hp

/-- The scope is lowered to lines that have the text of every construct in it, and what is written
for these lines and the variables of the scope can be seen. -/
def Scope.Visible (scope : Scope) (Seen : String → Prop) : Prop :=
  ∃ (s s' : Emitter) (lines text : String), s.counter = scope.start ∧
    blockLines .returned scope.block s = .ok (lines, s') ∧
    (∀ p ∈ scope.own, ∃ own, p.1.HasText p.2 own ∧ Occurs own lines) ∧
    Written scope.block s.level scope.names lines text ∧ Seen text

theorem Scope.Visible.mono {scope : Scope} {Seen Seen' : String → Prop} (h : scope.Visible Seen)
    (hseen : ∀ text, Seen text → Seen' text) : scope.Visible Seen' := by
  obtain ⟨s, s', lines, text, hcounter, hrun, hown, hwritten, htext⟩ := h
  exact ⟨s, s', lines, text, hcounter, hrun, hown, hwritten, hseen text htext⟩

namespace JavaScript

variable {α β : Type}

/-- What a lowering does inside a scope of its own, one step further to the right. -/
theorem inScope_indented_eq_ok {m : Lower α} {s s' : Emitter} {a : α} {names : List String}
    (h : inScope (indented m) s = .ok ((a, names), s')) :
    ∃ s₁, m { s with scopes := [] :: s.scopes, level := s.level + 1 } = .ok (a, s₁) ∧
      names = s₁.scopes.headD [] ∧
      s' = { s₁ with level := s₁.level - 1, scopes := s₁.scopes.tail } := by
  rw [inScope_apply, indented_apply] at h
  cases hm : m { s with scopes := [] :: s.scopes, level := s.level + 1 } with
  | error d =>
      rw [hm] at h
      cases h
  | ok r =>
      rw [hm] at h
      cases h
      exact ⟨r.2, rfl, rfl, rfl⟩

/-- Lines that do not change the state, behind declarations. -/
theorem braces_declarations_apply (names : List String) (lines : Lower String) {s : Emitter}
    {text : String}
    (h : lines { s with level := s.level + 1 } = .ok (text, { s with level := s.level + 1 })) :
    braces (do return (← declarations names) ++ (← lines)) s =
      .ok (scopeBody (s.level + 1) names text, s) := by
  have hdeclared : (do return (← declarations names) ++ (← lines) : Lower String)
      { s with level := s.level + 1 } =
      .ok (String.join (names.map fun name => blanksAt (s.level + 1) ++ declaration name ++ "\n")
        ++ text, { s with level := s.level + 1 }) := by
    rw [bind_apply, declarations_apply]
    change (lines { s with level := s.level + 1 }).bind _ = _
    rw [h]
    rfl
  change (indented _ s).bind _ = _
  rw [indented_apply, hdeclared]
  rfl

theorem functionBody_eq_ok {lines : Lower String} {s s' : Emitter} {text : String}
    (h : functionBody lines s = .ok (text, s')) :
    ∃ inner s₁, lines { s with scopes := [] :: s.scopes, level := s.level + 1 } =
        .ok (inner, s₁) ∧
      s' = { s₁ with level := s₁.level - 1, scopes := s₁.scopes.tail } ∧
      text = if inner.isEmpty && (s₁.scopes.headD []).isEmpty then " \x7b\x7d"
        else scopeBody (s'.level + 1) (s₁.scopes.headD []) inner := by
  obtain ⟨⟨inner, names⟩, s₂, hinner, hrest⟩ := bind_eq_ok h
  obtain ⟨s₁, hrun, rfl, rfl⟩ := inScope_indented_eq_ok hinner
  refine ⟨inner, s₁, hrun, ?_⟩
  dsimp only at hrest
  split at hrest
  case isTrue hempty =>
    cases hrest
    exact ⟨rfl, (if_pos hempty).symm⟩
  case isFalse hempty =>
    cases hrest.symm.trans (braces_declarations_apply _ (pure inner) rfl)
    exact ⟨rfl, (if_neg hempty).symm⟩

theorem arrowTail_eq_ok {result : Lower String} {s s' : Emitter} {text : String}
    (h : arrowTail result s = .ok (text, s')) :
    ∃ inner s₁, result { s with scopes := [] :: s.scopes, level := s.level + 1 } =
        .ok (inner, s₁) ∧
      s' = { s₁ with level := s₁.level - 1, scopes := s₁.scopes.tail } ∧
      text = if (s₁.scopes.headD []).isEmpty then " " ++ arrowResult inner
        else scopeBody (s'.level + 1) (s₁.scopes.headD [])
          (blanksAt (s'.level + 1) ++ tailText .returned inner ++ "\n") := by
  obtain ⟨⟨inner, names⟩, s₂, hinner, hrest⟩ := bind_eq_ok h
  obtain ⟨s₁, hrun, rfl, rfl⟩ := inScope_indented_eq_ok hinner
  refine ⟨inner, s₁, hrun, ?_⟩
  dsimp only at hrest
  split at hrest
  case isTrue hempty =>
    cases hrest
    exact ⟨rfl, (if_pos hempty).symm⟩
  case isFalse hempty =>
    cases hrest.symm.trans (braces_declarations_apply _ (line (tailText .returned inner)) rfl)
    exact ⟨rfl, (if_neg hempty).symm⟩

/-! ## What is met can be seen -/

/-- From the number `n` on, the text of every construct that is met can be seen, and so can every
scope. -/
structure Visible (n : Nat) (ls : List Landmark) (Seen : String → Prop) : Prop where
  constructs : ∀ p ∈ numberedFrom n ls, ∃ text, p.1.HasText p.2 text ∧ Seen text
  scopes : ∀ scope ∈ scopesAmong n ls, scope.Visible Seen

section Visible

variable {n : Nat} {ls ls' : List Landmark} {Seen Seen' : String → Prop}

theorem visible_nil : Visible n [] Seen :=
  ⟨nofun, nofun⟩

theorem Visible.mono (h : Visible n ls Seen) (hseen : ∀ text, Seen text → Seen' text) :
    Visible n ls Seen' := by
  refine ⟨fun p hp => ?_, fun scope hscope => (h.scopes scope hscope).mono hseen⟩
  obtain ⟨text, htext, hsee⟩ := h.constructs p hp
  exact ⟨text, htext, hseen text hsee⟩

theorem Visible.append (h : Visible n ls Seen)
    (h' : Visible (n + (constructsAmong ls).length) ls' Seen) : Visible n (ls ++ ls') Seen := by
  refine ⟨fun p hp => ?_, fun scope hscope => ?_⟩
  · rw [numberedFrom_append] at hp
    exact (List.mem_append.mp hp).elim (h.constructs p) (h'.constructs p)
  · rw [scopesAmong_append] at hscope
    exact (List.mem_append.mp hscope).elim (h.scopes scope) (h'.scopes scope)

end Visible

/-- A lowering that meets the landmarks leads from the first state to the second.  What could be
seen before can still be seen, and so can what was met, and the calls of all helpers that were
noted. -/
structure Meets (ls : List Landmark) (Seen Seen' : String → Prop) (s s' : Emitter) : Prop where
  counter : s'.counter = s.counter + (constructsAmong ls).length
  level : s'.level = s.level
  scopes : s'.scopes = s.scopes.modifyHead (· ++ namesFrom s.counter ls)
  helpers : ∀ h, s'.helpers.contains h = true →
    s.helpers.contains h = true ∨ Seen' (h.name ++ "(")
  seen : ∀ text, Seen text → Seen' text
  visible : Visible s.counter ls Seen'

/-- The lowering meets the landmarks, and what it meets can be seen with its result. -/
def Lays (ls : List Landmark) (Seen : String → Prop) (View : α → String → Prop)
    (m : Lower α) : Prop :=
  ∀ s a s', m s = .ok (a, s') → Meets ls Seen (View a) s s'

/-- What the lowering meets can be seen in the text that it gives. -/
def LaysText (ls : List Landmark) (m : Lower String) : Prop :=
  ∀ Seen, Lays ls Seen (fun t text => Seen text ∨ Occurs text t) m

/-- What the lowering meets can be seen in one of the texts that it gives. -/
def LaysTexts (ls : List Landmark) (m : Lower (List String)) : Prop :=
  ∀ Seen, Lays ls Seen (fun ts text => Seen text ∨ OccursAmong text ts) m

/-- What the lowering meets can be seen in the text that it gives, if it gives one. -/
def LaysText? (ls : List Landmark) (m : Lower (Option String)) : Prop :=
  ∀ Seen, Lays ls Seen (fun o text => Seen text ∨ OccursAmong text o.toList) m

section Lays

variable {p q : List Landmark} {Seen Seen' Seen'' : String → Prop} {View : α → String → Prop}
  {View' : β → String → Prop} {m : Lower α} {s s' s'' : Emitter}

theorem Meets.refl (hseen : ∀ text, Seen text → Seen' text) : Meets [] Seen Seen' s s := by
  refine ⟨rfl, rfl, ?_, fun h => Or.inl, hseen, visible_nil⟩
  cases s.scopes <;> simp [namesFrom, ownFrom]

theorem Meets.trans (h : Meets p Seen Seen' s s') (h' : Meets q Seen' Seen'' s' s'') :
    Meets (p ++ q) Seen Seen'' s s'' := by
  refine ⟨?_, h'.level.trans h.level, ?_, ?_, fun text ht => h'.seen text (h.seen text ht), ?_⟩
  · rw [h'.counter, h.counter, constructsAmong_append, List.length_append, Nat.add_assoc]
  · rw [h'.scopes, h.scopes, h.counter, namesFrom_append]
    cases s.scopes <;> simp
  · intro helper hnoted
    rcases h'.helpers helper hnoted with hbefore | hsee
    · exact (h.helpers helper hbefore).imp_right (h'.seen _)
    · exact Or.inr hsee
  · have hlater := h'.visible
    rw [h.counter] at hlater
    exact (h.visible.mono h'.seen).append hlater

theorem Meets.mono (h : Meets p Seen Seen' s s') (hseen : ∀ text, Seen' text → Seen'' text) :
    Meets p Seen Seen'' s s' :=
  ⟨h.counter, h.level, h.scopes, fun helper hnoted => (h.helpers helper hnoted).imp_right (hseen _),
    fun text ht => hseen text (h.seen text ht), h.visible.mono hseen⟩

theorem lays_pure {a : α} (ha : ∀ text, Seen text → View a text) : Lays [] Seen View (pure a) := by
  rintro s b s' ⟨⟩
  exact .refl ha

theorem Lays.bind {f : α → Lower β} (hm : Lays p Seen View m)
    (hf : ∀ a, Lays q (View a) View' (f a)) : Lays (p ++ q) Seen View' (m >>= f) := by
  intro s b s'' hrun
  obtain ⟨a, s', hfirst, hsecond⟩ := bind_eq_ok hrun
  exact (hm s a s' hfirst).trans (hf a s' b s'' hsecond)

theorem Lays.of_eq (hm : Lays p Seen View m) (heq : p = q) : Lays q Seen View m :=
  heq ▸ hm

theorem Lays.of_piece {piece : Piece} (hm : Lays p Seen View m)
    (heq : p = (if piece.isNumbered then [.construct piece] else [])
      ++ piece.sameScope.flatMap Piece.landmarks
      ++ piece.scopeBlock?.toList.map fun b => .scope b (Piece.block b).landmarks) :
    Lays piece.landmarks Seen View m :=
  hm.of_eq (heq.trans piece.landmarks_eq.symm)

theorem Lays.before (hm : Lays p Seen' View m) (hseen : ∀ text, Seen text → Seen' text) :
    Lays p Seen View m := by
  intro s a s' hrun
  have h := hm s a s' hrun
  exact ⟨h.counter, h.level, h.scopes, h.helpers, fun text ht => h.seen text (hseen text ht),
    h.visible⟩

theorem Lays.mono {View' : α → String → Prop} (hm : Lays p Seen View m)
    (hview : ∀ a text, View a text → View' a text) : Lays p Seen View' m := by
  intro s a s' hrun
  exact (hm s a s' hrun).mono (hview a)

theorem Lays.map {f : α → β} (hm : Lays p Seen View m)
    (hf : ∀ a text, View a text → View' (f a) text) : Lays p Seen View' (do return f (← m)) :=
  (hm.bind fun a => lays_pure (hf a)).of_eq (List.append_nil p)

theorem lays_throw {d : Defect} : Lays p Seen View (throw d) := by
  rintro s a s' ⟨⟩

/-- A helper that is needed is called in the text that follows. -/
theorem lays_need {h : Helper} {f : String → Lower β}
    (hf : Lays p (fun text => Seen text ∨ Occurs text (h.name ++ "(")) View' (f h.name)) :
    Lays p Seen View' (need h >>= f) := by
  intro s b s' hrun
  have hmeets := hf { s with helpers := s.helpers.insert h } b s' hrun
  refine ⟨hmeets.counter, hmeets.level, hmeets.scopes, ?_,
    fun text ht => hmeets.seen text (Or.inl ht), hmeets.visible⟩
  intro h' hnoted
  rcases hmeets.helpers h' hnoted with hbefore | hsee
  · rcases (HelperSet.contains_insert s.helpers h h').mp hbefore with hbefore | rfl
    · exact Or.inl hbefore
    · exact Or.inr (hmeets.seen _ (Or.inr (.refl _)))
  · exact Or.inr hsee

/-- A step that leaves the state as it is. -/
theorem lays_of_apply (a : Emitter → α) (hrun : ∀ s, m s = .ok (a s, s)) :
    Lays [] Seen (fun _ => Seen) m := by
  intro s b s' hrun'
  rw [hrun s] at hrun'
  cases hrun'
  exact .refl fun _ => id

theorem lays_indentation : Lays [] Seen (fun _ => Seen) indentation :=
  lays_of_apply _ fun _ => rfl

theorem lays_readAs (name : String) : Lays [] Seen (fun _ => Seen) (readAs name) :=
  lays_of_apply _ (readAs_apply name)

theorem lays_line (text : String) :
    Lays [] Seen (fun l t => Seen t ∧ (Occurs t text → Occurs t l)) (line text) := by
  refine lays_indentation.map fun blanks t ht => ?_
  grind

theorem exists_of_map_eq_ok {x : Except Defect α} {f : α → β} {b : β} (h : x.map f = .ok b) :
    ∃ a, x = .ok a ∧ f a = b := by
  cases x with
  | error d => cases h
  | ok a => exact ⟨a, rfl, Except.ok.inj h⟩

theorem Lays.rebinding (hm : Lays p Seen View m) (name reference : String) :
    Lays p Seen View (rebinding name reference m) := by
  intro s a s' hrun
  rw [rebinding_apply] at hrun
  obtain ⟨⟨a, s₁⟩, hinner, ⟨⟩⟩ := exists_of_map_eq_ok hrun
  have h := hm _ a s₁ hinner
  exact ⟨h.counter, h.level, h.scopes, h.helpers, h.seen, h.visible⟩

theorem Lays.indented (hm : Lays p Seen View m) : Lays p Seen View (indented m) := by
  intro s a s' hrun
  rw [indented_apply] at hrun
  obtain ⟨⟨a, s₁⟩, hinner, ⟨⟩⟩ := exists_of_map_eq_ok hrun
  have h := hm _ a s₁ hinner
  have hlevel : s₁.level - 1 = s.level := by
    rw [h.level, Nat.add_sub_cancel]
  exact ⟨h.counter, hlevel, h.scopes, h.helpers, h.seen, h.visible⟩

theorem Lays.braces {lines : Lower String}
    (hm : Lays p Seen (fun t text => Seen' text ∨ Occurs text t) lines) :
    Lays p Seen (fun t text => Seen' text ∨ Occurs text t) (braces lines) := by
  refine Lays.of_eq (hm.indented.bind fun text => lays_indentation.map fun blanks mark => ?_)
    (List.append_nil p)
  grind

/-! ## Constructs -/

/-- A construct takes the next number, and a pipeline has its variable declared; then what is below
the construct is met. -/
theorem Meets.construct {piece : Piece} {s₁ : Emitter} (h : Meets p Seen Seen' s₁ s')
    (hcounter : s₁.counter = s.counter + 1) (hlevel : s₁.level = s.level)
    (hhelpers : s₁.helpers = s.helpers)
    (hscopes : s₁.scopes = s.scopes.modifyHead (· ++ namesFrom s.counter [.construct piece]))
    (htext : ∃ text, piece.HasText (s.counter + 1) text ∧ Seen' text) :
    Meets (.construct piece :: p) Seen Seen' s s' := by
  refine ⟨?_, h.level.trans hlevel, ?_, hhelpers ▸ h.helpers, h.seen, ?_⟩
  · rw [h.counter, hcounter, constructsAmong, Landmark.constructs, List.length_append,
      List.length_singleton, Nat.add_assoc]
  · rw [h.scopes, hscopes, hcounter, ← List.singleton_append (l := p), namesFrom_append]
    cases s.scopes <;> simp [constructsAmong, Landmark.constructs]
  · have hlater := h.visible
    rw [hcounter] at hlater
    have hfirst : Visible s.counter [.construct piece] Seen' := by
      refine ⟨?_, nofun⟩
      rintro q hq
      obtain rfl := List.mem_singleton.mp hq
      exact htext
    exact hfirst.append hlater

/-- A statement that takes a number. -/
theorem LaysText.numbered {stmt : Stmt} {f : Nat → Lower String}
    (heq : stmtText stmt = freshNumber >>= f) (hf : ∀ id, LaysText p (f id)) :
    LaysText (.construct (.stmt stmt) :: p) (stmtText stmt) := by
  intro Seen s t s' hrun
  have hrest : f (s.counter + 1) { s with counter := s.counter + 1 } = .ok (t, s') := by
    rw [heq] at hrun
    exact hrun
  refine (hf _ Seen _ t s' hrest).construct rfl rfl rfl ?_
    ⟨t, ⟨s, s', rfl, hrun⟩, Or.inr (.refl t)⟩
  cases s.scopes <;> simp [namesFrom, ownFrom, Piece.isPipeline]

theorem LaysText.pipeline {head : Expr} {stages : List PipeStage}
    (hhead : LaysText p (exprText head)) (hstages : ∀ ref, LaysTexts q (stageTexts ref stages)) :
    LaysText (.construct (.expr (.pipeline head stages)) :: (p ++ q))
      (exprText (.pipeline head stages)) := by
  intro Seen s t s' hrun
  have hrun' := hrun
  rw [exprText] at hrun'
  split at hrun'
  case isTrue => cases hrun'
  case isFalse =>
    have hlays (id : Nat) : LaysText (p ++ q) (do
        let h ← exprText head
        let values ← stageTexts s!"_ref{id}" stages
        let steps := (grouped head h :: values).map fun value => s!"_ref{id}" ++ " = " ++ value
        return parens (commaList (steps ++ [s!"_ref{id}"]))) :=
      fun _ => (hhead _).bind fun h => (hstages _ _).map fun values u => by grind
    refine (hlays _ Seen _ t s' hrun').construct rfl rfl rfl ?_
      ⟨t, ⟨s, s', rfl, hrun⟩, Or.inr (.refl t)⟩
    exact addToScope_eq _ s.scopes

theorem LaysText.guard {r : List Landmark} {pattern : Option Pattern} {e : Expr} {fallback : Block}
    (hexpr : LaysText p (exprText (guarded e)))
    (hfallback : LaysText q (blockLines .discarded fallback))
    (hbinding : LaysText? r (patternText? pattern)) (error : String) :
    LaysText (.construct (.stmt (.guard pattern e error fallback)) :: (p ++ q ++ r))
      (stmtText (.guard pattern e error fallback)) := by
  have hfailed (text : String) : LaysText q
      (Lower.braces do return (← line text) ++ (← blockLines .discarded fallback)) := by
    intro Seen
    refine Lays.braces (Lays.of_eq ((lays_line text).bind fun first =>
      (hfallback _).map fun rest u => ?_) (List.nil_append q))
    grind
  have hbody : LaysText p (do return grouped (guarded e) (← exprText (guarded e))) :=
    fun _ => (hexpr _).map fun t u => by grind
  refine LaysText.numbered ((stmtText_guard ..).trans (guardText_eq ..)) fun id Seen => ?_
  refine Lays.of_eq (lays_need ((hbody _).bind fun body => (hfailed _ _).bind fun failed =>
    lays_indentation.bind fun start => (hbinding _).map fun bound u => ?_)) (by simp)
  have hline := @Occurs.guardLine u (arrowResult body) id e.awaits
  cases bound <;> grind

/-! ## Scopes -/

/-- A scope is met with the constructs inside it; its variables are not those of the scope around
it. -/
theorem LaysText.scope {block : Block} {m : Lower String} (hm : LaysText p m) {s s₁ : Emitter}
    {inner lines t : String}
    (hinner : m { s with scopes := [] :: s.scopes, level := s.level + 1 } = .ok (inner, s₁))
    (hlines : blockLines .returned block
      { s with scopes := [] :: s.scopes, level := s.level + 1 } = .ok (lines, s₁))
    (hinlines : ∀ text, Occurs text inner → Occurs text lines)
    (hintext : ∀ text, Occurs text inner → Occurs text t)
    (hwritten : Written block (s₁.level - 1 + 1) (s₁.scopes.headD []) lines t) :
    Meets [.scope block p] Seen (fun text => Seen text ∨ Occurs text t) s
      { s₁ with level := s₁.level - 1, scopes := s₁.scopes.tail } := by
  have hlocal := hm (fun _ => False) _ inner s₁ hinner
  have hglobal := (hm Seen _ inner s₁ hinner).mono fun text => Or.imp_right (hintext text)
  have hscopes : s₁.scopes = namesFrom s.counter p :: s.scopes := hlocal.scopes
  have hlevel : s₁.level = s.level + 1 := hlocal.level
  rw [hscopes, hlevel, Nat.add_sub_cancel] at hwritten
  have hscope : Scope.Visible ⟨block, s.counter, p⟩ fun text => Seen text ∨ Occurs text t := by
    refine ⟨{ s with scopes := [] :: s.scopes, level := s.level + 1 }, s₁, lines, t, rfl, hlines,
      fun q hq => ?_, hwritten, Or.inr (.refl t)⟩
    obtain ⟨text, htext, hsee⟩ := hlocal.visible.constructs q ((ownFrom_sublist _ _).subset hq)
    exact ⟨text, htext, hinlines text (hsee.resolve_left id)⟩
  refine ⟨?_, ?_, ?_, hglobal.helpers, hglobal.seen, ?_, ?_⟩
  · simpa [constructsAmong, Landmark.constructs] using hglobal.counter
  · exact congrArg (· - 1) hlevel
  · rw [hscopes]
    cases s.scopes <;> simp [namesFrom, ownFrom]
  · simpa [numberedFrom, constructsAmong, Landmark.constructs] using hglobal.visible.constructs
  · simpa [scopesAmong, Landmark.scopesFrom] using ⟨hscope, hglobal.visible.scopes⟩

theorem LaysText.functionBody {block : Block} (hm : LaysText p (blockLines .returned block)) :
    LaysText [.scope block p] (functionBody (blockLines .returned block)) := by
  intro Seen s t s' hrun
  obtain ⟨inner, s₁, hinner, rfl, rfl⟩ := functionBody_eq_ok hrun
  split
  case isTrue hempty =>
    obtain ⟨hlines, hnames⟩ : inner = "" ∧ s₁.scopes.headD [] = [] := by
      rwa [Bool.and_eq_true, String.isEmpty_iff, List.isEmpty_iff] at hempty
    refine hm.scope hinner hinner (fun _ => id) (fun text ht => ?_) (.empty hnames hlines)
    rw [hlines] at ht
    exact ht.append_right (t := " \x7b\x7d")
  case isFalse =>
    exact hm.scope hinner hinner (fun _ => id) (fun text ht => ht.scopeBody) .braces

/-- The lines of a block that is a mere expression. -/
theorem blockLines_tail {tail : Expr} {s s' : Emitter} {text : String}
    (h : (do return grouped tail (← exprText tail) : Lower String) s = .ok (text, s')) :
    blockLines .returned ⟨[], some tail⟩ s =
      .ok (blanksAt s'.level ++ tailText .returned text ++ "\n", s') := by
  obtain ⟨t, s₁, hrun, hrest⟩ := bind_eq_ok h
  obtain ⟨rfl, rfl⟩ : grouped tail t = text ∧ s₁ = s' := by
    cases hrest
    exact ⟨rfl, rfl⟩
  have hlines : tailLine .returned (some tail) s =
      .ok (blanksAt s₁.level ++ tailText .returned (grouped tail t) ++ "\n", s₁) := by
    rw [tailLine, bind_apply, hrun]
    rfl
  rw [blockLines, stmtLines]
  change (tailLine .returned (some tail) s).bind _ = _
  rw [hlines]
  exact congrArg (fun text => Except.ok (text, s₁)) String.empty_append

theorem LaysText.arrowTail {tail : Expr} (hm : LaysText p (exprText tail)) :
    LaysText [.scope ⟨[], some tail⟩ p] (arrowTail do return grouped tail (← exprText tail)) := by
  have hresult : LaysText p (do return grouped tail (← exprText tail)) :=
    fun _ => (hm _).map fun t u => by grind
  intro Seen s t s' hrun
  obtain ⟨inner, s₁, hinner, rfl, rfl⟩ := arrowTail_eq_ok hrun
  have hlines := blockLines_tail hinner
  have hlevel : s₁.level - 1 + 1 = s₁.level := by
    rw [(hresult Seen _ inner s₁ hinner).level]
    rfl
  dsimp only
  rw [hlevel]
  split
  case isTrue hempty =>
    refine hresult.scope hinner hlines (fun text ht => by grind) (fun text ht => by grind) ?_
    rw [hlevel]
    exact .result (List.isEmpty_iff.mp hempty) rfl rfl
  case isFalse =>
    refine hresult.scope hinner hlines (fun text ht => by grind) (fun text ht => by grind) ?_
    rw [hlevel]
    exact .braces

theorem LaysText.blockLines {body : List Stmt} {tail : Option Expr} {use : TailUse}
    (hbody : LaysText ((body.map .stmt).flatMap Piece.landmarks) (stmtLines body))
    (htail : LaysText ((tail.toList.map .expr).flatMap Piece.landmarks) (tailLine use tail)) :
    LaysText (Piece.block ⟨body, tail⟩).landmarks (blockLines use ⟨body, tail⟩) :=
  fun _ => ((hbody _).bind fun lines => (htail _).map fun t u => by grind).of_piece (by simp)

end Lays

/-- A string without interpolation has no landmarks. -/
theorem landmarks_of_singleLine {parts : List StrPart} {text : String}
    (h : singleLine? parts = some text) : (parts.map .strPart).flatMap Piece.landmarks = [] := by
  unfold singleLine? at h
  split at h
  case h_1 => rfl
  case h_2 t => simp [(Piece.strPart (.text t)).landmarks_eq]
  case h_3 => cases h

/-! ## Every lowering lays out the landmarks of its tree -/

-- Each case goes along with the lowering function: the parts are lowered in their order, and the
-- landmarks of the piece are those of its parts, one behind the other.
mutual

theorem lays_exprText : ∀ e : Expr, LaysText (Piece.expr e).landmarks (exprText e)
  | .number _, _ => (lays_pure fun _ => .inl).of_piece (by simp)
  | .str parts, _ => by
      rw [exprText]
      split
      case h_1 text hline =>
        exact (lays_pure fun _ => .inl).of_piece (by simp [landmarks_of_singleLine hline])
      case h_2 =>
        exact ((lays_partTexts parts _).map fun ts u => by grind).of_piece (by simp)
  | .rawStr _, _ => (lays_pure fun _ => .inl).of_piece (by simp)
  | .bool _, _ => (lays_pure fun _ => .inl).of_piece (by simp)
  | .null, _ => (lays_pure fun _ => .inl).of_piece (by simp)
  | .undefined, _ => (lays_pure fun _ => .inl).of_piece (by simp)
  | .this, _ => (lays_pure fun _ => .inl).of_piece (by simp)
  | .ident name, _ => ((lays_readAs name).mono fun _ _ => .inl).of_piece (by simp)
  | .array items, _ =>
      ((lays_elementTexts items _).map fun ts u => by grind).of_piece (by simp)
  | .object props, _ =>
      ((lays_propertyTexts props _).map fun ts u => by grind).of_piece (by simp)
  | .function f, _ => (lays_functionText f _).of_piece (by simp)
  | .doBlock block, _ =>
      ((lays_scopeText block _).map fun t u => by grind).of_piece (by simp)
  | .unary _ operand, _ =>
      ((lays_exprText operand _).map fun t u => by grind).of_piece (by simp)
  | .binary _ left right, _ =>
      ((lays_exprText left _).bind fun l => (lays_exprText right _).map fun r u => by
        grind).of_piece (by simp)
  | .conditional test consequent alternate, _ =>
      ((lays_exprText test _).bind fun t => (lays_exprText consequent _).bind fun c =>
        (lays_exprText alternate _).map fun a u => by grind).of_piece (by simp)
  | .call callee args _, _ =>
      ((lays_exprText callee _).bind fun f => (lays_elementTexts args _).map fun ts u => by
        grind).of_piece (by simp)
  | .new callee args, _ =>
      ((lays_exprText callee _).bind fun f => (lays_elementTexts args _).map fun ts u => by
        grind).of_piece (by simp)
  | .member object _ _, _ =>
      ((lays_exprText object _).map fun o u => by grind).of_piece (by simp)
  | .index object index, _ => by
      rw [exprText]
      split
      case isTrue =>
        exact ((lays_exprText object _).bind fun o => (lays_exprText index _).map
          fun i u => by grind).of_piece (by simp)
      case isFalse =>
        refine lays_need ?_
        exact ((lays_exprText object _).bind fun o => (lays_exprText index _).map
          fun i u => by grind).of_piece (by simp)
  | .pipeline head stages, _ =>
      (LaysText.pipeline (lays_exprText head) (fun ref => lays_stageTexts ref stages) _).of_piece
        (by simp)
  | .range start stop step, _ => by
      refine Lays.of_piece (lays_need <| (lays_exprText start _).bind fun a =>
        (lays_exprText stop _).bind fun b => (lays_exprText? step _).map fun c u => ?_) (by simp)
      cases c <;> grind
  | .await operand, _ =>
      ((lays_exprText operand _).map fun t u => by grind).of_piece (by simp)
  | .yield argument delegate, _ => by
      refine Lays.of_piece ((lays_exprText? argument _).bind (q := []) fun text => ?_) (by simp)
      cases text with
      | none => exact lays_pure fun u => by grind
      | some text => exact lays_pure fun u => by grind

theorem lays_exprText? : ∀ e : Option Expr,
    LaysText? ((e.toList.map .expr).flatMap Piece.landmarks) (exprText? e)
  | none, _ => lays_pure fun _ => .inl
  | some e, _ => ((lays_exprText e _).map fun t u => by grind).of_eq (by simp)

theorem lays_partText : ∀ part : StrPart, LaysText (Piece.strPart part).landmarks (partText part)
  | .text _, _ => (lays_pure fun _ => .inl).of_piece (by simp)
  | .expr e, _ =>
      ((lays_exprText e _).map fun t u => by grind).of_piece (by simp)

theorem lays_partTexts : ∀ parts : List StrPart,
    LaysTexts ((parts.map .strPart).flatMap Piece.landmarks) (partTexts parts)
  | [], _ => lays_pure fun _ => .inl
  | part :: parts, _ =>
      ((lays_partText part _).bind fun t => (lays_partTexts parts _).map fun ts u => by
        grind).of_eq (by simp)

theorem lays_elementText : ∀ element : Element,
    LaysText (Piece.element element).landmarks (elementText element)
  | .expr e, _ =>
      ((lays_exprText e _).map fun t u => by grind).of_piece (by simp)
  | .spread e, _ =>
      ((lays_exprText e _).map fun t u => by grind).of_piece (by simp)

theorem lays_elementTexts : ∀ elements : List Element,
    LaysTexts ((elements.map .element).flatMap Piece.landmarks) (elementTexts elements)
  | [], _ => lays_pure fun _ => .inl
  | element :: elements, _ =>
      ((lays_elementText element _).bind fun t => (lays_elementTexts elements _).map
        fun ts u => by grind).of_eq (by simp)

theorem lays_propertyText : ∀ prop : Property,
    LaysText (Piece.property prop).landmarks (propertyText prop)
  | .keyValue key value, _ =>
      ((lays_keyText key _).bind fun k => (lays_exprText value _).map fun v u => by
        grind).of_piece (by simp)
  | .shorthand name, _ =>
      ((lays_readAs name).map fun read u => by grind).of_piece (by simp)
  | .spread e, _ =>
      ((lays_exprText e _).map fun t u => by grind).of_piece (by simp)

theorem lays_propertyTexts : ∀ props : List Property,
    LaysTexts ((props.map .property).flatMap Piece.landmarks) (propertyTexts props)
  | [], _ => lays_pure fun _ => .inl
  | prop :: props, _ =>
      ((lays_propertyText prop _).bind fun t => (lays_propertyTexts props _).map
        fun ts u => by grind).of_eq (by simp)

theorem lays_keyText : ∀ key : PropertyKey, LaysText (Piece.propertyKey key).landmarks (keyText key)
  | .ident _, _ => (lays_pure fun _ => .inl).of_piece (by simp)
  | .str _, _ => (lays_pure fun _ => .inl).of_piece (by simp)
  | .number _, _ => (lays_pure fun _ => .inl).of_piece (by simp)
  | .computed e, _ =>
      ((lays_exprText e _).map fun t u => by grind).of_piece (by simp)

theorem lays_stageText (reference : String) : ∀ stage : PipeStage,
    LaysText (Piece.pipeStage stage).landmarks (stageText reference stage)
  | .bind name e, _ =>
      (((lays_exprText e _).rebinding name reference).map fun t u => by grind).of_piece (by simp)
  | .call callee, _ =>
      ((lays_exprText callee _).map fun t u => by grind).of_piece (by simp)

theorem lays_stageTexts (reference : String) : ∀ stages : List PipeStage,
    LaysTexts ((stages.map .pipeStage).flatMap Piece.landmarks) (stageTexts reference stages)
  | [], _ => lays_pure fun _ => .inl
  | stage :: stages, _ =>
      ((lays_stageText reference stage _).bind fun t => (lays_stageTexts reference stages _).map
        fun ts u => by grind).of_eq (by simp)

theorem lays_functionText : ∀ f : FunctionDef,
    LaysText (Piece.function f).landmarks (functionText f)
  | ⟨name, params, body, isAsync, isGenerator, isArrow⟩, _ => by
      refine Lays.of_piece ((lays_paramTexts params _).bind
        (q := [.scope body (Piece.block body).landmarks]) fun ts => ?_) (by simp)
      cases isArrow with
      | true => exact (lays_arrowText body _).map fun t u => by grind
      | false => exact (lays_scopeText body _).map fun t u => by grind

theorem lays_paramText : ∀ param : Param, LaysText (Piece.param param).landmarks (paramText param)
  | ⟨pattern, default, rest⟩, _ =>
      ((lays_patternText pattern _).bind fun t => (lays_exprText? default _).map
        fun d u => by grind).of_piece (by simp)

theorem lays_paramTexts : ∀ params : List Param,
    LaysTexts ((params.map .param).flatMap Piece.landmarks) (paramTexts params)
  | [], _ => lays_pure fun _ => .inl
  | param :: params, _ =>
      ((lays_paramText param _).bind fun t => (lays_paramTexts params _).map
        fun ts u => by grind).of_eq (by simp)

theorem lays_patternText : ∀ pattern : Pattern,
    LaysText (Piece.pattern pattern).landmarks (patternText pattern)
  | .ident _, _ => (lays_pure fun _ => .inl).of_piece (by simp)
  | .object props _, _ =>
      ((lays_patternPropTexts props _).map fun ts u => by grind).of_piece (by simp)
  | .array items rest, _ => by
      refine Lays.of_piece ((lays_arrayItemTexts items _).bind fun ts =>
        (lays_patternText? rest _).map fun r u => ?_) (by simp)
      cases r <;> grind

theorem lays_patternText? : ∀ pattern : Option Pattern,
    LaysText? ((pattern.toList.map .pattern).flatMap Piece.landmarks) (patternText? pattern)
  | none, _ => lays_pure fun _ => .inl
  | some pattern, _ => ((lays_patternText pattern _).map fun t u => by grind).of_eq (by simp)

theorem lays_patternPropText : ∀ prop : PatternProp,
    LaysText (Piece.patternElement (.prop prop)).landmarks (patternPropText prop)
  | ⟨key, value, default⟩, _ => by
      refine Lays.of_piece ((lays_patternText? value _).bind fun v =>
        (lays_exprText? default _).map fun d u => ?_) (by simp)
      cases v <;> grind

theorem lays_patternPropTexts : ∀ props : List PatternProp,
    LaysTexts ((props.map fun x => .patternElement (.prop x)).flatMap Piece.landmarks)
      (patternPropTexts props)
  | [], _ => lays_pure fun _ => .inl
  | prop :: props, _ =>
      ((lays_patternPropText prop _).bind fun t => (lays_patternPropTexts props _).map
        fun ts u => by grind).of_eq (by simp)

theorem lays_arrayItemText : ∀ item : ArrayItem,
    LaysText (Piece.patternElement (.item item)).landmarks (arrayItemText item)
  | ⟨pattern, default⟩, _ =>
      ((lays_patternText pattern _).bind fun t => (lays_exprText? default _).map
        fun d u => by grind).of_piece (by simp)

theorem lays_arrayItemTexts : ∀ items : List ArrayItem,
    LaysTexts ((items.map fun x => .patternElement (.item x)).flatMap Piece.landmarks)
      (arrayItemTexts items)
  | [], _ => lays_pure fun _ => .inl
  | item :: items, _ =>
      ((lays_arrayItemText item _).bind fun t => (lays_arrayItemTexts items _).map
        fun ts u => by grind).of_eq (by simp)

theorem lays_tailLine (use : TailUse) : ∀ tail : Option Expr,
    LaysText ((tail.toList.map .expr).flatMap Piece.landmarks) (tailLine use tail)
  | none, _ => lays_pure fun _ => .inl
  | some e, _ =>
      ((lays_exprText e _).bind fun t => (lays_line _).mono fun line u => by grind).of_eq (by simp)

theorem lays_blockLines (use : TailUse) : ∀ block : Block,
    LaysText (Piece.block block).landmarks (blockLines use block)
  | ⟨body, tail⟩ => .blockLines (lays_stmtLines body) (lays_tailLine use tail)

theorem lays_bodyText : ∀ block : Block, LaysText (Piece.block block).landmarks (bodyText block)
  | ⟨body, tail⟩, _ => by
      rw [bodyText]
      split
      case isTrue hempty =>
        simp only [Bool.and_eq_true, List.isEmpty_iff, Option.isNone_iff_eq_none] at hempty
        exact (lays_pure fun _ => .inl).of_piece (by simp [hempty.1, hempty.2])
      case isFalse =>
        exact (LaysText.blockLines (lays_stmtLines body) (lays_tailLine .discarded tail) _).braces

theorem lays_scopeText : ∀ block : Block,
    LaysText [.scope block (Piece.block block).landmarks] (scopeText block)
  | ⟨body, tail⟩ => .functionBody (.blockLines (lays_stmtLines body) (lays_tailLine _ tail))

theorem lays_arrowText : ∀ block : Block,
    LaysText [.scope block (Piece.block block).landmarks] (arrowText block)
  | ⟨[], some tail⟩ => by
      rw [arrowText]
      exact .arrowTail fun _ => (lays_exprText tail _).of_piece (by simp)
  | ⟨[], none⟩ => by
      rw [arrowText]
      · exact .functionBody (.blockLines (lays_stmtLines []) (lays_tailLine _ none))
      · simp
  | ⟨stmt :: stmts, tail⟩ => by
      rw [arrowText]
      · exact .functionBody (.blockLines (lays_stmtLines (stmt :: stmts)) (lays_tailLine _ tail))
      · simp

theorem lays_bodyText? (keyword : String) : ∀ block : Option Block,
    LaysText ((block.toList.map .block).flatMap Piece.landmarks) (bodyText? keyword block)
  | none, _ => lays_pure fun _ => .inl
  | some block, _ => ((lays_bodyText block _).map fun t u => by grind).of_eq (by simp)

theorem lays_branchText : ∀ branch : Branch,
    LaysText (Piece.branch branch).landmarks (branchText branch)
  | ⟨test, body⟩, _ =>
      ((lays_exprText test _).bind fun t => (lays_bodyText body _).map fun b u => by
        grind).of_piece (by simp)

theorem lays_branchTexts : ∀ branches : List Branch,
    LaysTexts ((branches.map .branch).flatMap Piece.landmarks) (branchTexts branches)
  | [], _ => lays_pure fun _ => .inl
  | branch :: branches, _ =>
      ((lays_branchText branch _).bind fun t => (lays_branchTexts branches _).map
        fun ts u => by grind).of_eq (by simp)

theorem lays_handlerText : ∀ handler : Option Handler,
    LaysText ((handler.toList.map .handler).flatMap Piece.landmarks) (handlerText handler)
  | none, _ => lays_pure fun _ => .inl
  | some ⟨param, body⟩, _ => by
      refine Lays.of_eq ((lays_patternText? param _).bind fun p =>
        (lays_bodyText body _).map fun b u => ?_)
          (by simp [(Piece.handler ⟨param, body⟩).landmarks_eq])
      cases p <;> grind

theorem lays_stmtLines : ∀ stmts : List Stmt,
    LaysText ((stmts.map .stmt).flatMap Piece.landmarks) (stmtLines stmts)
  | [], _ => lays_pure fun _ => .inl
  | stmt :: stmts, _ =>
      ((lays_stmtText stmt _).bind fun t => (lays_line _).bind fun first =>
        (lays_stmtLines stmts _).map fun lines u => by grind).of_eq (by simp)

theorem lays_assignText (op : AssignOp) (value : String) :
    ∀ (target : AssignTarget) (Seen : String → Prop), Lays (Piece.assignTarget target).landmarks
      (fun u => Seen u ∨ Occurs u value) (fun t u => Seen u ∨ Occurs u t)
      (assignText op value target)
  | .ident name, _ =>
      ((lays_readAs name).map fun t u => by grind).of_piece (by simp)
  | .member object _, _ =>
      ((lays_exprText object _).map fun o u => by grind).of_piece (by simp)
  | .index object index, _ => by
      rw [assignText]
      split
      case isTrue =>
        exact ((lays_exprText object _).bind fun o => (lays_exprText index _).map
          fun i u => by grind).of_piece (by simp)
      case isFalse =>
        refine lays_need (Lays.of_piece ((lays_exprText object _).bind fun o =>
          (lays_exprText index _).bind (q := []) fun i => ?_) (by simp))
        split
        case h_1 => exact lays_pure fun u => by grind
        case h_2 binary _ =>
          refine lays_need (lays_pure fun u => ?_)
          have hitem (hget : Occurs u (Helper.get.name ++ "(")) :
              Occurs u (parens (Helper.get.name
                ++ parens (commaList [grouped object o, grouped index i]) ++ " "
                ++ binaryToken binary ++ " " ++ value)) :=
            (Occurs.helperCall (.inl hget)).append_left.append_left.append_left.append_left.parens
          grind
  | .pattern pattern, _ => by
      rw [assignText]
      split
      case isTrue =>
        refine Lays.of_piece ((lays_patternText pattern _).bind (q := []) fun t => ?_) (by simp)
        cases pattern <;> exact lays_pure fun u => by grind
      case isFalse => exact lays_throw

theorem lays_stmtText : ∀ stmt : Stmt, LaysText (Piece.stmt stmt).landmarks (stmtText stmt)
  | .decl kind pattern (some init), _ => by
      rw [stmtText_decl_some]
      exact ((lays_patternText pattern _).bind fun t => (lays_exprText init _).map
        fun v u => by grind).of_piece (by simp)
  | .decl kind pattern none, _ => by
      rw [stmtText_decl_none]
      refine Lays.of_piece ((lays_patternText pattern _).bind (q := []) fun t => ?_) (by simp)
      split
      · exact lays_throw
      · exact lays_pure fun u => by grind
  | .assign target op value, _ =>
      ((lays_exprText value _).bind fun v =>
        (lays_assignText op _ target _).before fun u => by grind).of_piece (by simp)
  | .expr e, _ =>
      ((lays_exprText e _).map fun t u => by grind).of_piece (by simp)
  | .ifElse branches otherwise, _ =>
      ((lays_branchTexts branches _).bind fun ts => (lays_bodyText? _ otherwise _).map
        fun o u => by grind).of_piece (by simp)
  | .whileLoop test body, _ =>
      ((lays_exprText test _).bind fun t => (lays_bodyText body _).map fun b u => by
        grind).of_piece (by simp)
  | .loop body, _ =>
      ((lays_bodyText body _).map fun b u => by grind).of_piece (by simp)
  | .forIn pattern iterable body, _ =>
      ((lays_patternText pattern _).bind fun p => (lays_exprText iterable _).bind fun i =>
        (lays_bodyText body _).map fun b u => by grind).of_piece (by simp)
  | .forRange binding start stop step body, _ => by
      refine Lays.of_piece (LaysText.numbered rfl (fun id _ =>
        (lays_exprText start _).bind fun a => (lays_exprText stop _).bind fun b =>
          (lays_exprText? step _).bind fun c => (lays_bodyText body _).map fun t u => ?_) _)
            (by simp)
      cases c <;> grind
  | .ret value, _ => by
      refine Lays.of_piece ((lays_exprText? value _).bind (q := []) fun text => ?_) (by simp)
      cases text <;> exact lays_pure fun u => by grind
  | .breakLoop, _ => (lays_pure fun _ => .inl).of_piece (by simp)
  | .continueLoop, _ => (lays_pure fun _ => .inl).of_piece (by simp)
  | .throw e, _ =>
      ((lays_exprText e _).map fun t u => by grind).of_piece (by simp)
  | .tryCatch body handler finalizer, _ =>
      ((lays_bodyText body _).bind fun b => (lays_handlerText handler _).bind fun h =>
        (lays_bodyText? _ finalizer _).map fun f u => by grind).of_piece (by simp)
  | .guard pattern e error fallback, _ => by
      have hguarded : LaysText (Piece.expr e).landmarks (exprText (guarded e)) := by
        cases e with
        | await operand =>
            intro Seen
            exact (lays_exprText operand Seen).of_piece (by simp)
        | _ => exact lays_exprText _
      refine Lays.of_piece (LaysText.guard hguarded (lays_blockLines .discarded fallback)
        (lays_patternText? pattern) error _) (by simp)
  | .function f, _ => by
      rw [stmtText]
      split
      · exact lays_throw
      · exact (lays_functionText f _).of_piece (by simp)
  | .importFrom _, _ => (lays_pure fun _ => .inl).of_piece (by simp)
  | .exportDecl decl, _ => by
      rw [stmtText]
      split
      · exact ((lays_stmtText decl _).map fun t u => by grind).of_piece (by simp)
      · exact lays_throw
  | .exportDefault e, _ =>
      ((lays_exprText e _).map fun t u => by grind).of_piece (by simp)

end

theorem lays_stmtTexts (stmts : List Stmt) :
    LaysTexts ((stmts.map .stmt).flatMap Piece.landmarks) (stmtTexts stmts) := by
  induction stmts with
  | nil => exact fun _ => lays_pure fun _ => .inl
  | cons stmt stmts ih =>
      intro Seen
      exact ((lays_stmtText stmt _).bind fun t => (ih _).map fun ts u => by grind).of_eq (by simp)


/-! ## Whole programs -/

/-- Lowering a program meets the landmarks of its scope, and declares the variables of the scope. -/
theorem exists_meets_of_generate {program : Program} {g : Generated}
    (hgenerate : generate program = .ok g) :
    ∃ texts s, stmtTexts program.body { scopes := [[]] } = .ok (texts, s) ∧
      g.body = texts.map trimEnd ∧
      Meets program.scope.landmarks (fun _ => False) (fun text => OccursAmong (trimEnd text) g.body)
        { scopes := [[]] } s ∧
      g.hoisted = program.scope.names ∧ g.helpers = s.helpers := by
  obtain ⟨texts, s', hrun, htrim, hhelpers⟩ := exists_of_generate_eq_ok hgenerate
  rw [inScope_apply] at hrun
  obtain ⟨⟨texts, s⟩, hbody, hresult⟩ := exists_of_map_eq_ok hrun
  obtain ⟨⟨rfl, hhoisted⟩, rfl⟩ := by
    rwa [Prod.mk.injEq, Prod.mk.injEq] at hresult
  have hlays : LaysTexts program.scope.landmarks (stmtTexts program.body) :=
    fun _ => (lays_stmtTexts program.body _).of_piece (by simp)
  have hmeets : Meets program.scope.landmarks (fun _ => False)
      (fun text => OccursAmong (trimEnd text) g.body) { scopes := [[]] } s := by
    refine (hlays _ _ _ s hbody).mono fun text htext => ?_
    obtain ⟨t, hmem, ht⟩ := htext.resolve_left id
    exact ⟨trimEnd t, htrim ▸ List.mem_map_of_mem hmem, ht.trimEnd⟩
  refine ⟨texts, s, hbody, htrim, hmeets, ?_, hhelpers⟩
  rw [← hhoisted, hmeets.scopes]
  rfl

/-- The numbered constructs of a program, in the order in which lowering reaches them, give values
to their names in the texts of the statements, and the helpers that are noted are called there. -/
theorem exists_shown_of_generate {program : Program} {g : Generated}
    (hgenerate : generate program = .ok g) :
    ∃ ledger : List Construct, ledger = constructsOf program.pieces ∧
      (∀ (n : Nat) (c : Construct), ledger[n]? = some c →
        ∀ mark ∈ c.marks (n + 1), OccursAmong mark g.body) ∧
      ∀ h, g.helpers.contains h = true → OccursAmong (h.name ++ "(") g.body := by
  obtain ⟨-, s, -, -, hmeets, -, hhelpers⟩ := exists_meets_of_generate hgenerate
  have hperm : (constructsAmong program.scope.landmarks).Perm
      (program.pieces.filter Piece.isNumbered) := (Piece.program program).constructs_perm
  refine ⟨(constructsAmong program.scope.landmarks).map Piece.kind, ?_, ?_, ?_⟩
  · rw [constructsOf_eq]
    exact Multiset.coe_eq_coe.mpr (hperm.map _)
  · intro n c hc mark hmark
    rw [List.getElem?_map] at hc
    obtain ⟨p, hp, rfl⟩ := Option.map_eq_some_iff.mp hc
    have hnumber : (p, n + 1) ∈ numberedFrom 0 program.scope.landmarks :=
      List.mk_mem_zipIdx_iff_le_and_getElem?_sub.mpr ⟨by omega, by simpa using hp⟩
    obtain ⟨text, htext, hsee⟩ := hmeets.visible.constructs _ hnumber
    have hnumbered : p.isNumbered = true :=
      (List.mem_filter.mp (hperm.subset (List.mem_of_getElem? hp))).2
    rw [(htext.trimmed hnumbered).2] at hsee
    exact hsee.imp fun t ht => ⟨ht.1, (htext.occurs hnumbered hmark).trans ht.2⟩
  · intro h hnoted
    rw [hhelpers] at hnoted
    have hcall := (hmeets.helpers h hnoted).resolve_left (by simp [HelperSet.contains])
    rwa [(Trimmed.append (t := "(") (by decide)).2] at hcall

end JavaScript

end PegScript
