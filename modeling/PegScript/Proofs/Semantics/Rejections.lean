import PegScript.Proofs.Semantics.Ensures

/-!
# When an action rejects

`ActionM.Meets act input P R` says what an action does on an input: what it gives has the property
`P`, and it rejects only if `R`.  As with what an action ensures, one equation for each operation
says what it comes to.

`Term.Accounted` says that all actions in a term, each with the term it is applied to, have a
property.
-/

namespace PegScript

namespace ActionM

variable {ν α β : Type}

/-- Whatever the action gives on the input, with what it leaves of the input, has the property `P`,
and it rejects the input only if `R`. -/
def Meets (act : ActionM ν α) (input : ActionInput ν) (P : α → ActionInput ν → Prop)
    (R : Prop) : Prop :=
  match act input with
  | some (a, left) => P a left
  | none => R

variable {input : ActionInput ν} {R : Prop}

theorem Meets.ensures {act : ActionM ν α} {P : α → ActionInput ν → Prop}
    (h : act.Meets input P R) : act.Ensures input P := by
  intro a left hact
  rwa [Meets, hact] at h

theorem Meets.of_eq_none {act : ActionM ν α} {P : α → ActionInput ν → Prop}
    (h : act.Meets input P R) (hact : act input = none) : R := by
  rwa [Meets, hact] at h

theorem eq_none_of_meets {act : ActionM ν α} (h : act.Meets input (fun _ _ => False) True) :
    act input = none := by
  unfold Meets at h
  split at h
  · exact h.elim
  · assumption

theorem Meets.imp_right {act : ActionM ν α} {P : α → ActionInput ν → Prop} {R' : Prop}
    (h : act.Meets input P R) (himp : R → R') : act.Meets input P R' := by
  unfold Meets at h ⊢
  split at h
  · exact h
  · exact himp h

@[simp ↓]
theorem meets_pure {a : α} {P : α → ActionInput ν → Prop} :
    (pure a : ActionM ν α).Meets input P R ↔ P a input :=
  Iff.rfl

@[simp ↓]
theorem meets_bind {act : ActionM ν α} {f : α → ActionM ν β} {P : β → ActionInput ν → Prop} :
    (act >>= f).Meets input P R ↔
      act.Meets input (fun a left => (f a).Meets left P R) R := by
  change (match (act input).bind fun p => f p.1 p.2 with
    | some (b, left) => P b left
    | none => R) ↔ _
  unfold Meets
  cases act input with
  | none => rfl
  | some p => rfl

@[simp ↓]
theorem meets_map {act : ActionM ν α} {f : α → β} {P : β → ActionInput ν → Prop} :
    (f <$> act).Meets input P R ↔ act.Meets input (fun a left => P (f a) left) R := by
  have hmap : f <$> act = act >>= fun a => pure (f a) := rfl
  simp only [hmap, meets_bind, meets_pure]

@[simp ↓]
theorem meets_reject {P : α → ActionInput ν → Prop} :
    (reject : ActionM ν α).Meets input P R ↔ R :=
  Iff.rfl

/-- Where the result is there the action goes on with it, and otherwise rejects. -/
@[simp ↓]
theorem meets_require {o : Option α} {P : α → ActionInput ν → Prop} :
    (require o).Meets input P R ↔ (∀ a, o = some a → P a input) ∧ (o = none → R) := by
  cases o with
  | none => simp [require]
  | some a => simp [require]

@[simp ↓]
theorem meets_take {name : String} {P : Value ν → ActionInput ν → Prop} :
    (take name).Meets input P R ↔
      P (takeLabel name input.labels).1
        { input with labels := (takeLabel name input.labels).2 } :=
  Iff.rfl

@[simp ↓]
theorem meets_takeValue {P : Value ν → ActionInput ν → Prop} :
    takeValue.Meets input P R ↔ P input.value { input with value := .empty } :=
  Iff.rfl

@[simp ↓]
theorem meets_matched {P : String → ActionInput ν → Prop} :
    matched.Meets input P R ↔ P (input.start.textTo input.stop) input :=
  Iff.rfl

@[simp ↓]
theorem meets_produce [NodeKind α ν] {a : α} {P : Value ν → ActionInput ν → Prop} :
    (produce a).Meets input P R ↔ P (.ofNode a) input :=
  Iff.rfl

@[simp ↓]
theorem meets_ite {p : Prop} [Decidable p] {act act' : ActionM ν α}
    {P : α → ActionInput ν → Prop} :
    (if p then act else act').Meets input P R ↔
      (p → act.Meets input P R) ∧ (¬ p → act'.Meets input P R) := by
  split <;> simp [*]

@[simp ↓]
theorem meets_node [NodeKind α ν] {name : String} {P : α → ActionInput ν → Prop} :
    (node name).Meets input P R ↔
      (∀ a, (takeLabel name input.labels).1.toNode? = some a →
        P a { input with labels := (takeLabel name input.labels).2 }) ∧
      ((takeLabel name input.labels).1.toNode? = (none : Option α) → R) := by
  simp [node]

@[simp ↓]
theorem meets_node? [NodeKind α ν] {name : String} {P : Option α → ActionInput ν → Prop} :
    (node? name).Meets input P R ↔
      ((takeLabel name input.labels).1.isPresent = true →
        (∀ a, (takeLabel name input.labels).1.toNode? = some a →
          P (some a) { input with labels := (takeLabel name input.labels).2 }) ∧
        ((takeLabel name input.labels).1.toNode? = (none : Option α) → R)) ∧
      ((takeLabel name input.labels).1.isPresent = false →
        P none { input with labels := (takeLabel name input.labels).2 }) := by
  simp [node?]

@[simp ↓]
theorem meets_nodes [NodeKind α ν] {name : String} {P : List α → ActionInput ν → Prop} :
    (nodes name).Meets input P R ↔
      (∀ as, (takeLabel name input.labels).1.toNodes? = some as →
        P as { input with labels := (takeLabel name input.labels).2 }) ∧
      ((takeLabel name input.labels).1.toNodes? = (none : Option (List α)) → R) := by
  simp [nodes]

@[simp ↓]
theorem meets_text {name : String} {P : String → ActionInput ν → Prop} :
    (text name).Meets input P R ↔
      (∀ s, (takeLabel name input.labels).1.toText? = some s →
        P s { input with labels := (takeLabel name input.labels).2 }) ∧
      ((takeLabel name input.labels).1.toText? = none → R) := by
  simp [text]

@[simp ↓]
theorem meets_text? {name : String} {P : Option String → ActionInput ν → Prop} :
    (text? name).Meets input P R ↔
      P (takeLabel name input.labels).1.toText?
        { input with labels := (takeLabel name input.labels).2 } := by
  simp [text?]

@[simp ↓]
theorem meets_flag {name : String} {P : Bool → ActionInput ν → Prop} :
    (flag name).Meets input P R ↔
      P (takeLabel name input.labels).1.isPresent
        { input with labels := (takeLabel name input.labels).2 } := by
  simp [flag]

@[simp ↓]
theorem meets_valueNode [NodeKind α ν] {P : α → ActionInput ν → Prop} :
    valueNode.Meets input P R ↔
      (∀ a, input.value.toNode? = some a → P a { input with value := .empty }) ∧
      (input.value.toNode? = (none : Option α) → R) := by
  simp [valueNode]

@[simp ↓]
theorem meets_valueText {P : String → ActionInput ν → Prop} :
    valueText.Meets input P R ↔
      (∀ s, input.value.toText? = some s → P s { input with value := .empty }) ∧
      (input.value.toText? = none → R) := by
  simp [valueText]

end ActionM

namespace Term

variable {ρ ν : Type} (A : ActionM ν (Value ν) → Term ρ ν → Prop)

mutual

/-- Every action in the term, with the term it is applied to, has the property. -/
@[simp]
def Accounted : Term ρ ν → Prop
  | .literal _ _ | .charIn _ | .anyChar | .rule _ => True
  | .seq ts | .choice ts => AccountedAll ts
  | .star t | .plus t | .opt t | .not t | .and t | .label _ t | .text t | .pick _ t => Accounted t
  | .action act t => A act t ∧ Accounted t

/-- Every action in one of the terms has the property. -/
@[simp]
def AccountedAll : List (Term ρ ν) → Prop
  | [] => True
  | t :: ts => Accounted t ∧ AccountedAll ts

end

@[simp] theorem accounted_lit (s : String) : (lit s).Accounted A := trivial

@[simp] theorem accounted_litAnyCase (s : String) : (litAnyCase s).Accounted A := trivial

@[simp] theorem accounted_oneOf (ranges : List (Char × Char)) : (oneOf ranges).Accounted A :=
  trivial

@[simp] theorem accounted_noneOf (ranges : List (Char × Char)) : (noneOf ranges).Accounted A :=
  trivial

end Term

end PegScript
