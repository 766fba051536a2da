import PegScript.Grammar.Action

/-!
# What an action ensures

`ActionM.Ensures act input P` holds if whatever the action gives on the input has the property `P`.
It is a weakest precondition: for each operation that actions are written with, one equation says
what it comes to, so an action opens into the conditions on the labels and the value that it reads.
-/

namespace PegScript

/-- Reading back a node of a kind gives what was put in. -/
class LawfulNodeKind (α ν : Type) [NodeKind α ν] : Prop where
  unwrap?_wrap : ∀ a : α, NodeKind.unwrap? (NodeKind.wrap a : ν) = some a

attribute [simp] takeLabel

namespace Value

instance {ν : Type} : Inhabited (Value ν) :=
  ⟨.empty⟩

variable {ν : Type}

@[simp]
theorem isPresent_empty : (empty : Value ν).isPresent = false :=
  rfl

@[simp]
theorem isPresent_absent : (absent : Value ν).isPresent = false :=
  rfl

@[simp]
theorem isPresent_text (s : String) : (text s : Value ν).isPresent = true :=
  rfl

@[simp]
theorem isPresent_list (vs : List (Value ν)) : (list vs).isPresent = true :=
  rfl

@[simp]
theorem toText?_text (s : String) : (text s : Value ν).toText? = some s :=
  rfl

@[simp]
theorem toText?_empty : (empty : Value ν).toText? = none :=
  rfl

@[simp]
theorem toText?_absent : (absent : Value ν).toText? = none :=
  rfl

@[simp]
theorem pick_list (index : Nat) (vs : List (Value ν)) :
    (list vs).pick index = vs[index]?.getD (list vs) :=
  rfl

variable {α : Type} [NodeKind α ν]

/-- A node as a value. -/
def ofNode (a : α) : Value ν :=
  .node (NodeKind.wrap a)

/-- A list of nodes as a value. -/
def ofNodes (as : List α) : Value ν :=
  .list (as.map ofNode)

@[simp]
theorem isPresent_ofNode (a : α) : (ofNode a : Value ν).isPresent = true :=
  rfl

variable [LawfulNodeKind α ν]

@[simp]
theorem toNode?_ofNode (a : α) : (ofNode a : Value ν).toNode? = some a :=
  LawfulNodeKind.unwrap?_wrap a

theorem ofNode_inj {a b : α} (h : (ofNode a : Value ν) = ofNode b) : a = b := by
  have hread := congrArg (Value.toNode? (α := α)) h
  simpa using hread

@[simp]
theorem toNodes?_ofNodes (as : List α) : (ofNodes as : Value ν).toNodes? = some as := by
  have hmap : (as.map ofNode).mapM (Value.toNode? (ν := ν) (α := α)) = some as := by
    induction as with
    | nil => rfl
    | cons a as ih => simp [List.mapM_cons, ih]
  exact hmap

/-- The value is a node with the property. -/
def Holds (P : α → Prop) (v : Value ν) : Prop :=
  ∃ a, P a ∧ ofNode a = v

@[simp]
theorem holds_ofNode {P : α → Prop} {a : α} :
    (ofNode a : Value ν).Holds P ↔ P a := by
  constructor
  · rintro ⟨b, hb, heq⟩
    rwa [← ofNode_inj heq]
  · intro h
    exact ⟨a, h, rfl⟩

omit [LawfulNodeKind α ν] in
@[simp]
theorem forall_holds {P : α → Prop} {R : Value ν → Prop} :
    (∀ v, v.Holds P → R v) ↔ ∀ a, P a → R (ofNode a) := by
  constructor
  · intro h a ha
    exact h _ ⟨a, ha, rfl⟩
  · rintro h v ⟨a, ha, rfl⟩
    exact h a ha

/-- The value is a list of nodes, and the list has the property. -/
def HoldsList (P : List α → Prop) (v : Value ν) : Prop :=
  ∃ as : List α, P as ∧ ofNodes as = v

omit [LawfulNodeKind α ν] in
/-- A list of nodes with the property is the list of what the nodes hold. -/
theorem holdsList_list {P : α → Prop} {vs : List (Value ν)}
    (h : ∀ v ∈ vs, v.Holds P) : (list vs).HoldsList fun as : List α => ∀ a ∈ as, P a := by
  induction vs with
  | nil => exact ⟨[], by simp, rfl⟩
  | cons v vs ih =>
      obtain ⟨as, has, heq⟩ := ih fun v hv => h v (List.mem_cons_of_mem _ hv)
      obtain ⟨a, ha, rfl⟩ := h v List.mem_cons_self
      cases heq
      exact ⟨a :: as, List.forall_mem_cons.mpr ⟨ha, has⟩, rfl⟩

omit [LawfulNodeKind α ν] in
@[simp]
theorem forall_holdsList {P : List α → Prop} {R : Value ν → Prop} :
    (∀ v, v.HoldsList P → R v) ↔ ∀ as : List α, P as → R (ofNodes as) := by
  constructor
  · intro h as has
    exact h _ ⟨as, has, rfl⟩
  · rintro h v ⟨as, has, rfl⟩
    exact h as has

omit [LawfulNodeKind α ν] in
@[simp]
theorem toNode?_absent : (absent : Value ν).toNode? = (none : Option α) :=
  rfl

omit [LawfulNodeKind α ν] in
@[simp]
theorem toNodes?_absent : (absent : Value ν).toNodes? = some ([] : List α) :=
  rfl

omit [LawfulNodeKind α ν] in
@[simp]
theorem toNodes?_empty : (empty : Value ν).toNodes? = some ([] : List α) :=
  rfl

end Value

namespace ActionM

variable {ν α β : Type}

/-- Whatever the action gives on the input, with what it leaves of the input, has the property. -/
def Ensures (act : ActionM ν α) (input : ActionInput ν)
    (P : α → ActionInput ν → Prop) : Prop :=
  ∀ a left, act input = some (a, left) → P a left

variable {input : ActionInput ν}

@[simp ↓]
theorem ensures_pure {a : α} {P : α → ActionInput ν → Prop} :
    (pure a : ActionM ν α).Ensures input P ↔ P a input := by
  constructor
  · intro h
    exact h a input rfl
  · rintro h b left ⟨⟩
    exact h

@[simp ↓]
theorem ensures_bind {act : ActionM ν α} {f : α → ActionM ν β}
    {P : β → ActionInput ν → Prop} :
    (act >>= f).Ensures input P ↔
      act.Ensures input fun a left => (f a).Ensures left P := by
  simp only [Ensures, bind, StateT.bind, Option.bind_eq_some_iff, Prod.exists]
  constructor
  · intro h a left hact b left' hf
    exact h b left' ⟨a, left, hact, hf⟩
  · rintro h b left' ⟨a, left, hact, hf⟩
    exact h a left hact b left' hf

@[simp ↓]
theorem ensures_map {act : ActionM ν α} {f : α → β}
    {P : β → ActionInput ν → Prop} :
    (f <$> act).Ensures input P ↔ act.Ensures input fun a left => P (f a) left := by
  have hmap : f <$> act = act >>= fun a => pure (f a) := rfl
  simp only [hmap, ensures_bind, ensures_pure]

@[simp ↓]
theorem ensures_reject {P : α → ActionInput ν → Prop} :
    (reject : ActionM ν α).Ensures input P := by
  rintro a left ⟨⟩

@[simp ↓]
theorem ensures_require {o : Option α} {P : α → ActionInput ν → Prop} :
    (require o).Ensures input P ↔ ∀ a, o = some a → P a input := by
  cases o with
  | none => simp [require]
  | some a => simp [require]

@[simp ↓]
theorem ensures_take {name : String} {P : Value ν → ActionInput ν → Prop} :
    (take name).Ensures input P ↔
      P (takeLabel name input.labels).1
        { input with labels := (takeLabel name input.labels).2 } := by
  constructor
  · intro h
    exact h _ _ rfl
  · rintro h a left ⟨⟩
    exact h

@[simp ↓]
theorem ensures_takeValue {P : Value ν → ActionInput ν → Prop} :
    takeValue.Ensures input P ↔ P input.value { input with value := .empty } := by
  constructor
  · intro h
    exact h _ _ rfl
  · rintro h a left ⟨⟩
    exact h

@[simp ↓]
theorem ensures_matched {P : String → ActionInput ν → Prop} :
    matched.Ensures input P ↔ P (input.start.textTo input.stop) input := by
  constructor
  · intro h
    exact h _ _ rfl
  · rintro h a left ⟨⟩
    exact h

@[simp ↓]
theorem ensures_produce [NodeKind α ν] {a : α} {P : Value ν → ActionInput ν → Prop} :
    (produce a).Ensures input P ↔ P (.ofNode a) input :=
  ensures_pure

@[simp ↓]
theorem ensures_ite {p : Prop} [Decidable p] {act act' : ActionM ν α}
    {P : α → ActionInput ν → Prop} :
    (if p then act else act').Ensures input P ↔
      (p → act.Ensures input P) ∧ (¬ p → act'.Ensures input P) := by
  split <;> simp [*]

@[simp ↓]
theorem ensures_node [NodeKind α ν] {name : String} {P : α → ActionInput ν → Prop} :
    (node name).Ensures input P ↔
      ∀ a, (takeLabel name input.labels).1.toNode? = some a →
        P a { input with labels := (takeLabel name input.labels).2 } := by
  simp [node]

@[simp ↓]
theorem ensures_node? [NodeKind α ν] {name : String}
    {P : Option α → ActionInput ν → Prop} :
    (node? name).Ensures input P ↔
      ((takeLabel name input.labels).1.isPresent = true →
        ∀ a, (takeLabel name input.labels).1.toNode? = some a →
          P (some a) { input with labels := (takeLabel name input.labels).2 }) ∧
      ((takeLabel name input.labels).1.isPresent = false →
        P none { input with labels := (takeLabel name input.labels).2 }) := by
  simp [node?]

@[simp ↓]
theorem ensures_nodes [NodeKind α ν] {name : String}
    {P : List α → ActionInput ν → Prop} :
    (nodes name).Ensures input P ↔
      ∀ as, (takeLabel name input.labels).1.toNodes? = some as →
        P as { input with labels := (takeLabel name input.labels).2 } := by
  simp [nodes]

@[simp ↓]
theorem ensures_text {name : String} {P : String → ActionInput ν → Prop} :
    (text name).Ensures input P ↔
      ∀ s, (takeLabel name input.labels).1.toText? = some s →
        P s { input with labels := (takeLabel name input.labels).2 } := by
  simp [text]

@[simp ↓]
theorem ensures_text? {name : String} {P : Option String → ActionInput ν → Prop} :
    (text? name).Ensures input P ↔
      P (takeLabel name input.labels).1.toText?
        { input with labels := (takeLabel name input.labels).2 } := by
  simp [text?]

@[simp ↓]
theorem ensures_flag {name : String} {P : Bool → ActionInput ν → Prop} :
    (flag name).Ensures input P ↔
      P (takeLabel name input.labels).1.isPresent
        { input with labels := (takeLabel name input.labels).2 } := by
  simp [flag]

@[simp ↓]
theorem ensures_valueNode [NodeKind α ν] {P : α → ActionInput ν → Prop} :
    valueNode.Ensures input P ↔
      ∀ a, input.value.toNode? = some a → P a { input with value := .empty } := by
  simp [valueNode]

@[simp ↓]
theorem ensures_valueText {P : String → ActionInput ν → Prop} :
    valueText.Ensures input P ↔
      ∀ s, input.value.toText? = some s → P s { input with value := .empty } := by
  simp [valueText]

/-! ## Actions that accept -/

theorem exists_bind_eq_some {act : ActionM ν α} {f : α → ActionM ν β}
    {input next : ActionInput ν} {a : α} {b : β} (h : act input = some (a, next))
    (h' : ∃ left, f a next = some (b, left)) : ∃ left, (act >>= f) input = some (b, left) := by
  obtain ⟨left, h'⟩ := h'
  refine ⟨left, ?_⟩
  change (act input).bind (fun p => f p.1 p.2) = some (b, left)
  rw [h, Option.bind_some, h']

theorem require_eq_some {o : Option α} {a : α} (h : o = some a) {input : ActionInput ν} :
    require o input = some (a, input) := by
  rw [h]
  rfl

theorem nodes_eq_some [NodeKind α ν] (name : String) {input : ActionInput ν} {as : List α}
    (h : (takeLabel name input.labels).1.toNodes? = some as) :
    nodes name input = some (as, { input with labels := (takeLabel name input.labels).2 }) := by
  change (require (takeLabel name input.labels).1.toNodes?)
    { input with labels := (takeLabel name input.labels).2 } = _
  rw [h]
  rfl

end ActionM

end PegScript
