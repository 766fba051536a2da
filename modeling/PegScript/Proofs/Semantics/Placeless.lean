import PegScript.Proofs.Semantics.Actions

/-!
# Actions that do not see where they are

An action that uses the matched text but not its offsets gives the same value wherever the text
stands (`ActionM.Placeless`).  There is one instance for each operation that actions are written
with, but for the one that asks for the offsets.
-/

namespace PegScript

variable {ν : Type}

/-- The same labels, value and text, maybe at another place. -/
structure ActionInput.Alike (input input' : ActionInput ν) : Prop where
  labels : input'.labels = input.labels
  value : input'.value = input.value
  text : input'.start.textTo input'.stop = input.start.textTo input.stop

theorem ActionInput.Alike.symm {input input' : ActionInput ν} (h : input.Alike input') :
    input'.Alike input :=
  ⟨h.labels.symm, h.value.symm, h.text.symm⟩

namespace ActionM

variable {α β : Type}

/-- The action sees the labels, the value and the text of a match, but not its place. -/
class Placeless (act : ActionM ν α) : Prop where
  alike : ∀ {input input'}, input.Alike input' →
    act.Ensures input fun a left => ∃ left', act input' = some (a, left') ∧ left.Alike left'

theorem Placeless.eq_none {act : ActionM ν α} (h : act.Placeless) {input input' : ActionInput ν}
    (halike : input.Alike input') (hnone : act input = none) : act input' = none := by
  cases hact : act input' with
  | none => rfl
  | some p =>
      obtain ⟨left, hsome, -⟩ := h.alike halike.symm p.1 p.2 hact
      rw [hnone] at hsome
      cases hsome

instance (a : α) : (pure a : ActionM ν α).Placeless where
  alike := by
    rintro input input' halike b left ⟨⟩
    exact ⟨input', rfl, halike⟩

theorem Placeless.bind {act : ActionM ν α} {f : α → ActionM ν β} (hact : act.Placeless)
    (hf : ∀ a, (f a).Placeless) : (act >>= f).Placeless where
  alike := by
    intro input input' halike
    rw [ensures_bind]
    intro a left hleft b last hlast
    obtain ⟨left', hleft', halike'⟩ := hact.alike halike a left hleft
    obtain ⟨last', hlast', hend⟩ := (hf a).alike halike' b last hlast
    refine ⟨last', ?_, hend⟩
    change (act input').bind _ = _
    rw [hleft']
    exact hlast'

instance (act : ActionM ν α) (f : α → ActionM ν β) [hact : act.Placeless]
    [hf : ∀ a, (f a).Placeless] : (act >>= f).Placeless :=
  hact.bind hf

instance (f : α → β) (act : ActionM ν α) [act.Placeless] : (f <$> act).Placeless :=
  inferInstanceAs (act >>= fun a => pure (f a)).Placeless

instance : (reject : ActionM ν α).Placeless where
  alike := by
    rintro input input' halike a left ⟨⟩

instance (o : Option α) : (require o : ActionM ν α).Placeless := by
  cases o with
  | none => exact inferInstanceAs (reject : ActionM ν α).Placeless
  | some a => exact inferInstanceAs (pure a : ActionM ν α).Placeless

instance (name : String) : (take name : ActionM ν (Value ν)).Placeless where
  alike := by
    rintro input input' halike a left ⟨⟩
    rw [take, halike.labels]
    exact ⟨_, rfl, rfl, halike.value, halike.text⟩

instance : (takeValue : ActionM ν (Value ν)).Placeless where
  alike := by
    rintro input input' halike a left ⟨⟩
    rw [takeValue, halike.value]
    exact ⟨_, rfl, halike.labels, rfl, halike.text⟩

instance : (matched : ActionM ν String).Placeless where
  alike := by
    rintro input input' halike a left ⟨⟩
    rw [matched, halike.text]
    exact ⟨_, rfl, halike⟩

instance {p : Prop} [Decidable p] (act act' : ActionM ν α) [h : act.Placeless]
    [h' : act'.Placeless] : (if p then act else act').Placeless := by
  split
  · exact h
  · exact h'

instance [NodeKind α ν] (a : α) : (produce a : ActionM ν (Value ν)).Placeless :=
  inferInstanceAs (pure _ : ActionM ν (Value ν)).Placeless

instance [NodeKind α ν] (name : String) : (node name : ActionM ν α).Placeless :=
  inferInstanceAs (take name >>= fun v => require v.toNode?).Placeless

instance [NodeKind α ν] (name : String) : (node? name : ActionM ν (Option α)).Placeless :=
  inferInstanceAs
    (take name >>= fun v =>
      if v.isPresent then some <$> require v.toNode? else pure none).Placeless

instance [NodeKind α ν] (name : String) : (nodes name : ActionM ν (List α)).Placeless :=
  inferInstanceAs (take name >>= fun v => require v.toNodes?).Placeless

instance (name : String) : (text name : ActionM ν String).Placeless :=
  inferInstanceAs (take name >>= fun v => require v.toText?).Placeless

instance (name : String) : (text? name : ActionM ν (Option String)).Placeless :=
  inferInstanceAs (take name >>= fun v => pure v.toText?).Placeless

instance (name : String) : (flag name : ActionM ν Bool).Placeless :=
  inferInstanceAs (take name >>= fun v => pure v.isPresent).Placeless

instance [NodeKind α ν] : (valueNode : ActionM ν α).Placeless :=
  inferInstanceAs (takeValue >>= fun v => require v.toNode?).Placeless

instance : (valueText : ActionM ν String).Placeless :=
  inferInstanceAs (takeValue >>= fun v => require v.toText?).Placeless

end ActionM

end PegScript
