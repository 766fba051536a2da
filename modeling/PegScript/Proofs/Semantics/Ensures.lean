import PegScript.Proofs.Semantics.Actions
import PegScript.Proofs.Semantics.Derivation

/-!
# What a term ensures of its value

`Term.Ensures` is a weakest precondition: it holds if every reading of the term has a value and
labels with the given property, where the values of rules are known to satisfy `Q`.  It forgets the
places, so it opens into plain statements about values.  A repetition is opened with a property that
each of its items has.

If every body ensures what is claimed of its rule, then every reading of every rule has it
(`Derives.rule_value`).
-/

namespace PegScript

variable {ρ ν : Type}

instance : Inhabited Cursor :=
  ⟨⟨0, []⟩⟩

/-- The property of the items of a list and of labels, as one of any value and labels. -/
def Value.OnItems (P : List (Value ν) → List (String × Value ν) → Prop) :
    Value ν → List (String × Value ν) → Prop
  | .list vs, labels => P vs labels
  | _, _ => True

namespace Term

variable (Q : ρ → Value ν → Prop)

mutual

/-- Every reading of the term has a value and labels with the property. -/
def Ensures : Term ρ ν → (Value ν → List (String × Value ν) → Prop) → Prop
  | .literal _ _, P => ∀ s, P (.text s) []
  | .charIn _, P => ∀ s, P (.text s) []
  | .anyChar, P => ∀ s, P (.text s) []
  | .rule r, P => ∀ v, Q r v → P v []
  | .seq ts, P => EnsuresSeq ts fun vs labels => P (.list vs) labels
  | .choice ts, P => EnsuresChoice ts P
  | .star t, P =>
      ∃ item : Value ν → Prop, Ensures t (fun v labels => item v ∧ labels = []) ∧
        ∀ vs, (∀ v ∈ vs, item v) → P (.list vs) []
  | .plus t, P =>
      ∃ item : Value ν → Prop, Ensures t (fun v labels => item v ∧ labels = []) ∧
        ∀ vs, (∀ v ∈ vs, item v) → P (.list vs) []
  | .opt t, P => Ensures t P ∧ P .absent []
  | .not _, P => P .empty []
  | .and _, P => P .empty []
  | .label name t, P => Ensures t fun v labels => P .empty ((name, v) :: labels)
  | .action act t, P =>
      Ensures t fun v labels => ∀ start stop,
        act.Ensures ⟨labels, v, start, stop⟩ fun w _ => P w []
  | .text t, P => Ensures t fun _ labels => ∀ s, P (.text s) labels
  | .pick index t, P => Ensures t fun v labels => P (v.pick index) labels

/-- Every reading of the terms one after the other has values and labels with the property. -/
def EnsuresSeq : List (Term ρ ν) →
    (List (Value ν) → List (String × Value ν) → Prop) → Prop
  | [], P => P [] []
  | t :: ts, P =>
      Ensures t fun v labels =>
        EnsuresSeq ts fun vs labels' => P (v :: vs) (labels' ++ labels)

/-- Every reading of each of the terms has the property. -/
def EnsuresChoice : List (Term ρ ν) →
    (Value ν → List (String × Value ν) → Prop) → Prop
  | [], _ => True
  | t :: ts, P => Ensures t P ∧ EnsuresChoice ts P

end

variable {Q} {P : Value ν → List (String × Value ν) → Prop}

@[simp ↓]
theorem ensures_literal {s : String} {ignoreCase : Bool} :
    (Term.literal s ignoreCase : Term ρ ν).Ensures Q P ↔ ∀ s, P (.text s) [] :=
  Iff.rfl

@[simp ↓]
theorem ensures_lit {s : String} :
    (Term.lit s : Term ρ ν).Ensures Q P ↔ ∀ s, P (.text s) [] :=
  Iff.rfl

@[simp ↓]
theorem ensures_charIn {k : CharClass} :
    (Term.charIn k : Term ρ ν).Ensures Q P ↔ ∀ s, P (.text s) [] :=
  Iff.rfl

@[simp ↓]
theorem ensures_anyChar :
    (Term.anyChar : Term ρ ν).Ensures Q P ↔ ∀ s, P (.text s) [] :=
  Iff.rfl

@[simp ↓]
theorem ensures_rule {r : ρ} :
    (Term.rule r).Ensures Q P ↔ ∀ v, Q r v → P v [] :=
  Iff.rfl

@[simp ↓]
theorem ensures_seq {ts : List (Term ρ ν)} :
    (Term.seq ts).Ensures Q P ↔ EnsuresSeq Q ts fun vs labels => P (.list vs) labels :=
  Iff.rfl

@[simp ↓]
theorem ensuresSeq_nil {P : List (Value ν) → List (String × Value ν) → Prop} :
    EnsuresSeq Q ([] : List (Term ρ ν)) P ↔ P [] [] :=
  Iff.rfl

@[simp ↓]
theorem ensuresSeq_cons {t : Term ρ ν} {ts : List (Term ρ ν)}
    {P : List (Value ν) → List (String × Value ν) → Prop} :
    EnsuresSeq Q (t :: ts) P ↔
      t.Ensures Q fun v labels =>
        EnsuresSeq Q ts fun vs labels' => P (v :: vs) (labels' ++ labels) :=
  Iff.rfl

@[simp ↓]
theorem ensures_choice_nil : (Term.choice [] : Term ρ ν).Ensures Q P :=
  trivial

@[simp ↓]
theorem ensures_choice_cons {t : Term ρ ν} {ts : List (Term ρ ν)} :
    (Term.choice (t :: ts)).Ensures Q P ↔
      t.Ensures Q P ∧ (Term.choice ts).Ensures Q P :=
  Iff.rfl

@[simp ↓]
theorem ensures_opt {t : Term ρ ν} :
    (Term.opt t).Ensures Q P ↔ t.Ensures Q P ∧ P .absent [] :=
  Iff.rfl

@[simp ↓]
theorem ensures_not {t : Term ρ ν} : (Term.not t).Ensures Q P ↔ P .empty [] :=
  Iff.rfl

@[simp ↓]
theorem ensures_label {name : String} {t : Term ρ ν} :
    (Term.label name t).Ensures Q P ↔
      t.Ensures Q fun v labels => P .empty ((name, v) :: labels) :=
  Iff.rfl

@[simp ↓]
theorem ensures_action {act : ActionM ν (Value ν)} {t : Term ρ ν} :
    (Term.action act t).Ensures Q P ↔
      t.Ensures Q fun v labels => ∀ start stop,
        act.Ensures ⟨labels, v, start, stop⟩ fun w _ => P w [] :=
  Iff.rfl

@[simp ↓]
theorem ensures_text {t : Term ρ ν} :
    (Term.text t).Ensures Q P ↔ t.Ensures Q fun _ labels => ∀ s, P (.text s) labels :=
  Iff.rfl

@[simp ↓]
theorem ensures_pick {index : Nat} {t : Term ρ ν} :
    (Term.pick index t).Ensures Q P ↔
      t.Ensures Q fun v labels => P (v.pick index) labels :=
  Iff.rfl

mutual

/-- What a term ensures may be weakened. -/
theorem Ensures.mono {P P' : Value ν → List (String × Value ν) → Prop} :
    ∀ t : Term ρ ν, (∀ v labels, P v labels → P' v labels) →
      t.Ensures Q P → t.Ensures Q P'
  | .literal _ _, himp, h | .charIn _, himp, h | .anyChar, himp, h => by
      intro s
      exact himp _ _ (h s)
  | .rule _, himp, h => by
      intro v hv
      exact himp _ _ (h v hv)
  | .seq ts, himp, h => EnsuresSeq.mono ts (fun vs => himp (.list vs)) h
  | .choice ts, himp, h => EnsuresChoice.mono ts himp h
  | .star _, himp, h | .plus _, himp, h => by
      obtain ⟨item, hitem, hall⟩ := h
      exact ⟨item, hitem, fun vs hvs => himp _ _ (hall vs hvs)⟩
  | .opt t, himp, h => ⟨Ensures.mono t himp h.1, himp _ _ h.2⟩
  | .not _, himp, h | .and _, himp, h => himp _ _ h
  | .label name t, himp, h => by
      refine Ensures.mono t (fun v labels hv => ?_) h
      exact himp _ _ hv
  | .action act t, himp, h => by
      refine Ensures.mono t (fun v labels hact => ?_) h
      intro start stop w left hw
      exact himp _ _ (hact start stop w left hw)
  | .text t, himp, h => by
      refine Ensures.mono t (fun v labels htext => ?_) h
      intro s
      exact himp _ _ (htext s)
  | .pick index t, himp, h => by
      refine Ensures.mono t (fun v labels hv => ?_) h
      exact himp _ _ hv

theorem EnsuresSeq.mono {P P' : List (Value ν) → List (String × Value ν) → Prop} :
    ∀ ts : List (Term ρ ν), (∀ vs labels, P vs labels → P' vs labels) →
      EnsuresSeq Q ts P → EnsuresSeq Q ts P'
  | [], himp, h => himp _ _ h
  | t :: ts, himp, h => by
      refine Ensures.mono t (fun v labels hrest => ?_) h
      exact EnsuresSeq.mono ts (fun vs labels' => himp _ _) hrest

theorem EnsuresChoice.mono {P P' : Value ν → List (String × Value ν) → Prop} :
    ∀ ts : List (Term ρ ν), (∀ v labels, P v labels → P' v labels) →
      EnsuresChoice Q ts P → EnsuresChoice Q ts P'
  | [], _, _ => trivial
  | t :: ts, himp, h => ⟨Ensures.mono t himp h.1, EnsuresChoice.mono ts himp h.2⟩

end

/-- An optional term whose value only tells whether it is there. -/
theorem ensures_opt_any {t : Term ρ ν}
    (ht : t.Ensures Q fun _ labels => labels = []) (hany : ∀ v, P v []) :
    (Term.opt t).Ensures Q P := by
  refine ⟨Ensures.mono t ?_ ht, hany _⟩
  rintro v _ rfl
  exact hany v

/-- A repetition of which only the extent counts. -/
theorem ensures_star_any {t : Term ρ ν}
    (ht : t.Ensures Q fun _ labels => labels = []) (hany : ∀ v, P v []) :
    (Term.star t).Ensures Q P := by
  refine ⟨fun _ => True, Ensures.mono t ?_ ht, fun vs _ => hany _⟩
  intro v labels hlabels
  exact ⟨trivial, hlabels⟩

/-- A repetition of nodes with a property gives a list of such nodes. -/
theorem ensures_star {α : Type} [NodeKind α ν] (item : α → Prop) {t : Term ρ ν}
    (hitem : t.Ensures Q fun v labels => v.Holds item ∧ labels = [])
    (hall : ∀ as : List α, (∀ a ∈ as, item a) → P (.ofNodes as) []) :
    (Term.star t).Ensures Q P := by
  refine ⟨Value.Holds item, hitem, fun vs hvs => ?_⟩
  obtain ⟨as, has, heq⟩ := Value.holdsList_list hvs
  rw [← heq]
  exact hall as has

/-- A separated list of nodes with a property gives a list of such nodes. -/
theorem ensures_separated {α : Type} [NodeKind α ν] (item : α → Prop)
    {r : ρ} {separator : Term ρ ν}
    (hseparator : separator.Ensures Q fun _ labels => labels = [])
    (hitem : ∀ v, Q r v → v.Holds item)
    (hall : ∀ as : List α, (∀ a ∈ as, item a) → P (.ofNodes as) []) :
    (Term.separated r separator).Ensures Q P := by
  intro head hhead
  obtain ⟨a, ha, rfl⟩ := hitem head hhead
  refine ⟨Value.Holds item, ?_, ?_⟩
  · refine Ensures.mono separator (fun _ labels hlabels => ?_) hseparator
    intro v hv
    exact ⟨hitem v hv, hlabels⟩
  · intro vs hvs start stop
    obtain ⟨as, has, heq⟩ := Value.holdsList_list hvs
    cases heq
    rintro w left ⟨⟩
    exact hall (a :: as) (List.forall_mem_cons.mpr ⟨ha, has⟩)

end Term

namespace Derives

variable {g : Grammar ρ ν} {Q : ρ → Value ν → Prop}

/-- A reading of a term has what the term ensures.  The induction is on the derivation, and for a
repetition it collects the items of the rounds behind the first one. -/
theorem ensured_of_step
    (hstep : ∀ r c m, Derives g (g.rule r).body c (some m) →
      (∀ P, (g.rule r).body.Ensures Q P → P m.value m.labels) → Q r m.value)
    {t : Term ρ ν} {c : Cursor} {d : Option (Reading ν)}
    (h : Derives g t c d) :
    ∀ m, d = some m → ∀ P, t.Ensures Q P → P m.value m.labels := by
  induction h with
  | literal h | charIn hnext hmem | anyChar hnext =>
      rintro m ⟨⟩ P hP
      exact hP _
  | @rule _ _ m h ih =>
      rintro m' ⟨⟩ P hP
      exact hP _ (hstep _ _ m h (ih m rfl))
  | seqNil =>
      rintro m ⟨⟩ P hP
      exact hP
  | seqCons hhead htail ihhead ihtail =>
      rintro m ⟨⟩ P hP
      have hrest := ihhead _ rfl _ hP
      exact ihtail _ rfl (Value.OnItems fun vs labels => P (.list (_ :: vs)) (labels ++ _)) hrest
  | choiceHere h ih =>
      rintro m ⟨⟩ P hP
      exact ih _ rfl P hP.1
  | choiceLater hfail h ihfail ih =>
      rintro m hm P hP
      exact ih m hm P hP.2
  | starStop h ih =>
      rintro m ⟨⟩ P ⟨item, hitem, hP⟩
      exact hP [] (by simp)
  | starEmpty h ih =>
      rintro m ⟨⟩ P ⟨item, hitem, hP⟩
      obtain ⟨hv, hlabels⟩ := ih _ rfl _ hitem
      have hall := hP [_] (by simpa using hv)
      rw [← hlabels] at hall
      exact hall
  | starMore h hmoved hrest ih ihrest =>
      rintro m ⟨⟩ P ⟨item, hitem, hP⟩
      obtain ⟨hv, hlabels⟩ := ih _ rfl _ hitem
      obtain ⟨hvs, hlabels'⟩ := ihrest _ rfl
        (Value.OnItems fun vs labels => (∀ v ∈ vs, item v) ∧ labels = [])
        ⟨item, hitem, fun vs hvs => ⟨hvs, rfl⟩⟩
      have hall := hP (_ :: _) (List.forall_mem_cons.2 ⟨hv, hvs⟩)
      dsimp only at hlabels'
      simpa only [hlabels, hlabels', List.append_nil] using hall
  | plus h ih =>
      rintro m ⟨⟩ P ⟨item, hitem, hP⟩
      exact ih _ rfl P ⟨item, hitem, hP⟩
  | opt h ih =>
      rintro m ⟨⟩ P hP
      exact ih _ rfl P hP.1
  | optAbsent h ih =>
      rintro m ⟨⟩ P hP
      exact hP.2
  | not h ih =>
      rintro m ⟨⟩ P hP
      exact hP
  | and h ih =>
      rintro m ⟨⟩ P hP
      exact hP
  | label h ih =>
      rintro m ⟨⟩ P hP
      exact ih _ rfl _ hP
  | action h hact ih =>
      rintro m ⟨⟩ P hP
      exact ih _ rfl _ hP _ _ _ _ hact
  | text h ih =>
      rintro m ⟨⟩ P hP
      exact ih _ rfl _ hP _
  | pick h ih =>
      rintro m ⟨⟩ P hP
      exact ih _ rfl _ hP
  | _ =>
      rintro m ⟨⟩

/-- A reading has what its term ensures when nothing is known of the rules. -/
theorem ensured {t : Term ρ ν} {c : Cursor} {m : Reading ν}
    {P : Value ν → List (String × Value ν) → Prop}
    (h : Derives g t c (some m)) (hP : t.Ensures (fun _ _ => True) P) :
    P m.value m.labels :=
  h.ensured_of_step (fun _ _ _ _ _ => trivial) m rfl P hP

/-- If every body ensures what is claimed of its rule, every reading of a rule has it.  Beside what
its body ensures, a step may use how the body was read. -/
theorem rule_value
    (hstep : ∀ r c m, Derives g (g.rule r).body c (some m) →
      (∀ P, (g.rule r).body.Ensures Q P → P m.value m.labels) → Q r m.value)
    {r : ρ} {c : Cursor} {m : Reading ν}
    (h : Derives g (.rule r) c (some m)) : Q r m.value := by
  have hrule : (Term.rule r : Term ρ ν).Ensures Q fun v _ => Q r v := fun v hv => hv
  exact h.ensured_of_step hstep m rfl _ hrule

end Derives

end PegScript
