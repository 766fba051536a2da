import PegScript.Proofs.Semantics.Derivation

/-!
# Reading a known text

`Reads g t u k v labels` says of a term at a source that goes on with the text `u` and then with
`k`: whatever outcome it has there, it reads `u` with the given value and labels.  `Refuses g t k`
says that whatever outcome it has there, it fails.  Both speak about the outcome only if there is one,
which is what a parse within the nesting limit needs; so a term that would call itself for ever
never gets in the way.

Each operator has a lemma that puts readings together and one for each way in which it can fail.
-/

namespace PegScript

variable {ρ ν : Type}

/-- Any outcome of the term, where the source goes on with `u` and then `k`, is a reading of `u`. -/
def Reads (g : Grammar ρ ν) (t : Term ρ ν) (u k : List Char) (v : Value ν)
    (labels : List (String × Value ν)) : Prop :=
  ∀ o d, Derives g t ⟨o, u ++ k⟩ d → d = some ⟨⟨o + byteLength u, k⟩, v, labels⟩

/-- Any outcome of the term, where the source goes on with `k`, is failure. -/
def Refuses (g : Grammar ρ ν) (t : Term ρ ν) (k : List Char) : Prop :=
  ∀ o d, Derives g t ⟨o, k⟩ d → d = none

variable {g : Grammar ρ ν} {t : Term ρ ν} {ts : List (Term ρ ν)} {u w k : List Char}
  {v : Value ν} {vs : List (Value ν)} {labels labels' : List (String × Value ν)}

/-- It is enough that no reading is derived. -/
theorem refuses_of_not_reads (h : ∀ o m, ¬ Derives g t ⟨o, k⟩ (some m)) :
    Refuses g t k := by
  intro o d hd
  cases d with
  | none => rfl
  | some m => exact absurd hd (h o m)

theorem Refuses.not_reads (h : Refuses g t k) {o : Nat} {m : Reading ν} :
    ¬ Derives g t ⟨o, k⟩ (some m) := by
  intro hread
  cases h o _ hread

/-! ## Fixed texts and characters -/

theorem reads_lit (text : String) : Reads g (.lit text) text.toList k (.text text) [] := by
  intro o d h
  exact h.functional (Derives.lit_some_iff.mpr ⟨k, rfl, rfl⟩)

theorem refuses_lit {text : String} (h : ¬ text.toList <+: k) :
    Refuses g (.lit text) k := by
  intro o d hd
  exact hd.functional (Derives.lit_none_iff.mpr h)

theorem refuses_litAnyCase {text : String} {a : Char} {as : List Char}
    (htext : text.toList = a :: as) (h : ∀ b ∈ k.head?, a.toLower ≠ b.toLower) :
    Refuses g (.litAnyCase text) k := by
  intro o d hd
  cases hd with
  | literal hskip =>
      simp only [Cursor.skipLiteral?, if_true, htext, Cursor.skip?] at hskip
      cases k with
      | nil => cases hskip
      | cons b k => simp [Cursor.next?, h b rfl] at hskip
  | literalFail hskip => rfl

theorem reads_charIn {c : CharClass} {a : Char} (h : c.contains a = true) :
    Reads g (.charIn c) [a] k (.text (String.singleton a)) [] := by
  intro o d hd
  rw [hd.functional (Derives.charIn_some_iff.mpr ⟨a, k, rfl, h, rfl⟩)]
  simp

theorem refuses_charIn {c : CharClass} (h : ∀ a ∈ k.head?, c.contains a = false) :
    Refuses g (.charIn c) k := by
  refine refuses_of_not_reads fun o m hread => ?_
  obtain ⟨a, rest, hrest, hmem, -⟩ := Derives.charIn_some_iff.mp hread
  dsimp only at hrest
  rw [h a (by simp [hrest])] at hmem
  cases hmem

theorem reads_anyChar {a : Char} :
    Reads g .anyChar [a] k (.text (String.singleton a)) [] := by
  intro o d hd
  rw [hd.functional (Derives.anyChar_some_iff.mpr ⟨a, k, rfl, rfl⟩)]
  simp

theorem refuses_anyChar_nil : Refuses g .anyChar [] := by
  refine refuses_of_not_reads fun o m hread => ?_
  obtain ⟨a, rest, hrest, -⟩ := Derives.anyChar_some_iff.mp hread
  cases hrest

/-! ## Rules -/

theorem Reads.rule {r : ρ} (h : Reads g (g.rule r).body u k v labels) :
    Reads g (.rule r) u k v [] := by
  intro o d hd
  cases hd with
  | rule hbody =>
      cases h o _ hbody
      rfl
  | ruleFail hbody => cases h o _ hbody

theorem Refuses.rule {r : ρ} (h : Refuses g (g.rule r).body k) :
    Refuses g (.rule r) k := by
  intro o d hd
  cases hd with
  | rule hbody => cases h o _ hbody
  | ruleFail hbody => rfl

/-! ## Sequences -/

theorem reads_seq_nil : Reads g (.seq []) [] k (.list []) [] := by
  intro o d hd
  cases hd
  rfl

theorem Reads.seq_cons (hhead : Reads g t u (w ++ k) v labels)
    (htail : Reads g (.seq ts) w k (.list vs) labels') :
    Reads g (.seq (t :: ts)) (u ++ w) k (.list (v :: vs)) (labels' ++ labels) := by
  intro o d hd
  rw [List.append_assoc] at hd
  cases hd with
  | seqCons hfirst hrest =>
      cases hhead o _ hfirst
      cases htail _ _ hrest
      simp [Nat.add_assoc]
  | seqFail hfirst => cases hhead o _ hfirst
  | seqTailFail hfirst hrest =>
      cases hhead o _ hfirst
      cases htail _ _ hrest

/-- The last term of a sequence. -/
theorem Reads.seq_last (h : Reads g t u k v labels) :
    Reads g (.seq [t]) u k (.list [v]) labels := by
  have hseq := Reads.seq_cons (w := []) h reads_seq_nil
  rw [List.append_nil] at hseq
  exact hseq

theorem Refuses.seq_head (h : Refuses g t k) : Refuses g (.seq (t :: ts)) k := by
  intro o d hd
  cases hd with
  | seqCons hfirst hrest => cases h o _ hfirst
  | seqFail hfirst => rfl
  | seqTailFail hfirst hrest => rfl

theorem Refuses.seq_tail (hhead : Reads g t u k v labels) (htail : Refuses g (.seq ts) k) :
    Refuses g (.seq (t :: ts)) (u ++ k) := by
  intro o d hd
  cases hd with
  | seqCons hfirst hrest =>
      cases hhead o _ hfirst
      cases htail _ _ hrest
  | seqFail hfirst => rfl
  | seqTailFail hfirst hrest => rfl

/-- A sequence with a fixed text among its terms fails where that text is nowhere to come. -/
theorem refuses_seq_of_lit_mem {text : String} (hmem : .lit text ∈ ts)
    (h : ¬ text.toList <:+: k) : Refuses g (.seq ts) k := by
  refine refuses_of_not_reads ?_
  intro o m hread
  induction ts generalizing o k m with
  | nil => cases hmem
  | cons t ts ih =>
      cases hread with
      | @seqCons _ _ _ stop first values labels hfirst hrest =>
          obtain ⟨cs, hcs, -⟩ := hfirst.reaches
          dsimp only at hcs
          rcases List.mem_cons.mp hmem with rfl | htail
          · obtain ⟨rest, hrest, -⟩ := Derives.lit_some_iff.mp hfirst
            exact h (List.IsPrefix.isInfix ⟨rest, hrest.symm⟩)
          · refine ih htail ?_ _ _ hrest
            intro hlater
            exact h (hlater.trans (List.IsSuffix.isInfix ⟨cs, hcs.symm⟩))

/-! ## Choices -/

theorem Reads.choice_here (h : Reads g t u k v labels) :
    Reads g (.choice (t :: ts)) u k v labels := by
  intro o d hd
  cases hd with
  | choiceHere hfirst => exact h o _ hfirst
  | choiceLater hfail hrest => cases h o _ hfail

theorem Reads.choice_later (hfirst : Refuses g t (u ++ k))
    (h : Reads g (.choice ts) u k v labels) :
    Reads g (.choice (t :: ts)) u k v labels := by
  intro o d hd
  cases hd with
  | choiceHere hread => cases hfirst o _ hread
  | choiceLater hfail hrest => exact h o _ hrest

/-- Alternatives that fail leave the choice to those behind them. -/
theorem Reads.choice_after {first : List (Term ρ ν)} (hfirst : ∀ t ∈ first, Refuses g t (u ++ k))
    (h : Reads g (.choice ts) u k v labels) : Reads g (.choice (first ++ ts)) u k v labels := by
  induction first with
  | nil => exact h
  | cons t first ih =>
      obtain ⟨ht, hfirst⟩ := List.forall_mem_cons.mp hfirst
      exact (ih hfirst).choice_later ht

theorem Refuses.choice_cons (hfirst : Refuses g t k) (hlater : Refuses g (.choice ts) k) :
    Refuses g (.choice (t :: ts)) k := by
  intro o d hd
  cases hd with
  | choiceHere hread => cases hfirst o _ hread
  | choiceLater hfail hrest => exact hlater o _ hrest

theorem refuses_choice (h : ∀ t ∈ ts, Refuses g t k) : Refuses g (.choice ts) k := by
  induction ts with
  | nil =>
      intro o d hd
      cases hd
      rfl
  | cons t ts ih =>
      obtain ⟨hfirst, hlater⟩ := List.forall_mem_cons.mp h
      exact hfirst.choice_cons (ih hlater)

/-! ## Repetitions and options -/

theorem Refuses.star (h : Refuses g t k) : Reads g (.star t) [] k (.list []) [] := by
  intro o d hd
  cases hd with
  | starStop hfail => rfl
  | starEmpty hread => cases h o _ hread
  | starMore hread hmoved hrest => cases h o _ hread

theorem Reads.star_cons (hhead : Reads g t u (w ++ k) v labels) (hne : u ≠ [])
    (htail : Reads g (.star t) w k (.list vs) labels') :
    Reads g (.star t) (u ++ w) k (.list (v :: vs)) (labels' ++ labels) := by
  intro o d hd
  rw [List.append_assoc] at hd
  cases hd with
  | starStop hfail => cases hhead o _ hfail
  | starEmpty hread =>
      have hstop := hhead o _ hread
      simp [hne] at hstop
  | starMore hread hmoved hrest =>
      cases hhead o _ hread
      cases htail _ _ hrest
      simp [Nat.add_assoc]

theorem Refuses.star_tail (hhead : Reads g t u k v labels) (hne : u ≠ [])
    (htail : Refuses g (.star t) k) : Refuses g (.star t) (u ++ k) := by
  intro o d hd
  cases hd with
  | starStop hfail => cases hhead o _ hfail
  | starEmpty hread =>
      have hstop := hhead o _ hread
      simp [hne] at hstop
  | starMore hread hmoved hrest =>
      cases hhead o _ hread
      cases htail _ _ hrest

theorem Reads.opt (h : Reads g t u k v labels) : Reads g (.opt t) u k v labels := by
  intro o d hd
  cases hd with
  | opt hread => exact h o _ hread
  | optAbsent hfail => cases h o _ hfail

theorem Refuses.opt (h : Refuses g t k) : Reads g (.opt t) [] k .absent [] := by
  intro o d hd
  cases hd with
  | opt hread => cases h o _ hread
  | optAbsent hfail => rfl

theorem Refuses.not (h : Refuses g t k) : Reads g (.not t) [] k .empty [] := by
  intro o d hd
  cases hd with
  | not hfail => rfl
  | notFail hread => cases h o _ hread

theorem Reads.not (h : Reads g t u k v labels) : Refuses g (.not t) (u ++ k) := by
  intro o d hd
  cases hd with
  | not hfail => cases h o _ hfail
  | notFail hread => rfl

/-! ## Values -/

theorem Reads.label (name : String) (h : Reads g t u k v labels) :
    Reads g (.label name t) u k .empty ((name, v) :: labels) := by
  intro o d hd
  cases hd with
  | label hread =>
      cases h o _ hread
      rfl
  | labelFail hfail => cases h o _ hfail

theorem Refuses.label {name : String} (h : Refuses g t k) :
    Refuses g (.label name t) k := by
  intro o d hd
  cases hd with
  | label hread => cases h o _ hread
  | labelFail hfail => rfl

theorem Reads.text (h : Reads g t u k v labels) :
    Reads g (.text t) u k (.text (String.ofList u)) labels := by
  intro o d hd
  cases hd with
  | text hread =>
      cases h o _ hread
      have htext : (⟨o, u ++ k⟩ : Cursor).textTo ⟨o + byteLength u, k⟩ = String.ofList u :=
        Cursor.textTo_eq_ofList rfl rfl
      rw [htext]
  | textFail hfail => cases h o _ hfail

theorem Refuses.text (h : Refuses g t k) : Refuses g (.text t) k := by
  intro o d hd
  cases hd with
  | text hread => cases h o _ hread
  | textFail hfail => rfl

theorem Reads.pick (index : Nat) (h : Reads g t u k v labels) :
    Reads g (.pick index t) u k (v.pick index) labels := by
  intro o d hd
  cases hd with
  | pick hread =>
      cases h o _ hread
      rfl
  | pickFail hfail => cases h o _ hfail

theorem Refuses.pick {index : Nat} (h : Refuses g t k) : Refuses g (.pick index t) k := by
  intro o d hd
  cases hd with
  | pick hread => cases h o _ hread
  | pickFail hfail => rfl

/-- An action that accepts what its term reads, wherever that stands. -/
theorem Reads.action {act : ActionM ν (Value ν)} {a : Value ν}
    (h : Reads g t u k v labels)
    (hact : ∀ c d : Cursor, c.textTo d = String.ofList u →
      ∃ left, act ⟨labels, v, c, d⟩ = some (a, left)) :
    Reads g (.action act t) u k a [] := by
  intro o d hd
  have haccept := hact ⟨o, u ++ k⟩ ⟨o + byteLength u, k⟩
    (Cursor.textTo_eq_ofList rfl rfl)
  obtain ⟨left, haccept⟩ := haccept
  cases hd with
  | action hread hrun =>
      cases h o _ hread
      rw [haccept] at hrun
      cases hrun
      rfl
  | actionReject hread hrun =>
      cases h o _ hread
      rw [haccept] at hrun
      cases hrun
  | actionFail hfail => cases h o _ hfail

theorem Refuses.action {act : ActionM ν (Value ν)} (h : Refuses g t k) :
    Refuses g (.action act t) k := by
  intro o d hd
  cases hd with
  | action hread hrun => cases h o _ hread
  | actionReject hread hrun => rfl
  | actionFail hfail => rfl

end PegScript
