import PegScript.Proofs.Semantics.Derivation

/-!
# Characters that a term does not know

A term that has no use for a character reads up to it and no further, and in front of it behaves as
at the end of the source.  So what is known of a text on its own is known of the text in front of
such a character.

The check `Term.unaware` looks at one term.  The rules that the term refers to have to be checked as
well, and are given as a set that contains all rules its members refer to.
-/

namespace PegScript

variable {ρ ν : Type}

mutual

/-- Whether no part of the term can read the character `f`.  References may go to the given rules
only, and nothing may look at the text that was read. -/
def Term.unaware (f : Char) (rules : ρ → Bool) : Term ρ ν → Bool
  | .literal s _ => s.toList.all fun a => a.toLower != f.toLower
  | .charIn k => !k.contains f
  | .rule r => rules r
  | .seq ts => unawareAll f rules ts
  | .choice ts => unawareAll f rules ts
  | .star t => unaware f rules t
  | .plus t => unaware f rules t
  | .opt t => unaware f rules t
  | .not t => unaware f rules t
  | .and t => unaware f rules t
  | .label _ t => unaware f rules t
  | .pick _ t => unaware f rules t
  | .anyChar | .action _ _ | .text _ => false

def Term.unawareAll (f : Char) (rules : ρ → Bool) : List (Term ρ ν) → Bool
  | [] => true
  | t :: ts => unaware f rules t && unawareAll f rules ts

end

namespace Cursor

/-- The same place in a longer source: `o` more bytes before it and the text `k` at the end. -/
def within (o : Nat) (k : List Char) (c : Cursor) : Cursor :=
  ⟨c.offset + o, c.rest ++ k⟩

theorem within_inj {o : Nat} {k : List Char} {c d : Cursor} :
    c.within o k = d.within o k ↔ c = d := by
  cases c
  cases d
  simp [within]

theorem next?_within {o : Nat} {k : List Char} {c d : Cursor} {a : Char}
    (h : c.next? = some (a, d)) : (c.within o k).next? = some (a, d.within o k) := by
  obtain ⟨hrest, hoffset⟩ := next?_eq_some_iff.mp h
  rw [next?_eq_some_iff]
  simp only [within, hrest, hoffset, List.cons_append, true_and]
  omega

theorem textTo_within {o : Nat} {k : List Char} {c d : Cursor} (h : c.Reaches d) :
    (c.within o k).textTo (d.within o k) = c.textTo d := by
  obtain ⟨cs, hrest, hoffset⟩ := h
  rw [textTo_eq_ofList hrest hoffset]
  apply textTo_eq_ofList
  · simp [within, hrest]
  · simp only [within, hoffset]
    omega

theorem skip?_within {same : Char → Char → Bool} {f : Char} {text : List Char}
    (hf : ∀ a ∈ text, same a f = false) (o : Nat) (k : List Char) (c : Cursor) :
    (c.within o (f :: k)).skip? same text = (c.skip? same text).map (within o (f :: k)) := by
  induction text generalizing c with
  | nil => rfl
  | cons a text ih =>
      obtain ⟨ha, htext⟩ := List.forall_mem_cons.mp hf
      rw [skip?, skip?]
      cases hnext : c.next? with
      | none =>
          rw [next?_eq_none_iff] at hnext
          simp [within, next?, hnext, ha]
      | some p =>
          rw [next?_within hnext]
          dsimp only
          split
          · exact ih htext p.2
          · rfl

/-- In front of a character that the text does not have, the text is met or missed as at the end of
the source. -/
theorem skipLiteral?_within {f : Char} {text : String} {ignoreCase : Bool}
    (hf : ∀ a ∈ text.toList, a.toLower ≠ f.toLower) (o : Nat) (k : List Char) (c : Cursor) :
    (c.within o (f :: k)).skipLiteral? text ignoreCase =
      (c.skipLiteral? text ignoreCase).map (within o (f :: k)) := by
  unfold skipLiteral?
  split
  · apply skip?_within
    simpa using hf
  · apply skip?_within
    intro a ha
    have hne : a ≠ f := fun h => hf a ha (by rw [h])
    simpa using hne

end Cursor

/-- The same reading in a longer source. -/
def Reading.within (o : Nat) (k : List Char) (m : Reading ν) : Reading ν :=
  ⟨m.stop.within o k, m.value, m.labels⟩

/-- A character that a term does not know acts like the end of the source.  The induction is on the
derivation. -/
theorem Derives.within {g : Grammar ρ ν} {f : Char} {rules : ρ → Bool} {t : Term ρ ν} {c : Cursor}
    {d : Option (Reading ν)}
    (hrules : ∀ r, rules r = true → (g.rule r).body.unaware f rules = true)
    (h : Derives g t c d) (ht : t.unaware f rules = true) (o : Nat) (k : List Char) :
    Derives g t (c.within o (f :: k)) (d.map (Reading.within o (f :: k))) := by
  induction h with
  | @literal s ignoreCase c stop hskip =>
      have hs : ∀ a ∈ s.toList, a.toLower ≠ f.toLower := by
        simpa [Term.unaware] using ht
      have htext := Cursor.textTo_within (o := o) (k := f :: k)
        (Cursor.reaches_of_skipLiteral? hskip)
      rw [Option.map_some, Reading.within, ← htext]
      apply Derives.literal
      rw [Cursor.skipLiteral?_within hs, hskip, Option.map_some]
  | @literalFail s ignoreCase c hskip =>
      have hs : ∀ a ∈ s.toList, a.toLower ≠ f.toLower := by
        simpa [Term.unaware] using ht
      apply Derives.literalFail
      rw [Cursor.skipLiteral?_within hs, hskip, Option.map_none]
  | charIn hnext hmem => exact .charIn (Cursor.next?_within hnext) hmem
  | charInOther hnext hmem => exact .charInOther (Cursor.next?_within hnext) hmem
  | @charInEnd class' c hnext =>
      have hf : class'.contains f = false := by
        simpa [Term.unaware] using ht
      have hmet : (c.within o (f :: k)).next? = some (f, ⟨c.offset + o + f.utf8Size, k⟩) := by
        rw [Cursor.next?_eq_none_iff] at hnext
        simp [Cursor.next?, Cursor.within, hnext]
      exact .charInOther hmet hf
  | rule h ih => exact .rule (ih (hrules _ ht))
  | ruleFail h ih => exact .ruleFail (ih (hrules _ ht))
  | seqNil => exact .seqNil
  | @seqCons t ts c stop m values labels hhead htail ihhead ihtail =>
      simp only [Term.unaware, Term.unawareAll, Bool.and_eq_true] at ht
      exact .seqCons (m := m.within o (f :: k)) (ihhead ht.1) (ihtail ht.2)
  | seqFail hhead ih =>
      simp only [Term.unaware, Term.unawareAll, Bool.and_eq_true] at ht
      exact .seqFail (ih ht.1)
  | seqTailFail hhead htail ihhead ihtail =>
      simp only [Term.unaware, Term.unawareAll, Bool.and_eq_true] at ht
      exact .seqTailFail (ihhead ht.1) (ihtail ht.2)
  | choiceNil => exact .choiceNil
  | choiceHere h ih =>
      simp only [Term.unaware, Term.unawareAll, Bool.and_eq_true] at ht
      exact .choiceHere (ih ht.1)
  | choiceLater hfail h ihfail ih =>
      simp only [Term.unaware, Term.unawareAll, Bool.and_eq_true] at ht
      exact .choiceLater (ihfail ht.1) (ih ht.2)
  | starStop h ih => exact .starStop (ih ht)
  | starEmpty h ih => exact .starEmpty (ih ht)
  | @starMore t c stop m values labels h hmoved hrest ih ihrest =>
      refine .starMore (m := m.within o (f :: k)) (ih ht) ?_ (ihrest ht)
      intro hstop
      exact hmoved (Cursor.within_inj.mp hstop)
  | plus h ih => exact .plus (ih ht)
  | plusFail h ih => exact .plusFail (ih ht)
  | opt h ih => exact .opt (ih ht)
  | optAbsent h ih => exact .optAbsent (ih ht)
  | not h ih => exact .not (ih ht)
  | notFail h ih => exact .notFail (ih ht)
  | and h ih => exact .and (ih ht)
  | andFail h ih => exact .andFail (ih ht)
  | label h ih => exact .label (ih ht)
  | labelFail h ih => exact .labelFail (ih ht)
  | pick h ih => exact .pick (ih ht)
  | pickFail h ih => exact .pickFail (ih ht)
  | anyChar | anyCharEnd | action | actionReject | actionFail | text | textFail => cases ht

/-! ## What is read has none of them -/

/-- From one place to another without passing the character `f`. -/
def Cursor.Avoids (f : Char) (c d : Cursor) : Prop :=
  ∃ cs, c.rest = cs ++ d.rest ∧ f ∉ cs

namespace Cursor

theorem Avoids.refl (f : Char) (c : Cursor) : c.Avoids f c :=
  ⟨[], rfl, List.not_mem_nil⟩

theorem Avoids.trans {f : Char} {c d e : Cursor} (h : c.Avoids f d) (h' : d.Avoids f e) :
    c.Avoids f e := by
  obtain ⟨cs, hrest, hcs⟩ := h
  obtain ⟨ds, hrest', hds⟩ := h'
  refine ⟨cs ++ ds, ?_, ?_⟩
  · rw [hrest, hrest', List.append_assoc]
  · rw [List.mem_append]
    exact fun hmem => hmem.elim hcs hds

theorem avoids_of_next? {f a : Char} {c d : Cursor} (h : c.next? = some (a, d)) (hne : f ≠ a) :
    c.Avoids f d :=
  ⟨[a], (next?_eq_some_iff.mp h).1, by simpa using hne⟩

theorem avoids_of_skip? {same : Char → Char → Bool} {f : Char} {text : List Char} {c d : Cursor}
    (hf : ∀ a ∈ text, same a f = false) (h : c.skip? same text = some d) : c.Avoids f d := by
  induction text generalizing c with
  | nil =>
      cases h
      exact Avoids.refl f _
  | cons a text ih =>
      obtain ⟨ha, htext⟩ := List.forall_mem_cons.mp hf
      rw [skip?] at h
      split at h
      case h_1 b next hnext =>
        split at h
        case isTrue hsame =>
          have hne : f ≠ b := by
            rintro rfl
            rw [ha] at hsame
            cases hsame
          exact (avoids_of_next? hnext hne).trans (ih htext h)
        case isFalse => cases h
      case h_2 => cases h

theorem avoids_of_skipLiteral? {f : Char} {text : String} {ignoreCase : Bool} {c d : Cursor}
    (hf : ∀ a ∈ text.toList, a.toLower ≠ f.toLower)
    (h : c.skipLiteral? text ignoreCase = some d) : c.Avoids f d := by
  unfold skipLiteral? at h
  split at h
  · refine avoids_of_skip? ?_ h
    simpa using hf
  · refine avoids_of_skip? ?_ h
    intro a ha
    have hne : a ≠ f := fun h => hf a ha (by rw [h])
    simpa using hne

end Cursor

/-- A term reads no character that it does not know. -/
theorem Derives.avoids_of_eq_some {g : Grammar ρ ν} {f : Char} {rules : ρ → Bool} {t : Term ρ ν}
    {c : Cursor} {d : Option (Reading ν)}
    (hrules : ∀ r, rules r = true → (g.rule r).body.unaware f rules = true)
    (h : Derives g t c d) (ht : t.unaware f rules = true) :
    ∀ m, d = some m → c.Avoids f m.stop := by
  induction h with
  | literal hskip =>
      rintro m ⟨⟩
      refine Cursor.avoids_of_skipLiteral? ?_ hskip
      simpa [Term.unaware] using ht
  | charIn hnext hmem =>
      rintro m ⟨⟩
      refine Cursor.avoids_of_next? hnext ?_
      rintro rfl
      simp [Term.unaware, hmem] at ht
  | rule h ih =>
      rintro m ⟨⟩
      have hstop := ih (hrules _ ht) _ rfl
      exact hstop
  | seqCons hhead htail ihhead ihtail =>
      rintro m ⟨⟩
      simp only [Term.unaware, Term.unawareAll, Bool.and_eq_true] at ht
      have hfirst := ihhead ht.1 _ rfl
      have hlast := ihtail ht.2 _ rfl
      exact hfirst.trans hlast
  | starMore h hmoved hrest ih ihrest =>
      rintro m ⟨⟩
      have hfirst := ih ht _ rfl
      have hlast := ihrest ht _ rfl
      exact hfirst.trans hlast
  | choiceHere h ih =>
      simp only [Term.unaware, Term.unawareAll, Bool.and_eq_true] at ht
      exact ih ht.1
  | choiceLater hfail h ihfail ih =>
      simp only [Term.unaware, Term.unawareAll, Bool.and_eq_true] at ht
      exact ih ht.2
  | plus h ih | opt h ih => exact ih ht
  | seqNil | starStop h | starEmpty h | optAbsent h | not h | and h =>
      rintro m ⟨⟩
      exact Cursor.Avoids.refl f _
  | label h ih | pick h ih =>
      rintro m ⟨⟩
      have hstop := ih ht _ rfl
      exact hstop
  | anyChar | action | text => cases ht
  | _ => rintro m ⟨⟩

theorem Derives.avoids {g : Grammar ρ ν} {f : Char} {rules : ρ → Bool} {t : Term ρ ν}
    {c : Cursor} {m : Reading ν}
    (hrules : ∀ r, rules r = true → (g.rule r).body.unaware f rules = true)
    (h : Derives g t c (some m)) (ht : t.unaware f rules = true) : c.Avoids f m.stop :=
  h.avoids_of_eq_some hrules ht m rfl

end PegScript
