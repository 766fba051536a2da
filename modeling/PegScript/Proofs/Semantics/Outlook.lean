import PegScript.Proofs.Semantics.Padding
import PegScript.Proofs.Semantics.Rejections

/-!
# Terms with stable outcomes

`Term.outlook` looks at a term and tells what idle characters at the end of the source can change
about its outcomes, given what is known of the rules.  If the bodies of the rules bear out what is
known of them (`Outlook.Sound`), then all outcomes of which the outlook promises it are stable
(`Derives.stable`).
-/

namespace PegScript

variable {ρ ν : Type}

/-- What is known of a term in view of idle characters at the end of the source. -/
structure Outlook where
  /-- Its readings take something. -/
  consuming : Bool := false
  /-- Its readings take none of the added characters. -/
  tight : Bool := false
  /-- Its outcomes are stable where the source has a character left. -/
  edge : Bool := false
  /-- Its outcomes are stable everywhere. -/
  steady : Bool := false
  /-- Its outcomes are stable, but that added characters may save it from failing. -/
  trailing : Bool := false

namespace Outlook

def ofText (idle text : List Char) : Outlook where
  consuming := !text.isEmpty
  tight := true
  edge := text.all fun a => idle.all fun b => a.toLower != b.toLower
  steady := text.all fun a => idle.all fun b => a.toLower != b.toLower

def ofClass (idle : List Char) (k : CharClass) : Outlook where
  consuming := true
  tight := true
  edge := true
  steady := idle.all fun a => !k.contains a

/-- A part and what comes behind it.  Behind a lookahead the place is still the same. -/
def andThen (isLookahead : Bool) (a b : Outlook) : Outlook where
  consuming := a.consuming || b.consuming
  tight := b.tight && (a.tight || b.consuming)
  edge := (a.edge || a.trailing && b.consuming) && (b.steady || isLookahead && b.edge)
  steady := (a.steady || a.trailing && b.consuming) && b.steady

def orElse (a b : Outlook) : Outlook where
  consuming := a.consuming && b.consuming
  tight := a.tight && b.tight
  edge := a.edge && b.edge
  steady := a.steady && b.steady

/-- A repetition may go on at the end of the source, so it is steady if its term is stable before
the end. -/
def star (a : Outlook) : Outlook where
  tight := a.tight && a.steady
  edge := a.edge && a.consuming
  steady := a.edge && a.consuming

def plus (a : Outlook) : Outlook :=
  { a.star with consuming := a.consuming, steady := a.steady && a.edge && a.consuming }

def opt (a : Outlook) : Outlook :=
  { a with consuming := false, trailing := false }

def lookahead (a : Outlook) : Outlook :=
  { a with consuming := false, tight := true, trailing := false }

/-- An action might reject a reading that has taken other characters. -/
def action (a : Outlook) : Outlook :=
  { a with edge := a.edge && a.tight, steady := a.steady && a.tight, trailing := false }

def dressed (a : Outlook) : Outlook :=
  { a with trailing := false }

/-- Whether what `a` says of readings and of all places is said by `b`. -/
def backedBy (a b : Outlook) : Bool :=
  (!a.consuming || b.consuming) && (!a.tight || b.tight) && (!a.steady || b.steady)

/-- The outlook promises a stable outcome at the place. -/
def HoldsAt (a : Outlook) (c : Cursor) : Prop :=
  a.steady = true ∨ (a.edge = true ∧ c.rest ≠ [])

end Outlook

namespace Term

/-- Whether the term only looks at what comes. -/
def isLookahead : Term ρ ν → Bool
  | .not _ | .and _ => true
  | _ => false

variable (idle : List Char) (known : ρ → Outlook)

mutual

/-- The outlook of a term, given the outlook of the rules. -/
def outlook : Term ρ ν → Outlook
  | .literal s _ => .ofText idle s.toList
  | .charIn k => .ofClass idle k
  | .anyChar => { consuming := true, tight := true, edge := true }
  | .rule r => known r
  | .seq ts => outlookSeq ts
  | .choice ts => outlookChoice ts
  | .star t => (outlook t).star
  | .plus t => (outlook t).plus
  | .opt t => (outlook t).opt
  | .not t => (outlook t).lookahead
  | .and t => (outlook t).lookahead
  | .label _ t => (outlook t).dressed
  | .action _ t => (outlook t).action
  | .text t => (outlook t).dressed
  | .pick _ t => (outlook t).dressed

def outlookSeq : List (Term ρ ν) → Outlook
  | [] => { tight := true, edge := true, steady := true }
  | t :: ts => (outlook t).andThen t.isLookahead (outlookSeq ts)

def outlookChoice : List (Term ρ ν) → Outlook
  | [] => { consuming := true, tight := true, edge := true, steady := true }
  | t :: ts => (outlook t).orElse (outlookChoice ts)

end

end Term

/-- The bodies of the rules bear out what is known of the rules.  That a rule is stable before the
end of the source, or trailing, may also be known for another reason. -/
structure Outlook.Sound (g : Grammar ρ ν) (idle : List Char) (known : ρ → Outlook) : Prop where
  placeless : ∀ r, (g.rule r).body.Accounted fun act _ => act.Placeless
  backed : ∀ r, (known r).backedBy ((g.rule r).body.outlook idle known) = true
  edge : ∀ r, (known r).edge = true → ((g.rule r).body.outlook idle known).edge = true ∨
    ∀ c d, c.rest ≠ [] → Derives g (.rule r) c d → Stable g idle (known r).tight (.rule r) c d
  trailing : ∀ r, (known r).trailing = true →
    ∀ c d, Derives g (.rule r) c d → Trailing g idle (.rule r) c d

namespace Outlook

variable {a b : Outlook}

theorem consuming_of_backedBy (h : a.backedBy b = true) (ha : a.consuming = true) :
    b.consuming = true := by
  simp_all [backedBy]

theorem tight_of_backedBy (h : a.backedBy b = true) (ha : a.tight = true) : b.tight = true := by
  simp_all [backedBy]

theorem steady_of_backedBy (h : a.backedBy b = true) (ha : a.steady = true) : b.steady = true := by
  simp_all [backedBy]

end Outlook

theorem Cursor.length_skip? {same : Char → Char → Bool} {text : List Char} {c d : Cursor}
    (h : c.skip? same text = some d) : c.rest.length = text.length + d.rest.length := by
  induction text generalizing c with
  | nil =>
      cases h
      exact (Nat.zero_add _).symm
  | cons a text ih =>
      rw [skip?] at h
      split at h
      case h_1 b next hnext =>
        split at h
        case isTrue hsame =>
          rw [(next?_eq_some_iff.mp hnext).1, List.length_cons, ih h, List.length_cons]
          omega
        case isFalse => cases h
      case h_2 => cases h

theorem Cursor.length_skipLiteral? {text : String} {ignoreCase : Bool} {c d : Cursor}
    (h : c.skipLiteral? text ignoreCase = some d) :
    c.rest.length = text.toList.length + d.rest.length := by
  unfold skipLiteral? at h
  split at h
  · exact length_skip? h
  · exact length_skip? h

theorem Cursor.Reaches.length_le {c d : Cursor} (h : c.Reaches d) :
    d.rest.length ≤ c.rest.length := by
  obtain ⟨cs, hrest, -⟩ := h
  rw [hrest, List.length_append]
  exact Nat.le_add_left _ _

section Sound

variable {g : Grammar ρ ν} {idle : List Char} {known : ρ → Outlook} {t : Term ρ ν} {c : Cursor}
  {d : Option (Reading ν)}

/-- The induction is on the derivation.  For one or more rounds it has to know that a repetition
with a value took something. -/
theorem Derives.length_lt_of_eq_some (hsound : Outlook.Sound g idle known) (h : Derives g t c d) :
    ∀ m, d = some m →
      ((t.outlook idle known).consuming = true → m.stop.rest.length < c.rest.length) ∧
      ∀ u, t = .star u → (u.outlook idle known).consuming = true → m.value ≠ .list [] →
        m.stop.rest.length < c.rest.length := by
  induction h with
  | @literal text ignoreCase c stop h =>
      rintro m ⟨⟩
      refine ⟨fun hconsuming => ?_, nofun⟩
      have hlength := Cursor.length_skipLiteral? h
      have hpos : text.toList ≠ [] := by
        simpa [Term.outlook, Outlook.ofText] using hconsuming
      have := List.length_pos_iff.mpr hpos
      dsimp only
      omega
  | charIn hnext hmem =>
      rintro m ⟨⟩
      refine ⟨fun _ => ?_, nofun⟩
      simp [(Cursor.next?_eq_some_iff.mp hnext).1]
  | anyChar hnext =>
      rintro m ⟨⟩
      refine ⟨fun _ => ?_, nofun⟩
      simp [(Cursor.next?_eq_some_iff.mp hnext).1]
  | rule h ih =>
      rintro m ⟨⟩
      refine ⟨fun hconsuming => (ih _ rfl).1 ?_, nofun⟩
      exact Outlook.consuming_of_backedBy (hsound.backed _) hconsuming
  | seqNil =>
      rintro m ⟨⟩
      exact ⟨nofun, nofun⟩
  | seqCons hhead htail ihhead ihtail =>
      rintro m ⟨⟩
      refine ⟨fun hconsuming => ?_, nofun⟩
      have hfirst := hhead.reaches.length_le
      have hlast := htail.reaches.length_le
      rw [Term.outlook, Term.outlookSeq, Outlook.andThen, Bool.or_eq_true] at hconsuming
      rcases hconsuming with hconsuming | hconsuming
      · exact Nat.lt_of_le_of_lt hlast ((ihhead _ rfl).1 hconsuming)
      · exact Nat.lt_of_lt_of_le ((ihtail _ rfl).1 hconsuming) hfirst
  | choiceHere h ih =>
      rintro m ⟨⟩
      refine ⟨fun hconsuming => (ih _ rfl).1 ?_, nofun⟩
      exact (Bool.and_eq_true_iff.mp hconsuming).1
  | choiceLater hfail h ihfail ih =>
      intro m hm
      refine ⟨fun hconsuming => (ih m hm).1 ?_, nofun⟩
      exact (Bool.and_eq_true_iff.mp hconsuming).2
  | starStop h ih =>
      rintro m ⟨⟩
      exact ⟨nofun, fun _ _ _ hne => absurd rfl hne⟩
  | starEmpty h ih =>
      rintro m ⟨⟩
      refine ⟨nofun, ?_⟩
      rintro u ⟨⟩ hconsuming -
      exact (ih _ rfl).1 hconsuming
  | starMore h hmoved hrest ih ihrest =>
      rintro m ⟨⟩
      refine ⟨nofun, ?_⟩
      rintro u ⟨⟩ hconsuming -
      exact Nat.lt_of_le_of_lt hrest.reaches.length_le ((ih _ rfl).1 hconsuming)
  | plus h ih =>
      rintro m ⟨⟩
      exact ⟨fun hconsuming => (ih _ rfl).2 _ rfl hconsuming nofun, nofun⟩
  | label h ih | action h hact ih | text h ih | pick h ih =>
      rintro m ⟨⟩
      exact ⟨(ih _ rfl).1, nofun⟩
  | opt h ih | optAbsent h ih | not h ih | and h ih =>
      rintro m ⟨⟩
      exact ⟨nofun, nofun⟩
  | _ => rintro m ⟨⟩

theorem Outlook.Sound.consumes (hsound : Outlook.Sound g idle known)
    (ht : (t.outlook idle known).consuming = true) : Consumes g t :=
  fun _ m h => (h.length_lt_of_eq_some hsound m rfl).1 ht

theorem Derives.stop_of_isLookahead {m : Reading ν} (h : Derives g t c (some m))
    (ht : t.isLookahead = true) : m.stop = c := by
  cases h <;> first | rfl | cases ht

theorem Consumes.ne_nil (ht : Consumes g t) {m : Reading ν} (h : Derives g t c (some m)) :
    c.rest ≠ [] :=
  List.length_pos_iff.mp (Nat.zero_lt_of_lt (ht h))

/-- Only rules are known to be trailing. -/
theorem Derives.trailing (hsound : Outlook.Sound g idle known) (h : Derives g t c d)
    (ht : (t.outlook idle known).trailing = true) : Trailing g idle t c d := by
  cases t with
  | rule r => exact hsound.trailing r ht c d h
  | seq ts => cases ts <;> cases ht
  | choice ts => cases ts <;> cases ht
  | _ => cases ht

namespace Outlook.HoldsAt

variable {a b : Outlook}

theorem ofText {text : List Char} (h : (Outlook.ofText idle text).HoldsAt c) :
    ∀ a ∈ text, ∀ b ∈ idle, a.toLower ≠ b.toLower := by
  have hfree : (Outlook.ofText idle text).steady = true := h.elim id And.left
  simpa [Outlook.ofText] using hfree

theorem ofClass {k : CharClass} (h : (Outlook.ofClass idle k).HoldsAt c) :
    c.rest ≠ [] ∨ ∀ a ∈ idle, k.contains a = false := by
  refine h.symm.imp And.right fun hsteady => ?_
  simpa [Outlook.ofClass] using hsteady

/-- What is promised of a part and of what comes behind it. -/
theorem andThen {isLookahead : Bool} {stop : Cursor} (h : (a.andThen isLookahead b).HoldsAt c)
    (hstop : isLookahead = true → stop = c) :
    (a.HoldsAt c ∨ (a.trailing = true ∧ b.consuming = true)) ∧ b.HoldsAt stop := by
  simp only [HoldsAt, Outlook.andThen, Bool.and_eq_true, Bool.or_eq_true] at h ⊢
  rcases h with ⟨hfirst, hlast⟩ | ⟨⟨hfirst, hlast⟩, hinside⟩
  · exact ⟨hfirst.imp_left .inl, .inl hlast⟩
  · refine ⟨hfirst.imp_left fun hedge => .inr ⟨hedge, hinside⟩, hlast.imp_right ?_⟩
    rintro ⟨hlook, hedge⟩
    rw [hstop hlook]
    exact ⟨hedge, hinside⟩

theorem orElse (h : (a.orElse b).HoldsAt c) : a.HoldsAt c ∧ b.HoldsAt c := by
  simp only [HoldsAt, Outlook.orElse, Bool.and_eq_true] at h ⊢
  grind

theorem star (h : a.star.HoldsAt c) : a.edge = true ∧ a.consuming = true :=
  Bool.and_eq_true_iff.mp (h.elim id And.left)

theorem plus (h : a.plus.HoldsAt c) : a.star.HoldsAt c ∧ a.HoldsAt c := by
  simp only [HoldsAt, Outlook.plus, Outlook.star, Bool.and_eq_true] at h ⊢
  grind

theorem action (h : a.action.HoldsAt c) : a.HoldsAt c ∧ a.tight = true := by
  simp only [HoldsAt, Outlook.action, Bool.and_eq_true] at h ⊢
  grind

end Outlook.HoldsAt

/-- What is promised of a rule is promised of its body, or else known to hold. -/
theorem Outlook.Sound.rule (hsound : Outlook.Sound g idle known) {r : ρ}
    (h : (known r).HoldsAt c) :
    ((g.rule r).body.outlook idle known).HoldsAt c ∨
      ∀ d, Derives g (.rule r) c d → Stable g idle (known r).tight (.rule r) c d := by
  rcases h with hsteady | ⟨hedge, hinside⟩
  · exact .inl (.inl (steady_of_backedBy (hsound.backed r) hsteady))
  · exact (hsound.edge r hedge).imp (fun hbody => .inr ⟨hbody, hinside⟩)
      fun hknown d => hknown c d hinside

/-- An outcome that the outlook of the term promises to be stable is stable.  The induction is on
the derivation. -/
theorem Derives.stable (hsound : Outlook.Sound g idle known) (h : Derives g t c d)
    (hactions : t.Accounted fun act _ => act.Placeless)
    (hplace : (t.outlook idle known).HoldsAt c) :
    Stable g idle (t.outlook idle known).tight t c d := by
  induction h with
  | literal h => exact .literal hplace.ofText (.literal h)
  | literalFail h => exact .literal hplace.ofText (.literalFail h)
  | charIn hnext hmem => exact .charIn hplace.ofClass (.charIn hnext hmem)
  | charInOther hnext hmem => exact .charIn hplace.ofClass (.charInOther hnext hmem)
  | charInEnd hnext => exact .charIn hplace.ofClass (.charInEnd hnext)
  | anyChar hnext => exact .anyChar (hplace.resolve_left nofun).2 (.anyChar hnext)
  | anyCharEnd hnext => exact .anyChar (hplace.resolve_left nofun).2 (.anyCharEnd hnext)
  | @rule r c m h ih =>
      rcases hsound.rule hplace with hbody | hknown
      · have hstable := ih (hsound.placeless r) hbody
        exact (hstable.mono (Outlook.tight_of_backedBy (hsound.backed r))).rule
      · exact hknown _ (.rule h)
  | @ruleFail r c h ih =>
      rcases hsound.rule hplace with hbody | hknown
      · have hstable := ih (hsound.placeless r) hbody
        exact (hstable.mono (Outlook.tight_of_backedBy (hsound.backed r))).rule
      · exact hknown _ (.ruleFail h)
  | seqNil => exact .seqNil
  | @seqCons t ts c stop m values labels hhead htail ihhead ihtail =>
      obtain ⟨hfirst, hlast⟩ := hplace.andThen hhead.stop_of_isLookahead
      have hmore := ihtail hactions.2 hlast
      have hinside (h : ((Term.seq ts).outlook idle known).consuming = true) : m.stop.rest ≠ [] :=
        (hsound.consumes h).ne_nil htail
      rcases hfirst with hfirst | ⟨htrailing, hconsuming⟩
      · refine (ihhead hactions.1 hfirst).seqCons hmore htail.reaches fun htight => ?_
        obtain ⟨hlast, hboth⟩ := Bool.and_eq_true_iff.mp htight
        exact ⟨hlast, (Bool.or_eq_true_iff.mp hboth).imp_right hinside⟩
      · refine (hhead.trailing hsound htrailing).stable.seqCons hmore htail.reaches fun htight => ?_
        exact ⟨(Bool.and_eq_true_iff.mp htight).1, .inr (hinside hconsuming)⟩
  | @seqFail t ts c hhead ih =>
      obtain ⟨hfirst | ⟨htrailing, hconsuming⟩, -⟩ := hplace.andThen fun _ => rfl
      · exact (ih hactions.1 hfirst).seqFail
      · have hmore : Consumes g (.seq ts) := hsound.consumes hconsuming
        exact (hhead.trailing hsound htrailing).seqFail hmore
  | seqTailFail hhead htail ihhead ihtail =>
      obtain ⟨hfirst, hlast⟩ := hplace.andThen hhead.stop_of_isLookahead
      have hmore := ihtail hactions.2 hlast
      rcases hfirst with hfirst | ⟨htrailing, -⟩
      · exact (ihhead hactions.1 hfirst).seqTailFail hmore
      · exact (hhead.trailing hsound htrailing).stable.seqTailFail hmore
  | choiceNil =>
      intro w c' d' hpad h'
      cases h'
      exact .fails
  | choiceHere h ih =>
      refine (ih hactions.1 hplace.orElse.1).choiceHere.mono fun htight => ?_
      exact (Bool.and_eq_true_iff.mp htight).1
  | choiceLater hfail h ihfail ih =>
      have hlater := ih hactions.2 hplace.orElse.2
      refine ((ihfail hactions.1 hplace.orElse.1).choiceLater hlater).mono fun htight => ?_
      exact (Bool.and_eq_true_iff.mp htight).2
  | @starStop t c h ih =>
      obtain ⟨hedge, hconsuming⟩ := hplace.star
      by_cases hstable : (t.outlook idle known).HoldsAt c
      · exact (ih hactions hstable).starStop.mono fun _ => rfl
      · -- The round is not stable at the end, so nothing is said about what is taken there.
        have hend : c.rest = [] :=
          Decidable.of_not_not fun hne => hstable (.inr ⟨hedge, hne⟩)
        refine (Stable.starStop_of_end (hsound.consumes hconsuming) hend).mono fun htight => ?_
        exact absurd (.inl (Bool.and_eq_true_iff.mp htight).2) hstable
  | starEmpty h ih =>
      exact absurd (hsound.consumes hplace.star.2 h) (Nat.lt_irrefl _)
  | @starMore t c stop m values labels h hmoved hrest ih ihrest =>
      obtain ⟨hedge, hconsuming⟩ := hplace.star
      have hround := ih hactions (.inr ⟨hedge, (hsound.consumes hconsuming).ne_nil h⟩)
      have hmore := ihrest hactions (.inl (Bool.and_eq_true_iff.mpr hplace.star))
      refine hround.starMore (hsound.consumes hconsuming) hmore hrest.reaches fun htight => ?_
      exact (Bool.and_eq_true_iff.mp htight).1
  | plus h ih => exact (ih hactions hplace.plus.1).plus h.reaches
  | plusFail h ih => exact (ih hactions hplace.plus.2).plusFail
  | opt h ih => exact (ih hactions hplace).opt
  | optAbsent h ih => exact (ih hactions hplace).optAbsent
  | not h ih => exact (ih hactions hplace).not
  | notFail h ih => exact (ih hactions hplace).notFail
  | and h ih => exact (ih hactions hplace).and
  | andFail h ih => exact (ih hactions hplace).andFail
  | label h ih => exact (ih hactions hplace).label
  | labelFail h ih => exact (ih hactions hplace).label
  | pick h ih => exact (ih hactions hplace).pick
  | pickFail h ih => exact (ih hactions hplace).pick
  | text h ih => exact (ih hactions hplace).text h.reaches
  | textFail h ih => exact (ih hactions hplace).textFail
  | action h hact ih =>
      obtain ⟨hterm, htight⟩ := hplace.action
      exact (ih hactions.2 hterm).action h.reaches hactions.1 (.inl htight) hact
  | actionReject h hact ih =>
      obtain ⟨hterm, htight⟩ := hplace.action
      exact ((ih hactions.2 hterm).mono fun _ => htight).actionReject h.reaches hactions.1 hact
  | actionFail h ih => exact (ih hactions.2 hplace.action.1).actionFail

end Sound

end PegScript
