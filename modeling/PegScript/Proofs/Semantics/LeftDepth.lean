import PegScript.Proofs.Semantics.Retries

/-!
# Grammars without left recursion

Between two places where input is taken, a parse goes from rule to rule.  If the rules have ranks,
and every rule comes only to rules of lower ranks before it takes input, it goes through no more
rules than there are ranks, and takes input then or turns back.  So the nesting is bounded by the
size of the source: a limit of as many rules as there are ranks, for each byte and once more, is
never hit (`Grammar.overflow_eq_none_of_ranked`).

A term before which input was taken does not count any more.  Which terms may take none is decided
from above (`Term.nullable`).
-/

namespace PegScript

variable {ρ ν : Type}

/-! ## Terms that may take no input -/

mutual

/-- Whether the term may match and take no input, where `p` says it of rules. -/
def Term.nullable (p : ρ → Bool) : Term ρ ν → Bool
  | .literal word _ => word.toList.isEmpty
  | .charIn _ | .anyChar => false
  | .rule r => p r
  | .seq ts => nullableAll p ts
  | .choice ts => nullableAny p ts
  | .star _ | .plus _ | .opt _ | .not _ | .and _ => true
  | .label _ t | .action _ t | .text t | .pick _ t => nullable p t

/-- Whether all of the terms may take no input. -/
def Term.nullableAll (p : ρ → Bool) : List (Term ρ ν) → Bool
  | [] => true
  | t :: ts => nullable p t && nullableAll p ts

/-- Whether one of the terms may take no input. -/
def Term.nullableAny (p : ρ → Bool) : List (Term ρ ν) → Bool
  | [] => false
  | t :: ts => nullable p t || nullableAny p ts

end

theorem Cursor.offset_lt_of_next? {c stop : Cursor} {a : Char} (h : c.next? = some (a, stop)) :
    c.offset < stop.offset := by
  have hpos := a.utf8Size_pos
  have hoffset := (Cursor.next?_eq_some_iff.mp h).2
  omega

theorem Cursor.eq_nil_of_skip? {same : Char → Char → Bool} {text : List Char} {c stop : Cursor}
    (h : c.skip? same text = some stop) (hstays : stop.offset ≤ c.offset) : text = [] := by
  cases text with
  | nil => rfl
  | cons a text =>
      unfold skip? at h
      split at h
      case h_1 b next hnext =>
        split at h
        · have hfirst := offset_lt_of_next? hnext
          have hlater := (reaches_of_skip? h).offset_le
          omega
        · cases h
      case h_2 => cases h

theorem Cursor.eq_nil_of_skipLiteral? {text : String} {ignoreCase : Bool} {c stop : Cursor}
    (h : c.skipLiteral? text ignoreCase = some stop) (hstays : stop.offset ≤ c.offset) :
    text.toList = [] := by
  unfold skipLiteral? at h
  split at h
  · exact eq_nil_of_skip? h hstays
  · exact eq_nil_of_skip? h hstays

/-- Where the rules are judged rightly, a term that takes no input is one that may.  The induction
is on the run, without the memo table. -/
theorem Runs.nullable_of_stays [BEq ρ] [Hashable ρ] {g : Grammar ρ ν} {settings : Settings}
    {n : Nat} {t : Term ρ ν} {c : Cursor} {s s' : Session ρ ν} {result : Option (Match ν)}
    {p : ρ → Bool} (hp : ∀ r, (g.rule r).body.nullable p = true → p r = true)
    (hmemo : settings.memoize = false) (h : Runs g settings n t c s result s') :
    ∀ m, result = some m →
      c.offset ≤ m.stop.offset ∧ (m.stop.offset ≤ c.offset → t.nullable p = true) := by
  induction h with
  | literal h =>
      rintro m ⟨⟩
      refine ⟨(Cursor.reaches_of_skipLiteral? h).offset_le, fun hstays => ?_⟩
      exact List.isEmpty_iff.mpr (Cursor.eq_nil_of_skipLiteral? h hstays)
  | charIn hnext hmem | anyChar hnext =>
      rintro m ⟨⟩
      have hmoved := Cursor.offset_lt_of_next? hnext
      exact ⟨Nat.le_of_lt hmoved, fun hstays => absurd hstays (Nat.not_le_of_lt hmoved)⟩
  | ruleKept hover hkept =>
      rw [Session.memoized?, hmemo] at hkept
      cases hkept
  | @ruleBody n r c s s₁ result hover hnew hbody ih =>
      intro m hm
      obtain ⟨hle, hnullable⟩ := ih m hm
      exact ⟨hle, fun hstays => hp r (hnullable hstays)⟩
  | seqNil =>
      rintro m ⟨⟩
      exact ⟨Nat.le_refl _, fun _ => rfl⟩
  | seqCons hhead htail ihhead ihtail =>
      rintro m ⟨⟩
      obtain ⟨hfirst, hnullable⟩ := ihhead _ rfl
      obtain ⟨hlater, hnullable'⟩ := ihtail _ rfl
      dsimp only at hlater hnullable' ⊢
      refine ⟨Nat.le_trans hfirst hlater, fun hstays => ?_⟩
      exact Bool.and_eq_true_iff.mpr ⟨hnullable (by omega), hnullable' (by omega)⟩
  | choiceHere h ih =>
      intro m hm
      obtain ⟨hle, hnullable⟩ := ih m hm
      exact ⟨hle, fun hstays => Bool.or_eq_true_iff.mpr (.inl (hnullable hstays))⟩
  | choiceLater hfail h ihfail ih =>
      intro m hm
      obtain ⟨hle, hnullable⟩ := ih m hm
      exact ⟨hle, fun hstays => Bool.or_eq_true_iff.mpr (.inr (hnullable hstays))⟩
  | starStop h ih | starEmpty h hstays ih | optAbsent h ih | not h ih | and h ih =>
      rintro m ⟨⟩
      exact ⟨Nat.le_refl _, fun _ => rfl⟩
  | starMore h hmoved hrest ih ihrest =>
      rintro m ⟨⟩
      exact ⟨Nat.le_trans (ih _ rfl).1 (ihrest _ rfl).1, fun _ => rfl⟩
  | plus h ih | opt h ih =>
      rintro m ⟨⟩
      exact ⟨(ih _ rfl).1, fun _ => rfl⟩
  | label h ih | text h ih | pick h ih =>
      rintro m ⟨⟩
      have hinner := ih _ rfl
      exact hinner
  | action h hact ih =>
      rintro m ⟨⟩
      have hinner := ih _ rfl
      exact hinner
  | _ => rintro m ⟨⟩

/-! ## Rules that come before input is taken -/

mutual

/-- Whether the rules that the term may come to before it takes input are all of some kind. -/
def Term.startsOnly (p q : ρ → Bool) : Term ρ ν → Bool
  | .literal _ _ | .charIn _ | .anyChar => true
  | .rule r => q r
  | .seq ts => startsOnlySeq p q ts
  | .choice ts => startsOnlyAll p q ts
  | .star t | .plus t | .opt t | .not t | .and t | .label _ t | .action _ t | .text t
  | .pick _ t => startsOnly p q t

/-- Whether it is so of the terms one after the other. -/
def Term.startsOnlySeq (p q : ρ → Bool) : List (Term ρ ν) → Bool
  | [] => true
  | t :: ts => startsOnly p q t && (!t.nullable p || startsOnlySeq p q ts)

/-- Whether it is so of each of the terms. -/
def Term.startsOnlyAll (p q : ρ → Bool) : List (Term ρ ν) → Bool
  | [] => true
  | t :: ts => startsOnly p q t && startsOnlyAll p q ts

end

section

variable {p q : ρ → Bool}

mutual

theorem Term.startsOnly_of_forall (hq : ∀ r, q r = true) :
    ∀ t : Term ρ ν, t.startsOnly p q = true
  | .literal _ _ | .charIn _ | .anyChar => rfl
  | .rule r => hq r
  | .seq ts => startsOnlySeq_of_forall hq ts
  | .choice ts => startsOnlyAll_of_forall hq ts
  | .star t | .plus t | .opt t | .not t | .and t | .label _ t | .action _ t | .text t
  | .pick _ t => startsOnly_of_forall hq t

theorem Term.startsOnlySeq_of_forall (hq : ∀ r, q r = true) :
    ∀ ts : List (Term ρ ν), startsOnlySeq p q ts = true
  | [] => rfl
  | t :: ts => Bool.and_eq_true_iff.mpr ⟨startsOnly_of_forall hq t,
      Bool.or_eq_true_iff.mpr (.inr (startsOnlySeq_of_forall hq ts))⟩

theorem Term.startsOnlyAll_of_forall (hq : ∀ r, q r = true) :
    ∀ ts : List (Term ρ ν), startsOnlyAll p q ts = true
  | [] => rfl
  | t :: ts => Bool.and_eq_true_iff.mpr
      ⟨startsOnly_of_forall hq t, startsOnlyAll_of_forall hq ts⟩

end

end

/-- Ranks for the rules of a grammar: before it takes input, a rule comes only to rules of lower
ranks.  The rules that may take no input are among those with `p`. -/
structure Grammar.Ranked (g : Grammar ρ ν) (p : ρ → Bool) (rank : ρ → Nat) (ranks : Nat) :
    Prop where
  lt : ∀ r, rank r < ranks
  nullable : ∀ r, (g.rule r).body.nullable p = true → p r = true
  starts : ∀ r, (g.rule r).body.startsOnly p (fun r' => rank r' < rank r) = true

/-! ## The limit is out of reach -/

section

variable [BEq ρ] [Hashable ρ] {g : Grammar ρ ν} {settings : Settings} {source : String}
  {e e' : Evaluation ρ ν} {p : ρ → Bool} {rank : ρ → Nat} {ranks : Nat}

/-- More rules may become active than the term can come to before it takes input and, with all of
the ranks for each byte, afterwards. -/
def Evaluation.Affords (p : ρ → Bool) (rank : ρ → Nat) (ranks : Nat) (e : Evaluation ρ ν) :
    Prop :=
  ∃ n, e.term.startsOnly p (fun r => rank r < n) = true ∧
    ranks * byteLength e.place.rest + n ≤ e.allowance

theorem Evaluation.Affords.not_atLimit (h : e.Affords p rank ranks) : ¬ e.AtLimit := by
  rintro ⟨hzero, r, hterm⟩
  obtain ⟨n, hstarts, hle⟩ := h
  rw [hterm] at hstarts
  have hrank : rank r < n := of_decide_eq_true hstarts
  omega

/-- After some input was taken, whichever term comes next can be afforded. -/
theorem Evaluation.affords_of_moved (hrank : ∀ r, rank r < ranks) {n : Nat} {t : Term ρ ν}
    {c stop : Cursor} {s : Session ρ ν} (hle : ranks * byteLength c.rest ≤ n)
    (hreach : c.Reaches stop) (hmoved : stop.offset ≠ c.offset) :
    (⟨n, t, stop, s⟩ : Evaluation ρ ν).Affords p rank ranks := by
  have hless := hreach.byteLength_lt fun heq => hmoved (congrArg Cursor.offset heq)
  refine ⟨ranks, t.startsOnly_of_forall fun r => decide_eq_true (hrank r), ?_⟩
  calc ranks * byteLength stop.rest + ranks = ranks * (byteLength stop.rest + 1) := rfl
    _ ≤ ranks * byteLength c.rest := Nat.mul_le_mul_left ranks hless
    _ ≤ n := hle

namespace Grammar

variable [LawfulBEq ρ] [LawfulHashable ρ]

/-- Calls can be afforded: a rule gives way to rules of lower ranks, and what comes after a term
that took no input might have come first. -/
theorem Calls.affords (hranked : g.Ranked p rank ranks) (hmemo : settings.memoize = false)
    (h : g.Calls settings source.utf8ByteSize e e') (hplaced : e.Placed source)
    (he : e.Affords p rank ranks) : e'.Affords p rank ranks := by
  obtain ⟨hplace, hs⟩ := hplaced
  obtain ⟨n, hstarts, hle⟩ := he
  cases h with
  | @rule allowance r c s hover hnew =>
      have hrank : rank r < n := of_decide_eq_true hstarts
      dsimp only at hle
      exact ⟨rank r, hranked.starts r, by dsimp only; omega⟩
  | seqHead | choiceHead => exact ⟨n, (Bool.and_eq_true_iff.mp hstarts).1, hle⟩
  | choiceTail hhead => exact ⟨n, (Bool.and_eq_true_iff.mp hstarts).2, hle⟩
  | @seqTail allowance t ts c s s₁ m hhead =>
      have hrun := runs_of_evaluate hplace hs hhead
      have hreach := (hrun.placed hplace hs).2 m rfl
      by_cases hstays : m.stop.offset = c.offset
      · have hnullable :=
          (hrun.nullable_of_stays hranked.nullable hmemo m rfl).2 (Nat.le_of_eq hstays)
        obtain rfl := hreach.eq_iff_offset_eq.mp hstays
        refine ⟨n, ?_, hle⟩
        have hlater := (Bool.and_eq_true_iff.mp hstarts).2
        rw [hnullable] at hlater
        exact hlater
      · exact Evaluation.affords_of_moved hranked.lt (Nat.le_of_add_right_le hle) hreach hstays
  | starAgain hround hmoved =>
      have hreach := ((runs_of_evaluate hplace hs hround).placed hplace hs).2 _ rfl
      exact Evaluation.affords_of_moved hranked.lt (Nat.le_of_add_right_le hle) hreach hmoved
  | starRound | plus | opt | not | and | label | action | text | pick => exact ⟨n, hstarts, hle⟩

theorem affords_of_reached (hranked : g.Ranked p rank ranks) (hmemo : settings.memoize = false)
    (h : g.Reached settings source e e') (hplaced : e.Placed source)
    (he : e.Affords p rank ranks) : e'.Affords p rank ranks := by
  induction h with
  | refl => exact he
  | tail hreached hcall ih =>
      exact hcall.affords hranked hmemo (placed_of_reached hreached hplaced) ih

/-- A grammar with ranks does not hit a limit that grows with the source. -/
theorem overflow_eq_none_of_ranked (hranked : g.Ranked p rank ranks) {start : ρ}
    (hlimit : ranks * (source.utf8ByteSize + 1) ≤ settings.maxDepth) :
    (g.parseFrom settings start source).session.overflow = none := by
  have hwithout : (g.parseFrom { settings with memoize := false } start source).session.overflow =
      none := by
    refine overflow_eq_none_iff.mpr fun e hreached => ?_
    have haffords : e.Affords p rank ranks := by
      refine affords_of_reached hranked rfl hreached (placed_startEvaluation _ _ _) ?_
      refine ⟨ranks, decide_eq_true (hranked.lt start), ?_⟩
      rw [utf8ByteSize_eq_byteLength] at hlimit
      exact hlimit
    exact haffords.not_atLimit
  cases hmemo : settings.memoize with
  | false =>
      rw [← hmemo] at hwithout
      exact hwithout
  | true =>
      have hwith := overflow_memoize_eq_none hwithout
      rw [← hmemo] at hwith
      exact hwith

end Grammar

end

end PegScript
