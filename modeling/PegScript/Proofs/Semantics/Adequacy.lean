import PegScript.Proofs.Semantics.Growth

/-!
# The engine finds what the grammar derives

The invariant of the memo table is that it is faithful: each of its entries is an outcome that the
grammar derives for that rule at that place.  An entry does not depend on labels, on silence or on
the number of active rules, because derivations do not mention them.

A run that ends within the nesting limit keeps the table faithful, has the derived outcome, and the
labels it leaves are those of the reading on top of the ones that were there (`Runs.conforms`).  The
engine follows the runs, and so it finds exactly what the grammar derives, with the memo table on or
off: `Grammar.runRule_iff_derives`.
-/

namespace PegScript

variable {ρ ν : Type} [BEq ρ] [Hashable ρ]

/-! ## Faithful tables -/

/-- A match as a reading that binds no labels. -/
def Match.reading (m : Match ν) : Reading ν :=
  ⟨m.stop, m.value, []⟩

/-- Every outcome in the memo table is one that the grammar derives. -/
def Session.Faithful (g : Grammar ρ ν) (source : String)
    (s : Session ρ ν) : Prop :=
  ∀ (r : ρ) (c : Cursor) (result : Option (Match ν)),
    c.IsPlaceOf source → s.memo[(r, c.offset)]? = some result →
      Derives g (.rule r) c (result.map Match.reading)

theorem Session.Faithful.of_memo_eq {g : Grammar ρ ν} {source : String}
    {s s' : Session ρ ν} (h : s.Faithful g source)
    (hmemo : s'.memo = s.memo) : s'.Faithful g source := by
  intro r c result hplace hentry
  rw [hmemo] at hentry
  exact h r c result hplace hentry

theorem Session.faithful_of_memo_empty (g : Grammar ρ ν) (source : String)
    {s : Session ρ ν} (hempty : s.memo = ∅) : s.Faithful g source := by
  intro r c result _ hentry
  rw [hempty] at hentry
  simp at hentry

theorem Session.Faithful.derives_of_kept {g : Grammar ρ ν} {source : String} {s : Session ρ ν}
    (h : s.Faithful g source) {memoize : Bool} {r : ρ} {c : Cursor} (hplace : c.IsPlaceOf source)
    {result : Option (Match ν)} (hkept : s.memoized? memoize r c.offset = some result) :
    Derives g (.rule r) c (result.map Match.reading) := by
  unfold Session.memoized? at hkept
  split at hkept
  · exact h r c result hplace hkept
  · cases hkept

/-- Keeping a derived outcome keeps the table faithful: within the source the offset of the key
tells which place the outcome belongs to. -/
theorem Session.Faithful.remember [LawfulBEq ρ] [LawfulHashable ρ]
    {g : Grammar ρ ν} {source : String} {s : Session ρ ν}
    (h : s.Faithful g source) (memoize : Bool) {r : ρ} {c : Cursor}
    (hplace : c.IsPlaceOf source) {result : Option (Match ν)}
    (hresult : Derives g (.rule r) c (result.map Match.reading)) :
    (s.remember memoize r c.offset result).Faithful g source := by
  unfold Session.remember
  split
  · intro r' c' result' hplace' hentry
    simp only [Std.HashMap.getElem?_insert] at hentry
    split at hentry
    · rename_i hkey
      have hpair : (r, c.offset) = (r', c'.offset) := LawfulBEq.eq_of_beq hkey
      obtain ⟨rfl, hoffset⟩ := Prod.mk.inj hpair
      obtain rfl := hplace.eq_of_offset_eq hplace' hoffset
      cases hentry
      exact hresult
    · exact h r' c' result' hplace' hentry
  · exact h

/-! ## Runs that conform to derivations -/

/-- The outcome is the derived one, and the labels are those of the reading on top of `labels`. -/
inductive Conforms (g : Grammar ρ ν) (t : Term ρ ν) (c : Cursor)
    (labels : List (String × Value ν)) : Outcome ρ ν → Prop where
  | fails {s : Session ρ ν}
      (hderives : Derives g t c none) (hlabels : s.labels = labels) :
      Conforms g t c labels (none, s)
  | reads {s : Session ρ ν} {stop : Cursor} {value : Value ν}
      {bound : List (String × Value ν)}
      (hderives : Derives g t c (some ⟨stop, value, bound⟩))
      (hlabels : s.labels = bound ++ labels) :
      Conforms g t c labels (some ⟨stop, value⟩, s)

theorem Conforms.exists_derives {t : Term ρ ν} {c : Cursor} {labels : List (String × Value ν)}
    {o : Outcome ρ ν} (h : Conforms g t c labels o) :
    ∃ d, Derives g t c d ∧ (o.1 = none ↔ d = none) := by
  cases h with
  | fails hderives hlabels => exact ⟨_, hderives, by simp⟩
  | reads hderives hlabels => exact ⟨_, hderives, by simp⟩

/-- Characters outside of the class, like the end of the source, are not read. -/
theorem Derives.charInFail {k : CharClass} {c : Cursor}
    (h : ∀ a stop, c.next? = some (a, stop) → k.contains a = false) :
    Derives g (.charIn k) c none := by
  cases hnext : c.next? with
  | none => exact .charInEnd hnext
  | some next => exact .charInOther hnext (h _ _ hnext)

namespace Runs

variable {g : Grammar ρ ν} {settings : Settings} {source : String} {n : Nat} {t : Term ρ ν}
  {c : Cursor} {s s' : Session ρ ν} {result : Option (Match ν)}

variable [LawfulBEq ρ] [LawfulHashable ρ]

/-- A run that ends within the nesting limit started within it. -/
theorem overflow_eq_none (h : Runs g settings n t c s result s') (hdone : s'.overflow = none) :
    s.overflow = none :=
  h.growsTo.overflow_eq_none hdone

/-- A run within the nesting limit has the derived outcome and leaves a faithful table.  A kept
outcome is derived because the table is faithful, and a new one because the body of its rule has the
derived outcome. -/
theorem conforms (h : Runs g settings n t c s result s') (hplace : c.IsPlaceOf source)
    (hfaithful : s.Faithful g source) (hdone : s'.overflow = none) :
    s'.Faithful g source ∧ Conforms g t c s.labels (result, s') := by
  induction h with
  | literal h => exact ⟨hfaithful, .reads (.literal h) rfl⟩
  | charIn hnext hmem => exact ⟨hfaithful, .reads (.charIn hnext hmem) rfl⟩
  | anyChar hnext => exact ⟨hfaithful, .reads (.anyChar hnext) rfl⟩
  | literalFail h =>
      exact ⟨hfaithful.of_memo_eq (by simp), .fails (.literalFail h) (by simp)⟩
  | charInFail h =>
      exact ⟨hfaithful.of_memo_eq (by simp), .fails (.charInFail h) (by simp)⟩
  | anyCharFail h =>
      exact ⟨hfaithful.of_memo_eq (by simp), .fails (.anyCharEnd h) (by simp)⟩
  | ruleRefused hover =>
      rw [hover] at hdone
      cases hdone
  | ruleLimit hover => cases hdone
  | @ruleKept n r c s result hover hkept =>
      have hderives := hfaithful.derives_of_kept hplace hkept
      refine ⟨hfaithful.of_memo_eq (by simp), ?_⟩
      cases result with
      | none => exact .fails hderives (by simp)
      | some m => exact .reads hderives (by simp)
  | @ruleBody n r c s s₁ result hover hnew hbody ih =>
      rw [Session.leaveRule_overflow] at hdone
      obtain ⟨hs₁, hconforms⟩ := ih hplace (hfaithful.of_memo_eq (by simp)) hdone
      have hrule : Derives g (.rule r) c (result.map Match.reading) := by
        cases hconforms with
        | fails hderives hlabels => exact .ruleFail hderives
        | reads hderives hlabels => exact .rule hderives
      have hclosed : (s.closeRule (g.rule r) c result s₁).Faithful g source :=
        hs₁.of_memo_eq (by simp)
      refine ⟨(hclosed.remember settings.memoize hplace hrule).of_memo_eq
        (Session.reportResult_memo ..), ?_⟩
      cases result with
      | none => exact .fails hrule (by simp)
      | some m => exact .reads hrule (by simp)
  | seqNil => exact ⟨hfaithful, .reads .seqNil rfl⟩
  | seqCons hhead htail ihhead ihtail =>
      obtain ⟨hs₁, _ | ⟨hderives, hlabels⟩⟩ := ihhead hplace hfaithful (htail.overflow_eq_none hdone)
      obtain ⟨hs₂, _ | ⟨hderives', hlabels'⟩⟩ := ihtail (hplace.move hderives.reaches) hs₁ hdone
      refine ⟨hs₂, .reads (.seqCons hderives hderives') ?_⟩
      rw [hlabels', hlabels, List.append_assoc]
  | seqFail h ih =>
      obtain ⟨hs₁, hderives, hlabels⟩ := ih hplace hfaithful hdone
      exact ⟨hs₁, .fails (.seqFail hderives) rfl⟩
  | seqTailFail hhead htail ihhead ihtail =>
      obtain ⟨hs₁, _ | ⟨hderives, hlabels⟩⟩ := ihhead hplace hfaithful (htail.overflow_eq_none hdone)
      obtain ⟨hs₂, hderives', hlabels'⟩ := ihtail (hplace.move hderives.reaches) hs₁ hdone
      exact ⟨hs₂, .fails (.seqTailFail hderives hderives') rfl⟩
  | choiceNil => exact ⟨hfaithful, .fails .choiceNil rfl⟩
  | choiceHere h ih =>
      obtain ⟨hs₁, _ | ⟨hderives, hlabels⟩⟩ := ih hplace hfaithful hdone
      exact ⟨hs₁, .reads (.choiceHere hderives) hlabels⟩
  | choiceLater hfail h ihfail ih =>
      obtain ⟨hs₁, hderives, hlabels⟩ := ihfail hplace hfaithful (h.overflow_eq_none hdone)
      obtain ⟨hs₂, hlater⟩ := ih hplace hs₁ hdone
      rw [hlabels] at hlater
      refine ⟨hs₂, ?_⟩
      cases hlater with
      | fails hderives' hlabels' => exact .fails (.choiceLater hderives hderives') hlabels'
      | reads hderives' hlabels' => exact .reads (.choiceLater hderives hderives') hlabels'
  | starStop h ih =>
      obtain ⟨hs₁, hderives, hlabels⟩ := ih hplace hfaithful hdone
      exact ⟨hs₁, .reads (.starStop hderives) hlabels⟩
  | starEmpty h hstays ih =>
      obtain ⟨hs₁, _ | ⟨hderives, hlabels⟩⟩ := ih hplace hfaithful hdone
      obtain rfl := (hplace.move hderives.reaches).eq_of_offset_eq hplace hstays
      exact ⟨hs₁, .reads (.starEmpty hderives) hlabels⟩
  | starMore h hmoved hrest ih ihrest =>
      obtain ⟨hs₁, _ | ⟨hderives, hlabels⟩⟩ := ih hplace hfaithful (hrest.overflow_eq_none hdone)
      obtain ⟨hs₂, _ | ⟨hderives', hlabels'⟩⟩ := ihrest (hplace.move hderives.reaches) hs₁ hdone
      have hne := fun heq => hmoved (congrArg Cursor.offset heq)
      refine ⟨hs₂, .reads (.starMore hderives hne hderives') ?_⟩
      rw [hlabels', hlabels, List.append_assoc]
  | plus h ih =>
      obtain ⟨hs₁, _ | ⟨hderives, hlabels⟩⟩ := ih hplace hfaithful hdone
      exact ⟨hs₁, .reads (.plus hderives) hlabels⟩
  | plusFail h ih =>
      obtain ⟨hs₁, _ | ⟨hderives, hlabels⟩⟩ := ih hplace hfaithful hdone
      -- no item at all means that the first round failed
      cases hderives with
      | starStop hderives => exact ⟨hs₁, .fails (.plusFail hderives) hlabels⟩
  | opt h ih =>
      obtain ⟨hs₁, _ | ⟨hderives, hlabels⟩⟩ := ih hplace hfaithful hdone
      exact ⟨hs₁, .reads (.opt hderives) hlabels⟩
  | optAbsent h ih =>
      obtain ⟨hs₁, hderives, hlabels⟩ := ih hplace hfaithful hdone
      exact ⟨hs₁, .reads (.optAbsent hderives) hlabels⟩
  | not h ih =>
      obtain ⟨hs₁, hderives, hlabels⟩ := ih hplace hfaithful hdone
      exact ⟨hs₁, .reads (.not hderives) rfl⟩
  | notFail h ih =>
      obtain ⟨hs₁, _ | ⟨hderives, hlabels⟩⟩ := ih hplace hfaithful hdone
      exact ⟨hs₁, .fails (.notFail hderives) rfl⟩
  | and h ih =>
      obtain ⟨hs₁, _ | ⟨hderives, hlabels⟩⟩ := ih hplace hfaithful hdone
      exact ⟨hs₁, .reads (.and hderives) rfl⟩
  | andFail h ih =>
      obtain ⟨hs₁, hderives, hlabels⟩ := ih hplace hfaithful hdone
      exact ⟨hs₁, .fails (.andFail hderives) rfl⟩
  | label h ih =>
      obtain ⟨hs₁, _ | ⟨hderives, hlabels⟩⟩ := ih hplace hfaithful hdone
      refine ⟨hs₁, .reads (.label hderives) ?_⟩
      rw [hlabels, List.cons_append]
  | labelFail h ih =>
      obtain ⟨hs₁, hderives, hlabels⟩ := ih hplace hfaithful hdone
      exact ⟨hs₁, .fails (.labelFail hderives) hlabels⟩
  | action h hact ih =>
      obtain ⟨hs₁, _ | ⟨hderives, hlabels⟩⟩ := ih hplace hfaithful hdone
      rw [hlabels, List.append_nil] at hact
      exact ⟨hs₁, .reads (.action hderives hact) rfl⟩
  | actionReject h hact ih =>
      obtain ⟨hs₁, _ | ⟨hderives, hlabels⟩⟩ := ih hplace hfaithful hdone
      rw [hlabels, List.append_nil] at hact
      exact ⟨hs₁, .fails (.actionReject hderives hact) rfl⟩
  | actionFail h ih =>
      obtain ⟨hs₁, hderives, hlabels⟩ := ih hplace hfaithful hdone
      exact ⟨hs₁, .fails (.actionFail hderives) rfl⟩
  | text h ih =>
      obtain ⟨hs₁, _ | ⟨hderives, hlabels⟩⟩ := ih hplace hfaithful hdone
      exact ⟨hs₁, .reads (.text hderives) hlabels⟩
  | textFail h ih =>
      obtain ⟨hs₁, hderives, hlabels⟩ := ih hplace hfaithful hdone
      exact ⟨hs₁, .fails (.textFail hderives) hlabels⟩
  | pick h ih =>
      obtain ⟨hs₁, _ | ⟨hderives, hlabels⟩⟩ := ih hplace hfaithful hdone
      exact ⟨hs₁, .reads (.pick hderives) hlabels⟩
  | pickFail h ih =>
      obtain ⟨hs₁, hderives, hlabels⟩ := ih hplace hfaithful hdone
      exact ⟨hs₁, .fails (.pickFail hderives) hlabels⟩

end Runs

namespace Grammar

variable {g : Grammar ρ ν} {source : String}

/-- Matching a rule finds exactly what the grammar derives: a run that does not exceed the nesting
limit has a match if and only if the grammar derives that reading, and none if and only if it
derives failure.  The place, the labels around, silence and the allowance are arbitrary. -/
theorem runRule_iff_derives [LawfulBEq ρ] [LawfulHashable ρ]
    (g : Grammar ρ ν) (settings : Settings) (source : String)
    (allowance : Nat) (r : ρ) (c : Cursor) (s : Session ρ ν)
    (hplace : c.IsPlaceOf source) (hempty : s.memo = ∅)
    (hdone : (g.runRule settings source.utf8ByteSize allowance r c s).2.overflow =
      none) :
    (∀ (stop : Cursor) (value : Value ν),
      (g.runRule settings source.utf8ByteSize allowance r c s).1 =
          some ⟨stop, value⟩ ↔
        Derives g (.rule r) c (some ⟨stop, value, []⟩)) ∧
    ((g.runRule settings source.utf8ByteSize allowance r c s).1 = none ↔
      Derives g (.rule r) c none) := by
  cases hrun : g.runRule settings source.utf8ByteSize allowance r c s with
  | mk result s' =>
      rw [hrun] at hdone
      have hfaithful := Session.faithful_of_memo_empty g source hempty
      have hruns := runRule_performs (g := g) settings allowance r c s hplace
        (Session.keepsPlaces_of_memo_empty source hempty)
      rw [hrun] at hruns
      obtain ⟨-, hconforms⟩ := hruns.conforms hplace hfaithful hdone
      cases hconforms with
      | fails hderives hlabels =>
          refine ⟨fun stop value => ⟨fun h => (by cases h), fun h => ?_⟩,
            fun _ => hderives, fun _ => rfl⟩
          cases hderives.functional h
      | reads hderives hlabels =>
          cases hderives with
          | rule hbody =>
              have hrule := Derives.rule hbody
              refine ⟨fun stop value => ⟨fun h => ?_, fun h => ?_⟩,
                fun h => (by cases h), fun h => ?_⟩
              · cases h
                exact hrule
              · cases hrule.functional h
                rfl
              · cases hrule.functional h

/-- A grammar in which a failed alternative binds a label that the action asks for. -/
def strayLabel : Grammar (Fin 1) Unit where
  symbols := [0]
  rule _ := {
    name := "Stray"
    body := .action (ActionM.take "a") <| .choice [
      .seq [.label "a" (.lit "x"), .lit "y"],
      .label "b" (.lit "x")] }
  root := 0

/-- The label of the failed alternative does not reach the action. -/
theorem strayLabel_derives :
    (strayLabel.runRule { memoize := false } "x".utf8ByteSize 1 0
        (Cursor.start "x") {}).2.overflow = none ∧
      Derives strayLabel (.rule 0) (Cursor.start "x")
        (some ⟨⟨1, []⟩, .empty, []⟩) := by
  have hdone : (strayLabel.runRule { memoize := false } "x".utf8ByteSize 1 0
      (Cursor.start "x") {}).2.overflow = none := by rfl
  have hiff := runRule_iff_derives strayLabel { memoize := false } "x" 1 0
    (Cursor.start "x") {} (Cursor.start_isPlaceOf "x") rfl hdone
  exact ⟨hdone, (hiff.1 ⟨1, []⟩ .empty).mp rfl⟩

/-! ## Whole parses -/

theorem parseFrom_session (settings : Settings) (start : ρ) (source : String) :
    (g.parseFrom settings start source).session =
      (g.runRule settings source.utf8ByteSize settings.maxDepth start
        (Cursor.start source) {}).2 := rfl

theorem parseFrom_outcome (settings : Settings) (start : ρ) (source : String) :
    (g.parseFrom settings start source).outcome =
      conclude source
        (g.runRule settings source.utf8ByteSize settings.maxDepth start
          (Cursor.start source) {}).1
        (g.runRule settings source.utf8ByteSize settings.maxDepth start
          (Cursor.start source) {}).2 := rfl

/-- A parse within the limit succeeds if the match takes the whole source. -/
theorem conclude_eq_ok_iff {result : Option (Match ν)} {s : Session ρ ν}
    (hdone : s.overflow = none) {value : Value ν} :
    conclude source result s = .ok value ↔
      ∃ m, result = some m ∧ m.stop.offset = source.utf8ByteSize ∧
        m.value = value := by
  unfold conclude
  rw [hdone]
  cases result with
  | none => simp
  | some m =>
      by_cases hstop : m.stop.offset = source.utf8ByteSize
      · simp [hstop]
      · simp [hstop]

/-- A parse within the limit fails with what it recorded if there is no match, and else with what it
recorded and where the match stops. -/
theorem conclude_eq_error_iff {result : Option (Match ν)} {s : Session ρ ν}
    (hdone : s.overflow = none) {d : Diagnosis} :
    conclude source result s = .error d ↔
      result = none ∧ s.failures.diagnose source = d ∨
        ∃ m, result = some m ∧ m.stop.offset ≠ source.utf8ByteSize ∧
          (s.failures.add m.stop.offset .endOfInput).diagnose source = d := by
  unfold conclude
  rw [hdone]
  cases result with
  | none => simp
  | some m =>
      by_cases hstop : m.stop.offset = source.utf8ByteSize
      · simp [hstop]
      · simp [hstop]

/-- Two parses with one result that hit the limit at the same offset or not at all succeed with the
same value or fail together. -/
theorem conclude_together {result : Option (Match ν)} {s s₁ : Session ρ ν}
    (hover : s₁.overflow = s.overflow) :
    (∃ value, conclude source result s = .ok value ∧ conclude source result s₁ = .ok value) ∨
      ∃ d d₁, conclude source result s = .error d ∧ conclude source result s₁ = .error d₁ := by
  unfold conclude
  rw [hover]
  cases s.overflow with
  | some offset => exact .inr ⟨_, _, rfl, rfl⟩
  | none =>
      cases result with
      | none => exact .inr ⟨_, _, rfl, rfl⟩
      | some m =>
          by_cases hwhole : m.stop.offset = source.utf8ByteSize
          · exact .inl ⟨m.value, if_pos hwhole, if_pos hwhole⟩
          · exact .inr ⟨_, _, if_neg hwhole, if_neg hwhole⟩

theorem outcome_of_none {settings : Settings} {start : ρ} {source : String}
    (hdone : (g.parseFrom settings start source).session.overflow = none)
    (hnone : (g.runRule settings source.utf8ByteSize settings.maxDepth start
      (Cursor.start source) {}).1 = none) :
    (g.parseFrom settings start source).outcome =
      .error ((g.parseFrom settings start source).session.failures.diagnose source) :=
  (conclude_eq_error_iff hdone).mpr (.inl ⟨hnone, rfl⟩)

/-- A parse that goes beyond the nesting limit says so, and says nothing else. -/
theorem outcome_of_overflow {settings : Settings} {start : ρ} {source : String} {offset : Nat}
    (h : (g.parseFrom settings start source).session.overflow = some offset) :
    (g.parseFrom settings start source).outcome =
      .error ((({} : FurthestFailure).add offset .lessNesting).diagnose source) := by
  rw [parseFrom_session] at h
  rw [parseFrom_outcome]
  unfold conclude
  rw [h]

/-- A parse that succeeds stays within the nesting limit. -/
theorem overflow_eq_none_of_ok {settings : Settings} {start : ρ} {source : String}
    {value : Value ν} (h : (g.parseFrom settings start source).outcome = .ok value) :
    (g.parseFrom settings start source).session.overflow = none := by
  rw [parseFrom_outcome] at h
  rw [parseFrom_session]
  unfold conclude at h
  split at h
  · cases h
  · assumption

/-- The match of a parse within the limit is the one that the grammar derives. -/
theorem conforms_of_overflow_eq_none [LawfulBEq ρ] [LawfulHashable ρ]
    {settings : Settings} {start : ρ} {source : String}
    (hdone : (g.parseFrom settings start source).session.overflow = none) :
    Conforms g (.rule start) (Cursor.start source) []
      (g.runRule settings source.utf8ByteSize settings.maxDepth start
        (Cursor.start source) {}) := by
  have hplace := Cursor.start_isPlaceOf source
  have hruns := runRule_performs (g := g) settings settings.maxDepth start (Cursor.start source)
    {} hplace (Session.keepsPlaces_of_memo_empty source rfl)
  exact (hruns.conforms hplace (Session.faithful_of_memo_empty g source rfl) hdone).2

/-- A parse within the limit succeeds exactly with the value of a derived reading of the whole
source. -/
theorem parseFrom_eq_ok_iff [LawfulBEq ρ] [LawfulHashable ρ]
    {settings : Settings} {start : ρ} {source : String} {value : Value ν}
    (hdone : (g.parseFrom settings start source).session.overflow = none) :
    (g.parseFrom settings start source).outcome = .ok value ↔
      ∃ stop, Derives g (.rule start) (Cursor.start source)
          (some ⟨stop, value, []⟩) ∧
        stop.offset = source.utf8ByteSize := by
  have hconforms := conforms_of_overflow_eq_none hdone
  rw [parseFrom_session] at hdone
  rw [parseFrom_outcome]
  cases hrun : g.runRule settings source.utf8ByteSize settings.maxDepth start
      (Cursor.start source) {} with
  | mk result s =>
      rw [hrun] at hdone hconforms
      rw [conclude_eq_ok_iff hdone]
      cases hconforms with
      | fails hderives hlabels =>
          constructor
          · rintro ⟨m, ⟨⟩, -⟩
          · rintro ⟨stop, hread, -⟩
            cases hderives.functional hread
      | reads hderives hlabels =>
          constructor
          · rintro ⟨m, ⟨⟩, hstop, rfl⟩
            cases hderives with
            | rule hbody => exact ⟨_, .rule hbody, hstop⟩
          · rintro ⟨stop, hread, hstop⟩
            cases hderives.functional hread
            exact ⟨_, rfl, hstop, rfl⟩

/-- A parse within the limit follows a derivation. -/
theorem exists_derives_of_overflow_eq_none [LawfulBEq ρ] [LawfulHashable ρ]
    {settings : Settings} {start : ρ} {source : String}
    (hdone : (g.parseFrom settings start source).session.overflow = none) :
    ∃ d, Derives g (.rule start) (Cursor.start source) d := by
  obtain ⟨d, hderives, -⟩ := (conforms_of_overflow_eq_none hdone).exists_derives
  exact ⟨d, hderives⟩

end Grammar

end PegScript
