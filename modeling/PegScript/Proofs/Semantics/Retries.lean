import PegScript.Proofs.Semantics.Limit
import PegScript.Proofs.Semantics.Shadow

/-!
# The nesting limit with and without the memo table

A parse without the memo table evaluates a rule again at a place where it has been evaluated before,
and the second time more rules may be active around it.  With the table the parse uses the kept
outcome, and nothing below the rule becomes active.  So the limit can be hit without the table and
not with it.  This is the only difference (`Grammar.overflow_memoize_eq_none`,
`Grammar.overflow_memoize_or_retried`): as long as no rule is evaluated again, the parse with the
table makes the same calls (`Grammar.reached_or_retried`).
-/

namespace PegScript

variable {ρ ν : Type} [BEq ρ] [Hashable ρ] [LawfulBEq ρ]

theorem Session.mem_memo_of_memoized? {s : Session ρ ν} {memoize : Bool} {r : ρ} {offset : Nat}
    {result : Option (Match ν)} (h : s.memoized? memoize r offset = some result) :
    (r, offset) ∈ s.memo := by
  unfold Session.memoized? at h
  split at h
  · rw [Std.HashMap.mem_iff_isSome_getElem?, h]
    rfl
  · cases h

variable [LawfulHashable ρ]

namespace Grammar

variable {g : Grammar ρ ν} {settings : Settings} {source : String} {start : ρ}
  {e e' : Evaluation ρ ν} {s₁ : Session ρ ν}

/-- A call that begins within the limit begins in a session that is ready. -/
theorem Calls.ready (h : g.Calls settings source.utf8ByteSize e e')
    (hplace : e.place.IsPlaceOf source) (hs : e.session.Ready g source)
    (hwithin : e'.session.overflow = none) : e'.session.Ready g source := by
  cases h with
  | rule hover hnew => exact hs.enterRule settings _ hplace
  | seqTail hhead | choiceTail hhead | starAgain hhead hmoved =>
      exact (runs_of_evaluate hplace hs.placed hhead).ready hplace hs hwithin
  | not | and => exact hs.silence
  | action => exact hs.relabel []
  | seqHead | choiceHead | starRound | plus | opt | label | text | pick => exact hs

theorem ready_of_reached (h : g.Reached settings source e e')
    (hplace : e.place.IsPlaceOf source) (hs : e.session.Ready g source)
    (hwithin : e'.session.overflow = none) : e'.session.Ready g source := by
  have he : e.Placed source := ⟨hplace, hs.placed⟩
  induction h with
  | refl => exact hs
  | tail hcaller hcall ih =>
      have hplaced := placed_of_reached hcaller he
      have hbefore := (hcall.growsTo_session hplaced).overflow_eq_none hwithin
      exact hcall.ready hplaced.place (ih hbefore) hwithin

/-! ## The same calls with the table -/

/-- What is evaluated without the table, and within the limit, has the same result with the table. -/
theorem exists_shadow_of_evaluate {result : Option (Match ν)} {s' : Session ρ ν}
    (heval : g.evaluate settings source.utf8ByteSize e = (result, s'))
    (hoff : settings.memoize = false) (hplace : e.place.IsPlaceOf source)
    (hs : e.session.Ready g source) (hwithin : s'.overflow = none)
    (settings' : Settings) (hs₁ : s₁.Ready g source) :
    ∃ s₂, g.evaluate settings' source.utf8ByteSize { e with session := s₁ } = (result, s₂) ∧
      s₂.Ready g source ∧
      ∀ key ∈ s₂.memo, key ∈ s₁.memo ∨ g.Evaluates settings source e key := by
  obtain ⟨s₂, hshadow, hbehind⟩ := (runs_of_evaluate hplace hs.placed heval).exists_shadow
    hoff hwithin hplace hs settings' (Nat.le_refl _) hs₁
  exact ⟨s₂, hshadow.evaluate_eq hplace hs₁.placed,
    hshadow.ready hplace hs₁ hbehind.within, hbehind.evaluates⟩

/-- With the table the engine makes the same call, unless the table has the outcome of the rule.
What is new in the table are outcomes of rules that were evaluated before the call. -/
theorem Calls.shadow (h : g.Calls settings source.utf8ByteSize e e')
    (hoff : settings.memoize = false) (hplace : e.place.IsPlaceOf source)
    (hs : e.session.Ready g source) (hwithin : e'.session.overflow = none)
    (settings' : Settings) (hs₁ : s₁.Ready g source) :
    (∃ s₂, g.Calls settings' source.utf8ByteSize { e with session := s₁ }
        { e' with session := s₂ } ∧ s₂.Ready g source ∧
        ∀ key ∈ s₂.memo, key ∈ s₁.memo ∨
          ∃ first, g.CallsInTurn settings source.utf8ByteSize e first e' ∧
            g.Evaluates settings source first key) ∨
      ∃ r, e.term = .rule r ∧ (r, e.place.offset) ∈ s₁.memo := by
  cases h with
  | @rule n r c s hover hnew =>
      cases hkept : s₁.memoized? settings'.memoize r c.offset with
      | some result => exact .inr ⟨r, rfl, Session.mem_memo_of_memoized? hkept⟩
      | none =>
          exact .inl ⟨_, .rule hs₁.within hkept, hs₁.enterRule settings' r hplace,
            fun key hkey => .inl (by simpa using hkey)⟩
  | seqTail hhead =>
      obtain ⟨s₂, hhead', hs₂, hkeys⟩ :=
        exists_shadow_of_evaluate hhead hoff hplace hs hwithin settings' hs₁
      exact .inl ⟨s₂, .seqTail hhead', hs₂, fun key hkey =>
        (hkeys key hkey).imp_right fun h => ⟨_, .seq hhead, h⟩⟩
  | choiceTail hhead =>
      obtain ⟨s₂, hhead', hs₂, hkeys⟩ :=
        exists_shadow_of_evaluate hhead hoff hplace hs hwithin settings' hs₁
      exact .inl ⟨s₂, .choiceTail hhead', hs₂, fun key hkey =>
        (hkeys key hkey).imp_right fun h => ⟨_, .choice hhead, h⟩⟩
  | starAgain hround hmoved =>
      obtain ⟨s₂, hround', hs₂, hkeys⟩ :=
        exists_shadow_of_evaluate hround hoff hplace hs hwithin settings' hs₁
      exact .inl ⟨s₂, .starAgain hround' hmoved, hs₂, fun key hkey =>
        (hkeys key hkey).imp_right fun h => ⟨_, .star hround hmoved, h⟩⟩
  | not => exact .inl ⟨_, .not, hs₁.silence, fun key hkey => .inl hkey⟩
  | and => exact .inl ⟨_, .and, hs₁.silence, fun key hkey => .inl hkey⟩
  | action => exact .inl ⟨_, .action, hs₁.relabel [], fun key hkey => .inl hkey⟩
  | seqHead => exact .inl ⟨s₁, .seqHead, hs₁, fun key hkey => .inl hkey⟩
  | choiceHead => exact .inl ⟨s₁, .choiceHead, hs₁, fun key hkey => .inl hkey⟩
  | starRound => exact .inl ⟨s₁, .starRound, hs₁, fun key hkey => .inl hkey⟩
  | plus => exact .inl ⟨s₁, .plus, hs₁, fun key hkey => .inl hkey⟩
  | opt => exact .inl ⟨s₁, .opt, hs₁, fun key hkey => .inl hkey⟩
  | label => exact .inl ⟨s₁, .label, hs₁, fun key hkey => .inl hkey⟩
  | text => exact .inl ⟨s₁, .text, hs₁, fun key hkey => .inl hkey⟩
  | pick => exact .inl ⟨s₁, .pick, hs₁, fun key hkey => .inl hkey⟩

/-- In the course of `e`, a rule has been evaluated as `e₀` when it is evaluated again at the same
offset, as `e₁`. -/
structure Retried (g : Grammar ρ ν) (settings : Settings) (source : String)
    (e e₀ e₁ : Evaluation ρ ν) : Prop where
  before : g.Before settings source e e₀ e₁
  rule : ∃ r, e₀.term = .rule r ∧ e₁.term = .rule r
  offset : e₀.place.offset = e₁.place.offset

/-- Whatever a parse without the table comes to within the limit, the parse with the table comes to
as well, unless it lies in the course of a rule that is evaluated again.  The induction is on the
chain of calls; the table has only outcomes of rules that were evaluated before. -/
theorem reached_or_retried (h : g.Reached settings source (startEvaluation settings start source) e)
    (hoff : settings.memoize = false) (hwithin : e.session.overflow = none)
    (settings' : Settings) (hdepth : settings'.maxDepth = settings.maxDepth) :
    (∃ s₂, g.Reached settings' source (startEvaluation settings' start source)
        { e with session := s₂ } ∧ s₂.Ready g source ∧
        ∀ key ∈ s₂.memo, ∃ e₀, g.Before settings source (startEvaluation settings start source)
          e₀ e ∧ e₀.term = .rule key.1 ∧ e₀.place.offset = key.2) ∨
      ∃ e₀ e₁, g.Retried settings source (startEvaluation settings start source) e₀ e₁ ∧
        g.Reached settings source e₁ e := by
  have hstart := placed_startEvaluation (ν := ν) settings start source
  have hready := Session.ready_empty g source
  induction h with
  | refl =>
      refine .inl ⟨{}, ?_, hready, fun key hkey => by simp at hkey⟩
      rw [startEvaluation, startEvaluation, hdepth]
      exact .refl
  | @tail caller called hcaller hcall ih =>
      have hplaced := placed_of_reached hcaller hstart
      have hbefore := (hcall.growsTo_session hplaced).overflow_eq_none hwithin
      rcases ih hbefore with ⟨s₂, hreached, hs₂, hkeys⟩ | ⟨e₀, e₁, hretried, hreached⟩
      · have hs := ready_of_reached hcaller hstart.place hready hbefore
        rcases hcall.shadow hoff hplaced.place hs hwithin settings' hs₂ with
          ⟨s₃, hcall', hs₃, hnew⟩ | ⟨r, hterm, hkept⟩
        · refine .inl ⟨s₃, .tail hreached hcall', hs₃, fun key hkey => ?_⟩
          rcases hnew key hkey with hold | ⟨first, hturn, e₀, hfirst, hrule⟩
          · obtain ⟨e₀, hearlier, hrule⟩ := hkeys key hold
            exact ⟨e₀, hearlier.of_reached (.single hcall), hrule⟩
          · exact ⟨e₀, ⟨caller, first, called, hcaller, hturn, hfirst, .refl⟩, hrule⟩
        · obtain ⟨e₀, hearlier, hrule, hoffset⟩ := hkeys _ hkept
          exact .inr ⟨e₀, caller, ⟨hearlier, ⟨r, hrule, hterm⟩, hoffset⟩, .single hcall⟩
      · exact .inr ⟨e₀, e₁, hretried, hreached.tail hcall⟩

/-! ## Hits with and without the table -/

/-- A rule that is evaluated again and then hits the limit is deeper than it was before. -/
theorem Retried.allowance_lt {e₀ e₁ : Evaluation ρ ν} {offset : Nat}
    (h : g.Retried settings source (startEvaluation settings start source) e₀ e₁)
    (hoff : settings.memoize = false) (hhits : g.HitsAt settings source e₁ offset) :
    e₁.allowance < e₀.allowance := by
  have hstart := placed_startEvaluation (ν := ν) settings start source
  have hready := Session.ready_empty g source
  have he₀ := placed_of_reached h.before.reached_first hstart
  have he₁ := placed_of_reached h.before.reached_second hstart
  obtain ⟨hit, hreached, hlimit, hnone, -⟩ := hhits
  have hwithin : e₁.session.overflow = none :=
    (growsTo_of_reached hreached he₁).1.overflow_eq_none hnone
  have hdone : (g.evaluate settings source.utf8ByteSize e₀).2.overflow = none :=
    (h.before.growsTo hstart).overflow_eq_none hwithin
  have hrun := runs_evaluate g settings he₀
  have hs₀ := ready_of_reached h.before.reached_first hstart.place hready
    (hrun.overflow_eq_none hdone)
  have hs₁ := ready_of_reached h.before.reached_second hstart.place hready hwithin
  refine Nat.lt_of_not_le fun hle => ?_
  -- the first evaluation would have a shadow in place of the second one
  obtain ⟨s₂, hshadow, hbehind⟩ :=
    hrun.exists_shadow hoff hdone he₀.place hs₀ settings hle hs₁
  obtain ⟨r, hrule₀, hrule₁⟩ := h.rule
  rw [he₀.place.eq_of_offset_eq he₁.place h.offset, hrule₀, ← hrule₁] at hshadow
  obtain ⟨-, hsame⟩ := hshadow.functional (runs_evaluate g settings he₁)
  have hended := (growsTo_of_reached hreached he₁).2.overflow_eq_none (hsame ▸ hbehind.within)
  rw [overflow_evaluate_of_atLimit g settings (placed_of_reached hreached he₁) hlimit] at hended
  cases hended

/-- A parse with the memo table stays within the limit if the parse without it does. -/
theorem overflow_memoize_eq_none
    (h : (g.parseFrom { settings with memoize := false } start source).session.overflow = none) :
    (g.parseFrom { settings with memoize := true } start source).session.overflow = none := by
  obtain ⟨result, s, s₁, -, hwith, -, hdone, -⟩ := exists_shadow_of_parse h
  rw [hwith]
  exact hdone

/-- If a parse without the memo table hits the limit, then the parse with it hits it at the same
offset, unless without the table the limit is hit in the course of a rule that is evaluated again,
and deeper than before. -/
theorem overflow_memoize_or_retried {offset : Nat}
    (h : (g.parseFrom { settings with memoize := false } start source).session.overflow =
      some offset) :
    (g.parseFrom { settings with memoize := true } start source).session.overflow = some offset ∨
      ∃ e₀ e₁, g.Retried { settings with memoize := false } source
          (startEvaluation { settings with memoize := false } start source) e₀ e₁ ∧
        e₁.allowance < e₀.allowance ∧
        g.HitsAt { settings with memoize := false } source e₁ offset := by
  have hstart := placed_startEvaluation (ν := ν) settings start source
  rw [parseFrom_eq_evaluate] at h
  obtain ⟨hit, hreached, hlimit, hnone, hoffset⟩ :=
    (runs_evaluate g { settings with memoize := false } hstart).hitsAt hstart.place
      hstart.session rfl h
  rcases reached_or_retried hreached rfl hnone { settings with memoize := true } rfl with
    ⟨s₂, hreached', hs₂, -⟩ | ⟨e₀, e₁, hretried, hcourse⟩
  · left
    have hhit := overflow_evaluate_of_atLimit g { settings with memoize := true }
      (placed_of_reached hreached' hstart) hlimit
    rw [hs₂.within, Option.getD_none] at hhit
    rw [parseFrom_eq_evaluate, ← hoffset]
    exact (growsTo_of_reached hreached' hstart).2.overflow _ hhit
  · have hhits : g.HitsAt { settings with memoize := false } source e₁ offset :=
      ⟨hit, hcourse, hlimit, hnone, hoffset⟩
    exact .inr ⟨e₀, e₁, hretried, hretried.allowance_lt rfl hhits, hhits⟩

end Grammar

end PegScript
