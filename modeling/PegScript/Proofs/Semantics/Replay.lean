import PegScript.Proofs.Semantics.ListedTable
import PegScript.Proofs.Semantics.RunValues
import PegScript.Proofs.Semantics.Shadow
import PegScript.Proofs.Semantics.Simulation
import PegScript.Proofs.Semantics.WrittenTrace

/-!
# The memo table replays what was reported

A parse with the memo table follows the parse without it rule by rule.  Where the table has the
outcome of a rule the parse reports that the rule is entered and how it ends, and leaves out what
happens in its course.  So its calls are those of the parse without the table, with the calls in the
course of a call cut off where the outcome was kept (`CallForest.Prunes`), and it ends such a call as
it has ended one of the same rule with the same start before (`Grammar.trace_memoize`).
-/

namespace PegScript

variable {ρ ν : Type}

/-! ## Calls that are left out -/

/-- The calls of the second forest are those of the first, where of some calls the outcome was kept
and the calls in their course are left out. -/
inductive CallForest.Prunes : CallForest ρ → CallForest ρ → Prop where
  | nil : Prunes .nil .nil
  | call {r : ρ} {start : Nat} {inner inner' : CallForest ρ} {stop : Option Nat}
      {rest rest' : CallForest ρ} (hinner : inner.Prunes inner') (hrest : rest.Prunes rest') :
      Prunes (.call r start inner stop false rest) (.call r start inner' stop false rest')
  | kept {r : ρ} {start : Nat} {inner : CallForest ρ} {stop : Option Nat}
      {rest rest' : CallForest ρ} (hrest : rest.Prunes rest') :
      Prunes (.call r start inner stop false rest) (.call r start .nil stop true rest')

namespace Trace

/-- The same for the events, also while calls are open: from the first list to the second, all
events between the two ends of some calls are left out. -/
inductive Prunes : List (Event ρ) → List (Event ρ) → Prop where
  | nil : Prunes [] []
  | report {e : Event ρ} {events events' : List (Event ρ)} (hnew : e.cached = false)
      (h : Prunes events events') : Prunes (e :: events) (e :: events')
  | kept {r : ρ} {start : Nat} (inner : CallForest ρ) {stop : Option Nat}
      {events events' : List (Event ρ)} (h : Prunes events events') :
      Prunes (.entered r start :: (inner.events ++ .ended r start stop false :: events))
        (.entered r start :: .ended r start stop true :: events')

variable {events events' more more' : List (Event ρ)}

theorem Prunes.append (h : Prunes events events') (h' : Prunes more more') :
    Prunes (events ++ more) (events' ++ more') := by
  induction h with
  | nil => exact h'
  | report hnew h ih => exact .report hnew ih
  | kept inner h ih =>
      rw [List.cons_append, List.append_assoc, List.cons_append]
      exact .kept inner ih

theorem Prunes.concat (h : Prunes events events') {e : Event ρ} (hnew : e.cached = false) :
    Prunes (events ++ [e]) (events' ++ [e]) :=
  h.append (.report hnew .nil)

/-- An event that ends a call is not left out. -/
theorem Prunes.of_ended {r : ρ} {start : Nat} {stop : Option Nat} {cached : Bool}
    (h : Prunes (.ended r start stop cached :: events) events') :
    cached = false ∧ ∃ more, events' = .ended r start stop cached :: more ∧ Prunes events more := by
  generalize hall : Event.ended r start stop cached :: events = all at h
  cases h with
  | nil => cases hall
  | report hnew h =>
      obtain ⟨rfl, rfl⟩ := List.cons.inj hall
      exact ⟨by simpa using hnew, _, rfl, h⟩
  | kept inner h =>
      obtain ⟨hended, -⟩ := List.cons.inj hall
      exact absurd (congrArg Event.kind hended) (Event.ended_kind_ne r start stop cached)

end Trace

namespace CallForest

/-- After whole calls, the first event that ends a call no longer belongs to them. -/
theorem events_append_inj {calls calls' : CallForest ρ} {e e' : Event ρ}
    {events events' : List (Event ρ)} (he : e.kind ≠ .enter) (he' : e'.kind ≠ .enter)
    (h : calls.events ++ e :: events = calls'.events ++ e' :: events') :
    calls = calls' ∧ e = e' ∧ events = events' := by
  induction calls generalizing calls' e e' events events' with
  | nil =>
      cases calls' with
      | nil =>
          obtain ⟨rfl, rfl⟩ := List.cons.inj h
          exact ⟨rfl, rfl, rfl⟩
      | call r start inner stop cached rest =>
          obtain ⟨rfl, -⟩ := List.cons.inj h
          exact absurd rfl he
  | call r start inner stop cached rest ihinner ihrest =>
      cases calls' with
      | nil =>
          obtain ⟨rfl, -⟩ := List.cons.inj h
          exact absurd rfl he'
      | call r' start' inner' stop' cached' rest' =>
          simp only [CallForest.events, List.cons_append, List.append_assoc, List.cons.injEq] at h
          obtain ⟨-, hinner⟩ := h
          obtain ⟨rfl, hended, hrest⟩ := ihinner (Event.ended_kind_ne _ _ _ _)
            (Event.ended_kind_ne _ _ _ _) hinner
          obtain ⟨rfl, rfl, rfl, rfl⟩ := Event.ended_inj hended
          obtain ⟨rfl, rfl, rfl⟩ := ihrest he he' hrest
          exact ⟨rfl, rfl, rfl⟩

/-- What is left of the events of whole calls are the events of whole calls. -/
theorem exists_prunes {calls : CallForest ρ} {more events : List (Event ρ)}
    (h : Trace.Prunes (calls.events ++ more) events) :
    ∃ calls' more', events = calls'.events ++ more' ∧ calls.Prunes calls' ∧
      Trace.Prunes more more' := by
  induction calls generalizing more events with
  | nil => exact ⟨.nil, events, rfl, .nil, h⟩
  | call r start inner stop cached rest ihinner ihrest =>
      rw [CallForest.events, List.cons_append, List.append_assoc, List.cons_append] at h
      generalize hall : Event.entered r start ::
        (inner.events ++ Event.ended r start stop cached :: (rest.events ++ more)) = all at h
      cases h with
      | nil => cases hall
      | report hnew h =>
          obtain ⟨rfl, rfl⟩ := List.cons.inj hall
          obtain ⟨inner', events', rfl, hinner, hafter⟩ := ihinner h
          obtain ⟨rfl, events'', rfl, hrest⟩ := hafter.of_ended
          obtain ⟨rest', more', rfl, hrest', hmore⟩ := ihrest hrest
          exact ⟨.call r start inner' stop false rest', more', by simp [CallForest.events],
            .call hinner hrest', hmore⟩
      | @kept r' start' inner' stop' events events' h =>
          obtain ⟨hentered, hall⟩ := List.cons.inj hall
          obtain ⟨rfl, hended, rfl⟩ := events_append_inj (Event.ended_kind_ne _ _ _ _)
            (Event.ended_kind_ne _ _ _ _) hall
          obtain ⟨rfl, rfl, rfl, rfl⟩ := Event.ended_inj hended
          obtain ⟨rest', more', rfl, hrest', hmore⟩ := ihrest h
          exact ⟨.call r start .nil stop true rest', more', by simp [CallForest.events],
            .kept hrest', hmore⟩

end CallForest

/-! ## Events that repeat earlier ones -/

namespace Trace

/-- Each event that tells of a kept outcome repeats an earlier one that tells of a new outcome. -/
def Recalls (events : List (Event ρ)) : Prop :=
  ∀ before e after, events = before ++ e :: after → e.cached = true →
    e.kind ≠ .enter ∧ { e with cached := false } ∈ before

theorem recalls_nil : Recalls ([] : List (Event ρ)) := by
  intro before e after h
  simp at h

theorem Recalls.concat {events : List (Event ρ)} {e : Event ρ} (h : Recalls events)
    (he : e.cached = true → e.kind ≠ .enter ∧ { e with cached := false } ∈ events) :
    Recalls (events ++ [e]) := by
  intro before e' after hsplit hcached
  rcases List.eq_nil_or_concat after with rfl | ⟨after, last, rfl⟩
  · obtain ⟨rfl, hlast⟩ := List.append_inj' hsplit rfl
    obtain rfl := List.singleton_inj.mp hlast
    exact he hcached
  · rw [List.concat_eq_append, ← List.cons_append, ← List.append_assoc] at hsplit
    obtain ⟨rfl, -⟩ := List.append_inj' hsplit rfl
    exact h before e' after rfl hcached

theorem Recalls.concat_new {events : List (Event ρ)} {e : Event ρ} (h : Recalls events)
    (hnew : e.cached = false) : Recalls (events ++ [e]) :=
  h.concat fun hcached => by simp [hnew] at hcached

end Trace

/-! ## Sessions of the two parses -/

variable [BEq ρ] [Hashable ρ]

namespace Session

/-- What the events tell of kept outcomes is told before, and so is every outcome in the table. -/
structure Recalls (s : Session ρ ν) : Prop where
  memo : ∀ (r : ρ) (offset : Nat) (result : Option (Match ν)),
    s.memo[(r, offset)]? = some result →
      .ended r offset (result.map (·.stop.offset)) false ∈ s.events.toList
  events : Trace.Recalls s.events.toList

variable {s s' s₁ : Session ρ ν} {settings : Settings} {c : Cursor} {result : Option (Match ν)}

theorem recalls_empty : ({} : Session ρ ν).Recalls where
  memo r offset result h := by simp at h
  events := Trace.recalls_nil

theorem Recalls.of_eq (h : s.Recalls) (hmemo : s'.memo = s.memo) (hevents : s'.events = s.events) :
    s'.Recalls where
  memo := by
    rw [hmemo, hevents]
    exact h.memo
  events := by
    rw [hevents]
    exact h.events

theorem Recalls.enterRule (h : s.Recalls) (htraced : settings.traced = true) (g : Grammar ρ ν)
    (r : ρ) : (s.enterRule settings g r c).Recalls where
  memo r' offset result hentry := by
    rw [enterRule_memo] at hentry
    rw [toList_events_enterRule s g r c htraced]
    exact List.mem_append_left _ (h.memo r' offset result hentry)
  events := by
    rw [toList_events_enterRule s g r c htraced]
    exact h.events.concat_new rfl

theorem Recalls.kept (h : s.Recalls) (htraced : settings.traced = true)
    {r : ρ} (hentry : s.memo[(r, c.offset)]? = some result) :
    ((s.reportEnter settings.traced r c).countHit.reportResult settings.traced r c result
      true).Recalls where
  memo r' offset result' hentry' := by
    rw [reportResult_memo, countHit_memo, reportEnter_memo] at hentry'
    rw [toList_events_kept s r c result htraced]
    exact List.mem_append_left _ (h.memo r' offset result' hentry')
  events := by
    have hentered := h.events.concat_new (e := .entered r c.offset) rfl
    rw [toList_events_kept s r c result htraced, ← List.singleton_append, ← List.append_assoc]
    apply hentered.concat
    intro _
    rw [Event.ended_uncached]
    exact ⟨Event.ended_kind_ne _ _ _ _, List.mem_append_left _ (h.memo r c.offset result hentry)⟩

theorem Recalls.leaveRule [LawfulBEq ρ] [LawfulHashable ρ] (h : s'.Recalls)
    (hmemoize : settings.memoize = true) (htraced : settings.traced = true)
    (hdone : s'.overflow = none) (g : Grammar ρ ν) (r : ρ) :
    (s.leaveRule settings g r c result s').Recalls where
  memo r' offset result' hentry := by
    rw [leaveRule_memo g c result hmemoize hdone, Std.HashMap.getElem?_insert] at hentry
    rw [toList_events_leaveRule s' s g r c result htraced]
    split at hentry
    · rename_i hkey
      obtain ⟨rfl, rfl⟩ := Prod.mk.inj (LawfulBEq.eq_of_beq hkey)
      cases hentry
      exact List.mem_append_right _ List.mem_cons_self
    · exact List.mem_append_left _ (h.memo r' offset result' hentry)
  events := by
    rw [toList_events_leaveRule s' s g r c result htraced]
    exact h.events.concat_new (Event.ended_cached _ _ _ _)

/-- The second session is one of a parse with the memo table where the first is one of the parse
without it. -/
structure Replays (g : Grammar ρ ν) (source : String) (s s₁ : Session ρ ν) : Prop where
  ready : s.Ready g source
  ready' : s₁.Ready g source
  labels : s₁.labels = s.labels
  events : Trace.Prunes s.events.toList s₁.events.toList
  recalls : s₁.Recalls

variable {g : Grammar ρ ν} {source : String}

theorem replays_empty : ({} : Session ρ ν).Replays g source {} :=
  ⟨ready_empty g source, ready_empty g source, rfl, .nil, recalls_empty⟩

/-- What does not concern the table, the events and the limit makes no difference. -/
theorem Replays.congr {t t₁ : Session ρ ν} (h : s.Replays g source s₁) (ht : t.Ready g source)
    (ht₁ : t₁.Ready g source) (hlabels : t₁.labels = t.labels) (hevents : t.events = s.events)
    (hevents₁ : t₁.events = s₁.events) (hmemo₁ : t₁.memo = s₁.memo) : t.Replays g source t₁ where
  ready := ht
  ready' := ht₁
  labels := hlabels
  events := by
    rw [hevents, hevents₁]
    exact h.events
  recalls := h.recalls.of_eq hmemo₁ hevents₁

theorem Ready.fail (h : s.Ready g source) (hplace : c.IsPlaceOf source) (e : Expectation) :
    (s.fail c.offset e).Ready g source := by
  refine ⟨h.placed.fail hplace e, h.faithful.of_memo_eq (by simp), ?_⟩
  rw [fail_overflow, h.within]

theorem enterRule_labels (s : Session ρ ν) (settings : Settings) (g : Grammar ρ ν) (r : ρ)
    (c : Cursor) : (s.enterRule settings g r c).labels = s.labels := by
  obtain ⟨events, misses, henter⟩ := s.enterRule_eq settings g r c
  rw [henter]

theorem Replays.enterRule {settings' : Settings} (h : s.Replays g source s₁)
    (htraced : settings.traced = true) (htraced' : settings'.traced = true) (r : ρ)
    (hplace : c.IsPlaceOf source) :
    (s.enterRule settings g r c).Replays g source (s₁.enterRule settings' g r c) where
  ready := h.ready.enterRule settings r hplace
  ready' := h.ready'.enterRule settings' r hplace
  labels := by rw [enterRule_labels, enterRule_labels, h.labels]
  events := by
    rw [s.toList_events_enterRule g r c htraced, s₁.toList_events_enterRule g r c htraced']
    exact h.events.concat rfl
  recalls := h.recalls.enterRule htraced' g r

end Session

namespace Grammar

/-- The parse without the memo table is followed by the parse with it, as long as it stays within
the nesting limit.  Where the outcome of a rule is kept, the calls of its body are left out. -/
theorem simulation_memoize [LawfulBEq ρ] [LawfulHashable ρ] (g : Grammar ρ ν)
    (settings settings' : Settings) (source : String) (hoff : settings.memoize = false)
    (hon : settings'.memoize = true) (htraced : settings.traced = true)
    (htraced' : settings'.traced = true) :
    Simulation g g settings settings' source True (Session.Replays g source) where
  placed hs := hs.ready.placed
  labels hs := hs.labels
  relabel labels hs := hs.congr (hs.ready.relabel labels) (hs.ready'.relabel labels) rfl rfl rfl rfl
  silence hs := hs.congr hs.ready.silence hs.ready'.silence hs.labels rfl rfl rfl
  endSilence hs := hs.congr (hs.ready.of_eq rfl rfl rfl rfl) (hs.ready'.of_eq rfl rfl rfl rfl)
    hs.labels rfl rfl rfl
  fail e hs hplace := hs.congr (hs.ready.fail hplace e) (hs.ready'.fail hplace e)
    (by simpa using hs.labels) (by simp) (by simp) (by simp)
  refused hlong := absurd trivial hlong
  limit hlong := absurd trivial hlong
  kept hplace hs hover hkept := by
    rw [Session.memoized?, hoff] at hkept
    cases hkept
  body {n r c s s' s₁ result} hplace hs hover hnew hbody hdone hfollow := by
    have hrun : Runs g settings (n + 1) (.rule r) c s result
        (s.leaveRule settings g r c result s') := .ruleBody hover hnew hbody
    have hdone' : (s.leaveRule settings g r c result s').overflow = none := by
      rw [Session.leaveRule_overflow, hdone trivial]
    have hready := hrun.ready hplace hs.ready hdone'
    cases hkept : s₁.memoized? settings'.memoize r c.offset with
    | some kept =>
        have hshadow := Runs.ruleKept (g := g) (n := n) hs.ready'.within hkept
        obtain ⟨events, hits, heq⟩ := s₁.kept_eq settings'.traced r c kept
        have hwithin : ((s₁.reportEnter settings'.traced r c).countHit.reportResult
            settings'.traced r c kept true).overflow = none := by
          rw [heq]
          exact hs.ready'.within
        obtain ⟨rfl, -⟩ := hrun.agrees hshadow hplace hs.ready hs.ready' hdone' hwithin
        obtain ⟨inner, hinner⟩ :=
          hbody.exists_calls htraced hplace (hs.ready.placed.enterRule settings g r hplace)
        refine ⟨_, hshadow, hready, hshadow.ready hplace hs.ready' hwithin, ?_, ?_, ?_⟩
        · rw [heq, Session.leaveRule_labels]
          exact hs.labels
        · rw [s₁.toList_events_kept r c kept htraced', s'.toList_events_leaveRule s g r c kept
            htraced, hinner.events, s.toList_events_enterRule g r c htraced]
          simpa using hs.events.append (.kept inner .nil)
        · rw [Session.memoized?, hon, if_pos rfl] at hkept
          exact hs.recalls.kept htraced' hkept
    | none =>
        obtain ⟨s₂, hbody', hs₂⟩ := hfollow (hs.enterRule htraced htraced' r hplace)
        have hrun' : Runs g settings' (n + 1) (.rule r) c s₁ result
            (s₁.leaveRule settings' g r c result s₂) := .ruleBody hs.ready'.within hkept hbody'
        have hwithin : (s₁.leaveRule settings' g r c result s₂).overflow = none := by
          rw [Session.leaveRule_overflow, hs₂.ready'.within]
        refine ⟨_, hrun', hready, hrun'.ready hplace hs.ready' hwithin, ?_, ?_, ?_⟩
        · rw [Session.leaveRule_labels, Session.leaveRule_labels, hs.labels]
        · rw [s'.toList_events_leaveRule s g r c result htraced,
            s₂.toList_events_leaveRule s₁ g r c result htraced']
          exact hs₂.events.concat (Event.ended_cached _ _ _ _)
        · exact hs₂.recalls.leaveRule hon htraced' hs₂.ready'.within g r

/-- Outcomes in the memo table are replayed faithfully.  If the parse without the table stays within
the nesting limit, then both traces tell of calls, and those of the parse with the table are the
same, but for the calls whose outcome was kept: what happens in their course is left out, and they
are marked.  A marked event ends a call, and repeats an earlier event that is not marked. -/
theorem trace_memoize [LawfulBEq ρ] [LawfulHashable ρ] (g : Grammar ρ ν) (settings : Settings)
    (start : ρ) (source : String)
    (hdone : (g.parseFrom { settings with memoize := false } start source).session.overflow =
      none) :
    ∃ calls calls' : CallForest ρ,
      (g.trace { settings with memoize := false } start source).toList = calls.events ∧
      (g.trace { settings with memoize := true } start source).toList = calls'.events ∧
      calls.Prunes calls' ∧
      ∀ before e after,
        (g.trace { settings with memoize := true } start source).toList = before ++ e :: after →
        e.cached = true → e.kind ≠ .enter ∧ { e with cached := false } ∈ before := by
  obtain ⟨-, hsame⟩ := g.parseFrom_traced { settings with memoize := false } start source true
  have hdone' : (g.parseFrom { settings with memoize := false, traced := true } start
      source).session.overflow = none := by
    exact (congrArg Session.overflow hsame).trans hdone
  obtain ⟨result, s, s₁, hs, hparse, hparse'⟩ := (simulation_memoize g
    { settings with memoize := false, traced := true }
    { settings with memoize := true, traced := true } source rfl rfl rfl rfl).parseFrom
      rfl Session.replays_empty start fun _ => hdone'
  obtain ⟨calls, hevents, -⟩ := g.exists_calls_of_parse
    { settings with memoize := false, traced := true } rfl start source
  have htrace : g.trace { settings with memoize := false } start source = s.events := by
    rw [trace, hparse]
  have htrace' : g.trace { settings with memoize := true } start source = s₁.events := by
    rw [trace, hparse']
  rw [hparse] at hevents
  have hprunes := hs.events
  rw [hevents, ← List.append_nil calls.events] at hprunes
  obtain ⟨calls', more, hevents', hcalls, hmore⟩ := CallForest.exists_prunes hprunes
  cases hmore
  rw [htrace, htrace']
  exact ⟨calls, calls', hevents, by simpa using hevents', hcalls, hs.recalls.events⟩

/-- A word that is tried once more where no mark follows it. -/
def wordOrMark : Grammar (Fin 3) Unit where
  symbols := [0, 1, 2]
  rule
    | 0 => { name := "Start", body := .choice [.seq [.rule 1, .lit "!"], .rule 1] }
    | 1 => { name := "Word", body := .seq [.rule 2, .rule 2] }
    | 2 => { name := "Letter", body := .lit "x" }
  root := 0

/-- The second time the word is not taken apart into its letters. -/
theorem wordOrMark_memoize :
    (wordOrMark.parseFrom { memoize := false } 0 "xx").session.overflow = none ∧
      (∃ calls calls' : CallForest (Fin 3),
        (wordOrMark.trace { memoize := false } 0 "xx").toList = calls.events ∧
        (wordOrMark.trace {} 0 "xx").toList = calls'.events ∧ calls.Prunes calls') ∧
      Trace.lines wordOrMark.nameOf "xx" true (wordOrMark.trace { memoize := false } 0 "xx") =
        ["Start 0..2 @ 1:1", "  Word 0..2 @ 1:1", "    Letter 0..1 @ 1:1", "    Letter 1..2 @ 1:2",
          "  Word 0..2 @ 1:1", "    Letter 0..1 @ 1:1", "    Letter 1..2 @ 1:2"] ∧
      Trace.lines wordOrMark.nameOf "xx" true (wordOrMark.trace {} 0 "xx") =
        ["Start 0..2 @ 1:1", "  Word 0..2 @ 1:1", "    Letter 0..1 @ 1:1", "    Letter 1..2 @ 1:2",
          "  Word 0..2 @ 1:1 (cached)"] := by
  have hdone : (wordOrMark.parseFrom { memoize := false } 0 "xx").session.overflow = none := by
    decide +kernel
  have hmemoize := trace_memoize wordOrMark {} 0 "xx"
  dsimp only at hmemoize
  obtain ⟨calls, calls', hevents, hevents', hcalls, -⟩ := hmemoize hdone
  refine ⟨hdone, ⟨calls, calls', hevents, hevents', hcalls⟩, ?_, ?_⟩
  · rw [Trace.lines_eq_map]
    decide +kernel
  · refine wordOrMark.eq_of_runListed { traced := true } rfl 10 0 "xx"
      (fun run => Trace.lines wordOrMark.nameOf "xx" true run.session.events) ?_
    simp only [Trace.lines_eq_map]
    decide +kernel

end Grammar

end PegScript
