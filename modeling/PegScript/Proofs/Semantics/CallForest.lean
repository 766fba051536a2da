import PegScript.Proofs.Semantics.MemoBound

/-!
# The calls that a trace tells of

In the course of a run rules are entered, one after another and one in the course of another.  The
calls of a run make a forest (`CallForest`), and the events of a traced run are those of its forest
in order (`Runs.exists_calls`): a rule that is entered also ends, after all rules that are entered in
its course.  This holds of runs beyond the nesting limit too, where rules that are refused report
nothing.
The forest is no higher than the number of rules that may become active, and a call does not start
before the one in whose course it happens.
-/

namespace PegScript

variable {ρ ν : Type}

namespace Event

/-- The report that a rule is entered. -/
def entered (r : ρ) (start : Nat) : Event ρ :=
  ⟨.enter, r, .point start, false⟩

/-- The report that a rule ended, with a match up to `stop` or without one. -/
def ended (r : ρ) (start : Nat) (stop : Option Nat) (cached : Bool) : Event ρ :=
  match stop with
  | some stop => ⟨.matched, r, ⟨start, stop⟩, cached⟩
  | none => ⟨.failed, r, .point start, cached⟩

variable (r : ρ) (start : Nat) (stop : Option Nat) (cached : Bool)

@[simp] theorem ended_rule : (ended r start stop cached).rule = r := by
  cases stop <;> rfl

@[simp] theorem ended_start : (ended r start stop cached).span.start = start := by
  cases stop <;> rfl

@[simp] theorem ended_cached : (ended r start stop cached).cached = cached := by
  cases stop <;> rfl

theorem ended_uncached :
    { ended r start stop cached with cached := false } = ended r start stop false := by
  cases stop <;> rfl

theorem ended_kind_ne : (ended r start stop cached).kind ≠ .enter := by
  cases stop <;> simp [ended]

theorem ended_inj {r r' : ρ} {start start' : Nat} {stop stop' : Option Nat}
    {cached cached' : Bool} (h : ended r start stop cached = ended r' start' stop' cached') :
    r = r' ∧ start = start' ∧ stop = stop' ∧ cached = cached' := by
  cases stop <;> cases stop' <;> simp_all [ended, Span.point]

end Event

/-! ## Forests of calls -/

/-- Calls of rules in turn, each with the calls in its course, where it stopped if it matched, and
whether its outcome was kept. -/
inductive CallForest (ρ : Type) where
  | nil
  | call (rule : ρ) (start : Nat) (inner : CallForest ρ) (stop : Option Nat) (cached : Bool)
      (rest : CallForest ρ)
deriving Repr

namespace CallForest

/-- What is reported of the calls. -/
def events : CallForest ρ → List (Event ρ)
  | nil => []
  | call r start inner stop cached rest =>
    .entered r start :: (inner.events ++ .ended r start stop cached :: rest.events)

/-- How many calls there are at most, one in the course of the other. -/
def height : CallForest ρ → Nat
  | nil => 0
  | call _ _ inner _ _ rest => max (inner.height + 1) rest.height

/-- No call starts before `offset`, and none in the course of another before that one. -/
def StartsFrom (offset : Nat) : CallForest ρ → Prop
  | nil => True
  | call _ start inner _ _ rest =>
    offset ≤ start ∧ inner.StartsFrom start ∧ rest.StartsFrom offset

/-- The calls of the first forest, then those of the second. -/
def append : CallForest ρ → CallForest ρ → CallForest ρ
  | nil, calls => calls
  | call r start inner stop cached rest, calls =>
    call r start inner stop cached (rest.append calls)

variable {offset offset' : Nat} {calls calls' : CallForest ρ}

theorem events_append (calls calls' : CallForest ρ) :
    (calls.append calls').events = calls.events ++ calls'.events := by
  induction calls with
  | nil => rfl
  | call r start inner stop cached rest _ ih => simp [append, events, ih]

theorem height_append (calls calls' : CallForest ρ) :
    (calls.append calls').height = max calls.height calls'.height := by
  induction calls with
  | nil => simp [append, height]
  | call r start inner stop cached rest _ ih => simp [append, height, ih, max_assoc]

theorem StartsFrom.mono (h : calls.StartsFrom offset) (hle : offset' ≤ offset) :
    calls.StartsFrom offset' := by
  induction calls with
  | nil => trivial
  | call r start inner stop cached rest _ ih => exact ⟨le_trans hle h.1, h.2.1, ih h.2.2⟩

theorem StartsFrom.append (h : calls.StartsFrom offset) (h' : calls'.StartsFrom offset) :
    (calls.append calls').StartsFrom offset := by
  induction calls with
  | nil => exact h'
  | call r start inner stop cached rest _ ih => exact ⟨h.1, h.2.1, ih h.2.2⟩

end CallForest

/-! ## Open calls -/

namespace Trace

/-- How many rules are entered in the events. -/
def entries (events : List (Event ρ)) : Nat :=
  events.countP (·.kind == .enter)

/-- How many rules end in the events. -/
def ends (events : List (Event ρ)) : Nat :=
  events.countP (·.kind != .enter)

@[simp] theorem entries_append (events events' : List (Event ρ)) :
    entries (events ++ events') = entries events + entries events' :=
  List.countP_append

@[simp] theorem ends_append (events events' : List (Event ρ)) :
    ends (events ++ events') = ends events + ends events' :=
  List.countP_append

@[simp] theorem entries_entered (r : ρ) (start : Nat) (events : List (Event ρ)) :
    entries (.entered r start :: events) = entries events + 1 := by
  simp [entries, Event.entered]

@[simp] theorem ends_entered (r : ρ) (start : Nat) (events : List (Event ρ)) :
    ends (.entered r start :: events) = ends events := by
  simp [ends, Event.entered]

@[simp] theorem entries_ended (r : ρ) (start : Nat) (stop : Option Nat) (cached : Bool)
    (events : List (Event ρ)) :
    entries (.ended r start stop cached :: events) = entries events := by
  simp [entries, Event.ended_kind_ne]

@[simp] theorem ends_ended (r : ρ) (start : Nat) (stop : Option Nat) (cached : Bool)
    (events : List (Event ρ)) :
    ends (.ended r start stop cached :: events) = ends events + 1 := by
  simp [ends, Event.ended_kind_ne]

end Trace

namespace CallForest

theorem entries_events (calls : CallForest ρ) :
    Trace.entries calls.events = Trace.ends calls.events := by
  induction calls with
  | nil => rfl
  | call r start inner stop cached rest ihinner ihrest =>
      simp only [events, Trace.entries_entered, Trace.ends_entered, Trace.entries_append,
        Trace.ends_append, Trace.entries_ended, Trace.ends_ended, ihinner, ihrest]
      omega

/-- In the course of the calls, at any time at most as many are open as the forest is high. -/
theorem entries_le (calls : CallForest ρ) {part : List (Event ρ)} (h : part <+: calls.events) :
    Trace.ends part ≤ Trace.entries part ∧
      Trace.entries part ≤ Trace.ends part + calls.height := by
  induction calls generalizing part with
  | nil =>
      obtain rfl := List.prefix_nil.mp h
      exact ⟨le_refl _, Nat.zero_le _⟩
  | call r start inner stop cached rest ihinner ihrest =>
      rw [height]
      rcases part with _ | ⟨e, part⟩
      · exact ⟨le_refl _, Nat.zero_le _⟩
      obtain ⟨rfl, hpart⟩ := List.cons_prefix_cons.mp h
      rw [Trace.entries_entered, Trace.ends_entered]
      rcases List.prefix_or_prefix_of_prefix hpart (List.prefix_append _ _) with
        hinner | ⟨part', rfl⟩
      · -- the call is open
        obtain ⟨hends, hentries⟩ := ihinner hinner
        omega
      have hpart' := (List.prefix_append_right_inj _).mp hpart
      rw [Trace.entries_append, Trace.ends_append, entries_events]
      rcases part' with _ | ⟨e', part'⟩
      · simp only [Trace.entries, Trace.ends, List.countP_nil]
        omega
      · obtain ⟨rfl, hrest⟩ := List.cons_prefix_cons.mp hpart'
        obtain ⟨hends, hentries⟩ := ihrest hrest
        rw [Trace.entries_ended, Trace.ends_ended]
        omega

end CallForest

/-! ## The calls of a run -/

variable [BEq ρ] [Hashable ρ]

namespace Session

variable {settings : Settings} (s outer : Session ρ ν) (g : Grammar ρ ν) (r : ρ) (c : Cursor)
  (result : Option (Match ν))

theorem toList_events_report (e : Event ρ) :
    (s.report true e).events.toList = s.events.toList ++ [e] := by
  simp [report]

theorem toList_events_reportResult (cached : Bool) :
    (s.reportResult true r c result cached).events.toList =
      s.events.toList ++ [.ended r c.offset (result.map (·.stop.offset)) cached] := by
  cases result with
  | none => exact s.toList_events_report _
  | some m => exact s.toList_events_report _

theorem toList_events_kept (htraced : settings.traced = true) :
    ((s.reportEnter settings.traced r c).countHit.reportResult settings.traced r c result
        true).events.toList =
      s.events.toList ++
        [.entered r c.offset, .ended r c.offset (result.map (·.stop.offset)) true] := by
  have henter : (s.reportEnter true r c).countHit.events.toList =
      s.events.toList ++ [.entered r c.offset] := s.toList_events_report _
  rw [htraced, toList_events_reportResult, henter, List.append_assoc, List.singleton_append]

theorem toList_events_enterRule (htraced : settings.traced = true) :
    (s.enterRule settings g r c).events.toList = s.events.toList ++ [.entered r c.offset] := by
  have hmiss : (s.enterRule settings g r c).events = (s.reportEnter true r c).events := by
    rw [enterRule, htraced, openRule, countMiss]
    split <;> rfl
  rw [hmiss]
  exact s.toList_events_report _

theorem toList_events_leaveRule (htraced : settings.traced = true) :
    (outer.leaveRule settings g r c result s).events.toList =
      s.events.toList ++ [.ended r c.offset (result.map (·.stop.offset)) false] := by
  have hevents : ((outer.closeRule (g.rule r) c result s).remember settings.memoize r c.offset
      result).events = s.events := by
    unfold remember
    split <;> simp
  rw [leaveRule, htraced, toList_events_reportResult, hevents]

end Session

/-- From `s` to `s'` the events of the calls were reported. -/
structure Session.Reports (calls : CallForest ρ) (n offset : Nat) (s s' : Session ρ ν) : Prop where
  events : s'.events.toList = s.events.toList ++ calls.events
  height : calls.height ≤ n
  starts : calls.StartsFrom offset

namespace Session.Reports

variable {n offset offset' : Nat} {s s' s'' : Session ρ ν} {calls calls' : CallForest ρ}

theorem nil (hevents : s'.events = s.events) : Reports .nil n offset s s' where
  events := by simp [hevents, CallForest.events]
  height := Nat.zero_le _
  starts := trivial

theorem append (h : Reports calls n offset s s') (h' : Reports calls' n offset' s' s'')
    (hle : offset ≤ offset') : Reports (calls.append calls') n offset s s'' where
  events := by rw [h'.events, h.events, CallForest.events_append, List.append_assoc]
  height := by
    rw [CallForest.height_append]
    exact max_le h.height h'.height
  starts := h.starts.append (h'.starts.mono hle)

/-- What leaves the events alone reports nothing. -/
theorem congr {t t' : Session ρ ν} (h : Reports calls n offset s s')
    (hbefore : t.events = s.events) (hafter : t'.events = s'.events) :
    Reports calls n offset t t' where
  events := by rw [hafter, hbefore, h.events]
  height := h.height
  starts := h.starts

end Session.Reports

/-- A traced run reports calls, which are no more at once than may become active, and do not start
before the run.  The induction is on the run; a rule adds a call around those of its body. -/
theorem Runs.exists_calls [LawfulBEq ρ] [LawfulHashable ρ] {g : Grammar ρ ν} {settings : Settings}
    {source : String} {n : Nat} {t : Term ρ ν} {c : Cursor} {s s' : Session ρ ν}
    {result : Option (Match ν)} (h : Runs g settings n t c s result s')
    (htraced : settings.traced = true) (hplace : c.IsPlaceOf source) (hs : s.Placed source) :
    ∃ calls, s.Reports calls n c.offset s' := by
  induction h with
  | literal h | charIn hnext hmem | anyChar hnext | seqNil | choiceNil => exact ⟨_, .nil rfl⟩
  | literalFail h | charInFail h | anyCharFail h => exact ⟨_, .nil (by simp)⟩
  | ruleRefused hover | ruleLimit hover => exact ⟨_, .nil rfl⟩
  | @ruleKept n r c s result hover hkept =>
      refine ⟨.call r c.offset .nil (result.map (·.stop.offset)) true .nil, ?_, ?_, ?_⟩
      · exact s.toList_events_kept r c result htraced
      · simp [CallForest.height]
      · exact ⟨le_refl _, trivial, trivial⟩
  | @ruleBody n r c s s₁ result hover hnew hbody ih =>
      obtain ⟨inner, hinner⟩ := ih hplace (hs.enterRule settings g r hplace)
      refine ⟨.call r c.offset inner (result.map (·.stop.offset)) false .nil, ?_, ?_, ?_⟩
      · rw [s₁.toList_events_leaveRule s g r c result htraced, hinner.events,
          s.toList_events_enterRule g r c htraced]
        simp [CallForest.events]
      · simpa [CallForest.height] using hinner.height
      · exact ⟨le_refl _, hinner.starts, trivial⟩
  | seqCons hhead htail ihhead ihtail | starMore hhead _ htail ihhead ihtail =>
      obtain ⟨hs₁, hstop⟩ := hhead.placed hplace hs
      obtain ⟨first, hfirst⟩ := ihhead hplace hs
      obtain ⟨second, hsecond⟩ := ihtail (hplace.move (hstop _ rfl)) hs₁
      exact ⟨_, hfirst.append hsecond (hstop _ rfl).offset_le⟩
  | seqTailFail hhead htail ihhead ihtail =>
      obtain ⟨hs₁, hstop⟩ := hhead.placed hplace hs
      obtain ⟨first, hfirst⟩ := ihhead hplace hs
      obtain ⟨second, hsecond⟩ := ihtail (hplace.move (hstop _ rfl)) hs₁
      exact ⟨_, (hfirst.append hsecond (hstop _ rfl).offset_le).congr rfl rfl⟩
  | choiceLater hfail h ihfail ih =>
      obtain ⟨first, hfirst⟩ := ihfail hplace hs
      obtain ⟨second, hsecond⟩ := ih hplace (hfail.placed hplace hs).1
      exact ⟨_, hfirst.append hsecond (le_refl _)⟩
  | not h ih | notFail h ih | and h ih | andFail h ih | actionFail h ih | action h _ ih
  | actionReject h _ ih =>
      obtain ⟨calls, hcalls⟩ := ih hplace (hs.of_eq rfl rfl rfl rfl)
      exact ⟨calls, hcalls.congr rfl rfl⟩
  | seqFail h ih | label h ih =>
      obtain ⟨calls, hcalls⟩ := ih hplace hs
      exact ⟨calls, hcalls.congr rfl rfl⟩
  | starEmpty h _ ih => exact ih hplace hs
  | _ h ih => exact ih hplace hs

/-- A traced parse reports calls. -/
theorem Grammar.exists_calls_of_parse [LawfulBEq ρ] [LawfulHashable ρ] (g : Grammar ρ ν)
    (settings : Settings) (htraced : settings.traced = true) (start : ρ) (source : String) :
    ∃ calls : CallForest ρ,
      (g.parseFrom settings start source).session.events.toList = calls.events ∧
      calls.height ≤ settings.maxDepth ∧ calls.StartsFrom 0 := by
  obtain ⟨result, s, hrun, hparse⟩ := exists_runs_parseFrom g settings start source
  obtain ⟨calls, hevents, hheight, hstarts⟩ :=
    hrun.exists_calls htraced (Cursor.start_isPlaceOf source) Session.placed_empty
  rw [hparse]
  exact ⟨calls, by simpa using hevents, hheight, hstarts.mono (Nat.zero_le _)⟩

end PegScript
