import PegScript.Proofs.Semantics.Reentry

/-!
# Parses with the entries of the table in a list

The memo table is a hash map, and looking something up in one is not a computation that a proof can
do.  `Grammar.runListed` runs a term with a list beside the table that has the same entries, and
looks up there.  It follows `Runs` step by step (`Grammar.follows_of_runListed`), so that what it
gives is what the engine does with the table (`Grammar.parseFrom_of_runListed`).
-/

namespace PegScript

variable {ρ ν : Type} [BEq ρ] [Hashable ρ]

/-- Entries of a memo table, the latest first. -/
abbrev Entries (ρ ν : Type) := List ((ρ × Nat) × Option (Match ν))

/-- What a run gives, with the entries of the table after it. -/
structure Listed (ρ ν : Type) [BEq ρ] [Hashable ρ] where
  result : Option (Match ν)
  session : Session ρ ν
  entries : Entries ρ ν

/-- What an operator makes of the outcome of its operand. -/
def Listed.finish (op : Matcher ρ ν → Outcome ρ ν) (out : Listed ρ ν) : Listed ρ ν :=
  ⟨(op fun _ _ => (out.result, out.session)).1, (op fun _ _ => (out.result, out.session)).2,
    out.entries⟩

namespace Grammar

/-- Runs a term with the memo table, in at most `fuel` nested steps, where at most `n` more rules
may become active. -/
def runListed (g : Grammar ρ ν) (settings : Settings) :
    Nat → Nat → Term ρ ν → Cursor → Session ρ ν → Entries ρ ν → Option (Listed ρ ν)
  | 0, _, _, _, _, _ => none
  | fuel + 1, n, t, c, s, entries =>
    match t with
    | .literal text ignoreCase =>
      some ⟨(Matcher.literal text ignoreCase c s).1, (Matcher.literal text ignoreCase c s).2,
        entries⟩
    | .charIn k => some ⟨(Matcher.charIn k c s).1, (Matcher.charIn k c s).2, entries⟩
    | .anyChar => some ⟨(Matcher.anyChar c s).1, (Matcher.anyChar c s).2, entries⟩
    | .rule r =>
      match s.overflow, n with
      | some _, _ => some ⟨none, s, entries⟩
      | none, 0 => some ⟨none, { s with overflow := some c.offset }, entries⟩
      | none, n + 1 =>
        match entries.lookup (r, c.offset) with
        | some result =>
          some ⟨result, (s.reportEnter settings.traced r c).countHit.reportResult settings.traced
            r c result true, entries⟩
        | none =>
          (runListed g settings fuel n (g.rule r).body c (s.enterRule settings g r c)
            entries).map fun out =>
              ⟨out.result, s.leaveRule settings g r c out.result out.session,
                if out.session.overflow.isNone then ((r, c.offset), out.result) :: out.entries
                else out.entries⟩
    | .seq [] => some ⟨some ⟨c, .list []⟩, s, entries⟩
    | .seq (t :: ts) =>
      match runListed g settings fuel n t c s entries with
      | none => none
      | some ⟨none, s₁, entries₁⟩ => some ⟨none, { s₁ with labels := s.labels }, entries₁⟩
      | some ⟨some m, s₁, entries₁⟩ =>
        match runListed g settings fuel n (.seq ts) m.stop s₁ entries₁ with
        | some ⟨none, s₂, entries₂⟩ => some ⟨none, { s₂ with labels := s.labels }, entries₂⟩
        | some ⟨some ⟨stop, .list values⟩, s₂, entries₂⟩ =>
          some ⟨some ⟨stop, .list (m.value :: values)⟩, s₂, entries₂⟩
        | _ => none
    | .choice [] => some ⟨none, s, entries⟩
    | .choice (t :: ts) =>
      match runListed g settings fuel n t c s entries with
      | none => none
      | some ⟨none, s₁, entries₁⟩ => runListed g settings fuel n (.choice ts) c s₁ entries₁
      | some ⟨some m, s₁, entries₁⟩ => some ⟨some m, s₁, entries₁⟩
    | .star t =>
      match runListed g settings fuel n t c s entries with
      | none => none
      | some ⟨none, s₁, entries₁⟩ => some ⟨some ⟨c, .list []⟩, s₁, entries₁⟩
      | some ⟨some m, s₁, entries₁⟩ =>
        if m.stop.offset = c.offset then some ⟨some ⟨c, .list [m.value]⟩, s₁, entries₁⟩
        else
          match runListed g settings fuel n (.star t) m.stop s₁ entries₁ with
          | some ⟨some ⟨stop, .list values⟩, s₂, entries₂⟩ =>
            some ⟨some ⟨stop, .list (m.value :: values)⟩, s₂, entries₂⟩
          | _ => none
    | .plus t =>
      match runListed g settings fuel n (.star t) c s entries with
      | some ⟨some ⟨_, .list []⟩, s₁, entries₁⟩ => some ⟨none, s₁, entries₁⟩
      | some ⟨some ⟨stop, .list (value :: values)⟩, s₁, entries₁⟩ =>
        some ⟨some ⟨stop, .list (value :: values)⟩, s₁, entries₁⟩
      | _ => none
    | .opt t => (runListed g settings fuel n t c s entries).map (.finish (Matcher.opt · c s))
    | .not t =>
      (runListed g settings fuel n t c { s with silent := s.silent + 1 } entries).map
        (.finish (Matcher.lookahead false · c s))
    | .and t =>
      (runListed g settings fuel n t c { s with silent := s.silent + 1 } entries).map
        (.finish (Matcher.lookahead true · c s))
    | .label name t =>
      (runListed g settings fuel n t c s entries).map (.finish (Matcher.label name · c s))
    | .action act t =>
      (runListed g settings fuel n t c { s with labels := [] } entries).map
        (.finish (Matcher.action act · c s))
    | .text t => (runListed g settings fuel n t c s entries).map (.finish (Matcher.text · c s))
    | .pick index t =>
      (runListed g settings fuel n t c s entries).map (.finish (Matcher.pick index · c s))

end Grammar

/-! ## The list has the entries of the table -/

/-- The list has the entries of the table. -/
def Session.HasEntries (s : Session ρ ν) (entries : Entries ρ ν) : Prop :=
  ∀ key, s.memo[key]? = entries.lookup key

namespace Session.HasEntries

variable {s s' : Session ρ ν} {entries : Entries ρ ν}

theorem of_memo_eq (h : s.HasEntries entries) (hmemo : s'.memo = s.memo) :
    s'.HasEntries entries := by
  intro key
  rw [hmemo]
  exact h key

theorem fail (h : s.HasEntries entries) (offset : Nat) (e : Expectation) :
    (s.fail offset e).HasEntries entries :=
  h.of_memo_eq (by simp)

/-- Leaving a rule adds its outcome to the list as to the table. -/
theorem leaveRule [LawfulBEq ρ] [LawfulHashable ρ] (h : s'.HasEntries entries)
    {settings : Settings} (hon : settings.memoize = true) (g : Grammar ρ ν) (r : ρ) (c : Cursor)
    (result : Option (Match ν)) :
    (s.leaveRule settings g r c result s').HasEntries
      (if s'.overflow.isNone then ((r, c.offset), result) :: entries else entries) := by
  intro key
  obtain ⟨events, hreport⟩ := ((s.closeRule (g.rule r) c result s').remember
    settings.memoize r c.offset result).reportResult_eq settings.traced r c result false
  rw [Session.leaveRule, hreport]
  by_cases hdone : s'.overflow.isNone = true
  · have hkept : ((s.closeRule (g.rule r) c result s').remember settings.memoize r c.offset
        result).memo = s'.memo.insert (r, c.offset) result := by
      simp [remember, hon, hdone]
    rw [if_pos hdone, hkept, Std.HashMap.getElem?_insert, List.lookup_cons, h key]
    by_cases hkey : key = (r, c.offset)
    · simp [hkey]
    · have hother : (key == (r, c.offset)) = false := beq_eq_false_iff_ne.mpr hkey
      simp [hother, Ne.symm hkey]
  · have hsame : ((s.closeRule (g.rule r) c result s').remember settings.memoize r c.offset
        result).memo = s'.memo := by
      simp [remember, hdone]
    rw [if_neg hdone, hsame, h key]

end Session.HasEntries

/-! ## The list gives what the table gives -/

/-- The outcome is that of a run with the table, and its list has the entries of the table. -/
structure Listed.Follows (out : Listed ρ ν) (g : Grammar ρ ν) (settings : Settings) (n : Nat)
    (t : Term ρ ν) (c : Cursor) (s : Session ρ ν) : Prop where
  runs : Runs g settings n t c s out.result out.session
  entries : out.session.HasEntries out.entries

namespace Listed.Follows

variable {out : Listed ρ ν} {g : Grammar ρ ν} {settings : Settings} {n : Nat} {t : Term ρ ν}
  {c : Cursor} {s : Session ρ ν}

theorem opt (h : out.Follows g settings n t c s) :
    (out.finish (Matcher.opt · c s)).Follows g settings n (.opt t) c s := by
  obtain ⟨result, s₁, entries⟩ := out
  obtain ⟨hrun, hentries⟩ := h
  cases result with
  | none => exact ⟨.optAbsent hrun, hentries⟩
  | some m => exact ⟨.opt hrun, hentries⟩

theorem not (h : out.Follows g settings n t c { s with silent := s.silent + 1 }) :
    (out.finish (Matcher.lookahead false · c s)).Follows g settings n (.not t) c s := by
  obtain ⟨result, s₁, entries⟩ := out
  obtain ⟨hrun, hentries⟩ := h
  cases result with
  | none => exact ⟨.not hrun, hentries⟩
  | some m => exact ⟨.notFail hrun, hentries⟩

theorem and (h : out.Follows g settings n t c { s with silent := s.silent + 1 }) :
    (out.finish (Matcher.lookahead true · c s)).Follows g settings n (.and t) c s := by
  obtain ⟨result, s₁, entries⟩ := out
  obtain ⟨hrun, hentries⟩ := h
  cases result with
  | none => exact ⟨.andFail hrun, hentries⟩
  | some m => exact ⟨.and hrun, hentries⟩

theorem label (h : out.Follows g settings n t c s) (name : String) :
    (out.finish (Matcher.label name · c s)).Follows g settings n (.label name t) c s := by
  obtain ⟨result, s₁, entries⟩ := out
  obtain ⟨hrun, hentries⟩ := h
  cases result with
  | none => exact ⟨.labelFail hrun, hentries⟩
  | some m => exact ⟨.label hrun, hentries⟩

theorem action (h : out.Follows g settings n t c { s with labels := [] })
    (act : ActionM ν (Value ν)) :
    (out.finish (Matcher.action act · c s)).Follows g settings n (.action act t) c s := by
  obtain ⟨result, s₁, entries⟩ := out
  obtain ⟨hrun, hentries⟩ := h
  cases result with
  | none => exact ⟨.actionFail hrun, hentries⟩
  | some m =>
      refine ⟨?_, hentries⟩
      simp only [finish, Matcher.action, Matcher.applyAction]
      cases hact : act ⟨s₁.labels, m.value, c, m.stop⟩ with
      | none => exact .actionReject hrun hact
      | some built => exact .action hrun hact

theorem text (h : out.Follows g settings n t c s) :
    (out.finish (Matcher.text · c s)).Follows g settings n (.text t) c s := by
  obtain ⟨result, s₁, entries⟩ := out
  obtain ⟨hrun, hentries⟩ := h
  cases result with
  | none => exact ⟨.textFail hrun, hentries⟩
  | some m => exact ⟨.text hrun, hentries⟩

theorem pick (h : out.Follows g settings n t c s) (index : Nat) :
    (out.finish (Matcher.pick index · c s)).Follows g settings n (.pick index t) c s := by
  obtain ⟨result, s₁, entries⟩ := out
  obtain ⟨hrun, hentries⟩ := h
  cases result with
  | none => exact ⟨.pickFail hrun, hentries⟩
  | some m => exact ⟨.pick hrun, hentries⟩

end Listed.Follows

namespace Grammar

variable [LawfulBEq ρ] [LawfulHashable ρ] {g : Grammar ρ ν} {settings : Settings}

/-- What is run with the list is a run with the table.  The induction is on the number of nested
steps. -/
theorem follows_of_runListed (hon : settings.memoize = true) {fuel n : Nat} {t : Term ρ ν}
    {c : Cursor} {s : Session ρ ν} {entries : Entries ρ ν} {out : Listed ρ ν}
    (h : g.runListed settings fuel n t c s entries = some out) (hs : s.HasEntries entries) :
    out.Follows g settings n t c s := by
  induction fuel generalizing n t c s entries out with
  | zero => cases h
  | succ fuel ih =>
      cases t with
      | literal text ignoreCase =>
          cases h
          unfold Matcher.literal
          cases hskip : c.skipLiteral? text ignoreCase with
          | some stop => exact ⟨.literal hskip, hs⟩
          | none => exact ⟨.literalFail hskip, hs.fail _ _⟩
      | charIn k =>
          cases h
          unfold Matcher.charIn
          cases hnext : c.next? with
          | none => exact ⟨.charInFail (by simp [hnext]), hs.fail _ _⟩
          | some next =>
              cases hmem : k.contains next.1 with
              | true =>
                  simp only [hmem, if_true]
                  exact ⟨.charIn hnext hmem, hs⟩
              | false =>
                  simp only [hmem, Bool.false_eq_true, if_false]
                  refine ⟨.charInFail ?_, hs.fail _ _⟩
                  rintro a stop hnext'
                  cases hnext.symm.trans hnext'
                  exact hmem
      | anyChar =>
          cases h
          unfold Matcher.anyChar
          cases hnext : c.next? with
          | none => exact ⟨.anyCharFail hnext, hs.fail _ _⟩
          | some next => exact ⟨.anyChar hnext, hs⟩
      | rule r =>
          simp only [runListed] at h
          cases hover : s.overflow with
          | some offset =>
              simp only [hover] at h
              cases h
              exact ⟨.ruleRefused hover, hs⟩
          | none =>
              cases n with
              | zero =>
                  simp only [hover] at h
                  cases h
                  exact ⟨.ruleLimit hover, hs⟩
              | succ n =>
                  have hlookup : s.memoized? settings.memoize r c.offset =
                      entries.lookup (r, c.offset) := by
                    rw [Session.memoized?, if_pos hon, hs]
                  cases hkept : entries.lookup (r, c.offset) with
                  | some result =>
                      simp only [hover, hkept] at h
                      cases h
                      refine ⟨.ruleKept hover (hlookup.trans hkept), hs.of_memo_eq ?_⟩
                      obtain ⟨events, hits, heq⟩ := s.kept_eq settings.traced r c result
                      rw [heq]
                  | none =>
                      simp only [hover, hkept] at h
                      obtain ⟨out₁, hsub, rfl⟩ := Option.map_eq_some_iff.mp h
                      obtain ⟨hrun, hentries⟩ := ih hsub (hs.of_memo_eq (by simp))
                      exact ⟨.ruleBody hover (hlookup.trans hkept) hrun,
                        hentries.leaveRule hon g r c out₁.result⟩
      | seq ts =>
          cases ts with
          | nil =>
              cases h
              exact ⟨.seqNil, hs⟩
          | cons t ts =>
              simp only [runListed] at h
              split at h
              · cases h
              · rename_i s₁ entries₁ hsub
                cases h
                obtain ⟨hrun, hentries⟩ := ih hsub hs
                exact ⟨.seqFail hrun, hentries⟩
              · rename_i m s₁ entries₁ hsub
                obtain ⟨hrun, hentries⟩ := ih hsub hs
                split at h
                · rename_i s₂ entries₂ hrest
                  cases h
                  obtain ⟨hrun', hentries'⟩ := ih hrest hentries
                  exact ⟨.seqTailFail hrun hrun', hentries'⟩
                · rename_i stop values s₂ entries₂ hrest
                  cases h
                  obtain ⟨hrun', hentries'⟩ := ih hrest hentries
                  exact ⟨.seqCons hrun hrun', hentries'⟩
                · cases h
      | choice ts =>
          cases ts with
          | nil =>
              cases h
              exact ⟨.choiceNil, hs⟩
          | cons t ts =>
              simp only [runListed] at h
              split at h
              · cases h
              · rename_i s₁ entries₁ hsub
                obtain ⟨hrun, hentries⟩ := ih hsub hs
                obtain ⟨hrun', hentries'⟩ := ih h hentries
                exact ⟨.choiceLater hrun hrun', hentries'⟩
              · rename_i m s₁ entries₁ hsub
                cases h
                obtain ⟨hrun, hentries⟩ := ih hsub hs
                exact ⟨.choiceHere hrun, hentries⟩
      | star t =>
          simp only [runListed] at h
          split at h
          · cases h
          · rename_i s₁ entries₁ hsub
            cases h
            obtain ⟨hrun, hentries⟩ := ih hsub hs
            exact ⟨.starStop hrun, hentries⟩
          · rename_i m s₁ entries₁ hsub
            obtain ⟨hrun, hentries⟩ := ih hsub hs
            split at h
            · rename_i hstays
              cases h
              exact ⟨.starEmpty hrun hstays, hentries⟩
            · rename_i hmoved
              split at h
              · rename_i stop values s₂ entries₂ hrest
                cases h
                obtain ⟨hrun', hentries'⟩ := ih hrest hentries
                exact ⟨.starMore hrun hmoved hrun', hentries'⟩
              · cases h
      | plus t =>
          simp only [runListed] at h
          split at h
          · rename_i stop s₁ entries₁ hsub
            cases h
            obtain ⟨hrun, hentries⟩ := ih hsub hs
            exact ⟨.plusFail hrun, hentries⟩
          · rename_i stop value values s₁ entries₁ hsub
            cases h
            obtain ⟨hrun, hentries⟩ := ih hsub hs
            exact ⟨.plus hrun, hentries⟩
          · cases h
      | opt t =>
          obtain ⟨out₁, hsub, rfl⟩ := Option.map_eq_some_iff.mp h
          exact (ih hsub hs).opt
      | not t =>
          obtain ⟨out₁, hsub, rfl⟩ := Option.map_eq_some_iff.mp h
          exact (ih hsub hs).not
      | and t =>
          obtain ⟨out₁, hsub, rfl⟩ := Option.map_eq_some_iff.mp h
          exact (ih hsub hs).and
      | label name t =>
          obtain ⟨out₁, hsub, rfl⟩ := Option.map_eq_some_iff.mp h
          exact (ih hsub hs).label name
      | action act t =>
          obtain ⟨out₁, hsub, rfl⟩ := Option.map_eq_some_iff.mp h
          exact (ih hsub hs).action act
      | text t =>
          obtain ⟨out₁, hsub, rfl⟩ := Option.map_eq_some_iff.mp h
          exact (ih hsub hs).text
      | pick index t =>
          obtain ⟨out₁, hsub, rfl⟩ := Option.map_eq_some_iff.mp h
          exact (ih hsub hs).pick index

/-- A parse with the table ends as the run with the list does. -/
theorem parseFrom_of_runListed (hon : settings.memoize = true) {fuel : Nat} {start : ρ}
    {source : String} {out : Listed ρ ν}
    (h : g.runListed settings fuel settings.maxDepth (.rule start) (Cursor.start source) {} [] =
      some out) :
    g.parseFrom settings start source =
      ⟨conclude source out.result out.session, out.session⟩ := by
  have hempty : ({} : Session ρ ν).HasEntries [] := fun key => by simp
  exact (follows_of_runListed hon h hempty).runs.parseFrom_eq

/-- What is read off the run with the list can be read off the parse. -/
theorem eq_of_runListed {α : Type} (g : Grammar ρ ν) (settings : Settings)
    (hon : settings.memoize = true) (fuel : Nat) (start : ρ) (source : String)
    (view : Run ρ ν → α) {a : α}
    (h : (g.runListed settings fuel settings.maxDepth (.rule start) (Cursor.start source) {}
      []).map (fun out => view ⟨conclude source out.result out.session, out.session⟩) = some a) :
    view (g.parseFrom settings start source) = a := by
  obtain ⟨out, hout, rfl⟩ := Option.map_eq_some_iff.mp h
  rw [parseFrom_of_runListed hon hout]

theorem overflow_of_runListed (hon : settings.memoize = true) {fuel : Nat} {start : ρ}
    {source : String} {overflow : Option Nat}
    (h : (g.runListed settings fuel settings.maxDepth (.rule start) (Cursor.start source) {}
      []).map (·.session.overflow) = some overflow) :
    (g.parseFrom settings start source).session.overflow = overflow :=
  g.eq_of_runListed settings hon fuel start source (·.session.overflow) h

end Grammar

end PegScript
