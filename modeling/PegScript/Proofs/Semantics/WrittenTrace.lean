import PegScript.Proofs.Semantics.CallForest
import PegScript.Proofs.Semantics.Limit
import PegScript.Proofs.Text.LineMap

/-!
# Traces are well bracketed

The events of a traced parse are those of a forest of calls.  So at any time as many rules have
ended as were entered, but for those that are active, and the written trace has one line for each
call: in the order in which the rules were entered, indented by nesting, and telling how the rule
ended (`Grammar.trace_wellBracketed`).  A parse that hits the nesting limit is no exception.
-/

namespace PegScript

variable {ρ ν : Type}

/-! ## Rows -/

/-- The calls in the order in which they were entered, each with the number of calls around it and
with its end. -/
def CallForest.rows (depth : Nat) : CallForest ρ → List (Nat × Event ρ)
  | nil => []
  | call r start inner stop cached rest =>
    (depth, .ended r start stop cached) :: (inner.rows (depth + 1) ++ rest.rows depth)

namespace Trace

/-- The rules that are entered, in order: how many others are active then, which rule it is and
where it starts. -/
def openings (active : Nat) : List (Event ρ) → List (Nat × ρ × Nat)
  | [] => []
  | e :: events =>
    if e.kind = .enter then (active, e.rule, e.span.start) :: openings (active + 1) events
    else openings (active - 1) events

theorem length_openings (active : Nat) (events : List (Event ρ)) :
    (openings active events).length = entries events := by
  induction events generalizing active with
  | nil => rfl
  | cons e events ih =>
      by_cases hkind : e.kind = .enter
      · simp [openings, entries, hkind, ih]
      · simp [openings, entries, hkind, ih]

section Ended

variable (r : ρ) (start : Nat) (stop : Option Nat) (cached : Bool)

theorem openings_ended (active : Nat) (events : List (Event ρ)) :
    openings active (.ended r start stop cached :: events) = openings (active - 1) events := by
  rw [openings, if_neg (Event.ended_kind_ne r start stop cached)]

theorem Rows.add_ended (rows : Array (Nat × Event ρ)) (row : Nat) (active : List Nat) :
    Rows.add ⟨rows, row :: active⟩ (.ended r start stop cached) =
      ⟨rows.modify row fun row => (row.1, .ended r start stop cached), active⟩ := by
  cases stop <;> rfl

end Ended

/-- A row is still where it was put after others have followed it. -/
theorem modify_size_push {α : Type} (rows rows' : Array α) (row : α) (f : α → α) :
    (rows.push row ++ rows').modify rows.size f = rows.push (f row) ++ rows' := by
  apply Array.ext
  · simp
  · intro i hi hi'
    rw [Array.getElem_modify]
    by_cases hlast : rows.size = i
    · subst hlast
      simp
    · rw [if_neg hlast, Array.getElem_append, Array.getElem_append]
      simp only [Array.size_push, Array.getElem_push]
      split
      · rw [dif_pos (by omega), dif_pos (by omega)]
      · rfl

end Trace

namespace CallForest

/-- Each call gets a row, and after its end the rows that were open before are open again. -/
theorem foldl_add_events (calls : CallForest ρ) (t : Trace.Rows ρ) :
    calls.events.foldl Trace.Rows.add t =
      ⟨t.rows ++ (calls.rows t.active.length).toArray, t.active⟩ := by
  induction calls generalizing t with
  | nil => simp [events, rows]
  | call r start inner stop cached rest ihinner ihrest =>
      have henter : Trace.Rows.add t (.entered r start) =
          ⟨t.rows.push (t.active.length, .entered r start), t.rows.size :: t.active⟩ := rfl
      rw [events, List.foldl_cons, henter, List.foldl_append, ihinner, List.foldl_cons,
        Trace.Rows.add_ended, ihrest]
      dsimp only
      rw [Trace.modify_size_push]
      simp [rows]

theorem rows_events {events : Array (Event ρ)} {calls : CallForest ρ}
    (h : events.toList = calls.events) : (Trace.rows events).toList = calls.rows 0 := by
  rw [Trace.rows, ← Array.foldl_toList, h, foldl_add_events]
  simp

theorem openings_events (calls : CallForest ρ) (active : Nat) (events : List (Event ρ)) :
    Trace.openings active (calls.events ++ events) =
      (calls.rows active).map (fun row => (row.1, row.2.rule, row.2.span.start)) ++
        Trace.openings active events := by
  induction calls generalizing active events with
  | nil => rfl
  | call r start inner stop cached rest ihinner ihrest =>
      have henter : ∀ events : List (Event ρ), Trace.openings active (.entered r start :: events) =
          (active, r, start) :: Trace.openings (active + 1) events := fun _ => rfl
      simp only [CallForest.events, List.cons_append, List.append_assoc, henter, ihinner,
        Trace.openings_ended, Nat.add_sub_cancel, ihrest, rows, List.map_cons, List.map_append,
        Event.ended_rule, Event.ended_start]

theorem kind_ne_of_mem_rows {calls : CallForest ρ} {depth : Nat} {row : Nat × Event ρ}
    (h : row ∈ calls.rows depth) : row.2.kind ≠ .enter := by
  induction calls generalizing depth with
  | nil => cases h
  | call r start inner stop cached rest ihinner ihrest =>
      rw [rows, List.mem_cons, List.mem_append] at h
      rcases h with rfl | h | h
      · exact Event.ended_kind_ne r start stop cached
      · exact ihinner h
      · exact ihrest h

end CallForest

/-! ## Lines -/

namespace Trace

/-- A word without blanks that occurs in two texts with a blank between them occurs in one of
them. -/
theorem infix_of_infix_blank {word before after : List Char} (hword : ' ' ∉ word)
    (h : word <:+: before ++ ' ' :: after) : word <:+: before ∨ word <:+: after := by
  obtain ⟨left, right, hsplit⟩ := h
  rcases List.append_eq_append_iff.mp hsplit with ⟨middle, hbefore, -⟩ | ⟨middle, hmiddle, hafter⟩
  · exact .inl ⟨left, middle, hbefore.symm⟩
  rcases middle with _ | ⟨blank, middle⟩
  · exact .inl ⟨left, [], by simpa using hmiddle⟩
  rw [List.cons_append, List.cons.injEq] at hafter
  obtain ⟨rfl, rfl⟩ := hafter
  rcases List.append_eq_append_iff.mp hmiddle with ⟨gap, -, hgap⟩ | ⟨gap, -, hgap⟩
  · exact absurd (hgap ▸ by simp) hword
  rcases gap with _ | ⟨blank, gap⟩
  · rw [List.nil_append] at hgap
    exact absurd (hgap ▸ List.mem_cons_self) hword
  rw [List.cons_append, List.cons.injEq] at hgap
  obtain ⟨-, rfl⟩ := hgap
  exact .inr ⟨gap, right, rfl⟩

theorem infix_of_infix_indent {word text : List Char} (hword : ' ' ∉ word) (hne : word ≠ [])
    (indent : Nat) (h : word <:+: (String.join (List.replicate indent "  ")).toList ++ text) :
    word <:+: text := by
  have hblank : ∀ text, word <:+: ' ' :: text → word <:+: text := by
    intro text htext
    rcases @infix_of_infix_blank word [] text hword htext with hnil | htext
    · exact absurd (List.infix_nil.mp hnil) hne
    · exact htext
  induction indent with
  | zero => simpa using h
  | succ indent ih =>
      apply ih
      apply hblank
      apply hblank
      simpa [List.replicate_succ] using h

theorem not_mem_toDigits (n : Nat) : 'u' ∉ Nat.toDigits 10 n := by
  intro hu
  have hdigit := Nat.isDigit_of_mem_toDigits (by decide) (by decide) hu
  revert hdigit
  decide

/-- The line of a row, whatever rows are written before it. -/
def writtenRow (nameOf : ρ → String) (source : String) (row : Nat × Event ρ) : String :=
  renderRow nameOf (LineMap.positionIn source row.2.span.start) row

/-- A line map that was asked for the rows before gives the positions that it gives at first. -/
theorem renderRows_eq (nameOf : ρ → String) {source : String} {map : LineMap}
    (h : map.Tracks source) (rows : List (Nat × Event ρ)) :
    renderRows nameOf map rows = rows.map (writtenRow nameOf source) := by
  induction rows generalizing map with
  | nil => rfl
  | cons row rows ih =>
      obtain ⟨hfound, htracks⟩ := h.position row.2.span.start
      have hasked := Prod.ext (y := (_, (map.position row.2.span.start).2)) hfound rfl
      rw [renderRows, hasked, List.map_cons, writtenRow, LineMap.positionIn_eq, ← ih htracks]
      rfl

/-- The lines of a trace, with positions by counting. -/
theorem lines_eq_map (nameOf : ρ → String) (source : String) (failed : Bool)
    (events : Array (Event ρ)) :
    lines nameOf source failed events =
      ((rows events).toList.filter fun row => failed || row.2.kind != .failed).map fun row =>
        renderRow nameOf (countedPosition source row.2.span.start) row := by
  rw [lines, renderRows_eq nameOf (LineMap.tracks_ofSource source)]
  refine List.map_congr_left fun row _ => ?_
  rw [writtenRow, LineMap.positionIn_eq]

/-- The line of a row whose rule has ended calls it unfinished only if it is named so. -/
theorem infix_of_infix_renderRow (nameOf : ρ → String) (p : Position) {row : Nat × Event ρ}
    (hkind : row.2.kind ≠ .enter)
    (h : "unfinished".toList <:+: (renderRow nameOf p row).toList) :
    "unfinished".toList <:+: (nameOf row.2.rule).toList := by
  obtain ⟨indent, e⟩ := row
  have hstatus : 'u' ∉ (status e.kind).toList := by
    revert hkind
    cases e.kind <;> decide
  have hcached : 'u' ∉ (if e.cached then " (cached)" else "").toList := by
    cases e.cached <;> decide
  have htoString : ∀ text : String, toString text = text := fun _ => rfl
  have hnumber : ∀ n : UInt32, toString n = toString n.toNat := fun _ => rfl
  have hblank : " ".toList = [' '] := by rfl
  simp only [renderRow, Span.render, htoString, String.toList_append, List.append_assoc, hblank,
    List.singleton_append] at h
  have hline := infix_of_infix_indent (by decide) (by decide) indent h
  rcases infix_of_infix_blank (by decide) hline with hname | hrest
  · exact hname
  · have hu : 'u' ∈ _ := hrest.subset (by decide : 'u' ∈ "unfinished".toList)
    simp [hnumber, not_mem_toDigits, hstatus, hcached] at hu

end Trace

/-! ## The trace of a parse -/

namespace Grammar

variable [BEq ρ] [Hashable ρ]

/-- The events of a parse, with whatever settings, if it is traced. -/
def trace (g : Grammar ρ ν) (settings : Settings) (start : ρ) (source : String) :
    Array (Event ρ) :=
  (g.parseFrom { settings with traced := true } start source).session.events

/-- Traces are well bracketed, also of parses that hit the nesting limit.  The events are those of
calls in and after one another: each rule that is entered ends once, as the same rule with the same
start, and between the two there are whole calls only, which do not start before it.  At any time no
more calls are open than the limit allows.  The written trace has one line for each rule that was
entered, in this order, indented by the number of calls open then.  Every line tells how its rule
ended, and has the word for a rule that did not end only if the rule is named so. -/
theorem trace_wellBracketed [LawfulBEq ρ] [LawfulHashable ρ] (g : Grammar ρ ν)
    (settings : Settings) (start : ρ) (source : String) :
    ∃ calls : CallForest ρ,
      (g.trace settings start source).toList = calls.events ∧
      calls.height ≤ settings.maxDepth ∧ calls.StartsFrom 0 ∧
      (∀ part, part <+: (g.trace settings start source).toList →
        Trace.ends part ≤ Trace.entries part ∧
          Trace.entries part ≤ Trace.ends part + settings.maxDepth) ∧
      Trace.lines g.nameOf source true (g.trace settings start source) =
        (calls.rows 0).map (Trace.writtenRow g.nameOf source) ∧
      (calls.rows 0).map (fun row => (row.1, row.2.rule, row.2.span.start)) =
        Trace.openings 0 (g.trace settings start source).toList ∧
      (Trace.lines g.nameOf source true (g.trace settings start source)).length =
        Trace.entries (g.trace settings start source).toList ∧
      ∀ row ∈ calls.rows 0, row.2.kind ≠ .enter ∧
        ("unfinished".toList <:+:
            (Trace.writtenRow g.nameOf source row).toList →
          "unfinished".toList <:+: (g.nameOf row.2.rule).toList) := by
  obtain ⟨calls, hevents, hheight, hstarts⟩ :=
    g.exists_calls_of_parse { settings with traced := true } rfl start source
  rw [← trace] at hevents
  have hlines : Trace.lines g.nameOf source true (g.trace settings start source) =
      (calls.rows 0).map (Trace.writtenRow g.nameOf source) := by
    rw [Trace.lines, Trace.renderRows_eq g.nameOf (LineMap.tracks_ofSource source)]
    simp [CallForest.rows_events hevents]
  have hopenings : (calls.rows 0).map (fun row => (row.1, row.2.rule, row.2.span.start)) =
      Trace.openings 0 (g.trace settings start source).toList := by
    simpa [hevents, Trace.openings] using (calls.openings_events 0 []).symm
  refine ⟨calls, hevents, hheight, hstarts, fun part hpart => ?_, hlines, hopenings, ?_, ?_⟩
  · rw [hevents] at hpart
    obtain ⟨hends, hentries⟩ := calls.entries_le hpart
    exact ⟨hends, le_trans hentries (Nat.add_le_add_left hheight _)⟩
  · rw [hlines, ← Trace.length_openings 0, ← hopenings, List.length_map, List.length_map]
  · intro row hrow
    have hkind := CallForest.kind_ne_of_mem_rows hrow
    exact ⟨hkind, Trace.infix_of_infix_renderRow g.nameOf _ hkind⟩

/-- Where a third pair of parentheses would be needed, the two that are open are closed again. -/
theorem parentheses_wellBracketed :
    (parentheses.parseFrom { memoize := false, maxDepth := 2, traced := true } ()
        "((x))").session.overflow = some 2 ∧
      ∃ calls : CallForest Unit,
        (parentheses.trace { memoize := false, maxDepth := 2 } () "((x))").toList =
          calls.events ∧
        calls.height ≤ 2 ∧
        (calls.rows 0).map (Trace.writtenRow parentheses.nameOf "((x))") =
          ["Nest 0..0 @ 1:1 failed", "  Nest 1..1 @ 1:2 failed"] := by
  have hlimit : (parentheses.parseFrom { memoize := false, maxDepth := 2, traced := true } ()
      "((x))").session.overflow = some 2 := by decide +kernel
  have hlines : Trace.lines parentheses.nameOf "((x))" true
      (parentheses.trace { memoize := false, maxDepth := 2 } () "((x))") =
        ["Nest 0..0 @ 1:1 failed", "  Nest 1..1 @ 1:2 failed"] := by
    rw [Trace.lines_eq_map]
    decide +kernel
  obtain ⟨calls, hevents, hheight, -, -, hrows, -⟩ :=
    trace_wellBracketed parentheses { memoize := false, maxDepth := 2 } () "((x))"
  exact ⟨hlimit, calls, hevents, hheight, hrows.symm.trans hlines⟩

end Grammar

end PegScript
