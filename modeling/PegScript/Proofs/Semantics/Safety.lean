import PegScript.Proofs.Grammar.Building
import PegScript.Proofs.Semantics.Evaluations

/-!
# Evaluation stays within the source and within the grammar

Whatever a parse evaluates, it reads the source between two characters, and what it matches ends
between two characters again, not before it started.  The same holds of the offset that a failed
parse reports.  In a built grammar every reference leads to the declared rule of that name
(`Grammar.resolves_of_build`), so evaluation never meets a name that stands for no rule.

The main statement is `Grammar.evaluation_within_source`.
-/

namespace PegScript

/-! ## Stretches of a source -/

/-- The text is what the source has from byte `start` up to byte `stop`. -/
def IsSlice (source : String) (start stop : Nat) (text : String) : Prop :=
  ∃ before after : String, source = before ++ text ++ after ∧
    before.utf8ByteSize = start ∧ start + text.utf8ByteSize = stop

namespace IsSlice

variable {source text : String} {start stop : Nat}

/-- A stretch of the source starts between two characters. -/
theorem isValid_start (h : IsSlice source start stop text) :
    (⟨start⟩ : String.Pos.Raw).IsValid source := by
  obtain ⟨before, after, rfl, rfl, -⟩ := h
  rw [String.append_assoc]
  exact String.Pos.Raw.isValid_rawEndPos.append_right (text ++ after)

/-- A stretch of the source stops between two characters. -/
theorem isValid_stop (h : IsSlice source start stop text) :
    (⟨stop⟩ : String.Pos.Raw).IsValid source := by
  obtain ⟨before, after, rfl, rfl, rfl⟩ := h
  rw [← String.utf8ByteSize_append]
  exact String.Pos.Raw.isValid_rawEndPos.append_right after

theorem start_le_stop (h : IsSlice source start stop text) : start ≤ stop := by
  obtain ⟨before, after, -, -, rfl⟩ := h
  exact Nat.le_add_right _ _

theorem stop_le_size (h : IsSlice source start stop text) : stop ≤ source.utf8ByteSize :=
  h.isValid_stop.le_utf8ByteSize

end IsSlice

namespace Cursor

variable {source : String} {c d : Cursor}

/-- From a place of the source to a later one, the source has the text between them. -/
theorem IsPlaceOf.isSlice (hplace : c.IsPlaceOf source) (hmove : c.Reaches d) :
    IsSlice source c.offset d.offset (c.textTo d) := by
  obtain ⟨before, hbefore, hstart⟩ := hplace
  obtain ⟨cs, hrest, hstop⟩ := hmove
  refine ⟨String.ofList before, String.ofList d.rest, ?_, ?_, ?_⟩
  · apply String.toList_injective
    rw [textTo_eq_ofList hrest hstop]
    simpa [start, hrest] using hbefore
  · rw [utf8ByteSize_ofList, hstart]
    simp [start]
  · rw [textTo_eq_ofList hrest hstop, utf8ByteSize_ofList, hstop]

/-- What follows a place is the source from there to its end. -/
theorem isPlaceOf_iff_isSlice :
    c.IsPlaceOf source ↔
      IsSlice source c.offset source.utf8ByteSize (String.ofList c.rest) := by
  constructor
  · rintro ⟨before, hbefore, hstart⟩
    refine ⟨String.ofList before, "", ?_, ?_, ?_⟩
    · apply String.toList_injective
      simpa [start] using hbefore
    · rw [utf8ByteSize_ofList, hstart]
      simp [start]
    · have hsize := congrArg byteLength hbefore
      rw [start, byteLength_append, ← utf8ByteSize_eq_byteLength] at hsize
      rw [utf8ByteSize_ofList, hstart, hsize]
      simp [start]
  · rintro ⟨before, after, hsource, hstart, hstop⟩
    have hsize := congrArg String.utf8ByteSize hsource
    rw [String.utf8ByteSize_append, String.utf8ByteSize_append] at hsize
    have hafter : after = "" := by
      rw [← String.utf8ByteSize_eq_zero_iff]
      omega
    refine ⟨before.toList, ?_, ?_⟩
    · simp [start, hsource, hafter]
    · rw [← hstart, utf8ByteSize_eq_byteLength]
      simp [start]

end Cursor

theorem IsOffsetOf.isValid {offset : Nat} {source : String} (h : IsOffsetOf offset source) :
    (⟨offset⟩ : String.Pos.Raw).IsValid source := by
  obtain ⟨c, hplace, rfl⟩ := h
  exact (Cursor.isPlaceOf_iff_isSlice.mp hplace).isValid_start

/-! ## All evaluations of a parse -/

namespace Grammar

section Places

variable {ρ ν : Type} [BEq ρ] [Hashable ρ] {source : String}

/-- A failed parse reports an offset that its session noted, or where the match stopped. -/
theorem isOffsetOf_of_conclude {s : Session ρ ν} {result : Option (Match ν)} {d : Diagnosis}
    (hs : s.Placed source) (hstop : ∀ m, result = some m → m.stop.IsPlaceOf source)
    (h : conclude source result s = .error d) : IsOffsetOf d.offset source := by
  unfold conclude at h
  split at h
  · rename_i offset hover
    cases h
    rcases Session.offset_add_cases {} offset .lessNesting with hnew | hlimit
    · simp only [FurthestFailure.diagnose, hnew]
      exact (Cursor.start_isPlaceOf source).isOffsetOf
    · simp only [FurthestFailure.diagnose, hlimit]
      exact hs.overflow offset hover
  · split at h
    · cases h
      exact hs.failures
    · rename_i m
      split at h
      · cases h
      · cases h
        rcases Session.offset_add_cases s.failures m.stop.offset .endOfInput with hold | hend
        · simp only [FurthestFailure.diagnose, hold]
          exact hs.failures
        · simp only [FurthestFailure.diagnose, hend]
          exact (hstop m rfl).isOffsetOf

end Places

variable {ν : Type}

/-- In a built grammar all references are resolved.  Whatever is evaluated in the course of a term
at a place of the source stands at a place of the source, with the text after it to read, and what
it matches is the text up to a later place, all within the 32 bits that offsets have.  A failed
parse reports such a place as well. -/
theorem evaluation_within_source {rules : List (Rule String ν)} {root : String}
    {g : NumberedGrammar ν} (hbuild : build rules root = .ok g) (settings : Settings)
    (source : String) (hsize : source.utf8ByteSize < UInt32.size) :
    g.Resolves rules ∧
      (∀ (n : Nat) (t : Term (Fin g.count) ν) (c : Cursor) (e : Evaluation (Fin g.count) ν),
        IsSlice source c.offset source.utf8ByteSize (String.ofList c.rest) →
        g.grammar.Reached settings source ⟨n, t, c, {}⟩ e →
          IsSlice source e.place.offset source.utf8ByteSize (String.ofList e.place.rest) ∧
          ∀ m s, g.grammar.evaluate settings source.utf8ByteSize e = (some m, s) →
            IsSlice source e.place.offset m.stop.offset (e.place.textTo m.stop) ∧
            (⟨e.place.offset⟩ : String.Pos.Raw).IsValid source ∧
            (⟨m.stop.offset⟩ : String.Pos.Raw).IsValid source ∧
            e.place.offset ≤ m.stop.offset ∧ m.stop.offset ≤ source.utf8ByteSize ∧
            m.stop.offset < UInt32.size) ∧
      ∀ (start : Fin g.count) (d : Diagnosis),
        (g.grammar.parseFrom settings start source).outcome = .error d →
          (⟨d.offset⟩ : String.Pos.Raw).IsValid source ∧ d.offset ≤ source.utf8ByteSize ∧
            d.offset < UInt32.size := by
  refine ⟨resolves_of_build hbuild, ?_, ?_⟩
  · intro n t c e hstart hreached
    have he : e.Placed source := placed_of_reached hreached
      ⟨Cursor.isPlaceOf_iff_isSlice.mpr hstart, Session.placed_empty⟩
    refine ⟨Cursor.isPlaceOf_iff_isSlice.mp he.place, fun m s heval => ?_⟩
    obtain ⟨-, hreaches⟩ :=
      (runs_of_evaluate he.place he.session heval).placed he.place he.session
    have hslice := he.place.isSlice (hreaches m rfl)
    have hstop := hslice.stop_le_size
    exact ⟨hslice, hslice.isValid_start, hslice.isValid_stop, hslice.start_le_stop, hstop,
      by omega⟩
  · intro start d hfailed
    have he := placed_startEvaluation (ν := ν) settings start source
    have hrun := runs_evaluate g.grammar settings he
    obtain ⟨hs, hreaches⟩ := hrun.placed he.place he.session
    rw [parseFrom_eq_evaluate] at hfailed
    have hoffset := (isOffsetOf_of_conclude hs
      (fun m hm => he.place.move (hreaches m hm)) hfailed).isValid
    have hle : d.offset ≤ source.utf8ByteSize := hoffset.le_utf8ByteSize
    exact ⟨hoffset, hle, by omega⟩

/-- Two letters, of which the second takes two bytes in the source below. -/
def twoLetters : List (Rule String Unit) := [
  { name := "Pair", body := .seq [.rule "Letter", .rule "Letter"] },
  { name := "Letter", body := .text .anyChar }]

theorem evaluation_within_source_twoLetters :
    ∃ (g : NumberedGrammar Unit) (letter : Fin g.count),
      build twoLetters "Pair" = .ok g ∧ "né".utf8ByteSize < UInt32.size ∧
        g.grammar.evaluate { memoize := false } "né".utf8ByteSize
          ⟨2, .rule letter, ⟨1, ['é']⟩, {}⟩ = (some ⟨⟨3, []⟩, .text "é"⟩, {}) ∧
        IsSlice "né" 1 3 "é" ∧ (⟨3⟩ : String.Pos.Raw).IsValid "né" := by
  have hbuild : build twoLetters "Pair" = .ok _ := rfl
  have hplace : IsSlice "né" 1 "né".utf8ByteSize (String.ofList ['é']) :=
    ⟨"n", "", by decide, by decide, by decide⟩
  obtain ⟨-, hwithin, -⟩ :=
    evaluation_within_source hbuild { memoize := false } "né" (by decide)
  obtain ⟨hslice, -, hvalid, -⟩ :=
    (hwithin 2 (.rule ⟨1, by decide⟩) ⟨1, ['é']⟩ _ hplace .refl).2 ⟨⟨3, []⟩, .text "é"⟩ {} rfl
  exact ⟨_, ⟨1, by decide⟩, hbuild, by decide, rfl, hslice, hvalid⟩

end Grammar

end PegScript
