import Mathlib.Data.List.Forall2
import PegScript.Proofs.Text.Places
import PegScript.Text.LineMap

/-!
# Lines and columns by counting

The line of an offset is one more than the number of line breaks that end at or before it, and its
column is one more than the number of characters that start between the start of the line and the
offset.  Here this is said of the source alone (`lineNumber`, `columnNumber`, `countedLine`).  A line
map answers so, whatever it was asked before, as long as the numbers have a place in 32 bits.

The lines that a map has scanned are the first ones of all lines (`LineMap.Tracks`), and every
question keeps it so.  Once the map has scanned beyond an offset, the line with that offset is the
only one that contains it, so it does not matter how that line was found.
-/

namespace PegScript

/-! ## The source alone -/

/-- The offsets at which the characters start of a text that starts at byte `offset`. -/
def charStarts (offset : Nat) : List Char → List Nat
  | [] => []
  | a :: rest => offset :: charStarts (offset + a.utf8Size) rest

/-- The offsets at which line breaks end: after each line feed, and after each carriage return that
has no line feed behind it. -/
def breakEnds (offset : Nat) : List Char → List Nat
  | [] => []
  | a :: rest =>
    if a = '\n' ∨ (a = '\r' ∧ rest.head? ≠ some '\n') then
      (offset + a.utf8Size) :: breakEnds (offset + a.utf8Size) rest
    else breakEnds (offset + a.utf8Size) rest

/-- The line breaks that end at or before `offset`. -/
def breaksBefore (source : String) (offset : Nat) : List Nat :=
  (breakEnds 0 source.toList).filter (· ≤ offset)

/-- The offset at which the line of `offset` starts: where the last line break before it ends. -/
def lineStartOf (source : String) (offset : Nat) : Nat :=
  (breaksBefore source offset).getLast?.getD 0

/-- The line of an offset, by counting line breaks.  An offset past the end counts as the end. -/
def lineNumber (source : String) (offset : Nat) : Nat :=
  1 + (breaksBefore source (min offset source.utf8ByteSize)).length

/-- The column of an offset, by counting the characters that start before it in its line. -/
def columnNumber (source : String) (offset : Nat) : Nat :=
  let offset := min offset source.utf8ByteSize
  1 + ((charStarts 0 source.toList).filter fun start =>
    lineStartOf source offset ≤ start ∧ start < offset).length

/-- Offset 2 stands inside a line break, offset 4 inside a character. -/
example : [2, 4].map (fun offset => (lineNumber "a\r\né" offset, columnNumber "a\r\né" offset)) =
    [(1, 3), (2, 2)] := by
  decide +kernel

/-- Both numbers in 32 bits. -/
def countedPosition (source : String) (offset : Nat) : Position :=
  ⟨UInt32.ofNat (lineNumber source offset), UInt32.ofNat (columnNumber source offset)⟩

/-- The lines of a text without their line breaks. -/
def splitLines : List Char → List (List Char)
  | [] => [[]]
  | '\r' :: '\n' :: rest => [] :: splitLines rest
  | a :: rest =>
    if isLineBreak a then [] :: splitLines rest else (splitLines rest).modifyHead (a :: ·)

/-- The text of line `n`, the first line being line 1. -/
def countedLine (source : String) : Nat → String
  | 0 => ""
  | n + 1 => ((splitLines source.toList)[n]?.map String.ofList).getD ""

/-! ## Bytes and characters -/

theorem charStarts_append (offset : Nat) (u v : List Char) :
    charStarts offset (u ++ v) = charStarts offset u ++ charStarts (offset + byteLength u) v := by
  induction u generalizing offset with
  | nil => rfl
  | cons a u ih => simp [charStarts, ih, Nat.add_assoc]

theorem mem_charStarts {offset start : Nat} {cs : List Char} (h : start ∈ charStarts offset cs) :
    offset ≤ start ∧ start < offset + byteLength cs := by
  induction cs generalizing offset with
  | nil => cases h
  | cons a cs ih =>
      have hpos := a.utf8Size_pos
      rw [byteLength_cons]
      rcases List.mem_cons.mp h with rfl | hlater
      · omega
      · have hbounds := ih hlater
        omega

/-- The characters within some bytes are those that start there. -/
theorem length_takeBytes (n offset : Nat) (cs : List Char) :
    (takeBytes n cs).length = ((charStarts offset cs).filter (· < offset + n)).length := by
  induction cs generalizing n offset with
  | nil => cases n <;> rfl
  | cons a cs ih =>
      cases n with
      | zero =>
          have hnone : (charStarts offset (a :: cs)).filter (· < offset + 0) = [] := by
            rw [List.filter_eq_nil_iff]
            intro start hstart
            have hbounds := mem_charStarts hstart
            simp only [decide_eq_true_eq]
            omega
          rw [hnone]
          rfl
      | succ n =>
          have hrest := ih (n + 1 - a.utf8Size) (offset + a.utf8Size)
          have hsame : (charStarts (offset + a.utf8Size) cs).filter
                (· < offset + a.utf8Size + (n + 1 - a.utf8Size)) =
              (charStarts (offset + a.utf8Size) cs).filter (· < offset + (n + 1)) := by
            refine List.filter_congr fun start hstart => ?_
            have hbounds := mem_charStarts hstart
            rw [decide_eq_decide]
            omega
          rw [takeBytes, charStarts, List.length_cons, hrest, hsame,
            List.filter_cons_of_pos (by simp), List.length_cons]

/-- The characters of a source from a place on, within some bytes. -/
theorem length_takeBytes_of_isPlaceOf {source : String} {c : Cursor} (hc : c.IsPlaceOf source)
    {offset : Nat} (hle : c.offset ≤ offset) :
    (takeBytes (offset - c.offset) c.rest).length =
      ((charStarts 0 source.toList).filter fun start =>
        c.offset ≤ start ∧ start < offset).length := by
  obtain ⟨before, hsource, hoffset⟩ := hc
  simp only [Cursor.start, Nat.zero_add] at hsource hoffset
  have hbefore : (charStarts 0 before).filter
      (fun start => c.offset ≤ start ∧ start < offset) = [] := by
    rw [List.filter_eq_nil_iff]
    intro start hstart
    have hbounds := mem_charStarts hstart
    simp only [decide_eq_true_eq]
    omega
  have hafter : (charStarts c.offset c.rest).filter
        (fun start => c.offset ≤ start ∧ start < offset) =
      (charStarts c.offset c.rest).filter (· < c.offset + (offset - c.offset)) := by
    refine List.filter_congr fun start hstart => ?_
    have hbounds := mem_charStarts hstart
    rw [decide_eq_decide]
    omega
  rw [length_takeBytes _ c.offset, hsource, charStarts_append, List.filter_append, hbefore,
    Nat.zero_add, ← hoffset, hafter, List.nil_append]

/-- Among characters of one byte each, bytes count characters. -/
theorem length_takeBytes_of_ascii {u : List Char} (hu : ∀ a ∈ u, a.utf8Size = 1) (v : List Char)
    {n : Nat} (hn : n ≤ u.length) : (takeBytes n (u ++ v)).length = n := by
  induction u generalizing n with
  | nil =>
      obtain rfl : n = 0 := Nat.le_zero.mp hn
      rw [takeBytes, List.length_nil]
  | cons a u ih =>
      obtain ⟨ha, hu⟩ := List.forall_mem_cons.mp hu
      cases n with
      | zero => rfl
      | succ n =>
          rw [List.cons_append, takeBytes, List.length_cons, ha, Nat.add_sub_cancel,
            ih hu (Nat.le_of_succ_le_succ hn)]

theorem byteLength_of_ascii {u : List Char} (hu : ∀ a ∈ u, a.utf8Size = 1) :
    byteLength u = u.length := by
  induction u with
  | nil => rfl
  | cons a u ih =>
      obtain ⟨ha, hu⟩ := List.forall_mem_cons.mp hu
      rw [byteLength_cons, ha, ih hu, List.length_cons, Nat.add_comm]

theorem utf8Size_eq_one {a : Char} (h : a.toNat < 128) : a.utf8Size = 1 := by
  have hval : a.val ≤ 127 := UInt32.le_iff_toNat_le.mpr (Nat.le_of_lt_succ h)
  simp [Char.utf8Size, hval]

/-! ## Numbers of 32 bits -/

theorem length_charStarts (offset : Nat) (cs : List Char) :
    (charStarts offset cs).length = cs.length := by
  induction cs generalizing offset with
  | nil => rfl
  | cons a cs ih => rw [charStarts, List.length_cons, ih, List.length_cons]

theorem length_breakEnds_le (offset : Nat) (cs : List Char) :
    (breakEnds offset cs).length ≤ cs.length := by
  induction cs generalizing offset with
  | nil => exact Nat.le_refl _
  | cons a cs ih =>
      have hrest := ih (offset + a.utf8Size)
      rw [breakEnds]
      split
      · exact Nat.succ_le_succ hrest
      · exact Nat.le_succ_of_le hrest

theorem length_le_byteLength (cs : List Char) : cs.length ≤ byteLength cs := by
  induction cs with
  | nil => exact Nat.le_refl _
  | cons a cs ih =>
      have hpos := a.utf8Size_pos
      rw [byteLength_cons, List.length_cons]
      omega

/-- A source has no more lines, and no line more columns, than bytes and one. -/
theorem numbers_le (source : String) (offset : Nat) :
    lineNumber source offset ≤ source.utf8ByteSize + 1 ∧
      columnNumber source offset ≤ source.utf8ByteSize + 1 := by
  have hchars : source.toList.length ≤ source.utf8ByteSize := by
    rw [utf8ByteSize_eq_byteLength]
    exact length_le_byteLength _
  have hbreaks : (breaksBefore source (min offset source.utf8ByteSize)).length ≤
      source.toList.length :=
    Nat.le_trans (List.length_filter_le _ _) (length_breakEnds_le 0 _)
  have hcolumns (p : Nat → Bool) : ((charStarts 0 source.toList).filter p).length ≤
      source.toList.length := by
    rw [← length_charStarts 0 source.toList]
    exact List.length_filter_le _ _
  constructor
  · rw [lineNumber]
    omega
  · rw [columnNumber, Nat.add_comm]
    exact Nat.succ_le_succ (Nat.le_trans (hcolumns _) hchars)

/-- In a source with fewer than 2 ^ 32 - 1 bytes the numbers of every position are counted. -/
theorem toNat_countedPosition {source : String} (hsize : source.utf8ByteSize < UInt32.size - 1)
    (offset : Nat) :
    (countedPosition source offset).line.toNat = lineNumber source offset ∧
      (countedPosition source offset).column.toNat = columnNumber source offset := by
  obtain ⟨hline, hcolumn⟩ := numbers_le source offset
  exact ⟨UInt32.toNat_ofNat_of_lt' (by omega), UInt32.toNat_ofNat_of_lt' (by omega)⟩

/-! ## From line to line -/

/-- The places just after the line breaks of the text that starts at byte `offset`. -/
def lineStarts (offset : Nat) : List Char → List Cursor
  | [] => []
  | '\r' :: '\n' :: rest => ⟨offset + 2, rest⟩ :: lineStarts (offset + 2) rest
  | c :: rest =>
    if isLineBreak c then ⟨offset + 1, rest⟩ :: lineStarts (offset + 1) rest
    else lineStarts (offset + c.utf8Size) rest

/-- The start of the next line, if there is one. -/
def Cursor.nextLine? (c : Cursor) : Option Cursor :=
  c.lineStop.afterBreak?

/-- The starts of all lines from the place on, which is one itself. -/
def startsFrom (c : Cursor) : List Cursor :=
  c :: lineStarts c.offset c.rest

/-- A line is a text without line breaks, and then the source ends or has a line break. -/
theorem exists_of_lineStop (c : Cursor) :
    ∃ text : List Char, c.rest = text ++ c.lineStop.rest ∧
      c.lineStop.offset = c.offset + byteLength text ∧ (∀ a ∈ text, isLineBreak a = false) ∧
      ∀ a ∈ c.lineStop.rest.head?, isLineBreak a = true := by
  obtain ⟨offset, rest⟩ := c
  simp only [Cursor.lineStop]
  induction rest generalizing offset with
  | nil => exact ⟨[], rfl, rfl, by simp, by simp [lineStop]⟩
  | cons a rest ih =>
      rw [lineStop]
      split
      case isTrue hbreak => exact ⟨[], rfl, rfl, by simp, by simpa using hbreak⟩
      case isFalse hplain =>
        obtain ⟨text, hrest, hoffset, htext, hstop⟩ := ih (offset + a.utf8Size)
        refine ⟨a :: text, ?_, ?_, ?_, hstop⟩
        · rw [List.cons_append, ← hrest]
        · rw [hoffset, byteLength_cons, Nat.add_assoc]
        · exact List.forall_mem_cons.mpr ⟨by simpa using hplain, htext⟩

theorem takeWhile_append_of_break {text rest : List Char}
    (htext : ∀ a ∈ text, isLineBreak a = false)
    (hbreak : ∀ a ∈ rest.head?, isLineBreak a = true) :
    (text ++ rest).takeWhile (fun a => !isLineBreak a) = text := by
  rw [List.takeWhile_append_of_pos (by simpa using htext)]
  cases rest with
  | nil => simp
  | cons a rest => simp [hbreak a rfl]

/-- The starts of the lines after the first: that of the second line, and those after it. -/
theorem lineStarts_eq (c : Cursor) :
    lineStarts c.offset c.rest = c.nextLine?.elim [] startsFrom := by
  obtain ⟨offset, rest⟩ := c
  simp only [Cursor.nextLine?, Cursor.lineStop]
  fun_induction lineStarts offset rest with
  | case1 offset => rfl
  | case2 offset rest ih => rfl
  | case3 offset a rest hcrlf hbreak ih =>
      rw [lineStop, if_pos hbreak, Cursor.afterBreak?]
      split
      case h_1 heq => cases heq
      case h_2 rest' heq =>
        cases heq
        exact absurd rfl (hcrlf _ rfl)
      case h_3 heq =>
        cases heq
        rfl
  | case4 offset a rest hcrlf hplain ih => rw [lineStop, if_neg hplain, ih]

theorem startsFrom_eq (c : Cursor) :
    startsFrom c = c :: c.nextLine?.elim [] startsFrom := by
  rw [startsFrom, lineStarts_eq]

theorem utf8Size_of_isLineBreak {a : Char} (h : isLineBreak a = true) : a.utf8Size = 1 := by
  have ha : a = '\n' ∨ a = '\r' := by simpa [isLineBreak] using h
  rcases ha with rfl | rfl <;> rfl

/-- The next line starts after the text of the line and a line break of one or two bytes. -/
theorem exists_of_nextLine {c d : Cursor} (h : c.nextLine? = some d) :
    ∃ text lineBreak : List Char, c.rest = text ++ lineBreak ++ d.rest ∧
      c.lineStop.offset = c.offset + byteLength text ∧
      d.offset = c.lineStop.offset + lineBreak.length ∧ lineBreak ≠ [] ∧
      ∀ a ∈ lineBreak, a.utf8Size = 1 := by
  obtain ⟨text, hrest, hoffset, -, hbreak⟩ := exists_of_lineStop c
  rw [Cursor.nextLine?, Cursor.afterBreak?] at h
  split at h
  case h_1 => cases h
  case h_2 rest heq =>
    cases h
    refine ⟨text, ['\r', '\n'], by simp [hrest, heq], hoffset, rfl, by simp, ?_⟩
    exact List.forall_mem_cons.mpr ⟨rfl, List.forall_mem_singleton.mpr rfl⟩
  case h_3 a rest hcrlf heq =>
    cases h
    rw [heq] at hbreak
    refine ⟨text, [a], by simp [hrest, heq], hoffset, rfl, by simp, ?_⟩
    exact List.forall_mem_singleton.mpr (utf8Size_of_isLineBreak (hbreak a rfl))

theorem reaches_nextLine {c d : Cursor} (h : c.nextLine? = some d) : c.Reaches d ∧ d ≠ c := by
  obtain ⟨text, lineBreak, hrest, hstop, hoffset, hne, hone⟩ := exists_of_nextLine h
  have hpos := List.length_pos_iff.mpr hne
  refine ⟨⟨text ++ lineBreak, hrest, ?_⟩, fun heq => ?_⟩
  · rw [hoffset, hstop, byteLength_append, byteLength_of_ascii hone, Nat.add_assoc]
  · rw [heq] at hoffset
    omega

theorem offset_lt_nextLine {c d : Cursor} (h : c.nextLine? = some d) : c.offset < d.offset := by
  obtain ⟨hreach, hne⟩ := reaches_nextLine h
  have hle := hreach.offset_le
  have hoffset := mt hreach.eq_iff_offset_eq.mp hne
  omega

/-- What holds of a line if it holds of the next one holds of every line. -/
theorem line_induction {motive : Cursor → Prop}
    (step : ∀ c, (∀ d, c.nextLine? = some d → motive d) → motive c) (c : Cursor) : motive c := by
  generalize hbytes : byteLength c.rest = bytes
  induction bytes using Nat.strongRecOn generalizing c with
  | ind bytes ih =>
      refine step c fun d hd => ?_
      obtain ⟨hreach, hne⟩ := reaches_nextLine hd
      exact ih _ (by rw [← hbytes]; exact hreach.byteLength_lt hne) d rfl

theorem reaches_of_mem_startsFrom {c d : Cursor} (h : d ∈ startsFrom c) : c.Reaches d := by
  induction c using line_induction with
  | step c ih =>
      rw [startsFrom_eq] at h
      rcases List.mem_cons.mp h with rfl | hlater
      · exact .refl _
      · cases hnext : c.nextLine? with
        | none =>
            rw [hnext] at hlater
            cases hlater
        | some next =>
            rw [hnext] at hlater
            exact (reaches_nextLine hnext).1.trans (ih next hnext hlater)

/-- Later lines start later. -/
theorem pairwise_startsFrom (c : Cursor) :
    (startsFrom c).Pairwise fun d e => d.offset < e.offset := by
  induction c using line_induction with
  | step c ih =>
      rw [startsFrom_eq]
      cases hnext : c.nextLine? with
      | none => exact List.pairwise_singleton _ _
      | some next =>
          refine List.Pairwise.cons (fun d hd => ?_) (ih next hnext)
          have hle := (reaches_of_mem_startsFrom hd).offset_le
          exact Nat.lt_of_lt_of_le (offset_lt_nextLine hnext) hle

theorem getElem?_startsFrom_succ {c d : Cursor} {i : Nat} (h : (startsFrom c)[i]? = some d) :
    (startsFrom c)[i + 1]? = d.nextLine? := by
  induction c using line_induction generalizing i with
  | step c ih =>
      rw [startsFrom_eq] at h ⊢
      rw [List.getElem?_cons_succ]
      cases hnext : c.nextLine? with
      | none =>
          rw [hnext] at h
          cases i with
          | zero =>
              cases h
              exact hnext.symm
          | succ i => cases h
      | some next =>
          rw [hnext] at h
          cases i with
          | zero =>
              cases h
              rw [hnext]
              rfl
          | succ i => exact ih next hnext h

/-! ## Counting lines -/

theorem map_offset_lineStarts (offset : Nat) (cs : List Char) :
    (lineStarts offset cs).map (·.offset) = breakEnds offset cs := by
  fun_induction lineStarts offset cs with
  | case1 offset => rfl
  | case2 offset rest ih =>
      rw [List.map_cons, ih, breakEnds, if_neg (by simp), breakEnds, if_pos (by simp)]
      rfl
  | case3 offset a rest hcrlf hbreak ih =>
      have ha : a = '\n' ∨ a = '\r' := by simpa [isLineBreak] using hbreak
      have hend : a = '\n' ∨ (a = '\r' ∧ rest.head? ≠ some '\n') := by
        refine ha.imp_right fun hreturn => ⟨hreturn, fun hfeed => ?_⟩
        obtain ⟨rest, rfl⟩ := List.head?_eq_some_iff.mp hfeed
        exact hcrlf rest hreturn rfl
      rw [List.map_cons, ih, breakEnds, if_pos hend, utf8Size_of_isLineBreak hbreak]
  | case4 offset a rest hcrlf hplain ih =>
      have ha : ¬ (a = '\n' ∨ (a = '\r' ∧ rest.head? ≠ some '\n')) := by
        simp only [isLineBreak, Bool.or_eq_true, beq_iff_eq, not_or] at hplain
        tauto
      rw [ih, breakEnds, if_neg ha]

/-- The line at the index starts at or before the offset, and the next line after it. -/
def HoldsAt (starts : List Cursor) (index offset : Nat) : Prop :=
  ∃ c, starts[index]? = some c ∧ c.offset ≤ offset ∧
    ∀ d, starts[index + 1]? = some d → offset < d.offset

/-- The lines that start at or before an offset are those up to the line that holds it. -/
theorem HoldsAt.filter_eq {starts : List Cursor} {index offset : Nat}
    (hsorted : starts.Pairwise fun c d => c.offset < d.offset) (h : HoldsAt starts index offset) :
    starts.filter (·.offset ≤ offset) = starts.take (index + 1) := by
  induction starts generalizing index with
  | nil =>
      obtain ⟨c, hc, -⟩ := h
      cases hc
  | cons first starts ih =>
      obtain ⟨hfirst, hsorted⟩ := List.pairwise_cons.mp hsorted
      obtain ⟨c, hc, hle, hnext⟩ := h
      cases index with
      | zero =>
          cases hc
          have hlater : starts.filter (·.offset ≤ offset) = [] := by
            rw [List.filter_eq_nil_iff]
            intro d hd
            cases starts with
            | nil => cases hd
            | cons second starts =>
                have hsecond := hnext second rfl
                have hle' : second.offset ≤ d.offset := by
                  rcases List.mem_cons.mp hd with rfl | hd
                  · exact Nat.le_refl _
                  · exact Nat.le_of_lt ((List.pairwise_cons.mp hsorted).1 d hd)
                simp only [decide_eq_true_eq]
                omega
          rw [List.filter_cons_of_pos (by simpa using hle), hlater]
          rfl
      | succ index =>
          have hmem : c ∈ starts := List.mem_of_getElem? hc
          have hhead : first.offset ≤ offset := Nat.le_trans (Nat.le_of_lt (hfirst c hmem)) hle
          rw [List.filter_cons_of_pos (by simpa using hhead),
            ih hsorted ⟨c, hc, hle, hnext⟩, List.take_succ_cons]

/-- The line breaks before an offset and the start of its line, by the line that holds it. -/
theorem HoldsAt.breaksBefore {source : String} {index offset : Nat} {c : Cursor}
    (hc : (startsFrom (Cursor.start source))[index]? = some c)
    (h : HoldsAt (startsFrom (Cursor.start source)) index offset) :
    (breaksBefore source offset).length = index ∧ lineStartOf source offset = c.offset := by
  have hstarts : (startsFrom (Cursor.start source)).map (·.offset) =
      0 :: breakEnds 0 source.toList := by
    rw [startsFrom, List.map_cons, map_offset_lineStarts]
    rfl
  have hends : 0 :: PegScript.breaksBefore source offset =
      ((startsFrom (Cursor.start source)).take (index + 1)).map (·.offset) := by
    rw [← h.filter_eq (pairwise_startsFrom _), PegScript.breaksBefore,
      ← List.filter_cons_of_pos (p := (· ≤ offset)) (a := 0) (by simp), ← hstarts, List.filter_map]
    rfl
  constructor
  · have hlength := congrArg List.length hends
    obtain ⟨hindex, -⟩ := List.getElem?_eq_some_iff.mp hc
    rw [List.length_cons, List.length_map, List.length_take] at hlength
    omega
  · have hlast := congrArg List.getLast? hends
    rw [List.getLast?_cons, List.getLast?_map, List.getLast?_take, if_neg (Nat.succ_ne_zero _),
      Nat.add_sub_cancel, hc] at hlast
    exact Option.some.inj hlast

/-- The position of an offset in the line that holds it. -/
theorem numbers_eq {source : String} {index offset : Nat} {c : Cursor}
    (hc : (startsFrom (Cursor.start source))[index]? = some c)
    (h : HoldsAt (startsFrom (Cursor.start source)) index (min offset source.utf8ByteSize)) :
    lineNumber source offset = index + 1 ∧ columnNumber source offset =
      (takeBytes (min offset source.utf8ByteSize - c.offset) c.rest).length + 1 := by
  have hplace : c.IsPlaceOf source := reaches_of_mem_startsFrom (List.mem_of_getElem? hc)
  obtain ⟨hline, hstart⟩ := h.breaksBefore hc
  obtain ⟨d, hd, hle, -⟩ := h
  rw [hc] at hd
  cases hd
  rw [lineNumber, columnNumber, hline, hstart, length_takeBytes_of_isPlaceOf hplace hle]
  exact ⟨Nat.add_comm _ _, Nat.add_comm _ _⟩

/-- The texts of the lines. -/
theorem map_text_startsFrom (offset : Nat) (cs : List Char) :
    (startsFrom ⟨offset, cs⟩).map (fun d => d.rest.takeWhile fun a => !isLineBreak a) =
      splitLines cs := by
  fun_induction splitLines cs generalizing offset with
  | case1 => rfl
  | case2 rest ih =>
      rw [← ih (offset + 2), startsFrom, lineStarts]
      rfl
  | case3 a rest hcrlf hbreak ih =>
      rw [← ih (offset + 1), startsFrom, lineStarts, if_pos hbreak]
      · simp [hbreak, startsFrom]
      · exact hcrlf
  | case4 a rest hcrlf hplain ih =>
      rw [← ih (offset + a.utf8Size), startsFrom, lineStarts, if_neg hplain]
      · simp [hplain, startsFrom]
      · exact hcrlf

/-! ## One line -/

theorem Line.text_startingAt (c : Cursor) :
    (Line.startingAt c).text = String.ofList (c.rest.takeWhile fun a => !isLineBreak a) := by
  obtain ⟨text, hrest, hoffset, htext, hbreak⟩ := exists_of_lineStop c
  rw [hrest, takeWhile_append_of_break htext hbreak]
  exact Cursor.textTo_eq_ofList hrest hoffset

theorem Line.ascii_of_isAscii {c : Cursor} {text rest : List Char}
    (h : (Line.startingAt c).isAscii = true) (hrest : c.rest = text ++ rest)
    (hoffset : c.lineStop.offset = c.offset + byteLength text) : ∀ a ∈ text, a.utf8Size = 1 := by
  have htake : takeBytes (c.lineStop.offset - c.offset) c.rest = text := by
    rw [hoffset, Nat.add_sub_cancel_left, hrest, takeBytes_byteLength]
  rw [Line.startingAt, htake] at h
  intro a ha
  exact utf8Size_eq_one (of_decide_eq_true (List.all_eq_true.mp h a ha))

/-- An offset in a line of ASCII text lies in the text or in its line break, all of one byte
each. -/
theorem Line.exists_ascii_of_isAscii {c : Cursor} {offset : Nat}
    (h : (Line.startingAt c).isAscii = true)
    (hnext : ∀ d, c.nextLine? = some d → offset < d.offset)
    (hsize : offset - c.offset ≤ byteLength c.rest) :
    ∃ u v, c.rest = u ++ v ∧ (∀ a ∈ u, a.utf8Size = 1) ∧ offset - c.offset ≤ u.length := by
  cases hd : c.nextLine? with
  | some d =>
      obtain ⟨text, lineBreak, hrest, hstop, hoffset, -, hone⟩ := exists_of_nextLine hd
      have hless := hnext d hd
      rw [List.append_assoc] at hrest
      have htext := Line.ascii_of_isAscii h hrest hstop
      have hbytes := byteLength_of_ascii htext
      refine ⟨text ++ lineBreak, d.rest, by rw [hrest, List.append_assoc], ?_, ?_⟩
      · exact List.forall_mem_append.mpr ⟨htext, hone⟩
      · rw [List.length_append]
        omega
  | none =>
      obtain ⟨text, hrest, hstop, -, -⟩ := exists_of_lineStop c
      have hend : c.lineStop.rest = [] := by
        rw [Cursor.nextLine?, Cursor.afterBreak?] at hd
        split at hd
        case h_1 heq => exact heq
        case h_2 | h_3 => cases hd
      have htext := Line.ascii_of_isAscii h hrest hstop
      rw [hend, List.append_nil] at hrest
      rw [hrest, byteLength_of_ascii htext] at hsize
      exact ⟨text, [], by rw [hrest, List.append_nil], htext, hsize⟩

/-- In the line that holds an offset, the short way for ASCII text counts characters too. -/
theorem Line.charsBefore_startingAt {source : String} {index offset : Nat} {c : Cursor}
    (hc : (startsFrom (Cursor.start source))[index]? = some c)
    (h : HoldsAt (startsFrom (Cursor.start source)) index offset)
    (hsize : offset ≤ source.utf8ByteSize) :
    (Line.startingAt c).charsBefore offset = (takeBytes (offset - c.offset) c.rest).length := by
  have hplace : c.IsPlaceOf source := reaches_of_mem_startsFrom (List.mem_of_getElem? hc)
  have hbytes : offset - c.offset ≤ byteLength c.rest := by
    rw [hplace.byteLength_rest]
    omega
  obtain ⟨-, -, -, hnext⟩ := h
  rw [getElem?_startsFrom_succ hc] at hnext
  rw [Line.charsBefore]
  split
  case isFalse => rfl
  case isTrue hshort =>
    change offset - c.offset = _
    rcases Bool.or_eq_true_iff.mp hshort with hascii | hbefore
    · obtain ⟨u, v, hrest, hone, hle⟩ := Line.exists_ascii_of_isAscii hascii hnext hbytes
      rw [hrest, length_takeBytes_of_ascii hone v hle]
    · have hzero : offset - c.offset = 0 := Nat.sub_eq_zero_of_le (of_decide_eq_true hbefore)
      rw [hzero, takeBytes, List.length_nil]

/-! ## The map -/

/-- All lines of the source. -/
def allLines (source : String) : List Line :=
  (startsFrom (Cursor.start source)).map Line.startingAt

namespace LineMap

variable {source : String} {m : LineMap} {offset : Nat}

/-- The map has scanned the first lines of the source, and the first one that it has not scanned
starts where it stopped. -/
structure Tracks (source : String) (m : LineMap) : Prop where
  size : m.size = source.utf8ByteSize
  lines : m.lines.toList ++
    (if m.done then [] else (startsFrom m.scanned).map Line.startingAt) = allLines source

theorem tracks_ofSource (source : String) : (ofSource source).Tracks source :=
  ⟨rfl, rfl⟩

theorem Tracks.scanLine (h : m.Tracks source) (hdone : m.done = false) :
    m.scanLine.Tracks source := by
  have hlines := h.lines
  rw [hdone, if_neg Bool.false_ne_true, startsFrom_eq, List.map_cons] at hlines
  rw [LineMap.scanLine]
  cases hnext : m.scanned.nextLine? with
  | some next =>
      rw [hnext] at hlines
      have hstop : (Line.startingAt m.scanned).stop.afterBreak? = some next := hnext
      rw [hstop]
      refine ⟨h.size, ?_⟩
      rw [← hlines]
      simp [hdone]
  | none =>
      rw [hnext] at hlines
      have hstop : (Line.startingAt m.scanned).stop.afterBreak? = none := hnext
      rw [hstop]
      refine ⟨h.size, ?_⟩
      rw [← hlines]
      simp

/-- Scanning keeps to the lines of the source, and it stops where it was told to, or at the end. -/
theorem Tracks.scanWhile (h : m.Tracks source) (more : LineMap → Bool) :
    (m.scanWhile more).Tracks source ∧
      ((m.scanWhile more).done = true ∨ more (m.scanWhile more) = false) := by
  fun_induction LineMap.scanWhile more m with
  | case1 m hmore ih => exact ih (h.scanLine hmore.1)
  | case2 m hstop =>
      refine ⟨h, ?_⟩
      simpa only [not_and_or, Bool.not_eq_false, Bool.not_eq_true] using hstop

/-- What the map has scanned is as in the source. -/
theorem Tracks.getElem?_of_lt (h : m.Tracks source) {index : Nat} (hindex : index < m.lines.size) :
    m.lines[index]? = (allLines source)[index]? := by
  rw [← h.lines, List.getElem?_append_left (by simpa using hindex), Array.getElem?_toList]

/-- The lines that the map has not scanned start after every offset before the place where it
stopped. -/
theorem Tracks.offset_lt (h : m.Tracks source)
    (hfar : m.done = true ∨ offset < m.scanned.offset) {index : Nat}
    (hindex : m.lines.size ≤ index) {line : Line} (hline : (allLines source)[index]? = some line) :
    offset < line.start.offset := by
  rw [← h.lines, List.getElem?_append_right (by simpa using hindex)] at hline
  have hmem := List.mem_of_getElem? hline
  rcases hfar with hdone | hfar
  · rw [hdone] at hmem
    cases hmem
  · split at hmem
    · cases hmem
    · obtain ⟨c, hc, rfl⟩ := List.mem_map.mp hmem
      exact Nat.lt_of_lt_of_le hfar (reaches_of_mem_startsFrom hc).offset_le

theorem contains_iff {index : Nat} :
    m.contains index offset = true ↔
      ∃ line, m.lines[index]? = some line ∧ line.start.offset ≤ offset ∧
        ∀ next, m.lines[index + 1]? = some next → offset < next.start.offset := by
  unfold contains
  split
  case h_1 hnone => simp [hnone]
  case h_2 line hline => simp [hline, Option.all_eq_true]

/-- A line that contains the offset, as far as the map knows, holds it. -/
theorem Tracks.holdsAt_of_contains (h : m.Tracks source)
    (hfar : m.done = true ∨ offset < m.scanned.offset) {index : Nat}
    (hcontains : m.contains index offset = true) :
    HoldsAt (startsFrom (Cursor.start source)) index offset := by
  obtain ⟨line, hline, hle, hnext⟩ := contains_iff.mp hcontains
  obtain ⟨hindex, -⟩ := Array.getElem?_eq_some_iff.mp hline
  rw [h.getElem?_of_lt hindex, allLines, List.getElem?_map, Option.map_eq_some_iff] at hline
  obtain ⟨c, hc, rfl⟩ := hline
  refine ⟨c, hc, hle, fun d hd => ?_⟩
  have hafter : (allLines source)[index + 1]? = some (.startingAt d) := by
    rw [allLines, List.getElem?_map, hd]
    rfl
  by_cases hscanned : index + 1 < m.lines.size
  · exact hnext _ (by rw [h.getElem?_of_lt hscanned, hafter])
  · exact h.offset_lt hfar (Nat.le_of_not_lt hscanned) hafter

/-! ## Finding a line -/

/-- Later lines start later. -/
def Ordered (lines : Array Line) : Prop :=
  ∀ (i j : Nat) (a b : Line), lines[i]? = some a → lines[j]? = some b → i < j →
    a.start.offset < b.start.offset

theorem Tracks.ordered (h : m.Tracks source) : Ordered m.lines := by
  intro i j a b ha hb hij
  obtain ⟨hi, -⟩ := Array.getElem?_eq_some_iff.mp ha
  obtain ⟨hj, -⟩ := Array.getElem?_eq_some_iff.mp hb
  rw [h.getElem?_of_lt hi, allLines, List.getElem?_map, Option.map_eq_some_iff] at ha
  rw [h.getElem?_of_lt hj, allLines, List.getElem?_map, Option.map_eq_some_iff] at hb
  obtain ⟨c, hc, rfl⟩ := ha
  obtain ⟨d, hd, rfl⟩ := hb
  obtain ⟨hi', rfl⟩ := List.getElem?_eq_some_iff.mp hc
  obtain ⟨hj', rfl⟩ := List.getElem?_eq_some_iff.mp hd
  exact List.pairwise_iff_getElem.mp (pairwise_startsFrom _) i j hi' hj' hij

/-- The index separates the lines that start before the offset from those that start after it. -/
def Separates (lines : Array Line) (offset index : Nat) : Prop :=
  (∀ (j : Nat) (line : Line), lines[j]? = some line → j < index → line.start.offset < offset) ∧
    ∀ (j : Nat) (line : Line), lines[j]? = some line → index ≤ j → offset < line.start.offset

/-- The search ends at a line that starts at the offset, or between the lines before and after. -/
theorem search_spec {lines : Array Line} (hordered : Ordered lines) {lo hi : Nat}
    (hhi : hi ≤ lines.size) (hle : lo ≤ hi)
    (hlow : ∀ (j : Nat) (line : Line), lines[j]? = some line → j < lo → line.start.offset < offset)
    (hhigh : ∀ (j : Nat) (line : Line), lines[j]? = some line → hi ≤ j →
      offset < line.start.offset) :
    (∃ index line, search lines offset lo hi hhi = .ok index ∧ lines[index]? = some line ∧
        line.start.offset = offset) ∨
      ∃ index, search lines offset lo hi hhi = .error index ∧ index ≤ lines.size ∧
        Separates lines offset index := by
  fun_induction search lines offset lo hi hhi with
  | case1 lo hi hhi hlt mid hmid heq =>
      exact .inl ⟨mid, lines[mid], rfl, Array.getElem?_eq_getElem hmid, heq⟩
  | case2 lo hi hhi hlt mid hmid hne hless ih =>
      have hmiddle : lines[mid]? = some lines[mid] := Array.getElem?_eq_getElem hmid
      refine ih (by omega) (fun j line hline hj => ?_) hhigh
      rcases Nat.lt_or_eq_of_le (Nat.le_of_lt_succ hj) with hj | rfl
      · exact Nat.lt_trans (hordered _ _ _ _ hline hmiddle hj) hless
      · rw [hmiddle] at hline
        cases hline
        exact hless
  | case3 lo hi hhi hlt mid hmid hne hless ih =>
      have hmiddle : lines[mid]? = some lines[mid] := Array.getElem?_eq_getElem hmid
      have hgreater : offset < lines[mid].start.offset := by omega
      refine ih (by omega) hlow (fun j line hline hj => ?_)
      rcases Nat.lt_or_eq_of_le hj with hj | rfl
      · exact Nat.lt_trans hgreater (hordered _ _ _ _ hmiddle hline hj)
      · rw [hmiddle] at hline
        cases hline
        exact hgreater
  | case4 lo hi hhi hstop =>
      refine .inr ⟨lo, rfl, by omega, hlow, fun j line hline hj => ?_⟩
      exact hhigh j line hline (by omega)

/-- The line that is found contains the offset, whatever line was found before. -/
theorem contains_indexOf (hordered : Ordered m.lines) {first : Line}
    (hfirst : m.lines[0]? = some first) (hle : first.start.offset ≤ offset) :
    m.contains (m.indexOf offset) offset = true := by
  unfold indexOf
  split
  case isTrue hhint => exact hhint
  case isFalse =>
    split
    case isTrue hnext => exact hnext
    case isFalse =>
      have hnone : ∀ (j : Nat) (line : Line), m.lines[j]? = some line → m.lines.size ≤ j →
          offset < line.start.offset := by
        intro j line hline hj
        rw [Array.getElem?_eq_none hj] at hline
        cases hline
      rcases search_spec hordered (Nat.le_refl _) (Nat.zero_le _)
        (fun j line hline hj => absurd hj (Nat.not_lt_zero j)) hnone with
        ⟨index, line, hsearch, hline, heq⟩ | ⟨index, hsearch, hsize, hbefore, hafter⟩
      · rw [hsearch]
        refine contains_iff.mpr ⟨line, hline, Nat.le_of_eq heq, fun next hnext => ?_⟩
        rw [← heq]
        exact hordered _ _ _ _ hline hnext (Nat.lt_succ_self index)
      · rw [hsearch]
        have hpos : index ≠ 0 := by
          rintro rfl
          have hless := hafter 0 first hfirst (Nat.le_refl 0)
          omega
        obtain ⟨index, rfl⟩ := Nat.exists_eq_succ_of_ne_zero hpos
        have hline : m.lines[index]? = some m.lines[index] := Array.getElem?_eq_getElem _
        refine contains_iff.mpr ⟨_, hline, ?_, fun next hnext => ?_⟩
        · exact Nat.le_of_lt (hbefore index _ hline (Nat.lt_succ_self index))
        · exact hafter _ _ hnext (Nat.le_refl _)

/-- The line that is found is the line of the source that holds the offset. -/
theorem Tracks.find (h : m.Tracks source) (offset : Nat) :
    (m.find offset).Tracks source ∧
      HoldsAt (startsFrom (Cursor.start source)) (m.find offset).hint offset ∧
      (m.find offset).lines[(m.find offset).hint]? =
        (allLines source)[(m.find offset).hint]? := by
  obtain ⟨htracks, hstop⟩ := h.scanWhile fun m => m.scanned.offset ≤ offset
  rw [LineMap.find]
  generalize m.scanWhile (fun m => m.scanned.offset ≤ offset) = m' at htracks hstop
  have hfar : m'.done = true ∨ offset < m'.scanned.offset :=
    hstop.imp_right fun hstop => Nat.lt_of_not_le (of_decide_eq_false hstop)
  have hfirst : (allLines source)[0]? = some (.startingAt (Cursor.start source)) := rfl
  have hsize : 0 < m'.lines.size := by
    by_contra hempty
    have hless := htracks.offset_lt hfar (Nat.le_of_not_lt hempty) hfirst
    exact Nat.not_lt_zero _ hless
  have hcontains : m'.contains (m'.indexOf offset) offset = true :=
    contains_indexOf htracks.ordered (by rw [htracks.getElem?_of_lt hsize, hfirst])
      (Nat.zero_le _)
  obtain ⟨line, hline, -, -⟩ := contains_iff.mp hcontains
  obtain ⟨hindex, -⟩ := Array.getElem?_eq_some_iff.mp hline
  exact ⟨⟨htracks.size, htracks.lines⟩, htracks.holdsAt_of_contains hfar hcontains,
    htracks.getElem?_of_lt hindex⟩

/-! ## Questions -/

theorem Tracks.position (h : m.Tracks source) (offset : Nat) :
    (m.position offset).1 = some (countedPosition source offset) ∧
      (m.position offset).2.Tracks source := by
  rw [LineMap.position, h.size]
  obtain ⟨htracks, hholds, hline⟩ := h.find (min offset source.utf8ByteSize)
  refine ⟨?_, htracks⟩
  obtain ⟨c, hc, -, -⟩ := id hholds
  have hchars := Line.charsBefore_startingAt hc hholds (Nat.min_le_right _ _)
  obtain ⟨hnumber, hcolumn⟩ := numbers_eq hc hholds
  dsimp only
  rw [hline, allLines, List.getElem?_map, hc, Option.map_some, Option.map_some, hchars,
    countedPosition, hnumber, hcolumn, UInt32.ofNat_add, UInt32.ofNat_add]
  rfl

theorem positionIn_eq (source : String) (offset : Nat) :
    positionIn source offset = countedPosition source offset := by
  rw [positionIn, ((tracks_ofSource source).position offset).1, Option.getD_some]

/-- Every offset is in a line. -/
theorem exists_holdsAt (source : String) (offset : Nat) :
    ∃ index c, (startsFrom (Cursor.start source))[index]? = some c ∧
      HoldsAt (startsFrom (Cursor.start source)) index offset := by
  obtain ⟨-, hholds, -⟩ := (tracks_ofSource source).find offset
  obtain ⟨c, hc, -⟩ := id hholds
  exact ⟨_, c, hc, hholds⟩

theorem Tracks.lineText (h : m.Tracks source) (n : Nat) :
    (m.lineText n).1 = countedLine source n ∧ (m.lineText n).2.Tracks source := by
  cases n with
  | zero => exact ⟨rfl, h⟩
  | succ n =>
      obtain ⟨htracks, hstop⟩ := h.scanWhile fun m => m.lines.size ≤ n
      refine ⟨?_, htracks⟩
      rw [LineMap.lineText]
      simp only
      generalize m.scanWhile (fun m => m.lines.size ≤ n) = m' at htracks hstop
      have hline : m'.lines[n]? = (allLines source)[n]? := by
        rcases hstop with hdone | hsize
        · rw [← htracks.lines, hdone, if_pos rfl, List.append_nil, Array.getElem?_toList]
        · exact htracks.getElem?_of_lt (Nat.lt_of_not_le (of_decide_eq_false hsize))
      rw [hline, allLines, countedLine, ← map_text_startsFrom 0, List.getElem?_map,
        List.getElem?_map]
      simp only [Option.map_map]
      congr 2
      funext c
      exact Line.text_startingAt c

/-- The answer to a question, by the source alone. -/
def counted (source : String) : Query → Answer
  | .position offset => .position (countedPosition source offset)
  | .lineText line => .lineText (countedLine source line)

/-- Every question is answered from the source alone, and leaves the map ready for the next. -/
theorem Tracks.ask (h : m.Tracks source) (query : Query) :
    (m.ask query).1 = some (counted source query) ∧ (m.ask query).2.Tracks source := by
  cases query with
  | position offset =>
      obtain ⟨hanswer, htracks⟩ := h.position offset
      refine ⟨?_, htracks⟩
      simp only [LineMap.ask, hanswer, Option.map_some, counted]
  | lineText line =>
      obtain ⟨hanswer, htracks⟩ := h.lineText line
      refine ⟨?_, htracks⟩
      simp only [LineMap.ask, hanswer, counted]

theorem Tracks.answers (h : m.Tracks source) (queries : List Query) :
    m.answers queries = queries.map fun query => some (counted source query) := by
  induction queries generalizing m with
  | nil => rfl
  | cons query queries ih =>
      obtain ⟨hanswer, htracks⟩ := h.ask query
      rw [List.map_cons, ← hanswer, ← ih htracks]
      rfl

/-- The question has the answer that counting in the source gives. -/
def Counts (source : String) : Query → Option Answer → Prop
  | .position offset, some (.position p) =>
    p.line.toNat = lineNumber source offset ∧ p.column.toNat = columnNumber source offset
  | .lineText line, some (.lineText text) => text = countedLine source line
  | _, _ => False

theorem counts_counted (hsize : source.utf8ByteSize < UInt32.size - 1) (query : Query) :
    Counts source query (some (counted source query)) := by
  cases query with
  | position offset => exact toNat_countedPosition hsize offset
  | lineText line => exact Eq.refl _

/-- Whatever a line map was asked before, each question is answered by counting the line breaks and
characters of the source. -/
theorem answers_counts {source : String} (hsize : source.utf8ByteSize < UInt32.size - 1)
    (queries : List Query) :
    List.Forall₂ (Counts source) queries ((ofSource source).answers queries) := by
  rw [(tracks_ofSource source).answers, List.forall₂_map_right_iff, List.forall₂_same]
  exact fun query _ => counts_counted hsize query

/-- Offsets inside a line break, inside a character and past the end, and lines that there are not,
in no order. -/
theorem answers_counts_mixed :
    let queries : List Query :=
      [.position 4, .lineText 2, .position 2, .lineText 0, .lineText 4, .position 9]
    "a\r\né\r".utf8ByteSize < UInt32.size - 1 ∧
      List.Forall₂ (Counts "a\r\né\r") queries ((ofSource "a\r\né\r").answers queries) ∧
      [4, 2, 9].map (fun offset => (lineNumber "a\r\né\r" offset, columnNumber "a\r\né\r" offset)) =
        [(2, 2), (1, 3), (3, 1)] ∧
      [2, 0, 4].map (countedLine "a\r\né\r") = ["é", "", ""] := by
  have hsize : "a\r\né\r".utf8ByteSize < UInt32.size - 1 := by decide
  exact ⟨hsize, answers_counts hsize _, by decide, by decide⟩

/-! ## Where 32 bits do not suffice -/

/-- A text of one line. -/
def letters (n : Nat) : String :=
  String.ofList (List.replicate n 'a')

theorem breakEnds_letters (offset n : Nat) : breakEnds offset (List.replicate n 'a') = [] := by
  induction n generalizing offset with
  | zero => rfl
  | succ n ih =>
      rw [List.replicate_succ, breakEnds, if_neg (by simp)]
      exact ih _

theorem utf8ByteSize_letters (n : Nat) : (letters n).utf8ByteSize = n := by
  have hone : ∀ a ∈ List.replicate n 'a', a.utf8Size = 1 := by
    intro a ha
    rw [List.eq_of_mem_replicate ha]
    rfl
  rw [utf8ByteSize_eq_byteLength, letters, String.toList_ofList, byteLength_of_ascii hone,
    List.length_replicate]

/-- The end of a line of `n` letters is in column `n + 1`. -/
theorem numbers_letters (n : Nat) :
    lineNumber (letters n) n = 1 ∧ columnNumber (letters n) n = n + 1 := by
  have hbreaks : breaksBefore (letters n) n = [] := by
    rw [breaksBefore, letters, String.toList_ofList, breakEnds_letters, List.filter_nil]
  have hbytes : byteLength (List.replicate n 'a') = n := by
    have hsize := utf8ByteSize_letters n
    rwa [utf8ByteSize_eq_byteLength, letters, String.toList_ofList] at hsize
  have hall : (charStarts 0 (List.replicate n 'a')).filter (fun start => 0 ≤ start ∧ start < n) =
      charStarts 0 (List.replicate n 'a') := by
    refine List.filter_eq_self.mpr fun start hstart => ?_
    have hbounds := mem_charStarts hstart
    rw [hbytes] at hbounds
    simp only [decide_eq_true_eq]
    omega
  rw [lineNumber, columnNumber, utf8ByteSize_letters, Nat.min_self, lineStartOf, hbreaks]
  refine ⟨rfl, ?_⟩
  rw [List.getLast?_nil, Option.getD_none, letters, String.toList_ofList, hall, length_charStarts,
    List.length_replicate, Nat.add_comm]

/-- The end of the longest line is in column 2 ^ 32, and the answer is column 0. -/
theorem answers_longestLine :
    (letters (UInt32.size - 1)).utf8ByteSize < UInt32.size ∧
      columnNumber (letters (UInt32.size - 1)) (UInt32.size - 1) = UInt32.size ∧
      (ofSource (letters (UInt32.size - 1))).answers [.position (UInt32.size - 1)] =
        [some (.position ⟨1, 0⟩)] := by
  obtain ⟨hline, hcolumn⟩ := numbers_letters (UInt32.size - 1)
  refine ⟨?_, hcolumn, ?_⟩
  · rw [utf8ByteSize_letters]
    decide
  · rw [(tracks_ofSource _).answers, List.map_singleton, counted, countedPosition, hline, hcolumn]
    rfl

end LineMap

end PegScript
