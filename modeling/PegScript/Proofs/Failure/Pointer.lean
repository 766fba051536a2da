import Mathlib.Data.List.TakeWhile
import PegScript.Failure.Diagnosis
import PegScript.Proofs.Text.LineMap

/-!
# Where a report points

A report ends with the line of the source that holds the failure and, below it, a row of dashes with
a caret at the column of the failure.  Three countings have to agree for the caret to stand under
the character that was found: that of the columns, that of the lines, and that of the bytes up to
the failure.

The argument is about the start of the line.  From there to the failure lie as many characters as
the column says (`exists_line_of_append`).  They are characters of the line itself, unless the
failure is at the end of the line or inside its line break, and a line break is at most two
characters long.
-/

namespace PegScript

/-! ## The lines of a text -/

/-- The lines of a text without their line breaks. -/
def linesOf (text : String) : List String :=
  (splitLines text.toList).map String.ofList

/-- The text stays within one line. -/
def Unbroken (text : String) : Prop :=
  ∀ a ∈ text.toList, isLineBreak a = false

theorem isLineBreak_iff {a : Char} : isLineBreak a = true ↔ a = '\r' ∨ a = '\n' := by
  simp [isLineBreak, or_comm]

theorem countedLine_of_linesOf {source text : String} {index : Nat}
    (h : (linesOf source)[index]? = some text) : countedLine source (index + 1) = text := by
  rw [linesOf, List.getElem?_map] at h
  rw [countedLine, h, Option.getD_some]

theorem getElem?_linesOf {source : String} {n : Nat} (hpos : 1 ≤ n)
    (hle : n ≤ (linesOf source).length) :
    (linesOf source)[n - 1]? = some (countedLine source n) := by
  obtain ⟨index, rfl⟩ := Nat.exists_eq_succ_of_ne_zero (Nat.ne_of_gt hpos)
  have hline := List.getElem?_eq_getElem (Nat.lt_of_succ_le hle)
  rw [countedLine_of_linesOf hline]
  exact hline

theorem unbroken_of_all {text : String} (h : text.toList.all (fun a => !isLineBreak a) = true) :
    Unbroken text := by
  simpa [Unbroken] using h

theorem Unbroken.append {s t : String} (hs : Unbroken s) (ht : Unbroken t) :
    Unbroken (s ++ t) := by
  unfold Unbroken
  rw [String.toList_append]
  exact List.forall_mem_append.mpr ⟨hs, ht⟩

theorem unbroken_replicate (n : Nat) {a : Char} (ha : isLineBreak a = false) :
    Unbroken (String.ofList (List.replicate n a)) := by
  intro b hb
  rw [String.toList_ofList] at hb
  rw [List.eq_of_mem_replicate hb, ha]

theorem unbroken_toString (n : Nat) : Unbroken (toString n) := by
  intro a ha
  rw [Nat.toString_eq_ofList_toDigits, String.toList_ofList] at ha
  have hdigit := Nat.isDigit_of_mem_toDigits (by decide) (by decide) ha
  rw [isLineBreak, Bool.or_eq_false_iff, beq_eq_false_iff_ne, beq_eq_false_iff_ne]
  constructor <;> rintro rfl <;> cases hdigit

theorem unbroken_countedLine (source : String) (n : Nat) : Unbroken (countedLine source n) := by
  intro a ha
  cases n with
  | zero => cases ha
  | succ n =>
      rw [countedLine, ← map_text_startsFrom 0, List.getElem?_map] at ha
      cases hstart : (startsFrom ⟨0, source.toList⟩)[n]? with
      | none => simp [hstart] at ha
      | some c =>
          simp only [hstart, Option.map_some, Option.getD_some, String.toList_ofList] at ha
          simpa using List.mem_takeWhile_imp ha

/-- A line feed ends a line, whatever is before it. -/
theorem exists_splitLines_append (cs rest : List Char) :
    ∃ before, before ≠ [] ∧ splitLines (cs ++ '\n' :: rest) = before ++ splitLines rest := by
  fun_induction splitLines cs with
  | case1 => exact ⟨[[]], by simp, rfl⟩
  | case2 cs ih =>
      obtain ⟨before, -, hsplit⟩ := ih
      exact ⟨[] :: before, by simp, by simp [splitLines, hsplit]⟩
  | case3 a cs hcrlf hbreak ih =>
      by_cases hsplit : a = '\r' ∧ cs = []
      · obtain ⟨rfl, rfl⟩ := hsplit
        exact ⟨[[]], by simp, rfl⟩
      · obtain ⟨before, -, hrest⟩ := ih
        refine ⟨[] :: before, by simp, ?_⟩
        rw [List.cons_append, splitLines, if_pos hbreak, hrest, List.cons_append]
        rintro rest' rfl heq
        cases cs with
        | nil => exact hsplit ⟨rfl, rfl⟩
        | cons b cs =>
            cases heq
            exact hcrlf cs rfl rfl
  | case4 a cs hcrlf hplain ih =>
      obtain ⟨before, hne, hrest⟩ := ih
      refine ⟨before.modifyHead (a :: ·), by simpa using hne, ?_⟩
      rw [List.cons_append, splitLines, if_neg hplain, hrest]
      · cases before with
        | nil => exact absurd rfl hne
        | cons line before => rfl
      · rintro rest' rfl
        exact absurd rfl hplain

theorem splitLines_append_of_unbroken {line : List Char}
    (hline : ∀ a ∈ line, isLineBreak a = false) (rest : List Char) :
    splitLines (line ++ '\n' :: rest) = line :: splitLines rest := by
  induction line with
  | nil => rfl
  | cons a line ih =>
      obtain ⟨ha, hline⟩ := List.forall_mem_cons.mp hline
      rw [List.cons_append, splitLines, ha, ih hline]
      · rfl
      · rintro rest' rfl
        cases ha

theorem splitLines_of_unbroken {line : List Char} (hline : ∀ a ∈ line, isLineBreak a = false) :
    splitLines line = [line] := by
  induction line with
  | nil => rfl
  | cons a line ih =>
      obtain ⟨ha, hline⟩ := List.forall_mem_cons.mp hline
      rw [splitLines, ha, ih hline]
      · rfl
      · rintro rest' rfl
        cases ha

theorem toList_intercalate_cons (row next : String) (rows : List String) :
    ("\n".intercalate (row :: next :: rows)).toList =
      row.toList ++ '\n' :: ("\n".intercalate (next :: rows)).toList := by
  simp [String.intercalate_cons_cons]

/-- Rows that are joined by line feeds are the lines of the text. -/
theorem linesOf_intercalate {row : String} {rows : List String} (hrow : Unbroken row)
    (hrows : ∀ row ∈ rows, Unbroken row) :
    linesOf ("\n".intercalate (row :: rows)) = row :: rows := by
  induction rows generalizing row with
  | nil => simp [linesOf, splitLines_of_unbroken hrow]
  | cons next rows ih =>
      obtain ⟨hnext, hrows⟩ := List.forall_mem_cons.mp hrows
      have hlater := ih hnext hrows
      rw [linesOf] at hlater ⊢
      rw [toList_intercalate_cons, splitLines_append_of_unbroken hrow, List.map_cons, hlater,
        String.ofList_toList]

/-- Rows that are joined by line feeds end the text, whatever is before them. -/
theorem exists_linesOf_intercalate (head : String) {row : String} {rows : List String}
    (hrow : Unbroken row) (hrows : ∀ row ∈ rows, Unbroken row) :
    ∃ before, linesOf ("\n".intercalate (head :: row :: rows)) = before ++ row :: rows := by
  obtain ⟨before, -, hsplit⟩ :=
    exists_splitLines_append head.toList ("\n".intercalate (row :: rows)).toList
  have hlines := linesOf_intercalate hrow hrows
  rw [linesOf] at hlines
  refine ⟨before.map String.ofList, ?_⟩
  rw [linesOf, toList_intercalate_cons, hsplit, List.map_append, hlines]

/-! ## The line of an offset -/

/-- Of two places reached from one place, the one with the smaller offset comes first. -/
theorem Cursor.Reaches.of_offset_le {c d e : Cursor} (hd : c.Reaches d) (he : c.Reaches e)
    (hle : d.offset ≤ e.offset) : d.Reaches e := by
  obtain ⟨cs, hrest, hd⟩ := hd
  obtain ⟨ds, hrest', he⟩ := he
  have happend : cs ++ d.rest = ds ++ e.rest := by
    rw [← hrest, ← hrest']
  rcases List.append_eq_append_iff.mp happend with ⟨es, rfl, hes⟩ | ⟨es, rfl, hes⟩
  · refine ⟨es, hes, ?_⟩
    rw [byteLength_append] at he
    omega
  · rw [byteLength_append] at hd
    have hnone : es = [] := byteLength_eq_zero_iff.mp (by omega)
    subst hnone
    exact ⟨[], hes.symm, by simpa using (by omega : e.offset = d.offset)⟩

/-- Before the end of a line break there is nothing but the line break. -/
theorem isLineBreak_of_lt_afterBreak {c : Cursor} {cs rest : List Char}
    (hbreak : ∀ a ∈ c.rest.head?, isLineBreak a = true) (hrest : c.rest = cs ++ rest)
    (hbefore : ∀ next, c.afterBreak? = some next → c.offset + byteLength cs < next.offset) :
    ∀ a ∈ rest.head?, isLineBreak a = true := by
  unfold Cursor.afterBreak? at hbefore
  split at hbefore
  case h_1 hempty =>
    obtain ⟨-, rfl⟩ := List.append_eq_nil_iff.mp (hrest.symm.trans hempty)
    simp
  case h_2 tail hcrlf =>
    have hless : c.offset + byteLength cs < c.offset + 2 := hbefore _ rfl
    rw [hcrlf] at hrest
    cases cs with
    | nil =>
        rw [List.nil_append] at hrest
        subst hrest
        simp [isLineBreak]
    | cons a cs =>
        rw [List.cons_append] at hrest
        obtain ⟨rfl, htail⟩ := List.cons.inj hrest
        have hone : '\r'.utf8Size = 1 := rfl
        rw [byteLength_cons, hone] at hless
        have hnone : cs = [] := byteLength_eq_zero_iff.mp (by omega)
        rw [hnone, List.nil_append] at htail
        subst htail
        simp [isLineBreak]
  case h_3 b tail _ hone =>
    have hless : c.offset + byteLength cs < c.offset + 1 := hbefore _ rfl
    have hnone : cs = [] := byteLength_eq_zero_iff.mp (by omega)
    rwa [hrest, hnone] at hbreak

/-- Between the start of a line and a place before the next line lie characters of the line.  If
these are all of them, the place is at a line break or at the end. -/
theorem head?_of_lt_nextLine {c : Cursor} {cs rest text : List Char} (hrest : c.rest = cs ++ rest)
    (hbefore : ∀ next, c.nextLine? = some next → c.offset + byteLength cs < next.offset)
    (htext : c.rest.takeWhile (fun a => !isLineBreak a) = text) :
    (cs.length < text.length → rest.head? = text[cs.length]?) ∧
      (text.length ≤ cs.length → ∀ a ∈ rest.head?, isLineBreak a = true) := by
  obtain ⟨text', hline, hoffset, hplain, hbreak⟩ := exists_of_lineStop c
  have hsame : text' = text := by
    rw [← htext, hline, takeWhile_append_of_break hplain hbreak]
  subst hsame
  have happend : cs ++ rest = text' ++ c.lineStop.rest := by
    rw [← hrest, hline]
  constructor
  · intro hless
    have hat : (cs ++ rest)[cs.length]? = (text' ++ c.lineStop.rest)[cs.length]? := by
      rw [happend]
    rwa [List.getElem?_append_right (Nat.le_refl _), Nat.sub_self, ← List.head?_eq_getElem?,
      List.getElem?_append_left hless] at hat
  · intro hle
    obtain ⟨es, rfl, hes⟩ : ∃ es, cs = text' ++ es ∧ c.lineStop.rest = es ++ rest := by
      rcases List.append_eq_append_iff.mp happend with ⟨es, hcs, hes⟩ | hlonger
      · have hnone : es = [] := by
          have hlength := congrArg List.length hcs
          rw [List.length_append] at hlength
          exact List.length_eq_zero_iff.mp (by omega)
        subst hnone
        exact ⟨[], by simpa using hcs.symm, by simpa using hes.symm⟩
      · exact hlonger
    refine isLineBreak_of_lt_afterBreak hbreak hes fun next hnext => ?_
    have hless := hbefore next hnext
    rw [byteLength_append] at hless
    omega

/-- The position of a place of a source: the place follows as many characters of its line as the
column says, or it is at a line break or at the end. -/
theorem exists_line_of_append (before after : String) :
    ∃ (index n : Nat) (text : String), (linesOf (before ++ after))[index]? = some text ∧
      lineNumber (before ++ after) before.utf8ByteSize = index + 1 ∧
      columnNumber (before ++ after) before.utf8ByteSize = n + 1 ∧
      (n < text.length → after.toList.head? = text.toList[n]?) ∧
      (text.length ≤ n → ∀ a ∈ after.toList.head?, isLineBreak a = true) := by
  have hmin : min before.utf8ByteSize (before ++ after).utf8ByteSize = before.utf8ByteSize := by
    rw [String.utf8ByteSize_append]
    omega
  have hplace : (⟨before.utf8ByteSize, after.toList⟩ : Cursor).IsPlaceOf (before ++ after) :=
    ⟨before.toList, by simp [Cursor.start], by simp [Cursor.start, utf8ByteSize_eq_byteLength]⟩
  obtain ⟨index, c, hc, hholds⟩ :=
    LineMap.exists_holdsAt (before ++ after) before.utf8ByteSize
  obtain ⟨hnumber, hposition⟩ := numbers_eq hc (by rw [hmin]; exact hholds)
  obtain ⟨d, hd, hle, hnext⟩ := hholds
  obtain rfl : c = d := Option.some.inj (hc.symm.trans hd)
  obtain ⟨cs, hrest, hoffset⟩ :=
    (reaches_of_mem_startsFrom (List.mem_of_getElem? hc)).of_offset_le hplace hle
  have hnext : ∀ next, c.nextLine? = some next → c.offset + byteLength cs < next.offset := by
    rw [← getElem?_startsFrom_succ hc, ← hoffset]
    exact hnext
  have hcolumn : takeBytes (min before.utf8ByteSize (before ++ after).utf8ByteSize - c.offset)
      c.rest = cs := by
    have hbytes : before.utf8ByteSize - c.offset = byteLength cs := Nat.sub_eq_of_eq_add' hoffset
    rw [hmin, hbytes, hrest, takeBytes_byteLength]
  rw [hcolumn] at hposition
  obtain ⟨hinside, hpast⟩ := head?_of_lt_nextLine hrest hnext rfl
  refine ⟨index, cs.length, String.ofList (c.rest.takeWhile fun a => !isLineBreak a), ?_,
    hnumber, hposition, ?_, ?_⟩
  · rw [linesOf, ← map_text_startsFrom 0, List.map_map, List.getElem?_map]
    exact congrArg (Option.map _) hc
  · simpa using hinside
  · simpa using hpast

/-! ## The report -/

namespace Diagnosis

/-- The offset is between two characters of the source or at one of its ends, and the character
found is the one that follows. -/
def Describes (d : Diagnosis) (source : String) : Prop :=
  ∃ before after : String, source = before ++ after ∧ before.utf8ByteSize = d.offset ∧
    d.found = after.toList.head?

/-- What stands before the text of a row: a label, filled up with blanks, and a bar. -/
def gutter (width : Nat) (label : String) : String :=
  padLeft width label ++ " | "

theorem length_padLeft (width : Nat) (text : String) :
    (padLeft width text).length = max width text.length := by
  rw [padLeft, String.length_append, String.length_ofList, List.length_replicate]
  omega

theorem length_gutter {width : Nat} {label : String} (h : label.length ≤ width) :
    (gutter width label).length = width + 3 := by
  rw [gutter, String.length_append, length_padLeft, Nat.max_eq_left h]
  rfl

/-- The number of an earlier line is not longer. -/
theorem length_toString_le {m n : Nat} (h : m ≤ n) : (toString m).length ≤ (toString n).length := by
  rw [Nat.toString_eq_ofList_toDigits, Nat.toString_eq_ofList_toDigits, String.length_ofList,
    String.length_ofList, Nat.length_toDigits_le_iff (by decide) Nat.length_toDigits_pos]
  exact Nat.lt_of_le_of_lt h
    ((Nat.length_toDigits_le_iff (by decide) Nat.length_toDigits_pos).mp (Nat.le_refl _))

theorem unbroken_gutter (width : Nat) {label : String} (h : Unbroken label) :
    Unbroken (gutter width label) :=
  ((unbroken_replicate _ rfl).append h).append (unbroken_of_all rfl)

theorem unbroken_render (p : Position) : Unbroken p.render := by
  have hline : Unbroken "line " := unbroken_of_all rfl
  have hcol : Unbroken ", col " := unbroken_of_all rfl
  exact ((hline.append (unbroken_toString _)).append hcol).append (unbroken_toString _)

/-- The row that shows line `n` of the source. -/
def quotedRow (source : String) (width n : Nat) : String :=
  gutter width (toString n) ++ countedLine source n

/-- The row with the caret. -/
def caretRow (width column : Nat) : String :=
  gutter width "" ++ String.ofList (List.replicate (column - 1) '-') ++ "^"

theorem unbroken_quotedRow (source : String) (width n : Nat) :
    Unbroken (quotedRow source width n) :=
  (unbroken_gutter width (unbroken_toString n)).append (unbroken_countedLine source n)

theorem unbroken_caretRow (width column : Nat) : Unbroken (caretRow width column) :=
  ((unbroken_gutter width fun _ ha => by cases ha).append (unbroken_replicate _ rfl)).append
    (unbroken_of_all rfl)

/-- The rows below the position: the line before, if there is one, the line itself and the caret. -/
def excerpt (source : String) (line column : Nat) : List String :=
  let width := (toString line).length
  (if 1 < line then [quotedRow source width (line - 1)] else []) ++
    [quotedRow source width line, caretRow width column]

theorem unbroken_of_mem_excerpt {source row : String} {line column : Nat}
    (h : row ∈ excerpt source line column) : Unbroken row := by
  rcases List.mem_append.mp h with hbefore | hlast
  · split at hbefore
    · rw [List.mem_singleton.mp hbefore]
      exact unbroken_quotedRow _ _ _
    · cases hbefore
  · rcases List.mem_pair.mp hlast with rfl | rfl
    · exact unbroken_quotedRow _ _ _
    · exact unbroken_caretRow _ _

theorem quoteLines_eq {source : String} {map : LineMap} (h : map.Tracks source) (width : Nat)
    (ns : List UInt32) :
    quoteLines width map ns = ns.map fun n => quotedRow source width n.toNat := by
  induction ns generalizing map with
  | nil => rfl
  | cons n ns ih =>
      obtain ⟨htext, htracks⟩ := h.lineText n.toNat
      have hasked := Prod.ext (y := (_, (map.lineText n.toNat).2)) htext rfl
      rw [quoteLines, hasked, List.map_cons, ← ih htracks]
      rfl

/-- The lines that a report quotes. -/
theorem map_quotedRow (source : String) (width : Nat) (line : UInt32) :
    (if 1 < line then [line - 1, line] else [line]).map (fun n => quotedRow source width n.toNat) =
      (if 1 < line.toNat then [quotedRow source width (line.toNat - 1)] else []) ++
        [quotedRow source width line.toNat] := by
  have hsecond : 1 < line ↔ 1 < line.toNat := UInt32.lt_iff_toNat_lt
  by_cases hless : 1 < line
  · have hprevious : (line - 1).toNat = line.toNat - 1 :=
      UInt32.toNat_sub_of_le _ _ (UInt32.le_of_lt hless)
    rw [if_pos hless, if_pos (hsecond.mp hless), List.map_cons, hprevious]
    rfl
  · rw [if_neg hless, if_neg (mt hsecond.mpr hless)]
    rfl

theorem render_eq (d : Diagnosis) (source : String) {line column : UInt32}
    (hposition : d.position source = ⟨line, column⟩) :
    d.render source = "\n".intercalate
      (d.message :: (Position.mk line column).render ::
        excerpt source line.toNat column.toNat) := by
  obtain ⟨hfound, htracks⟩ := (LineMap.tracks_ofSource source).position d.offset
  have hcounted : countedPosition source d.offset = ⟨line, column⟩ := by
    rw [← LineMap.positionIn_eq, ← hposition, position]
  rw [hcounted] at hfound
  have hasked := Prod.ext (y := (_, ((LineMap.ofSource source).position d.offset).2)) hfound rfl
  rw [render, hasked]
  simp only [Option.getD_some, quoteLines_eq htracks, map_quotedRow, excerpt, caretRow, gutter,
    sourceLine, String.append_assoc, List.append_assoc, List.cons_append, List.nil_append]
  rfl

/-- The lines that a report ends with, even if its message has line breaks. -/
theorem exists_linesOf_render (d : Diagnosis) (source : String) {line column : UInt32}
    (hposition : d.position source = ⟨line, column⟩) :
    ∃ head, linesOf (d.render source) = head ++ (Position.mk line column).render ::
      excerpt source line.toNat column.toNat := by
  rw [render_eq d source hposition]
  exact exists_linesOf_intercalate d.message (unbroken_render _) fun _ => unbroken_of_mem_excerpt

/-- The gutters of the lines up to the one that is meant have one width. -/
theorem length_gutter_toString {n line : Nat} (h : n ≤ line) :
    (gutter (toString line).length (toString n)).length =
      (gutter (toString line).length "").length := by
  rw [length_gutter (length_toString_le h), length_gutter (Nat.zero_le _)]

/-- The reported line is a line of the source.  The character found is in the reported column, if
it is in the line at all. -/
theorem Describes.found {d : Diagnosis} {source : String} {line column : UInt32}
    (h : d.Describes source) (hsize : source.utf8ByteSize < UInt32.size - 1)
    (hposition : d.position source = ⟨line, column⟩) :
    1 ≤ line.toNat ∧ line.toNat ≤ (linesOf source).length ∧ 1 ≤ column.toNat ∧
      (column.toNat ≤ (countedLine source line.toNat).length →
        d.found = (countedLine source line.toNat).toList[column.toNat - 1]?) ∧
      ((countedLine source line.toNat).length < column.toNat →
        ∀ a ∈ d.found, isLineBreak a = true) := by
  obtain ⟨hline, hcolumn⟩ := toNat_countedPosition hsize d.offset
  rw [← LineMap.positionIn_eq, ← position, hposition] at hline hcolumn
  obtain ⟨before, after, rfl, hoffset, hfound⟩ := h
  obtain ⟨index, n, text, htext, hindex, hn, hinside, hpast⟩ := exists_line_of_append before after
  obtain ⟨hless, -⟩ := List.getElem?_eq_some_iff.mp htext
  rw [← hoffset] at hline hcolumn
  rw [hline, hcolumn, hindex, hn, countedLine_of_linesOf htext, hfound]
  exact ⟨by omega, hless, by omega, hinside, fun hlonger => hpast (Nat.le_of_lt_succ hlonger)⟩

/-- A character that is no line break is in its line, in the reported column. -/
theorem Describes.getElem?_of_found {d : Diagnosis} {source : String} {line column : UInt32}
    (h : d.Describes source) (hsize : source.utf8ByteSize < UInt32.size - 1)
    (hposition : d.position source = ⟨line, column⟩) {a : Char}
    (hfound : d.found = some a) (hplain : isLineBreak a = false) :
    (countedLine source line.toNat).toList[column.toNat - 1]? = some a := by
  obtain ⟨-, -, -, hinside, hpast⟩ := h.found hsize hposition
  rw [← hfound, hinside]
  by_contra hpasses
  rw [hpast (Nat.lt_of_not_le hpasses) a hfound] at hplain
  cases hplain

/-- At a line break or at the end of the source the column is past the line. -/
theorem Describes.length_lt {d : Diagnosis} {source : String} {line column : UInt32}
    (h : d.Describes source) (hsize : source.utf8ByteSize < UInt32.size - 1)
    (hposition : d.position source = ⟨line, column⟩)
    (hbreak : ∀ a, d.found = some a → isLineBreak a = true) :
    (countedLine source line.toNat).length < column.toNat := by
  obtain ⟨-, -, hcolumn, hinside, -⟩ := h.found hsize hposition
  by_contra hpasses
  have hless : column.toNat - 1 < (countedLine source line.toNat).toList.length := by
    rw [String.length_toList]
    omega
  have hfound := hinside (Nat.le_of_not_lt hpasses)
  rw [List.getElem?_eq_getElem hless] at hfound
  have hplain := unbroken_countedLine source line.toNat _ (List.getElem_mem hless)
  rw [hbreak _ hfound] at hplain
  cases hplain

/-- A report points at the character that was found.  Its last two lines are the reported line of
the source and the row with the caret, behind gutters as wide as that of the line before.  The caret
stands below the character found, or past the line if that is a line break or if the source ends
there.  A line map gives the same position and the same line. -/
theorem render_pointer (d : Diagnosis) {source : String} {line column : UInt32}
    (hsize : source.utf8ByteSize < UInt32.size - 1) (hdescribes : d.Describes source)
    (hposition : d.position source = ⟨line, column⟩) :
    ∃ (above : List String) (width : Nat), width = (toString line).length ∧
      linesOf (d.render source) =
        above ++ [quotedRow source width line.toNat, caretRow width column.toNat] ∧
      (1 < line.toNat →
        ∃ earlier, above = earlier ++ [quotedRow source width (line.toNat - 1)]) ∧
      (∀ n ≤ line.toNat, (gutter width (toString n)).length = (gutter width "").length) ∧
      (∀ n, 1 ≤ n → n ≤ line.toNat → (linesOf source)[n - 1]? = some (countedLine source n)) ∧
      1 ≤ line.toNat ∧ 1 ≤ column.toNat ∧
      (∀ a, d.found = some a → a ≠ '\r' → a ≠ '\n' →
        (countedLine source line.toNat).toList[column.toNat - 1]? = some a) ∧
      ((∀ a, d.found = some a → a = '\r' ∨ a = '\n') →
        (countedLine source line.toNat).length < column.toNat) ∧
      (LineMap.ofSource source).answers [.position d.offset, .lineText line.toNat] =
        [some (.position ⟨line, column⟩), some (.lineText (countedLine source line.toNat))] := by
  obtain ⟨head, hlines⟩ := exists_linesOf_render d source hposition
  obtain ⟨hline, hlast, hcolumn, -, -⟩ := hdescribes.found hsize hposition
  have hcounted : countedPosition source d.offset = ⟨line, column⟩ := by
    rw [← LineMap.positionIn_eq, ← hposition, position]
  refine ⟨head ++ (Position.mk line column).render ::
      (if 1 < line.toNat then [quotedRow source (toString line).length (line.toNat - 1)] else []),
    (toString line).length, rfl, ?_, ?_, fun n => length_gutter_toString, ?_, hline, hcolumn,
    ?_, ?_, ?_⟩
  · rw [hlines, excerpt, List.append_assoc, List.cons_append]
    rfl
  · intro hsecond
    rw [if_pos hsecond]
    exact ⟨head ++ [(Position.mk line column).render], by simp⟩
  · exact fun n hpos hle => getElem?_linesOf hpos (Nat.le_trans hle hlast)
  · intro a hfound hreturn hfeed
    refine hdescribes.getElem?_of_found hsize hposition hfound
      (Bool.eq_false_iff.mpr fun hbreak => ?_)
    exact (isLineBreak_iff.mp hbreak).elim hreturn hfeed
  · exact fun hbreak =>
      hdescribes.length_lt hsize hposition fun a hfound => isLineBreak_iff.mpr (hbreak a hfound)
  · rw [(LineMap.tracks_ofSource source).answers, List.map_cons, List.map_singleton,
      LineMap.counted, LineMap.counted, hcounted]

/-- A failure in the second line, behind a line break of two bytes and a character of two bytes. -/
theorem render_pointer_second_line :
    let d : Diagnosis := ⟨5, [.endOfInput], some ';'⟩
    "a\r\né;".utf8ByteSize < UInt32.size - 1 ∧ d.Describes "a\r\né;" ∧
      d.position "a\r\né;" = ⟨2, 2⟩ ∧
      (∃ above, linesOf (d.render "a\r\né;") = above ++ ["2 | é;", "  | -^"]) ∧
      (countedLine "a\r\né;" 2).toList[1]? = some ';' := by
  have hsize : "a\r\né;".utf8ByteSize < UInt32.size - 1 := by decide
  have hdescribes : Describes ⟨5, [.endOfInput], some ';'⟩ "a\r\né;" :=
    ⟨"a\r\né", ";", by decide, by decide, by decide⟩
  have hposition : position ⟨5, [.endOfInput], some ';'⟩ "a\r\né;" = ⟨2, 2⟩ := by
    rw [position, LineMap.positionIn_eq]
    decide
  obtain ⟨above, width, rfl, hlines, -, -, -, -, -, hfound, -⟩ :=
    render_pointer _ hsize hdescribes hposition
  have hline :
      quotedRow "a\r\né;" (toString (2 : UInt32)).length (2 : UInt32).toNat = "2 | é;" := by
    decide
  have hcaret : caretRow (toString (2 : UInt32)).length (2 : UInt32).toNat = "  | -^" := by decide
  rw [hline, hcaret] at hlines
  exact ⟨hsize, hdescribes, hposition, ⟨above, hlines⟩, hfound ';' rfl (by decide) (by decide)⟩

/-- At the end of a line of 2 ^ 32 - 1 letters the report has column 0, and the caret stands below
the first letter. -/
theorem render_longestLine :
    let d : Diagnosis := ⟨UInt32.size - 1, [.endOfInput], none⟩
    let source := LineMap.letters (UInt32.size - 1)
    d.Describes source ∧ d.position source = ⟨1, 0⟩ ∧
      (∃ above, linesOf (d.render source) = above ++ [quotedRow source 1 1, "  | ^"]) ∧
      (countedLine source 1).length = UInt32.size - 1 := by
  intro d source
  have hdescribes : d.Describes source :=
    ⟨source, "", String.append_empty.symm, LineMap.utf8ByteSize_letters _, rfl⟩
  have hposition : d.position source = ⟨1, 0⟩ := by
    obtain ⟨hline, hcolumn⟩ := LineMap.numbers_letters (UInt32.size - 1)
    rw [position, LineMap.positionIn_eq, countedPosition, hline, hcolumn]
    rfl
  obtain ⟨head, hlines⟩ := exists_linesOf_render d source hposition
  refine ⟨hdescribes, hposition, ⟨head ++ [(Position.mk 1 0).render], ?_⟩, ?_⟩
  · have hexcerpt : excerpt source (1 : UInt32).toNat (0 : UInt32).toNat =
        [quotedRow source 1 1, "  | ^"] := rfl
    rw [hlines, hexcerpt, List.append_assoc, List.singleton_append]
  · have hlines : linesOf source = [source] := by
      have hunbroken : Unbroken source := unbroken_replicate (UInt32.size - 1) rfl
      rw [linesOf, splitLines_of_unbroken hunbroken, List.map_singleton, String.ofList_toList]
    have hfirst : (linesOf source)[0]? = some source := by
      rw [hlines]
      rfl
    rw [countedLine_of_linesOf hfirst]
    exact (String.length_ofList ..).trans List.length_replicate

end Diagnosis

end PegScript
