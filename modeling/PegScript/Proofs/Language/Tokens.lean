import PegScript.Proofs.Grammar.Classes
import PegScript.Proofs.Language.Values
import PegScript.Proofs.Semantics.Adequacy
import PegScript.Proofs.Semantics.Boundary
import PegScript.Proofs.Semantics.Probe

/-!
# Reading words, names, blanks and numbers

A word, a name or a number ends in front of a character that cannot be part of a name.  Which word a
text starts with decides which rules can read it: `firstWord` is the longest run of characters of
names at the start of a text, and a word of the language is refused unless it is that run.
-/

namespace PegScript

namespace Language

variable {k : List Char}

/-! ## Characters of names -/

theorem toNat_lt_of_isNamePart {c : Char} (h : isNamePart c = true) : c.toNat < 128 := by
  have hle {a : Char} (hca : c.val ≤ a.val) (ha : a.toNat < 128) : c.toNat < 128 :=
    lt_of_le_of_lt (UInt32.le_iff_toNat_le.mp hca) ha
  delta isNamePart Char.isAlphanum Char.isAlpha Char.isUpper Char.isLower Char.isDigit at h
  simp only [Bool.or_eq_true, Bool.and_eq_true, decide_eq_true_eq, beq_iff_eq] at h
  rcases h with (((⟨-, h⟩ | ⟨-, h⟩) | ⟨-, h⟩) | rfl) | rfl
  · exact hle h (by decide)
  · exact hle h (by decide)
  · exact hle h (by decide)
  · decide
  · decide

theorem contains_identStart (c : Char) :
    (CharClass.ofRanges [('a', 'z'), ('A', 'Z'), ('_', '_'), ('$', '$')] false).contains c =
      isNameStart c := by
  refine CharClass.contains_eq_of_ascii (by decide) (by decide) ?_ c
  intro a ha
  exact toNat_lt_of_isNamePart (isNamePart_of_isNameStart ha)

theorem contains_identPart (c : Char) :
    (CharClass.ofRanges [('a', 'z'), ('A', 'Z'), ('0', '9'), ('_', '_'), ('$', '$')] false).contains
      c = isNamePart c :=
  CharClass.contains_eq_of_ascii (by decide) (by decide)
    (fun _ => toNat_lt_of_isNamePart) c

/-- No name goes on into the text. -/
def Ends (k : List Char) : Prop :=
  ∀ a ∈ k.head?, isNamePart a = false

instance (k : List Char) : Decidable (Ends k) :=
  inferInstanceAs (Decidable (∀ a ∈ k.head?, isNamePart a = false))

theorem reads_identPart {a : Char} (ha : isNamePart a = true) :
    Reads grammar (.rule .identPart) [a] k (.text (String.singleton a)) [] :=
  (reads_charIn (by rw [contains_identPart, ha])).rule

theorem Ends.refuses_identPart (hk : Ends k) : Refuses grammar (.rule .identPart) k := by
  refine (refuses_charIn ?_).rule
  intro a ha
  rw [contains_identPart]
  exact hk a ha

theorem Ends.reads_identParts {name : List Char} (hk : Ends k)
    (hname : name.all isNamePart = true) :
    Reads grammar (.star (.rule .identPart)) name k
      (.list (name.map fun a => .text (String.singleton a))) [] := by
  induction name with
  | nil => exact hk.refuses_identPart.star
  | cons a name ih =>
      rw [List.all_cons, Bool.and_eq_true] at hname
      have hrest := ih hname.2
      exact (reads_identPart hname.1).star_cons (List.cons_ne_nil a []) hrest

/-! ## Words -/

/-- The longest run of characters of names that the text starts with. -/
def firstWord (k : List Char) : List Char :=
  k.takeWhile isNamePart

theorem firstWord_append {w : List Char} (hw : w.all isNamePart = true) :
    firstWord (w ++ k) = w ++ firstWord k :=
  List.takeWhile_append_of_pos (List.all_eq_true.mp hw)

theorem Ends.firstWord_eq_nil (hk : Ends k) : firstWord k = [] := by
  cases k with
  | nil => rfl
  | cons a k =>
      have ha : isNamePart a = false := hk a rfl
      simp [firstWord, ha]

theorem Ends.firstWord_append_eq {w : List Char} (hk : Ends k) (hw : w.all isNamePart = true) :
    firstWord (w ++ k) = w := by
  rw [firstWord_append hw, hk.firstWord_eq_nil, List.append_nil]

theorem Ends.reads_word (hk : Ends k) (w : String) :
    Reads grammar (word w) w.toList k (.list [.text w, .empty]) [] := by
  have hread := (reads_lit w).seq_cons hk.refuses_identPart.not.seq_last
  rw [List.append_nil] at hread
  exact hread

/-- A word is refused unless it is the first word of the text. -/
theorem refuses_word {w : String} (hw : w.toList.all isNamePart = true)
    (h : firstWord k ≠ w.toList) : Refuses grammar (word w) k := by
  by_cases hpre : w.toList <+: k
  · obtain ⟨rest, rfl⟩ := hpre
    rw [firstWord_append hw] at h
    have hends : ¬ Ends rest := by
      intro hends
      simp [hends.firstWord_eq_nil] at h
    simp only [Ends, not_forall, Bool.not_eq_false] at hends
    obtain ⟨a, ha, hpart⟩ := hends
    obtain ⟨rest, rfl⟩ := List.head?_eq_some_iff.mp ha
    have hnot := (reads_identPart (k := rest) hpart).not
    exact Refuses.seq_tail (reads_lit w) hnot.seq_head
  · exact (refuses_lit hpre).seq_head

theorem all_isNamePart_of_mem_keywords {w : String} (hw : w ∈ keywords) :
    w.toList.all isNamePart = true := by
  have hall : ∀ w ∈ keywords, w.toList.all isNamePart = true := by decide +kernel
  exact hall w hw

theorem refuses_keyword {w : String} (hw : w ∈ keywords) (h : firstWord k ≠ w.toList) :
    Refuses grammar (word w) k :=
  refuses_word (all_isNamePart_of_mem_keywords hw) h

theorem refuses_words {words : List String} (hwords : words ⊆ keywords)
    (h : ∀ w ∈ words, firstWord k ≠ w.toList) :
    Refuses grammar (.choice (words.map word)) k := by
  apply refuses_choice
  intro t ht
  obtain ⟨w, hw, rfl⟩ := List.mem_map.mp ht
  exact refuses_keyword (hwords hw) (h w hw)

/-- Of several words the one that is there is read. -/
theorem Ends.reads_words {words : List String} {w : String} (hk : Ends k) (hw : w ∈ words)
    (hwords : words ⊆ keywords) :
    Reads grammar (.choice (words.map word)) w.toList k (.list [.text w, .empty]) [] := by
  have hparts := all_isNamePart_of_mem_keywords (hwords hw)
  induction words with
  | nil => cases hw
  | cons w' words ih =>
      obtain ⟨hw', hwords⟩ := List.cons_subset.mp hwords
      by_cases heq : w = w'
      · subst heq
        exact (hk.reads_word w).choice_here
      · have hrest := ih ((List.mem_cons.mp hw).resolve_left heq) hwords
        refine hrest.choice_later (refuses_keyword hw' ?_)
        rw [hk.firstWord_append_eq hparts, Ne, String.toList_inj]
        exact heq

/-! ## Names -/

theorem Ends.reads_name {name : String} (hk : Ends k) (hname : isName name = true) :
    Reads grammar Lexical.identifierName name.toList k (.text name) [] := by
  have hchars : String.ofList name.toList = name := String.ofList_toList
  obtain ⟨a, as, htext, ha, has⟩ := exists_of_isName hname
  rw [htext] at hchars ⊢
  have hstart : Reads grammar (.rule .identStart) [a] (as ++ k) (.text (String.singleton a)) [] :=
    (reads_charIn (by rw [contains_identStart, ha])).rule
  have hread := (hstart.seq_cons (hk.reads_identParts has).seq_last).text
  rw [List.singleton_append, hchars] at hread
  exact hread

theorem Ends.reads_identifierName {name : String} (hk : Ends k) (hname : isName name = true) :
    Reads grammar (.rule .identifierName) name.toList k (.text name) [] :=
  (hk.reads_name hname).rule

theorem Ends.refuses_keyword {name : String} (hk : Ends k) (hname : isName name = true)
    (hword : isKeyword name = false) : Refuses grammar (.rule .keyword) (name.toList ++ k) := by
  refine (refuses_words (List.Subset.refl _) ?_).rule
  intro w hw heq
  rw [hk.firstWord_append_eq (all_isNamePart_of_isName hname), String.toList_inj] at heq
  rw [heq] at hword
  simp [isKeyword, hw] at hword

theorem Ends.reads_identifier {name : String} (hk : Ends k) (hname : isName name = true)
    (hword : isKeyword name = false) :
    Reads grammar (.rule .identifier) name.toList k (.text name) [] := by
  have hread := (hk.reads_name hname).seq_last
  exact ((hk.refuses_keyword hname hword).not.seq_cons hread).pick 1 |>.rule

/-! ## Blanks -/

/-- Whether neither blanks nor a comment come next. -/
def solid : List Char → Bool
  | [] => true
  | a :: k => !([' ', '\t', '\n', '\r'].contains a) && (a != '/' || k.head? == some ' ')

theorem solid_append {p : List Char} (hp : solid p = true) (hne : p ≠ []) :
    solid (p ++ k) = true := by
  cases p with
  | nil => exact absurd rfl hne
  | cons a p =>
      cases p with
      | nil =>
          have ha : a ≠ '/' := by
            rintro rfl
            cases hp
          simp only [solid, Bool.and_eq_true] at hp
          simp only [List.singleton_append, solid, Bool.and_eq_true]
          exact ⟨hp.1, by simp [ha]⟩
      | cons b p => exact hp

theorem refuses_comment (hk : solid k = true) : Refuses grammar (.rule .comment) k := by
  have hline : ¬ "//".toList <+: k := by
    rintro ⟨rest, rfl⟩
    simp [solid] at hk
  have hblock : ¬ "/*".toList <+: k := by
    rintro ⟨rest, rfl⟩
    simp [solid] at hk
  refine (refuses_choice ?_).rule
  rintro t ht
  simp only [List.mem_cons, List.not_mem_nil, or_false] at ht
  rcases ht with rfl | rfl
  · exact (refuses_lit hline).seq_head.rule
  · exact (refuses_lit hblock).seq_head.rule

theorem contains_blanks {ranges : List (Char × Char)} {blanks : List Char}
    (hranges : ranges.all (fun r => decide ((orderedRange r).2.toNat < 128)) = true)
    (hascii : ∀ i : Fin 128, coversCode ranges i = blanks.contains (Char.ofNat i))
    (hblanks : blanks ⊆ [' ', '\t', '\n', '\r']) (a : Char) :
    (CharClass.ofRanges ranges false).contains a = blanks.contains a := by
  refine CharClass.contains_eq_of_ascii hranges hascii ?_ a
  intro b hb
  have hsmall : ∀ b ∈ [' ', '\t', '\n', '\r'], b.toNat < 128 := by decide
  exact hsmall b (hblanks (by simpa using hb))

/-- Blanks of some class, and comments. -/
def gap (c : CharClass) : Body :=
  .star (.choice [.charIn c, .rule .comment])

theorem refuses_gap_item {c : CharClass} {blanks : List Char}
    (hc : ∀ a, c.contains a = blanks.contains a) (hblanks : blanks ⊆ [' ', '\t', '\n', '\r'])
    (hk : solid k = true) : Refuses grammar (.choice [.charIn c, .rule .comment]) k := by
  have hclass : Refuses grammar (.charIn c) k := by
    apply refuses_charIn
    intro a ha
    obtain ⟨rest, rfl⟩ := List.head?_eq_some_iff.mp ha
    rw [solid, Bool.and_eq_true, Bool.not_eq_true'] at hk
    rw [hc, ← Bool.not_eq_true, List.contains_iff_mem]
    intro hmem
    rw [List.contains_iff_mem.mpr (hblanks hmem)] at hk
    cases hk.1
  exact hclass.choice_cons ((refuses_comment hk).choice_cons (refuses_choice (by simp)))

theorem reads_gap_nil {c : CharClass} {blanks : List Char}
    (hc : ∀ a, c.contains a = blanks.contains a) (hblanks : blanks ⊆ [' ', '\t', '\n', '\r'])
    (hk : solid k = true) : Reads grammar (gap c) [] k (.list []) [] :=
  (refuses_gap_item hc hblanks hk).star

theorem reads_gap_space {c : CharClass} {blanks : List Char}
    (hc : ∀ a, c.contains a = blanks.contains a) (hblanks : blanks ⊆ [' ', '\t', '\n', '\r'])
    (hspace : ' ' ∈ blanks) (hk : solid k = true) :
    Reads grammar (gap c) [' '] k (.list [.text " "]) [] := by
  have hitem : Reads grammar (.choice [.charIn c, .rule .comment]) [' '] k (.text " ") [] := by
    refine Reads.choice_here (reads_charIn ?_)
    rw [hc, List.contains_iff_mem]
    exact hspace
  exact hitem.star_cons (List.cons_ne_nil ' ' []) (reads_gap_nil hc hblanks hk)

theorem contains_blank (a : Char) :
    (CharClass.ofRanges [(' ', ' '), ('\t', '\t')] false).contains a = [' ', '\t'].contains a :=
  contains_blanks (by decide) (by decide) (by decide) a

theorem contains_layout (a : Char) :
    (CharClass.ofRanges [(' ', ' '), ('\t', '\t'), ('\n', '\n'), ('\r', '\r')] false).contains a =
      [' ', '\t', '\n', '\r'].contains a :=
  contains_blanks (by decide) (by decide) (by decide) a

theorem reads_blank_nil (hk : solid k = true) :
    Reads grammar (.rule .blank) [] k (.list []) [] :=
  (reads_gap_nil contains_blank (by decide) hk).rule

theorem reads_blank_space (hk : solid k = true) :
    Reads grammar (.rule .blank) [' '] k (.list [.text " "]) [] :=
  (reads_gap_space contains_blank (by decide) (by decide) hk).rule

theorem reads_layout_nil (hk : solid k = true) :
    Reads grammar (.rule .layout) [] k (.list []) [] :=
  (reads_gap_nil contains_layout (by decide) hk).rule

theorem reads_layout_space (hk : solid k = true) :
    Reads grammar (.rule .layout) [' '] k (.list [.text " "]) [] :=
  (reads_gap_space contains_layout (by decide) (by decide) hk).rule

/-! ## Numbers -/

/-- Whether the rule for numbers accepts the text. -/
def IsNumber (text : String) : Prop :=
  ∃ settings value, (grammar.parseFrom settings .number text).outcome = .ok value

/-- The rules that the rule for numbers refers to. -/
def numberRules (r : Symbol) : Bool :=
  [.hexNumber, .binaryNumber, .octalNumber, .decimalNumber, .identStart].contains r

/-- What the rule for numbers reads, before its action. -/
def numberForm : Body :=
  .seq [
    .choice [.rule .hexNumber, .rule .binaryNumber, .rule .octalNumber, .rule .decimalNumber],
    .not (.rule .identStart)]

/-- Characters that have no place in a number. -/
def afterNumber : List Char :=
  [' ', ',', ';', '=', '/'] ++ delimiters

theorem numberRules_unaware {f : Char} (hf : f ∈ afterNumber) (r : Symbol)
    (hr : numberRules r = true) : (grammar.rule r).body.unaware f numberRules = true := by
  have hall : ∀ f ∈ afterNumber,
      ∀ r ∈ [.hexNumber, .binaryNumber, .octalNumber, .decimalNumber, .identStart],
        (grammar.rule r).body.unaware f numberRules = true := by
    decide +kernel
  exact hall f hf r (by simpa [numberRules] using hr)

theorem numberForm_unaware {f : Char} : numberForm.unaware f numberRules = true := by
  rfl

theorem buildNumber_apply (input : ActionInput Piece) :
    Lexical.buildNumber input =
      if Lexical.hasGoodSeparators (input.start.textTo input.stop) then
        some (.ofNode (Expr.number (input.start.textTo input.stop)), input)
      else none := by
  change (if Lexical.hasGoodSeparators (input.start.textTo input.stop) = true then
      ActionM.produce (Expr.number (input.start.textTo input.stop)) else ActionM.reject) input = _
  split
  · rfl
  · rfl

/-- A number on its own: the whole text has the form of a number, and its separators are good. -/
theorem IsNumber.derives {text : String} (h : IsNumber text) :
    Lexical.hasGoodSeparators text = true ∧
      ∃ m : Reading Piece, Derives grammar numberForm (Cursor.start text) (some m) ∧
        m.stop = ⟨byteLength text.toList, []⟩ := by
  obtain ⟨settings, value, hok⟩ := h
  have hdone := Grammar.overflow_eq_none_of_ok hok
  obtain ⟨stop, hread, hstop⟩ := (Grammar.parseFrom_eq_ok_iff hdone).mp hok
  cases hread with
  | rule hbody =>
    cases hbody with
    | @action act t c m value left hform hact =>
        have hwhole : (Cursor.start text).Reaches ⟨byteLength text.toList, []⟩ :=
          ⟨text.toList, (List.append_nil _).symm, (Nat.zero_add _).symm⟩
        have hend : m.stop = ⟨byteLength text.toList, []⟩ := by
          refine Cursor.IsPlaceOf.eq_of_offset_eq hform.reaches hwhole ?_
          rw [hstop, utf8ByteSize_eq_byteLength]
        have hmatched : (Cursor.start text).textTo m.stop = text := by
          have hall : (Cursor.start text).textTo ⟨byteLength text.toList, []⟩ =
              String.ofList text.toList :=
            Cursor.textTo_eq_ofList (List.append_nil _).symm (Nat.zero_add _).symm
          rw [hend, hall, String.ofList_toList]
        refine ⟨?_, m, hform, hend⟩
        by_contra hbad
        rw [buildNumber_apply] at hact
        simp [hmatched, hbad] at hact

/-- A number is read as one in front of what may follow it. -/
theorem IsNumber.reads {text : String} (h : IsNumber text) {f : Char} (hf : f ∈ afterNumber) :
    Reads grammar (.rule .number) text.toList (f :: k) (.ofNode (Expr.number text)) [] := by
  obtain ⟨hgood, m, hform, hstop⟩ := h.derives
  have hreads : Reads grammar numberForm text.toList (f :: k) m.value m.labels := by
    intro o d hd
    have hwithin := hform.within (numberRules_unaware hf) numberForm_unaware o k
    rw [Cursor.within, Cursor.start, Nat.zero_add] at hwithin
    rw [hd.functional hwithin, Option.map_some, Reading.within, hstop, Cursor.within, Nat.add_comm]
    rfl
  refine (hreads.action ?_).rule
  intro c d hmatched
  rw [String.ofList_toList] at hmatched
  rw [buildNumber_apply]
  simp [hmatched, hgood]

/-- No number has a sign of an assignment or of a comment. -/
theorem IsNumber.not_mem {text : String} (h : IsNumber text) {f : Char} (hf : f ∈ afterNumber) :
    f ∉ text.toList := by
  obtain ⟨-, m, hform, hstop⟩ := h.derives
  obtain ⟨cs, hrest, hcs⟩ := hform.avoids (numberRules_unaware hf) numberForm_unaware
  rw [hstop, List.append_nil] at hrest
  rw [← hrest] at hcs
  exact hcs

theorem zero_ne_toLower {b : Char} (hb : b.isDigit = false) : '0'.toLower ≠ b.toLower := by
  intro h
  have hzero : '0'.toLower = '0' := by decide
  rw [hzero] at h
  delta Char.toLower at h
  split at h
  case isTrue hupper =>
    have hval := congrArg Char.val h
    dsimp only at hval
    grind
  case isFalse =>
    rw [← h] at hb
    revert hb
    decide

theorem contains_digit (c : Char) :
    (CharClass.ofRanges [('0', '9')] false).contains c = c.isDigit := by
  refine CharClass.contains_eq_of_ascii (by decide) (by decide) ?_ c
  intro a ha
  apply toNat_lt_of_isNamePart
  simp [isNamePart, Char.isAlphanum, ha]

theorem refuses_numberForm (hk : ∀ a ∈ k.head?, a.isDigit = false) :
    Refuses grammar numberForm k := by
  have hmark {mark : String} {a : Char} {digits : List (Char × Char)}
      (htext : mark.toList = ['0', a]) : Refuses grammar (Lexical.markedNumber mark digits) k :=
    (refuses_litAnyCase htext fun b hb => zero_ne_toLower (hk b hb)).seq_head
  have hdigit : Refuses grammar Lexical.decimalNumber k := by
    refine (refuses_charIn ?_).seq_head
    intro a ha
    rw [contains_digit]
    exact hk a ha
  refine (refuses_choice ?_).seq_head
  rintro t ht
  simp only [List.mem_cons, List.not_mem_nil, or_false] at ht
  rcases ht with rfl | rfl | rfl | rfl
  · exact (hmark rfl).rule
  · exact (hmark rfl).rule
  · exact (hmark rfl).rule
  · exact hdigit.rule

theorem refuses_number (hk : ∀ a ∈ k.head?, a.isDigit = false) :
    Refuses grammar (.rule .number) k :=
  (refuses_numberForm hk).action.rule

/-- A number starts with a digit. -/
theorem IsNumber.exists_digit {text : String} (h : IsNumber text) :
    ∃ a as, text.toList = a :: as ∧ a.isDigit = true := by
  obtain ⟨-, m, hform, -⟩ := h.derives
  by_contra hno
  refine (refuses_numberForm ?_).not_reads hform
  intro a ha
  obtain ⟨as, has⟩ := List.head?_eq_some_iff.mp ha
  rw [← Bool.not_eq_true]
  exact fun hdigit => hno ⟨a, as, has, hdigit⟩

end Language

end PegScript
