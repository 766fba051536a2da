import PegScript.Proofs.Language.Chains
import PegScript.Proofs.Language.NestingLimit
import PegScript.Proofs.Language.TrailingLayout

/-!
# Bracketed lists

The rule for a list tries items with commas between them, then one comma more, then the bracket, and
layout may stand anywhere between.  A list of names is written here as `Token`s: commas and names
with the layout behind each of them.  What the rule for arrays makes of such a text depends on the
marks alone, and `names?` says what that is.

Two things have to be known about a name in a list.  No rule takes the name and what comes next for
a longer expression: `idle` is a check on terms that shows this, for layout of any length, as what
comes next is a comma, a bracket or a name that is no keyword.  And a comma that has been read in
vain, because no item comes behind it, is read once more as the comma at the end.

The comma at the end does not ask for an item in front.  So `[,]` is read as an empty list.
-/

namespace PegScript

namespace Language

open Expression

variable {k space : List Char}

/-! ## Layout of any length -/

/-- Of a run of layout, a gap reads all up to the first character that is not of its class. -/
theorem reads_gap_run {c : CharClass} {blanks : List Char}
    (hc : ∀ a, c.contains a = blanks.contains a) (hblanks : blanks ⊆ [' ', '\t', '\n', '\r'])
    (hspace : ∀ a ∈ space, a ∈ layoutChars) (hk : solid k = true) :
    ∃ (u rest : List Char) (vs : List (Value Piece)), space = u ++ rest ∧
      Reads grammar (gap c) u (rest ++ k) (.list vs) [] ∧ ∀ a ∈ rest.head?, a ∉ blanks := by
  induction space with
  | nil => exact ⟨[], [], [], rfl, reads_gap_nil hc hblanks hk, by simp⟩
  | cons a space ih =>
      obtain ⟨ha, hspace⟩ := List.forall_mem_cons.mp hspace
      by_cases hblank : a ∈ blanks
      · obtain ⟨u, rest, vs, hsplit, hread, hrest⟩ := ih hspace
        have hitem : Reads grammar (.choice [.charIn c, .rule .comment]) [a] (u ++ (rest ++ k))
            (.text (String.singleton a)) [] := by
          refine Reads.choice_here (reads_charIn ?_)
          rw [hc, List.contains_iff_mem]
          exact hblank
        have hmore := hitem.star_cons (List.cons_ne_nil a []) hread
        exact ⟨a :: u, rest, _, congrArg (a :: ·) hsplit, hmore, hrest⟩
      · have hclass : Refuses grammar (.charIn c) (a :: space ++ k) := by
          refine refuses_charIn ?_
          rintro b ⟨⟩
          rw [hc, ← Bool.not_eq_true, List.contains_iff_mem]
          exact hblank
        have hcomment : Refuses grammar (.rule .comment) (a :: space ++ k) := by
          have hall : ∀ a ∈ layoutChars,
              (grammar.probe false 150 (.rule .comment) [a]).isFails = true := by
            decide
          exact refuses_on [a] (hall a ha)
        refine ⟨[], a :: space, [], rfl, ?_, ?_⟩
        · exact (hclass.choice_cons (hcomment.choice_cons (refuses_choice (by simp)))).star
        · rintro b ⟨⟩
          exact hblank

theorem reads_layout_run (hspace : ∀ a ∈ space, a ∈ layoutChars) (hk : solid k = true) :
    ∃ vs, Reads grammar (.rule .layout) space k (.list vs) [] := by
  obtain ⟨u, rest, vs, hsplit, hread, hrest⟩ :=
    reads_gap_run contains_layout (by decide) hspace hk
  have hnil : rest = [] := by
    cases rest with
    | nil => rfl
    | cons a rest => exact absurd (hspace a (by simp [hsplit])) (hrest a rfl)
  rw [hnil, List.append_nil] at hsplit
  rw [hnil, List.nil_append, ← hsplit] at hread
  exact ⟨vs, hread.rule⟩

/-- Blanks are read up to the first line break. -/
theorem reads_blank_run (hspace : ∀ a ∈ space, a ∈ layoutChars) (hk : solid k = true) :
    ∃ (u rest : List Char) (vs : List (Value Piece)), space = u ++ rest ∧
      Reads grammar (.rule .blank) u (rest ++ k) (.list vs) [] := by
  obtain ⟨u, rest, vs, hsplit, hread, -⟩ := reads_gap_run contains_blank (by decide) hspace hk
  exact ⟨u, rest, vs, hsplit, hread.rule⟩

/-! ## What does not go on behind an item -/

/-- What may come next in a list, apart from layout. -/
inductive Proceeds : List Char → Prop where
  | comma (k : List Char) : Proceeds (',' :: k)
  | close (k : List Char) : Proceeds (']' :: k)
  | name {name : String} {k : List Char} (hname : isVariable name = true) (hk : Ends k) :
      Proceeds (name.toList ++ k)

theorem isNamePart_of_mem_layoutChars {a : Char} (h : a ∈ layoutChars) :
    isNamePart a = false := by
  have hall : ∀ a ∈ layoutChars, isNamePart a = false := by decide
  exact hall a h

/-- Whether the character may come next in a list. -/
def isListChar (a : Char) : Bool :=
  isNamePart a || [',', ']'].contains a || layoutChars.contains a

theorem exists_isNameStart_of_isVariable {name : String} (h : isVariable name = true) :
    ∃ a as, name.toList = a :: as ∧ isNameStart a = true := by
  rw [isVariable, Bool.and_eq_true] at h
  obtain ⟨a, as, htext, ha, -⟩ := exists_of_isName h.1
  exact ⟨a, as, htext, ha⟩

theorem Proceeds.exists_head (h : Proceeds k) :
    ∃ a as, k = a :: as ∧ (isNamePart a = true ∨ a ∈ [',', ']']) := by
  cases h with
  | comma k => exact ⟨_, _, rfl, .inr (by decide)⟩
  | close k => exact ⟨_, _, rfl, .inr (by decide)⟩
  | name hname hk =>
      obtain ⟨a, as, htext, ha⟩ := exists_isNameStart_of_isVariable hname
      rw [htext]
      exact ⟨a, _, rfl, .inl (isNamePart_of_isNameStart ha)⟩

theorem Proceeds.solid (h : Proceeds k) : solid k = true := by
  obtain ⟨a, as, rfl, ha⟩ := h.exists_head
  have hne : ∀ b ∈ '/' :: layoutChars, a ≠ b := by
    have hall : ∀ b ∈ '/' :: layoutChars, isNamePart b = false ∧ b ∉ [',', ']'] := by decide
    rintro b hb rfl
    rcases ha with hname | hmark
    · rw [(hall a hb).1] at hname
      cases hname
    · exact (hall a hb).2 hmark
  simp only [layoutChars, List.mem_cons, List.not_mem_nil, or_false, forall_eq_or_imp,
    forall_eq] at hne
  simp [Language.solid, hne]

/-- No keyword comes next in a list. -/
theorem Proceeds.firstWord_ne (h : Proceeds k) (hspace : ∀ a ∈ space, a ∈ layoutChars)
    {w : String} (hw : w ∈ keywords) : firstWord (space ++ k) ≠ w.toList := by
  have hnil : w.toList ≠ [] := by
    have hall : ∀ w ∈ keywords, w.toList ≠ [] := by decide
    exact hall w hw
  have hends {k : List Char} (hk : Ends k) : firstWord k ≠ w.toList := by
    rw [hk.firstWord_eq_nil]
    exact hnil.symm
  cases space with
  | cons a space =>
      refine hends ?_
      rintro b ⟨⟩
      exact isNamePart_of_mem_layoutChars (hspace a (List.mem_cons_self ..))
  | nil =>
      cases h with
      | comma k => exact hends (by simp [Ends, isNamePart])
      | close k => exact hends (by simp [Ends, isNamePart])
      | @name name k hname hk =>
          rw [isVariable, Bool.and_eq_true, Bool.not_eq_true'] at hname
          rw [List.nil_append, hk.firstWord_append_eq (all_isNamePart_of_isName hname.1), Ne,
            String.toList_inj]
          rintro rfl
          simp [isKeyword, hw] at hname

/-- Whether it shows at the start of the term that it reads nothing of a list behind an item, not
even behind layout. -/
def idle : Nat → Body → Bool
  | 0, _ => false
  | _ + 1, .literal text false => text.toList.head?.any (!isListChar ·)
  | n + 1, .rule r => idle n (body r)
  | _ + 1, .seq [.literal text false, .not (.rule .identPart)] => keywords.contains text
  | n + 1, .seq (.rule .blank :: ts) | n + 1, .seq (.rule .layout :: ts) => idle n (.seq ts)
  | n + 1, .seq (t :: _) => idle n t
  | n + 1, .choice ts => ts.all fun t => idle n t
  | n + 1, .label _ t | n + 1, .text t | n + 1, .action _ t | n + 1, .pick _ t => idle n t
  | _ + 1, _ => false

theorem refuses_lit_of_isListChar (hspace : ∀ a ∈ space, a ∈ layoutChars) (hk : Proceeds k)
    {text : String} (h : text.toList.head?.any (!isListChar ·) = true) :
    Refuses grammar (.lit text) (space ++ k) := by
  obtain ⟨a, ha, hother⟩ := (Option.any_eq_true _ _).mp h
  obtain ⟨b, bs, hnext, hb⟩ : ∃ b bs, space ++ k = b :: bs ∧ isListChar b = true := by
    cases space with
    | cons b space =>
        have hlayout := hspace b (List.mem_cons_self ..)
        exact ⟨b, _, rfl, by simp [isListChar, hlayout]⟩
    | nil =>
        obtain ⟨b, bs, rfl, hb⟩ := hk.exists_head
        refine ⟨b, bs, rfl, ?_⟩
        rcases hb with hname | hmark
        · simp [isListChar, hname]
        · rw [List.mem_cons, List.mem_singleton] at hmark
          simp [isListChar, hmark]
  obtain ⟨as, htext⟩ := List.head?_eq_some_iff.mp ha
  refine refuses_lit ?_
  rw [htext, hnext, List.cons_prefix_cons]
  rintro ⟨rfl, -⟩
  rw [hb] at hother
  cases hother

/-- A term that is idle refuses what comes next in a list, behind any layout.  The induction is on
the steps of the check.  Where blanks come first, what they leave is layout again. -/
theorem refuses_of_idle {n : Nat} {t : Body} (h : idle n t = true)
    (hspace : ∀ a ∈ space, a ∈ layoutChars) (hk : Proceeds k) :
    Refuses grammar t (space ++ k) := by
  fun_induction idle n t generalizing space with
  | case1 t => cases h
  | case2 n text => exact refuses_lit_of_isListChar hspace hk h
  | case3 n r ih => exact (ih h hspace).rule
  | case4 n text =>
      have hword := List.contains_iff_mem.mp h
      exact refuses_keyword hword (hk.firstWord_ne hspace hword)
  | case5 n ts ih =>
      obtain ⟨u, rest, vs, rfl, hread⟩ := reads_blank_run hspace hk.solid
      rw [List.append_assoc]
      exact Refuses.seq_tail hread (ih h fun a ha => hspace a (List.mem_append_right u ha))
  | case6 n ts ih =>
      obtain ⟨vs, hread⟩ := reads_layout_run hspace hk.solid
      have hrest : Refuses grammar (.seq ts) ([] ++ k) := ih h (by simp)
      exact Refuses.seq_tail hread hrest
  | case7 n t ts hword hblank hlayout ih => exact (ih h hspace).seq_head
  | case8 n ts ih =>
      exact refuses_choice fun t ht => ih t (List.all_eq_true.mp h t ht) hspace
  | case9 n name t ih => exact (ih h hspace).label
  | case10 n t ih => exact (ih h hspace).text
  | case11 n act t ih => exact (ih h hspace).action
  | case12 n index t ih => exact (ih h hspace).pick
  | case13 => cases h

/-- Behind a name that ends there, no rule takes the name for more than an item. -/
theorem Proceeds.stops (h : Proceeds k) (hspace : ∀ a ∈ space, a ∈ layoutChars)
    (hends : Ends (space ++ k)) : Stops 11 (space ++ k) := by
  have hlevels : ∀ i ∈ List.range 12, 0 < i → idle 20 (continuation i) = true := by decide
  have harrow : idle 20 arrowRest = true := by decide
  have hsuffix : idle 20 (.rule .suffix) = true := by decide
  refine ⟨hends, refuses_of_idle harrow hspace h, refuses_of_idle hsuffix hspace h, ?_⟩
  intro i hi hin
  exact refuses_of_idle (hlevels i (List.mem_range.mpr (by omega)) hi) hspace h

theorem reads_argument_name {name : String} (hname : isVariable name = true) (hk : Stops 11 k) :
    Reads grammar (.rule .argument) name.toList k (.ofNode (Element.expr (.ident name))) [] := by
  have hopens := opensOperand_name hname
  have hsuffixed := reads_suffixed_name hname (hk.mono (Nat.zero_le 11))
  have hpipeline := reads_level (Nat.zero_le 11) le_rfl (hopens.reads_unary hk.ends hsuffixed)
    hk.levels
  have hexpr := reads_expression hopens.opensExpr hk.ends hpipeline
  have hspread : Refuses grammar spread (name.toList ++ k) :=
    (hopens.refuses_lit rfl (by decide)).seq_head
  exact ((hexpr.action fun c d _ => ⟨_, rfl⟩).choice_here.choice_later hspread.action).rule

theorem refuses_argument {a : Char} (ha : a ∈ [',', ']']) :
    Refuses grammar (.rule .argument) (a :: k) := by
  have hall : ∀ a ∈ [',', ']'],
      (grammar.probe false 150 (.rule .argument) [a]).isFails = true := by
    decide +kernel
  exact refuses_on [a] (hall a ha)

/-! ## Texts of lists -/

/-- A comma or a name. -/
inductive Mark where
  | comma
  | name (name : String)
deriving DecidableEq

@[simp] def Mark.text : Mark → List Char
  | .comma => [',']
  | .name word => word.toList

/-- A mark with the layout behind it. -/
structure Token where
  mark : Mark
  space : List Char
deriving DecidableEq

def Token.text (t : Token) : List Char :=
  t.mark.text ++ t.space

def tokensText (ts : List Token) : List Char :=
  ts.flatMap Token.text

@[simp] theorem tokensText_nil : tokensText [] = [] := rfl

@[simp] theorem tokensText_cons (mark : Mark) (space : List Char) (ts : List Token) :
    tokensText (⟨mark, space⟩ :: ts) = mark.text ++ (space ++ tokensText ts) := by
  simp [tokensText, Token.text]

/-- Whether a name is one that a variable can have. -/
def Mark.isValid : Mark → Bool
  | .comma => true
  | .name word => isVariable word

/-- Two names do not stand together without layout, or they would be one. -/
def Token.Apart (t t' : Token) : Prop :=
  t.space = [] → t.mark = .comma ∨ t'.mark = .comma

instance (t t' : Token) : Decidable (t.Apart t') :=
  inferInstanceAs (Decidable (_ → _))

/-- Commas, names of variables, and layout. -/
structure IsListing (ts : List Token) : Prop where
  marks : ∀ t ∈ ts, t.mark.isValid = true
  spaces : ∀ t ∈ ts, ∀ a ∈ t.space, a ∈ layoutChars
  apart : ts.IsChain Token.Apart

instance (ts : List Token) : Decidable (IsListing ts) :=
  decidable_of_iff ((∀ t ∈ ts, t.mark.isValid = true) ∧
      (∀ t ∈ ts, ∀ a ∈ t.space, a ∈ layoutChars) ∧ ts.IsChain Token.Apart)
    ⟨fun h => ⟨h.1, h.2.1, h.2.2⟩, fun h => ⟨h.marks, h.spaces, h.apart⟩⟩

section

variable {t : Token} {ts : List Token} {name : String}

theorem IsListing.tail (h : IsListing (t :: ts)) : IsListing ts :=
  ⟨(List.forall_mem_cons.mp h.marks).2, (List.forall_mem_cons.mp h.spaces).2, h.apart.tail⟩

theorem IsListing.layout (h : IsListing (t :: ts)) : ∀ a ∈ t.space, a ∈ layoutChars :=
  h.spaces t (List.mem_cons_self ..)

theorem IsListing.isVariable (h : IsListing (⟨.name name, space⟩ :: ts)) :
    isVariable name = true :=
  h.marks _ (List.mem_cons_self ..)

/-- A name ends where its mark does. -/
theorem IsListing.ends (h : IsListing (⟨.name name, space⟩ :: ts)) :
    Ends (space ++ (tokensText ts ++ ']' :: k)) := by
  cases space with
  | cons a space =>
      rintro b ⟨⟩
      exact isNamePart_of_mem_layoutChars (h.layout a (List.mem_cons_self ..))
  | nil =>
      cases ts with
      | nil => simp [Ends, isNamePart]
      | cons t ts =>
          obtain ⟨mark, space⟩ := t
          have hmark : mark = .comma := by
            have hapart := (List.isChain_cons_cons.mp h.apart).1 rfl
            simpa using hapart
          subst hmark
          simp [Ends, isNamePart]

theorem IsListing.proceeds (h : IsListing ts) : Proceeds (tokensText ts ++ ']' :: k) := by
  cases ts with
  | nil => exact .close k
  | cons t ts =>
      obtain ⟨mark, space⟩ := t
      cases mark with
      | comma => exact .comma _
      | name name =>
          rw [tokensText_cons, List.append_assoc, List.append_assoc]
          exact .name h.isVariable h.ends

end

/-! ## Names separated by commas -/

/-- The names with commas between them. -/
def commaSeparated (names : List String) : List Mark :=
  (names.map .name).intersperse .comma

/-- The names behind the first one, each with a comma in front. -/
def moreNames (names : List String) : List Mark :=
  names.flatMap fun name => [.comma, .name name]

@[simp] theorem moreNames_nil : moreNames [] = [] := rfl

@[simp] theorem moreNames_cons (name : String) (names : List String) :
    moreNames (name :: names) = .comma :: .name name :: moreNames names := rfl

@[simp] theorem commaSeparated_nil : commaSeparated [] = [] := rfl

@[simp] theorem commaSeparated_cons (name : String) (names : List String) :
    commaSeparated (name :: names) = .name name :: moreNames names := by
  induction names generalizing name with
  | nil => rfl
  | cons name' names ih =>
      have hstep : commaSeparated (name :: name' :: names) =
          .name name :: .comma :: commaSeparated (name' :: names) := rfl
      rw [hstep, ih, moreNames_cons]

/-- The names that the marks behind a name give a list. -/
def tailNames? : List Mark → Option (List String)
  | [] | [.comma] => some []
  | .comma :: .name name :: marks => (tailNames? marks).map (name :: ·)
  | _ => none

/-- The names that the marks give a list. -/
def names? : List Mark → Option (List String)
  | [] | [.comma] => some []
  | .name name :: marks => (tailNames? marks).map (name :: ·)
  | _ => none

theorem tailNames?_eq_some_iff {marks : List Mark} {names : List String} :
    tailNames? marks = some names ↔
      marks = moreNames names ∨ marks = moreNames names ++ [.comma] := by
  fun_induction tailNames? marks generalizing names with
  | case1 | case2 => cases names <;> simp
  | case3 name marks ih =>
      rw [Option.map_eq_some_iff]
      cases names with
      | nil => simp
      | cons name' names => grind [moreNames_cons]
  | case4 marks hnil hcomma hmore => cases names <;> grind [moreNames_nil, moreNames_cons]

theorem names?_eq_some_iff {marks : List Mark} {names : List String} :
    names? marks = some names ↔
      marks = commaSeparated names ∨ marks = commaSeparated names ++ [.comma] := by
  fun_cases names? marks with
  | case1 | case2 => cases names <;> simp
  | case3 name marks =>
      rw [Option.map_eq_some_iff]
      cases names with
      | nil => simp
      | cons name' names => grind [commaSeparated_cons, tailNames?_eq_some_iff]
  | case4 marks hnil hcomma hname =>
      cases names <;> grind [commaSeparated_nil, commaSeparated_cons]

/-! ## Reading the end of a list -/

/-- A comma and the item behind it. -/
def nextItem : Body :=
  .pick 1 (.seq [comma, .rule .argument])

/-- What comes behind the items of a list. -/
def listEnd : Body :=
  .seq [.opt (.seq [.rule .layout, .lit ","]), .rule .layout, .lit "]"]

section

variable {c : Char} {text : String} {space' : List Char}

theorem reads_layout_lit (hspace : ∀ a ∈ space, a ∈ layoutChars) (htext : text.toList = [c])
    (hc : solid (c :: k) = true) :
    ∃ vs, Reads grammar (.seq [.rule .layout, .lit text]) (space ++ [c]) k (.list vs) [] := by
  obtain ⟨vs, hlayout⟩ := reads_layout_run hspace hc
  have hlast := (reads_lit (g := grammar) (k := k) text).seq_last
  rw [htext] at hlast
  exact ⟨_, hlayout.seq_cons hlast⟩

theorem reads_closing (hspace : ∀ a ∈ space, a ∈ layoutChars) :
    ∃ vs, Reads grammar (.seq [.rule .layout, .lit "]"]) (space ++ [']']) k (.list vs) [] :=
  reads_layout_lit hspace rfl rfl

theorem reads_trailing (hspace : ∀ a ∈ space, a ∈ layoutChars) :
    ∃ vs, Reads grammar (.seq [.rule .layout, .lit ","]) (space ++ [',']) k (.list vs) [] :=
  reads_layout_lit hspace rfl rfl

theorem refuses_layout_lit {ts : List Body} (hspace : ∀ a ∈ space, a ∈ layoutChars)
    (htext : text.toList = [c]) (hk : solid k = true) (hne : k.head? ≠ some c) :
    Refuses grammar (.seq (.rule .layout :: .lit text :: ts)) (space ++ k) := by
  obtain ⟨vs, hlayout⟩ := reads_layout_run hspace hk
  have hlit : Refuses grammar (.lit text) k := by
    refine refuses_lit ?_
    rw [htext]
    rintro ⟨rest, rfl⟩
    exact hne rfl
  exact Refuses.seq_tail hlayout hlit.seq_head

theorem refuses_nextItem_of_head_ne (hspace : ∀ a ∈ space, a ∈ layoutChars) (hk : solid k = true)
    (hne : k.head? ≠ some ',') : Refuses grammar nextItem (space ++ k) :=
  (refuses_layout_lit hspace rfl hk hne).seq_head.pick

theorem reads_comma_run (hspace : ∀ a ∈ space, a ∈ layoutChars)
    (hspace' : ∀ a ∈ space', a ∈ layoutChars) (hk : solid k = true) :
    ∃ v, Reads grammar comma (space ++ ([','] ++ space')) k v [] := by
  obtain ⟨vs, hlayout⟩ := reads_layout_run (k := [','] ++ (space' ++ k)) hspace rfl
  obtain ⟨ws, hlayout'⟩ := reads_layout_run hspace' hk
  rw [← List.append_assoc] at hlayout
  exact ⟨_, hlayout.seq_cons ((reads_lit ",").seq_cons hlayout'.seq_last)⟩

/-- A comma without an item behind it does not go on with the list. -/
theorem refuses_nextItem_of_mark (hspace : ∀ a ∈ space, a ∈ layoutChars)
    (hspace' : ∀ a ∈ space', a ∈ layoutChars) {a : Char} (ha : a ∈ [',', ']'])
    (hk : solid (a :: k) = true) :
    Refuses grammar nextItem (space ++ ([','] ++ space') ++ a :: k) := by
  obtain ⟨v, hcomma⟩ := reads_comma_run hspace hspace' hk
  exact (Refuses.seq_tail hcomma (refuses_argument ha).seq_head).pick

theorem reads_listEnd_close (hspace : ∀ a ∈ space, a ∈ layoutChars) :
    ∃ vs, Reads grammar listEnd (space ++ [']']) k (.list vs) [] := by
  have htrailing : Refuses grammar (.seq [.rule .layout, .lit ","]) (space ++ ([']'] ++ k)) :=
    refuses_layout_lit (c := ',') hspace rfl rfl (by simp)
  obtain ⟨vs, hclose⟩ := reads_closing (k := k) hspace
  rw [← List.append_assoc] at htrailing
  exact ⟨_, htrailing.opt.seq_cons hclose⟩

/-- One more comma is allowed at the end. -/
theorem reads_listEnd_comma (hspace : ∀ a ∈ space, a ∈ layoutChars)
    (hspace' : ∀ a ∈ space', a ∈ layoutChars) :
    ∃ vs, Reads grammar listEnd (space ++ [','] ++ (space' ++ [']'])) k (.list vs) [] := by
  obtain ⟨vs, htrailing⟩ := reads_trailing (k := space' ++ [']'] ++ k) hspace
  obtain ⟨ws, hclose⟩ := reads_closing (k := k) hspace'
  exact ⟨_, htrailing.opt.seq_cons hclose⟩

theorem refuses_listEnd_of_head_ne (hspace : ∀ a ∈ space, a ∈ layoutChars)
    (hk : solid k = true) (hcomma : k.head? ≠ some ',') (hclose : k.head? ≠ some ']') :
    Refuses grammar listEnd (space ++ k) := by
  have htrailing : Refuses grammar (.seq [.rule .layout, .lit ","]) (space ++ k) :=
    refuses_layout_lit hspace rfl hk hcomma
  have hclosing : Refuses grammar (.seq [.rule .layout, .lit "]"]) (space ++ k) :=
    refuses_layout_lit hspace rfl hk hclose
  exact Refuses.seq_tail (u := []) htrailing.opt hclosing

/-- Behind a comma at the end nothing but the bracket is read. -/
theorem refuses_listEnd_comma (hspace : ∀ a ∈ space, a ∈ layoutChars)
    (hspace' : ∀ a ∈ space', a ∈ layoutChars) (hk : solid k = true)
    (hclose : k.head? ≠ some ']') :
    Refuses grammar listEnd (space ++ [','] ++ (space' ++ k)) := by
  obtain ⟨vs, htrailing⟩ := reads_trailing (k := space' ++ k) hspace
  exact Refuses.seq_tail htrailing.opt (refuses_layout_lit hspace' rfl hk hclose)

end

/-! ## Reading lists -/

/-- The item that a name is. -/
def nameItem (name : String) : Element :=
  .expr (.ident name)

/-- Behind an item the text is read as more items and the end of the list, or it is refused for its
end, just as the names say that there are or are not. -/
def ReadsTail (names? : Option (List String)) (text k : List Char) : Prop :=
  ∃ u w vs, text = u ++ w ∧ Reads grammar (.star nextItem) u (w ++ k) (.list vs) [] ∧
    ((∃ names ws, names? = some names ∧ .list vs = Value.ofNodes (names.map nameItem) ∧
        Reads grammar listEnd w k (.list ws) []) ∨
      names? = none ∧ Refuses grammar listEnd (w ++ k))

section

variable {text : List Char} {name : String} {t : Token} {ts : List Token}

/-- No more items. -/
theorem readsTail_some (hmore : Refuses grammar nextItem (text ++ k))
    (hend : ∃ ws, Reads grammar listEnd text k (.list ws) []) : ReadsTail (some []) text k := by
  obtain ⟨ws, hend⟩ := hend
  exact ⟨[], text, [], rfl, hmore.star, .inl ⟨[], ws, rfl, rfl, hend⟩⟩

theorem readsTail_none (hmore : Refuses grammar nextItem (text ++ k))
    (hend : Refuses grammar listEnd (text ++ k)) : ReadsTail none text k :=
  ⟨[], text, [], rfl, hmore.star, .inr ⟨rfl, hend⟩⟩

/-- One more item in front. -/
theorem ReadsTail.cons {names? : Option (List String)} (h : ReadsTail names? text k)
    {u : List Char} (hne : u ≠ [])
    (hmore : Reads grammar nextItem u (text ++ k) (.ofNode (nameItem name)) []) :
    ReadsTail (names?.map (name :: ·)) (u ++ text) k := by
  obtain ⟨u', w, vs, rfl, hstar, hend⟩ := h
  rw [List.append_assoc] at hmore
  refine ⟨u ++ u', w, .ofNode (nameItem name) :: vs, (List.append_assoc ..).symm,
    hmore.star_cons hne hstar, ?_⟩
  rcases hend with ⟨names, ws, rfl, hvs, hread⟩ | ⟨rfl, hrefuse⟩
  · cases hvs
    exact .inl ⟨name :: names, ws, rfl, rfl, hread⟩
  · exact .inr ⟨rfl, hrefuse⟩

theorem head?_ne_of_isVariable (hname : isVariable name = true) {a : Char}
    (ha : isNamePart a = false) : (name.toList ++ k).head? ≠ some a := by
  obtain ⟨b, bs, htext, hb⟩ := exists_isNameStart_of_isVariable hname
  rw [htext]
  rintro ⟨⟩
  rw [isNamePart_of_isNameStart hb] at ha
  cases ha

/-- What stands behind an item.  The induction takes a comma and the name behind it at a time. -/
theorem readsTail_tokens : ∀ (ts : List Token) {space : List Char},
    (∀ a ∈ space, a ∈ layoutChars) → IsListing ts →
      ReadsTail (tailNames? (ts.map Token.mark)) (space ++ (tokensText ts ++ [']'])) k
  | [], space, hspace, _ => by
      have hmore : Refuses grammar nextItem (space ++ ([']'] ++ k)) :=
        refuses_nextItem_of_head_ne hspace rfl (by simp)
      rw [← List.append_assoc] at hmore
      exact readsTail_some hmore (reads_listEnd_close hspace)
  | ⟨.name name, space'⟩ :: ts, space, hspace, h => by
      have hnext : space ++ (tokensText (⟨.name name, space'⟩ :: ts) ++ [']']) ++ k =
          space ++ (name.toList ++ (space' ++ (tokensText ts ++ ']' :: k))) := by
        simp
      have hsolid := (Proceeds.name h.isVariable (h.ends (k := k))).solid
      have hcomma := head?_ne_of_isVariable (k := space' ++ (tokensText ts ++ ']' :: k))
        h.isVariable (a := ',') (by decide)
      have hclose := head?_ne_of_isVariable (k := space' ++ (tokensText ts ++ ']' :: k))
        h.isVariable (a := ']') (by decide)
      refine readsTail_none ?_ ?_
      · rw [hnext]
        exact refuses_nextItem_of_head_ne hspace hsolid hcomma
      · rw [hnext]
        exact refuses_listEnd_of_head_ne hspace hsolid hcomma hclose
  | [⟨.comma, space'⟩], space, hspace, h => by
      have htext : space ++ (tokensText [⟨.comma, space'⟩] ++ [']']) =
          space ++ [','] ++ (space' ++ [']']) := by
        simp
      have hmore := refuses_nextItem_of_mark (k := k) hspace h.layout (a := ']') (by decide) rfl
      rw [htext]
      refine readsTail_some ?_ (reads_listEnd_comma hspace h.layout)
      simpa using hmore
  | ⟨.comma, space'⟩ :: ⟨.comma, space''⟩ :: ts, space, hspace, h => by
      have hnext :
          space ++ (tokensText (⟨.comma, space'⟩ :: ⟨.comma, space''⟩ :: ts) ++ [']']) ++ k =
          space ++ [','] ++ (space' ++ ',' :: (space'' ++ (tokensText ts ++ ']' :: k))) := by
        simp
      have hmore := refuses_nextItem_of_mark (k := space'' ++ (tokensText ts ++ ']' :: k)) hspace
        h.layout (a := ',') (by decide) rfl
      refine readsTail_none ?_ ?_
      · rw [hnext]
        simpa using hmore
      · rw [hnext]
        exact refuses_listEnd_comma hspace h.layout rfl (by simp)
  | ⟨.comma, space'⟩ :: ⟨.name name, space''⟩ :: ts, space, hspace, h => by
      have hitem := h.tail
      have hstops := hitem.tail.proceeds.stops hitem.layout (hitem.ends (k := k))
      have hsolid := (Proceeds.name hitem.isVariable (hitem.ends (k := k))).solid
      obtain ⟨v, hcomma⟩ := reads_comma_run hspace h.layout hsolid
      have hmore : Reads grammar nextItem (space ++ ([','] ++ space') ++ name.toList)
          (space'' ++ (tokensText ts ++ ']' :: k)) (.ofNode (nameItem name)) [] :=
        (hcomma.seq_cons (reads_argument_name hitem.isVariable hstops).seq_last).pick 1
      have hnext : space'' ++ (tokensText ts ++ ']' :: k) =
          space'' ++ (tokensText ts ++ [']']) ++ k := by
        simp
      rw [hnext] at hmore
      have htext :
          space ++ (tokensText (⟨.comma, space'⟩ :: ⟨.name name, space''⟩ :: ts) ++ [']']) =
          space ++ ([','] ++ space') ++ name.toList ++ (space'' ++ (tokensText ts ++ [']'])) := by
        simp
      rw [htext]
      exact (readsTail_tokens ts hitem.layout hitem.tail).cons (by simp) hmore

/-! ## Arrays -/

variable {lead u w : List Char} {v : Value Piece} {ws : List (Value Piece)}

theorem reads_array {items : List Element} (hlead : ∀ a ∈ lead, a ∈ layoutChars)
    (hsolid : solid (u ++ (w ++ k)) = true)
    (hitems : Reads grammar (.opt (.separated .argument comma)) u (w ++ k) v [])
    (hvalue : v.toNodes? = some items) (hend : Reads grammar listEnd w k (.list ws) []) :
    Reads grammar (.rule .array) (['['] ++ (lead ++ (u ++ w))) k (.ofNode (Expr.array items))
      [] := by
  rw [← List.append_assoc] at hsolid
  obtain ⟨vs, hlayout⟩ := reads_layout_run hlead hsolid
  have hseq := (reads_lit "[").seq_cons (hlayout.seq_cons (hitems.seq_cons hend))
  exact (((hseq.pick 2).label "items").action fun c d _ =>
    ActionM.exists_bind_eq_some (ActionM.nodes_eq_some "items" hvalue) ⟨_, rfl⟩).rule

theorem refuses_array (hlead : ∀ a ∈ lead, a ∈ layoutChars)
    (hsolid : solid (u ++ (w ++ k)) = true)
    (hitems : Reads grammar (.opt (.separated .argument comma)) u (w ++ k) v [])
    (hend : Refuses grammar listEnd (w ++ k)) :
    Refuses grammar (.rule .array) (['['] ++ (lead ++ (u ++ (w ++ k)))) := by
  obtain ⟨vs, hlayout⟩ := reads_layout_run hlead hsolid
  have hseq := Refuses.seq_tail (reads_lit "[")
    (Refuses.seq_tail hlayout (Refuses.seq_tail hitems hend))
  exact hseq.pick.label.action.rule

/-- A list without a name in front has no items, whatever comes behind. -/
theorem reads_noItems {a : Char} (ha : a ∈ [',', ']']) :
    Reads grammar (.opt (.separated .argument comma)) [] (a :: k) .absent [] :=
  (refuses_argument ha).label.seq_head.action.opt

theorem reads_items_name {vs : List (Value Piece)} (hname : isVariable name = true)
    (hstops : Stops 11 (u ++ k)) (hmore : Reads grammar (.star nextItem) u k (.list vs) []) :
    Reads grammar (.opt (.separated .argument comma)) (name.toList ++ u) k
      (.list (.ofNode (nameItem name) :: vs)) [] := by
  have hseq := ((reads_argument_name hname hstops).label "head").seq_cons
    (hmore.label "tail").seq_last
  exact (hseq.action fun c d _ => ⟨_, rfl⟩).opt

theorem head?_tokensText_ne (h : IsListing (t :: ts)) :
    (tokensText (t :: ts) ++ k).head? ≠ some ']' := by
  obtain ⟨mark, space⟩ := t
  rw [tokensText_cons, List.append_assoc]
  cases mark with
  | comma => simp
  | name name => exact head?_ne_of_isVariable h.isVariable (by decide)

/-- The text is read as the array of the names, or it is refused as there are none. -/
def ReadsArray (names? : Option (List String)) (text k : List Char) : Prop :=
  (∃ names, names? = some names ∧
    Reads grammar (.rule .array) text k (.ofNode (Expr.array (names.map nameItem))) []) ∨
  names? = none ∧ Refuses grammar (.rule .array) (text ++ k)

theorem readsArray_nil (hlead : ∀ a ∈ lead, a ∈ layoutChars) :
    ReadsArray (some []) (['['] ++ (lead ++ [']'])) k := by
  obtain ⟨ws, hend⟩ := reads_listEnd_close (k := k) (List.forall_mem_nil _)
  exact .inl ⟨[], rfl, reads_array hlead rfl (reads_noItems (by decide)) rfl hend⟩

/-- A comma in front is the comma at the end. -/
theorem readsArray_comma (hlead : ∀ a ∈ lead, a ∈ layoutChars)
    (h : IsListing (⟨.comma, space⟩ :: ts)) :
    ReadsArray (names? (.comma :: ts.map Token.mark))
      (['['] ++ (lead ++ ([','] ++ (space ++ (tokensText ts ++ [']']))))) k := by
  have hnone {k : List Char} :
      Reads grammar (.opt (.separated .argument comma)) [] (',' :: k) .absent [] :=
    reads_noItems (by decide)
  cases ts with
  | nil =>
      obtain ⟨ws, hend⟩ := reads_listEnd_comma (k := k) (List.forall_mem_nil _) h.layout
      exact .inl ⟨[], rfl, reads_array (u := []) hlead rfl hnone rfl hend⟩
  | cons t ts =>
      have hend := refuses_listEnd_comma (List.forall_mem_nil _) h.layout h.tail.proceeds.solid
        (head?_tokensText_ne (k := ']' :: k) h.tail)
      have hrefuse := refuses_array (u := [])
        (w := [','] ++ (space ++ (tokensText (t :: ts) ++ [']']))) hlead rfl hnone
        (by simpa using hend)
      refine .inr ⟨rfl, ?_⟩
      simpa using hrefuse

/-- Behind a name in front, all depends on the rest of the list. -/
theorem readsArray_name (hlead : ∀ a ∈ lead, a ∈ layoutChars)
    (h : IsListing (⟨.name name, space⟩ :: ts)) :
    ReadsArray (names? (.name name :: ts.map Token.mark))
      (['['] ++ (lead ++ (name.toList ++ (space ++ (tokensText ts ++ [']']))))) k := by
  obtain ⟨u, w, vs, htext, hmore, hend⟩ := readsTail_tokens (k := k) ts h.layout h.tail
  have hnext : space ++ (tokensText ts ++ ']' :: k) = u ++ (w ++ k) := by
    rw [← List.append_assoc u, ← htext]
    simp
  have hends : Ends (space ++ (tokensText ts ++ ']' :: k)) := h.ends
  have hstops := h.tail.proceeds.stops h.layout hends
  have hsolid := (Proceeds.name h.isVariable hends).solid
  rw [hnext] at hstops hsolid
  rw [← List.append_assoc] at hsolid
  have hitems := reads_items_name h.isVariable hstops hmore
  rw [htext, ← List.append_assoc name.toList]
  rcases hend with ⟨names, ws, hnames, hvs, hread⟩ | ⟨hnone, hrefuse⟩
  · cases hvs
    have hvalue : (Value.ofNodes (ν := Piece) ((name :: names).map nameItem)).toNodes? = _ :=
      Value.toNodes?_ofNodes _
    refine .inl ⟨name :: names, ?_, reads_array hlead hsolid hitems hvalue hread⟩
    rw [names?, hnames, Option.map_some]
  · refine .inr ⟨?_, ?_⟩
    · rw [names?, hnone, Option.map_none]
    · simpa using refuses_array hlead hsolid hitems hrefuse

theorem readsArray_tokens (hlead : ∀ a ∈ lead, a ∈ layoutChars) (h : IsListing ts) :
    ReadsArray (names? (ts.map Token.mark))
      (['['] ++ (lead ++ (tokensText ts ++ [']']))) k := by
  cases ts with
  | nil => exact readsArray_nil hlead
  | cons t ts =>
      obtain ⟨mark, space⟩ := t
      rw [tokensText_cons, List.append_assoc, List.append_assoc]
      cases mark with
      | comma => exact readsArray_comma hlead h
      | name name => exact readsArray_name hlead h

/-- A list as it is written, with layout behind the opening bracket. -/
def listText (lead : List Char) (ts : List Token) : String :=
  String.ofList ('[' :: (lead ++ (tokensText ts ++ [']'])))

theorem toList_listText :
    (listText lead ts).toList = ['['] ++ (lead ++ (tokensText ts ++ [']'])) :=
  String.toList_ofList

theorem parseFrom_listText {settings : Settings} (hlead : ∀ a ∈ lead, a ∈ layoutChars)
    (h : IsListing ts) (hlimit : 22 * ((listText lead ts).utf8ByteSize + 1) ≤ settings.maxDepth)
    {value : Value Piece} :
    (grammar.parseFrom settings .array (listText lead ts)).outcome = .ok value ↔
      ∃ names, names? (ts.map Token.mark) = some names ∧
        value = .ofNode (Expr.array (names.map nameItem)) := by
  have hdone : (grammar.parseFrom settings .array (listText lead ts)).session.overflow = none :=
    overflow_eq_none hlimit
  rcases readsArray_tokens (k := []) hlead h with ⟨names, hnames, hread⟩ | ⟨hnone, hrefuse⟩
  · rw [← toList_listText] at hread
    have hok := Grammar.parseFrom_eq_ok_of_reads hread hdone
    rw [hok, hnames]
    simp [eq_comm]
  · rw [← toList_listText, List.append_nil] at hrefuse
    rw [hnone]
    constructor
    · intro hok
      obtain ⟨stop, hread, -⟩ := (Grammar.parseFrom_eq_ok_iff hdone).mp hok
      exact absurd hread hrefuse.not_reads
    · rintro ⟨names, hsome, -⟩
      cases hsome

/-- Between brackets let there be commas, names of variables and layout only.  Such a text is parsed
as an array exactly if, apart from layout, it consists of names with a comma between each two of
them, with or without one more comma at the end.  The value is the array of the names in their
order.  The comma at the end may also stand alone. -/
theorem parseFrom_array_eq_ok_iff (settings : Settings) (lead : List Char) (ts : List Token)
    (hlead : ∀ a ∈ lead, a ∈ layoutChars) (hts : IsListing ts)
    (hlimit : 22 * ((listText lead ts).utf8ByteSize + 1) ≤ settings.maxDepth)
    (value : Value Piece) :
    (grammar.parseFrom settings .array (listText lead ts)).outcome = .ok value ↔
      ∃ names, (ts.map Token.mark = commaSeparated names ∨
          ts.map Token.mark = commaSeparated names ++ [.comma]) ∧
        value = .ofNode (Expr.array (names.map nameItem)) := by
  rw [parseFrom_listText hlead hts hlimit]
  exact exists_congr fun names => and_congr_left' names?_eq_some_iff

/-- Layout and a comma at the end make no difference, and two names without a comma are no list. -/
theorem parseFrom_array_trailingComma :
    (grammar.parseFrom {} .array "[ a\n,b, ]").outcome =
        .ok (.ofNode (Expr.array [nameItem "a", nameItem "b"])) ∧
      ∀ value, (grammar.parseFrom {} .array "[a b]").outcome ≠ .ok value := by
  constructor
  · exact (parseFrom_array_eq_ok_iff {} [' '] [⟨.name "a", ['\n']⟩, ⟨.comma, []⟩, ⟨.name "b", []⟩,
      ⟨.comma, [' ']⟩] (by decide) (by decide) (by decide) _).mpr ⟨["a", "b"], .inr rfl, rfl⟩
  · intro value hok
    obtain ⟨names, hmarks, -⟩ := (parseFrom_array_eq_ok_iff {} [] [⟨.name "a", [' ']⟩,
      ⟨.name "b", []⟩] (by decide) (by decide) (by decide) value).mp hok
    cases names?_eq_some_iff.mpr hmarks

/-- A comma alone is read as an empty list, although it neither separates names nor follows one. -/
theorem parseFrom_array_loneComma :
    (grammar.parseFrom {} .array "[,]").outcome = .ok (.ofNode (Expr.array [])) ∧
      ∀ names, [Mark.comma] ≠ commaSeparated names ∧
        (names ≠ [] → [Mark.comma] ≠ commaSeparated names ++ [.comma]) := by
  constructor
  · have hlisting : IsListing [⟨.comma, []⟩] := by decide
    exact (parseFrom_listText (List.forall_mem_nil _) hlisting (by decide)).mpr ⟨[], rfl, rfl⟩
  · intro names
    cases names <;> simp

end

end Language

end PegScript
