import PegScript.Proofs.Language.Sentences

/-!
# Chains of operators

A chain is a name and links, each an operator and another name.  Its tree is given by the levels of
the operators and by the side to which operators of one level group: the names and operators of the
tree come in the order of the chain, and every operation has operands of lower levels, or one of its
own level on the side to which it groups.  Every chain has exactly one such tree, and the grammar
reads the chain as that tree.

The reading follows the tree.  Operations of one level that group to the left are one reading of the
rule of that level, which starts with the leftmost operand and takes the operators one after the
other (`StartsLevel`).
-/

namespace PegScript

namespace Language

open Expression

/-! ## The tree of a chain -/

/-- An operator of a chain, as it is written, and the name behind it. -/
structure Link where
  token : String
  op : BinaryOp
  name : String

/-- The text of a chain: single blanks stand around every operator. -/
def chainSource (name : String) (links : List Link) : String :=
  links.foldl (fun text link => text ++ " " ++ link.token ++ " " ++ link.name) name

/-- The level of the operation at the root of an expression, the loosest in the expression. -/
def rootLevel : Expr → Nat
  | .binary op _ _ => opLevel op
  | _ => 0

/-- Whether the operator takes operands of these levels: exponents group to the right, all other
operators to the left. -/
def Takes (op : BinaryOp) (left right : Nat) : Prop :=
  if op = .pow then left < opLevel op ∧ right ≤ opLevel op
  else left ≤ opLevel op ∧ right < opLevel op

instance (op : BinaryOp) (left right : Nat) : Decidable (Takes op left right) :=
  inferInstanceAs (Decidable (if op = .pow then left < opLevel op ∧ right ≤ opLevel op
    else left ≤ opLevel op ∧ right < opLevel op))

/-- The expression has the name and the links in this order, and every operator in it takes the
operands that it has. -/
inductive Groups : Expr → String → List Link → Prop where
  | name (name : String) : Groups (.ident name) name []
  | operation (link : Link) {left right : Expr} {name : String} {before after : List Link}
      (htakes : Takes link.op (rootLevel left) (rootLevel right))
      (hleft : Groups left name before) (hright : Groups right link.name after) :
      Groups (.binary link.op left right) name (before ++ link :: after)

variable {e : Expr} {name : String} {links : List Link}

theorem opLevel_pos (op : BinaryOp) : 0 < opLevel op := by
  cases op <;> decide

theorem opLevel_le (op : BinaryOp) : opLevel op ≤ 8 := by
  cases op <;> decide

theorem opLevel_eq_one_iff {op : BinaryOp} : opLevel op = 1 ↔ op = .pow := by
  cases op <;> decide

theorem Takes.left_le {op : BinaryOp} {left right : Nat} (h : Takes op left right) :
    left ≤ opLevel op := by
  unfold Takes at h
  split at h
  · exact le_of_lt h.1
  · exact h.1

theorem Takes.right_le {op : BinaryOp} {left right : Nat} (h : Takes op left right) :
    right ≤ opLevel op := by
  unfold Takes at h
  split at h
  · exact h.2
  · exact le_of_lt h.2

/-- An operator of a level does not take the same level on both sides. -/
theorem Takes.not_both {op op' : BinaryOp} {left right left' right' : Nat}
    (h : Takes op left right) (h' : Takes op' left' right') (hright : opLevel op' ≤ right)
    (hleft : opLevel op ≤ left') : False := by
  have hle := h.right_le
  have hle' := h'.left_le
  have hlevels : opLevel op = opLevel op' := by omega
  by_cases hpow : op = .pow
  · have hpow' : op' = .pow := by
      rw [← opLevel_eq_one_iff, ← hlevels, opLevel_eq_one_iff]
      exact hpow
    rw [Takes, if_pos hpow'] at h'
    omega
  · rw [Takes, if_neg hpow] at h
    omega

theorem Groups.opLevel_le_rootLevel (h : Groups e name links) :
    ∀ link ∈ links, opLevel link.op ≤ rootLevel e := by
  induction h with
  | name name => simp
  | operation link htakes hleft hright ihleft ihright =>
      intro other hother
      rcases List.mem_append.mp hother with hbefore | hafter
      · exact (ihleft other hbefore).trans htakes.left_le
      · rcases List.mem_cons.mp hafter with rfl | hafter
        · exact le_rfl
        · exact (ihright other hafter).trans htakes.right_le

/-- A chain has at most one tree. -/
theorem Groups.unique {e' : Expr} (h : Groups e name links) (h' : Groups e' name links) :
    e = e' := by
  induction h generalizing e' with
  | name name =>
      generalize hlinks : ([] : List Link) = links at h'
      cases h' with
      | name => rfl
      | operation link htakes hleft hright => simp at hlinks
  | @operation link left right name before after htakes hleft hright ihleft ihright =>
      generalize hlinks : before ++ link :: after = links at h'
      cases h' with
      | name => simp at hlinks
      | @operation link' left' right' _ before' after' htakes' hleft' hright' =>
          -- If one root stood before the other, each would be part of the other's operand.
          rcases List.append_eq_append_iff.mp hlinks with ⟨cs, rfl, hcs⟩ | ⟨cs, rfl, hcs⟩
          · cases cs with
            | nil =>
                rw [List.append_nil] at hleft'
                cases hcs
                rw [ihleft hleft', ihright hright']
            | cons other cs =>
                cases hcs
                exact (htakes.not_both htakes'
                  (hright.opLevel_le_rootLevel link' (by simp))
                  (hleft'.opLevel_le_rootLevel link (by simp))).elim
          · cases cs with
            | nil =>
                rw [List.append_nil] at ihleft
                cases hcs
                rw [ihleft hleft', ihright hright']
            | cons other cs =>
                cases hcs
                exact (htakes'.not_both htakes
                  (hright'.opLevel_le_rootLevel link (by simp))
                  (hleft.opLevel_le_rootLevel link' (by simp))).elim

/-- An operator takes a name to its right. -/
theorem takes_zero {op : BinaryOp} {left : Nat} (hleft : left ≤ opLevel op)
    (hpow : op = .pow → left = 0) : Takes op left 0 := by
  have hpos := opLevel_pos op
  unfold Takes
  split
  case isTrue h => exact ⟨by rw [hpow h]; exact hpos, Nat.zero_le _⟩
  case isFalse => exact ⟨hleft, hpos⟩

/-- An operator that cannot join the right operand of another takes the whole to its left. -/
theorem Takes.takes_whole {op op' : BinaryOp} {left right : Nat} (h : Takes op left right)
    (hjoins : ¬ Takes op left (max right (opLevel op'))) :
    opLevel op ≤ opLevel op' ∧ Takes op' (opLevel op) 0 := by
  have hpow : opLevel op = 1 ↔ op = .pow := opLevel_eq_one_iff
  have hpow' : opLevel op' = 1 ↔ op' = .pow := opLevel_eq_one_iff
  have hpos := opLevel_pos op
  have hless : opLevel op ≤ opLevel op' ∧ op' ≠ .pow := by
    by_cases hroot : op = .pow
    · rw [Takes, if_pos hroot] at h hjoins
      have hone := hpow.mpr hroot
      rw [Ne, ← hpow'.not]
      omega
    · rw [Takes, if_neg hroot] at h hjoins
      have hone := hpow.not.mpr hroot
      rw [Ne, ← hpow'.not]
      omega
  exact ⟨hless.1, takes_zero hless.1 fun heq => absurd heq hless.2⟩

/-- One more link: it joins the right operand, or it takes the whole to its left. -/
theorem Groups.concat (h : Groups e name links) (link : Link) :
    ∃ e', Groups e' name (links ++ [link]) ∧
      rootLevel e' = max (rootLevel e) (opLevel link.op) := by
  induction h with
  | name name =>
      have htakes : Takes link.op (rootLevel (.ident name)) (rootLevel (.ident link.name)) :=
        takes_zero (Nat.zero_le _) fun _ => rfl
      exact ⟨_, .operation link htakes (.name name) (.name link.name), (Nat.zero_max _).symm⟩
  | @operation root left right name before after htakes hleft hright ihleft ihright =>
      by_cases hjoins : Takes root.op (rootLevel left) (max (rootLevel right) (opLevel link.op))
      · obtain ⟨right', hright', hlevel⟩ := ihright
        have hle : opLevel link.op ≤ opLevel root.op := (le_max_right _ _).trans hjoins.right_le
        rw [← hlevel] at hjoins
        refine ⟨.binary root.op left right', ?_, (max_eq_left hle).symm⟩
        rw [List.append_assoc, List.cons_append]
        exact .operation root hjoins hleft hright'
      · obtain ⟨hle, htake⟩ := htakes.takes_whole hjoins
        refine ⟨.binary link.op (.binary root.op left right) (.ident link.name), ?_,
          (max_eq_right hle).symm⟩
        exact .operation link htake (.operation root htakes hleft hright) (.name link.name)

/-- Every chain has a tree. -/
theorem exists_groups (name : String) (links : List Link) : ∃ e, Groups e name links := by
  induction links using List.reverseRecOn with
  | nil => exact ⟨_, .name name⟩
  | append_singleton links link ih =>
      obtain ⟨e, he⟩ := ih
      obtain ⟨e', he', -⟩ := he.concat link
      exact ⟨e', he'⟩

/-! ## What ends an operand -/

/-- The operators of chains, as they are written. -/
def operatorTokens : List (String × BinaryOp) := [
  ("??", .coalesce), ("||", .or), ("or", .or), ("&&", .and), ("and", .and), ("==", .eq),
  ("!=", .notEq), ("<", .lt), ("<=", .ltEq), (">", .gt), (">=", .gtEq),
  ("instanceof", .instanceOf), ("+", .add), ("-", .sub), ("*", .mul), ("/", .div), ("%", .rem),
  ("**", .pow)]

/-- A link with one of the operators and a name that a variable can have. -/
structure Link.Valid (link : Link) : Prop where
  operator : (link.token, link.op) ∈ operatorTokens
  name : isVariable link.name = true

instance (link : Link) : Decidable link.Valid :=
  decidable_of_iff ((link.token, link.op) ∈ operatorTokens ∧ isVariable link.name = true)
    ⟨fun h => ⟨h.1, h.2⟩, fun h => ⟨h.operator, h.name⟩⟩

/-- The text of a link. -/
def Link.text (link : Link) : List Char :=
  [' '] ++ (link.token.toList ++ ([' '] ++ link.name.toList))

/-- The characters of a chain. -/
def chainText (name : String) (links : List Link) : List Char :=
  name.toList ++ links.flatMap Link.text

/-- What comes behind the parameters of an arrow function. -/
def arrowRest : Body :=
  .seq [.rule .blank, .lit "=>", .rule .layout, .label "body" (.rule .arrowBody)]

/-- An operand ends in front of the text, and levels up to `n` do not read it either. -/
structure Stops (n : Nat) (k : List Char) : Prop where
  ends : Ends k
  arrow : Refuses grammar arrowRest k
  suffix : Refuses grammar (.rule .suffix) k
  levels : ∀ i, 0 < i → i ≤ n → Refuses grammar (continuation i) k

theorem Stops.mono {m n : Nat} {k : List Char} (h : Stops n k) (hmn : m ≤ n) : Stops m k :=
  ⟨h.ends, h.arrow, h.suffix, fun i hi him => h.levels i hi (him.trans hmn)⟩

theorem stops_nil : Stops 11 [] := by
  have hlevels : ∀ i ∈ List.range 12, 0 < i →
      (grammar.probe true 150 (continuation i) []).isFails = true := by
    decide
  refine ⟨by simp [Ends], refuses_at_end [] (by decide),
    refuses_at_end [] (by decide), fun i hi hin => ?_⟩
  exact refuses_at_end [] (hlevels i (List.mem_range.mpr (by omega)) hi)

/-- An operator between blanks. -/
def operatorMark (token : String) : List Char :=
  [' '] ++ (token.toList ++ [' '])

theorem stops_operator {token : String} {op : BinaryOp} (h : (token, op) ∈ operatorTokens)
    (k : List Char) : Stops (opLevel op - 1) (operatorMark token ++ k) := by
  have hall : ∀ p ∈ operatorTokens,
      (grammar.probe false 150 arrowRest (operatorMark p.1)).isFails = true ∧
        (grammar.probe false 150 (.rule .suffix) (operatorMark p.1)).isFails = true ∧
        ∀ i ∈ List.range (opLevel p.2), 0 < i →
          (grammar.probe false 150 (continuation i) (operatorMark p.1)).isFails = true := by
    decide
  obtain ⟨harrow, hsuffix, hlevels⟩ := hall _ h
  refine ⟨by simp [Ends, operatorMark, isNamePart], refuses_on _ harrow, refuses_on _ hsuffix, ?_⟩
  intro i hi hin
  have hless : i < opLevel op := by omega
  exact refuses_on _ (hlevels i (List.mem_range.mpr hless) hi)

/-! ## Names -/

variable {k : List Char}

/-- A name is not the parameter of an arrow function if no arrow follows. -/
theorem refuses_arrow_name (hname : isVariable name = true) (hk : Stops 0 k) :
    Refuses grammar (.rule .arrow) (name.toList ++ k) := by
  rw [isVariable, Bool.and_eq_true, Bool.not_eq_true'] at hname
  obtain ⟨hproper, hword⟩ := hname
  have hopens : Opens [] ["async"] name.toList := by
    refine opens_of_isName hproper fun hmem => ?_
    cases List.mem_singleton.mp hmem
    exact absurd hword (by decide)
  have hasync := hopens.refuses_word hk.ends (w := "async") (by decide) (by decide)
  have hlist : Refuses grammar (.rule .paramList) (name.toList ++ k) :=
    (refuses_lit_of_isName hproper "(" rfl (by decide)).seq_head.pick.action.rule
  have hparams : Reads grammar (.rule .arrowParams) name.toList k _ [] :=
    (((hk.ends.reads_identifier hproper hword).action fun c d _ =>
      ⟨_, rfl⟩).choice_here.choice_later hlist).rule
  have hrest := Refuses.seq_tail (hparams.label "params") hk.arrow
  exact (Refuses.seq_tail (hasync.seq_head.opt.label "async") hrest).action.rule

theorem opensOperand_name (hname : isVariable name = true) : OpensOperand name.toList := by
  rw [isVariable, Bool.and_eq_true, Bool.not_eq_true'] at hname
  exact (isPrimary_ident hname.1 hname.2).opens

theorem reads_suffixed_name (hname : isVariable name = true) (hk : Stops 0 k) :
    Reads grammar (.rule .suffixed) name.toList k (.ofNode (Expr.ident name)) [] := by
  have harrow := refuses_arrow_name hname hk
  rw [isVariable, Bool.and_eq_true, Bool.not_eq_true'] at hname
  exact reads_suffixed (reads_primary_ident hname.1 hname.2 hk.ends harrow) hk.suffix

theorem opensExpr_chainText (hname : isVariable name = true) (links : List Link) :
    OpensExpr (chainText name links) := by
  refine (opensOperand_name hname).opensExpr.append fun k hk => ?_
  cases links with
  | nil => exact hk
  | cons link links => simp [Ends, Link.text, isNamePart]

/-! ## Operations -/

/-- A text that is read as the expression, at all levels from that of its root on. -/
def ReadsUp (u : List Char) (e : Expr) : Prop :=
  ∀ n k, rootLevel e ≤ n → n ≤ 8 → Stops n k →
    Reads grammar (.rule (level n)) u k (.ofNode e) []

/-- It is enough that the text is read at the level of the root. -/
theorem readsUp_of_rootLevel {u : List Char}
    (h : ∀ k, Stops (rootLevel e) k →
      Reads grammar (.rule (level (rootLevel e))) u k (.ofNode e) []) : ReadsUp u e := by
  intro n k hroot hn hk
  exact reads_level hroot (by omega) (h k (hk.mono hroot)) fun i hi hin =>
    hk.levels i (by omega) hin

/-- A text that starts an operation of the level: whichever operators of the level and operands go
on behind it, the whole is read with `e` at its left end. -/
def StartsLevel (n : Nat) (u : List Char) (e : Expr) : Prop :=
  ∀ w k operands, Stops (n - 1) (w ++ k) →
    Reads grammar (.star (continuation n)) w k (.ofNodes operands) [] →
    Reads grammar (.rule (level n)) (u ++ w) k (.ofNode (foldOperands e operands)) []

theorem body_level_eq {n : Nat} (hpos : 2 ≤ n) (hn : n ≤ 8) :
    body (level n) = binaryLevel (level (n - 1)) (operatorOf (continuation n)) := by
  have hcases : n = 2 ∨ n = 3 ∨ n = 4 ∨ n = 5 ∨ n = 6 ∨ n = 7 ∨ n = 8 := by omega
  rcases hcases with rfl | rfl | rfl | rfl | rfl | rfl | rfl <;> rfl

theorem continuation_eq {n : Nat} (hpos : 2 ≤ n) (hn : n ≤ 8) :
    continuation n =
      continuationOf (binaryLevel (level (n - 1)) (operatorOf (continuation n))) := by
  rw [← body_level_eq hpos hn]
  rfl

/-- An expression of a lower level is the first operand. -/
theorem ReadsUp.startsLevel {n : Nat} {u : List Char} (h : ReadsUp u e) (hpos : 2 ≤ n)
    (hn : n ≤ 8) (hroot : rootLevel e < n) : StartsLevel n u e := by
  intro w k operands hk htail
  have hhead := h (n - 1) (w ++ k) (by omega) (by omega) hk
  rw [continuation_eq hpos hn] at htail
  have hseq := (hhead.label "head").seq_cons (htail.label "tail").seq_last
  have hread : Reads grammar (body (level n)) (u ++ w) k
      (.ofNode (foldOperands e operands)) [] := by
    rw [body_level_eq hpos hn]
    refine hseq.action fun c d _ => ActionM.exists_bind_eq_some rfl ?_
    have hnodes := Value.toNodes?_ofNodes (ν := Piece) operands
    exact ActionM.exists_bind_eq_some (ActionM.nodes_eq_some "tail" hnodes) ⟨_, rfl⟩
  exact hread.rule

/-- One more operator of the level and its operand. -/
theorem StartsLevel.append {token : String} {op : BinaryOp} {u r : List Char} {left right : Expr}
    (h : StartsLevel (opLevel op) u left) (hop : (token, op) ∈ operatorTokens) (hpow : op ≠ .pow)
    (hopens : OpensExpr r) (hright : ReadsUp r right) (hroot : rootLevel right < opLevel op) :
    StartsLevel (opLevel op) (u ++ (operatorMark token ++ r)) (.binary op left right) := by
  have hall : ∀ p ∈ operatorTokens, p.2 ≠ .pow →
      solid (p.1.toList ++ [' ']) = true ∧ BinaryOp.ofToken? p.1 = some p.2 ∧
        (grammar.probe false 150 (operatorOf (continuation (opLevel p.2)))
          (p.1.toList ++ [' '])).isReadingOf p.1.toList [' '] = true := by
    decide
  obtain ⟨hsolid, htoken, hprobe⟩ := hall _ hop hpow
  have hle := opLevel_le op
  have hpos : 2 ≤ opLevel op := by
    have hone := opLevel_eq_one_iff.not.mpr hpow
    have hzero := opLevel_pos op
    omega
  intro w k operands hk htail
  obtain ⟨v, hmark⟩ := reads_on (k := r ++ (w ++ k)) hprobe
  rw [← List.append_assoc] at hmark
  have hsolid' : solid (token.toList ++ ([' '] ++ r) ++ (w ++ k)) = true := by
    have happend := solid_append (k := r ++ (w ++ k)) hsolid (by simp)
    simpa only [List.append_assoc] using happend
  have hoperand := hright (opLevel op - 1) (w ++ k) (by omega) (by omega) hk
  have hround := reads_operand hsolid' hmark (by simpa using htoken) hopens hoperand
  rw [← continuation_eq hpos hle] at hround
  have htext : [' '] ++ (token.toList ++ ([' '] ++ r)) = operatorMark token ++ r := by
    simp [operatorMark]
  rw [htext] at hround
  have hmore := hround.star_cons (by simp [operatorMark]) htail
  have hstops : Stops (opLevel op - 1) (operatorMark token ++ r ++ w ++ k) := by
    simp only [List.append_assoc]
    exact stops_operator hop _
  have hread := h (operatorMark token ++ r ++ w) k (⟨op, right⟩ :: operands) hstops hmore
  rw [← List.append_assoc u] at hread
  exact hread

/-- Operations that group to the left are read at the level of the root. -/
theorem StartsLevel.readsUp {u : List Char} (h : StartsLevel (rootLevel e) u e)
    (hpos : 2 ≤ rootLevel e) (hle : rootLevel e ≤ 8) : ReadsUp u e := by
  refine readsUp_of_rootLevel fun k hk => ?_
  have hstop := hk.levels (rootLevel e) (by omega) le_rfl
  have hread := h [] k [] (hk.mono (by omega)) hstop.star
  rw [List.append_nil] at hread
  exact hread

/-- Exponents group to the right. -/
theorem readsUp_pow {u r : List Char} {left right : Expr} (hleft : ReadsUp u left)
    (hright : ReadsUp r right) (hopens : OpensExpr r)
    (htakes : Takes .pow (rootLevel left) (rootLevel right)) :
    ReadsUp (u ++ (operatorMark "**" ++ r)) (.binary .pow left right) := by
  obtain ⟨hl, hr⟩ : rootLevel left < 1 ∧ rootLevel right ≤ 1 := htakes
  refine readsUp_of_rootLevel fun k hk => ?_
  have hstops := stops_operator (show ("**", .pow) ∈ operatorTokens by decide) (r ++ k)
  have hfirst := hleft 0 _ (by omega) (by omega) hstops
  rw [← List.append_assoc] at hfirst
  have hsecond := hright 1 k hr (by omega) hk
  have hnot : Reads grammar (.not (.lit "=")) [] ([' '] ++ r ++ k) .empty [] := by
    rw [List.append_assoc]
    exact (refuses_on [' '] (by decide)).not
  have hrest := hnot.seq_cons ((reads_layout_space hopens.solid).seq_cons
    (hsecond.label "right").seq_last)
  have hop := (reads_blank_space rfl).seq_cons ((reads_lit "**").seq_cons hrest)
  have hread := (hfirst.label "left").seq_cons hop
  exact (hread.action fun c d _ => ⟨_, rfl⟩).choice_here.rule

theorem chainText_append (name : String) (before : List Link) (link : Link) (after : List Link) :
    chainText name (before ++ link :: after) =
      chainText name before ++ (operatorMark link.token ++ chainText link.name after) := by
  simp [chainText, Link.text, operatorMark]

/-- A chain is read as its tree.  The induction is on the tree; operations of one level are taken up
from the left. -/
theorem Groups.reads (h : Groups e name links) (hname : isVariable name = true)
    (hlinks : ∀ link ∈ links, link.Valid) :
    ReadsUp (chainText name links) e ∧
      ∀ n, 2 ≤ n → n ≤ 8 → rootLevel e ≤ n → StartsLevel n (chainText name links) e := by
  induction h with
  | name name =>
      have hread : ReadsUp (chainText name []) (.ident name) := by
        refine readsUp_of_rootLevel fun k hk => ?_
        rw [chainText, List.flatMap_nil, List.append_nil]
        exact (opensOperand_name hname).reads_unary hk.ends (reads_suffixed_name hname hk)
      exact ⟨hread, fun n hpos hn _ => hread.startsLevel hpos hn (by simp [rootLevel]; omega)⟩
  | @operation link left right name before after htakes hleft hright ihleft ihright =>
      obtain ⟨hbefore, hafter⟩ := List.forall_mem_append.mp hlinks
      obtain ⟨hlink, hafter⟩ := List.forall_mem_cons.mp hafter
      obtain ⟨hreadLeft, hstarts⟩ := ihleft hname hbefore
      obtain ⟨hreadRight, -⟩ := ihright hlink.name hafter
      have hopens := opensExpr_chainText hlink.name after
      have hle := opLevel_le link.op
      rw [chainText_append]
      by_cases hpow : link.op = .pow
      · have htoken : link.token = "**" := by
          have hall : ∀ p ∈ operatorTokens, p.2 = .pow → p.1 = "**" := by decide
          exact hall _ hlink.operator hpow
        rw [hpow] at htakes
        have hread := readsUp_pow hreadLeft hreadRight hopens htakes
        rw [← htoken, ← hpow] at hread
        refine ⟨hread, fun n hpos hn hroot => hread.startsLevel hpos hn ?_⟩
        rw [rootLevel, hpow]
        exact hpos
      · have hone := opLevel_eq_one_iff.not.mpr hpow
        have hzero := opLevel_pos link.op
        have hpos : 2 ≤ opLevel link.op := by omega
        have hroot : rootLevel right < opLevel link.op := by
          rw [Takes, if_neg hpow] at htakes
          exact htakes.2
        have hstart := (hstarts (opLevel link.op) hpos hle htakes.left_le).append hlink.operator
          hpow hopens hreadRight hroot
        have hread := StartsLevel.readsUp (e := .binary link.op left right) hstart hpos hle
        refine ⟨hread, fun n hn hn' hroot => ?_⟩
        rcases Nat.lt_or_eq_of_le hroot with hless | heq
        · exact hread.startsLevel hn hn' hless
        · rw [← heq]
          exact hstart

/-! ## Programs -/

theorem toList_chainSource (name : String) (links : List Link) :
    (chainSource name links).toList = chainText name links := by
  induction links using List.reverseRecOn with
  | nil => simp [chainSource, chainText]
  | append_singleton links link ih =>
      rw [chainSource, List.foldl_append, List.foldl_cons, List.foldl_nil, ← chainSource]
      simp only [String.toList_append, ih]
      simp [chainText, Link.text]

theorem flatMap_text_cons (link : Link) (links : List Link) :
    (link :: links).flatMap Link.text =
      operatorMark link.token ++ (link.name.toList ++ links.flatMap Link.text) := by
  simp [Link.text, operatorMark]

/-- What follows the first name of a chain. -/
theorem stops_links (hlinks : ∀ link ∈ links, link.Valid) : Stops 0 (links.flatMap Link.text) := by
  cases links with
  | nil => exact stops_nil.mono (Nat.zero_le 11)
  | cons link links =>
      have hlink := (hlinks link (List.mem_cons_self ..)).operator
      rw [flatMap_text_cons]
      exact (stops_operator hlink _).mono (Nat.zero_le _)

/-- What comes behind the target of an assignment. -/
def assignmentRest : Body :=
  .seq [
    .rule .blank,
    .label "op" (.text (.rule .assignOperator)),
    .rule .layout,
    .label "value" (.rule .expression)]

/-- No operator of a chain is the start of an assignment. -/
theorem refuses_assignmentRest (hlinks : ∀ link ∈ links, link.Valid) :
    Refuses grammar assignmentRest (links.flatMap Link.text) := by
  cases links with
  | nil => exact refuses_at_end [] (by decide)
  | cons link links =>
      have hall : ∀ p ∈ operatorTokens,
          (grammar.probe false 150 assignmentRest (operatorMark p.1)).isFails = true := by
        decide
      have hfails := hall _ (hlinks link (List.mem_cons_self ..)).operator
      rw [flatMap_text_cons]
      exact refuses_on _ hfails

theorem refuses_assignment_chain (hname : isVariable name = true)
    (hlinks : ∀ link ∈ links, link.Valid) :
    Refuses grammar (.rule .assignment) (chainText name links) := by
  have hsuffixed := reads_suffixed_name hname (stops_links hlinks)
  have hproper : isName name = true := by
    rw [isVariable, Bool.and_eq_true] at hname
    exact hname.1
  have hobject : Refuses grammar (.rule .objectPattern) (chainText name links) :=
    (refuses_lit_of_isName hproper "\x7b" rfl (by decide)).seq_head.pick.label.action.rule
  have harray : Refuses grammar (.rule .arrayPattern) (chainText name links) :=
    (refuses_lit_of_isName hproper "[" rfl (by decide)).seq_head.pick.label.action.rule
  have htarget : Reads grammar (.rule .assignTarget) name.toList (links.flatMap Link.text) _ [] :=
    ((((hsuffixed.action fun c d _ => ⟨_, rfl⟩).choice_here).choice_later
      harray.action).choice_later hobject.action).rule
  exact (Refuses.seq_tail (htarget.label "target") (refuses_assignmentRest hlinks)).action.rule

theorem rootLevel_le (e : Expr) : rootLevel e ≤ 8 := by
  cases e with
  | binary op left right => exact opLevel_le op
  | _ => exact Nat.zero_le 8

theorem reads_program_chain (h : Groups e name links) (hname : isVariable name = true)
    (hlinks : ∀ link ∈ links, link.Valid) :
    Reads grammar (.rule .program) (chainText name links) []
      (.ofNode (Program.mk [.expr e])) [] := by
  have hopens := opensExpr_chainText hname links
  have hread := (h.reads hname hlinks).1 8 [] (rootLevel_le e) le_rfl (stops_nil.mono (by omega))
  have hpipeline := reads_level (by omega) le_rfl hread fun i hi hin =>
    stops_nil.levels i (by omega) hin
  have hexpr := reads_expression hopens stops_nil.ends hpipeline
  have hassign := refuses_assignment_chain hname hlinks
  rw [← List.append_nil (chainText name links)] at hassign
  have hstatement : Reads grammar (.rule .statement) (chainText name links) []
      (.ofNode (Stmt.expr e)) [] :=
    (((hexpr.action fun c d _ => ⟨_, rfl⟩).choice_here.choice_later hassign).choice_after
      (hopens.refuses_statement stops_nil.ends)).rule
  have hprogram := reads_program_of_statement hopens.solid rfl hstatement
    (refuses_at_end [] (by decide)) (reads_at_end (p := []) (by decide))
  rw [List.append_nil] at hprogram
  exact hprogram

/-- A chain of operators, however long, has one tree by the levels of its operators and the sides to
which they group, and a parse of the chain gives that tree, unless too many rules become active. -/
theorem parse_chain (name : String) (links : List Link) (hname : isVariable name = true)
    (hlinks : ∀ link ∈ links, link.Valid) :
    ∃ e, Groups e name links ∧ (∀ e', Groups e' name links → e' = e) ∧
      ∀ settings, parse settings (chainSource name links) = .ok ⟨[.expr e]⟩ ∨
        ∃ offset,
          (grammar.parse settings (chainSource name links)).session.overflow = some offset ∧
          parse settings (chainSource name links) =
            .error ((({} : FurthestFailure).add offset .lessNesting).diagnose
              (chainSource name links)) := by
  obtain ⟨e, he⟩ := exists_groups name links
  refine ⟨e, he, fun e' he' => he'.unique he, fun settings => ?_⟩
  have hread := reads_program_chain he hname hlinks
  rw [← toList_chainSource] at hread
  exact parse_of_reads hread settings

/-- An exponent binds tighter than a difference, and exponents group to the right. -/
theorem parse_chain_difference :
    ∃ links : List Link, chainSource "a" links = "a - b ** c ** d" ∧
      ∃ e, Groups e "a" links ∧ (∀ e', Groups e' "a" links → e' = e) ∧
        ∀ settings, parse settings (chainSource "a" links) = .ok ⟨[.expr e]⟩ ∨
          ∃ offset,
            (grammar.parse settings (chainSource "a" links)).session.overflow = some offset ∧
            parse settings (chainSource "a" links) =
              .error ((({} : FurthestFailure).add offset .lessNesting).diagnose
                (chainSource "a" links)) := by
  exact ⟨[⟨"-", .sub, "b"⟩, ⟨"**", .pow, "c"⟩, ⟨"**", .pow, "d"⟩], rfl,
    parse_chain "a" _ (by decide) (by decide)⟩

example :
    Groups (.binary .sub (.ident "a") (.binary .pow (.ident "b") (.binary .pow (.ident "c")
      (.ident "d")))) "a" [⟨"-", .sub, "b"⟩, ⟨"**", .pow, "c"⟩, ⟨"**", .pow, "d"⟩] := by
  have hd : Groups (.binary .pow (.ident "c") (.ident "d")) "c" [⟨"**", .pow, "d"⟩] :=
    .operation ⟨"**", .pow, "d"⟩ (by decide) (.name "c") (.name "d")
  have hc := Groups.operation ⟨"**", .pow, "c"⟩ (by decide) (.name "b") hd
  exact .operation ⟨"-", .sub, "b"⟩ (by decide) (.name "a") hc

end Language

end PegScript
