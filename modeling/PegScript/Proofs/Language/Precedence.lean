import PegScript.JavaScript.Shape
import PegScript.Proofs.Language.Operands

/-!
# Reading operations

The rules for operations form a tower: each level reads operands of the level below it, with its own
operators between them.  What an operand stands in front of decides how far up the tower it is read
as it is: in front of a closing bracket all the way, in front of an operator up to the level below
that operator (`Follows`).
-/

namespace PegScript

namespace Language

open Expression JavaScript

variable {k u w : List Char} {e : Expr}

/-! ## The tower -/

/-- The levels of operations, the tightest first. -/
def level : Nat → Symbol
  | 0 => .unary
  | 1 => .exponent
  | 2 => .multiplicative
  | 3 => .additive
  | 4 => .relational
  | 5 => .equality
  | 6 => .and
  | 7 => .or
  | 8 => .coalesce
  | 9 => .conditional
  | 10 => .range
  | _ => .pipeline

/-- What has to follow the first operand for a rule to read more than that operand. -/
def continuationOf : Body → Body
  | .action _ (.seq [_, .label _ (.star t)]) => t
  | .choice (.action _ (.seq (_ :: rest)) :: _) => .seq rest
  | t => t

/-- What makes an operand part of an operation of the level. -/
def continuation (n : Nat) : Body :=
  continuationOf (body (level n))

/-- The level of an operator. -/
def opLevel : BinaryOp → Nat
  | .pow => 1
  | .mul | .div | .rem => 2
  | .add | .sub => 3
  | .lt | .ltEq | .gt | .gtEq | .instanceOf => 4
  | .eq | .notEq => 5
  | .and => 6
  | .or => 7
  | .coalesce => 8

theorem reads_binaryLevel {next : Symbol} {op : Body}
    (h : Reads grammar (.rule next) u k (.ofNode e) [])
    (hstop : Refuses grammar (continuationOf (binaryLevel next op)) k) :
    Reads grammar (binaryLevel next op) u k (.ofNode e) [] := by
  have hread := (h.label "head").seq_cons (hstop.star.label "tail").seq_last
  rw [List.append_nil] at hread
  exact hread.action fun c d _ => ⟨_, rfl⟩

theorem reads_alternative {act : Build} {name : String} {next : Symbol} {rest : List Body}
    (h : Reads grammar (.rule next) u k (.ofNode e) []) (hstop : Refuses grammar (.seq rest) k) :
    Reads grammar (.choice [.action act (.seq (.label name (.rule next) :: rest)), .rule next]) u k
      (.ofNode e) [] :=
  h.choice_here.choice_later (Refuses.seq_tail (h.label name) hstop).action

/-- One level up, if the operand is not part of an operation there. -/
theorem reads_level_succ {n : Nat} (hn : n < 11)
    (h : Reads grammar (.rule (level n)) u k (.ofNode e) [])
    (hstop : Refuses grammar (continuation (n + 1)) k) :
    Reads grammar (.rule (level (n + 1))) u k (.ofNode e) [] := by
  match n with
  | 0 => exact (reads_alternative h hstop).rule
  | 1 => exact (reads_binaryLevel h hstop).rule
  | 2 => exact (reads_binaryLevel h hstop).rule
  | 3 => exact (reads_binaryLevel h hstop).rule
  | 4 => exact (reads_binaryLevel h hstop).rule
  | 5 => exact (reads_binaryLevel h hstop).rule
  | 6 => exact (reads_binaryLevel h hstop).rule
  | 7 => exact (reads_binaryLevel h hstop).rule
  | 8 => exact (reads_alternative h hstop).rule
  | 9 => exact (reads_alternative h hstop).rule
  | 10 =>
      have hread := (h.label "head").seq_cons (hstop.star.label "stages").seq_last
      rw [List.append_nil] at hread
      exact (hread.action fun c d _ => ⟨_, rfl⟩).rule

/-- Several levels up. -/
theorem reads_level {m n : Nat} (hmn : m ≤ n) (hn : n ≤ 11)
    (h : Reads grammar (.rule (level m)) u k (.ofNode e) [])
    (hstop : ∀ i, m < i → i ≤ n → Refuses grammar (continuation i) k) :
    Reads grammar (.rule (level n)) u k (.ofNode e) [] := by
  induction n, hmn using Nat.le_induction with
  | base => exact h
  | succ n hmn ih =>
      have hread := ih (by omega) fun i hi hin => hstop i hi (by omega)
      exact reads_level_succ (by omega) hread (hstop (n + 1) (by omega) le_rfl)

/-! ## What follows an operand -/

/-- The operators that are written as they are read. -/
def plainOps : List BinaryOp :=
  [.add, .sub, .mul, .div, .rem, .pow, .lt, .ltEq, .gt, .gtEq, .instanceOf, .and, .or, .coalesce]

/-- An operator between its operands. -/
def operatorText (op : BinaryOp) : String :=
  " " ++ binaryToken op ++ " "

/-- What may follow an operand, with the highest level that reads nothing more there. -/
def followers : List (String × Nat) :=
  [(")", 11), ("]", 11), (",", 11), (";", 11), (" ? ", 8), (" : ", 9)]
    ++ plainOps.map fun op => (operatorText op, opLevel op - 1)

/-- The text goes on with something that levels up to `n` do not read. -/
def Follows (n : Nat) (k : List Char) : Prop :=
  ∃ p ∈ followers, n ≤ p.2 ∧ p.1.toList <+: k

theorem Follows.mono {m n : Nat} (h : Follows n k) (hmn : m ≤ n) : Follows m k := by
  obtain ⟨p, hp, hn, hk⟩ := h
  exact ⟨p, hp, hmn.trans hn, hk⟩

theorem Follows.ends (h : Follows 0 k) : Ends k := by
  obtain ⟨p, hp, -, rest, rfl⟩ := h
  have hall : ∀ p ∈ followers, p.1.toList.head?.any (!isNamePart ·) = true := by
    decide
  obtain ⟨a, ha, hname⟩ := (Option.any_eq_true _ _).mp (hall p hp)
  intro b hb
  rw [List.head?_append, ha] at hb
  cases hb
  simpa using hname

theorem Follows.refuses_suffix (h : Follows 0 k) : Refuses grammar (.rule .suffix) k := by
  obtain ⟨p, hp, -, rest, rfl⟩ := h
  have hall : ∀ p ∈ followers,
      (grammar.probe false 150 (.rule .suffix) p.1.toList).isFails = true := by
    decide
  exact refuses_on p.1.toList (hall p hp)

theorem Follows.refuses_continuation {n i : Nat} (h : Follows n k) (hi : 0 < i) (hin : i ≤ n) :
    Refuses grammar (continuation i) k := by
  obtain ⟨p, hp, hn, rest, rfl⟩ := h
  have hall : ∀ p ∈ followers, ∀ i ∈ List.range (p.2 + 1), 0 < i →
      (grammar.probe false 150 (continuation i) p.1.toList).isFails = true := by
    decide
  exact refuses_on p.1.toList (hall p hp i (List.mem_range.mpr (by omega)) hi)

theorem Closes.follows (h : Closes k) : Follows 11 k := by
  obtain ⟨c, hc, hk⟩ := h
  obtain ⟨rest, rfl⟩ := List.head?_eq_some_iff.mp hk
  have hall : ∀ c ∈ [')', ']', ',', ';'], ∃ p ∈ followers, 11 ≤ p.2 ∧ p.1.toList = [c] := by
    decide
  obtain ⟨p, hp, hn, htext⟩ := hall c hc
  exact ⟨p, hp, hn, by rw [htext]; exact List.prefix_append [c] rest⟩

theorem follows_operator (op : BinaryOp) (hop : op ∈ plainOps) :
    Follows (opLevel op - 1) ((operatorText op).toList ++ k) := by
  refine ⟨(operatorText op, opLevel op - 1), ?_, le_rfl, List.prefix_append _ k⟩
  exact List.mem_append_right _ (List.mem_map_of_mem hop)

/-! ## Operands of operators -/

/-- A text that is read as an operand with its suffixes. -/
structure IsSuffixed (u : List Char) (e : Expr) : Prop where
  opens : OpensOperand u
  reads : ∀ k, Follows 0 k → Calm (u ++ k) → Reads grammar (.rule .suffixed) u k (.ofNode e) []

theorem StartsChain.isSuffixed (h : StartsChain .suffix u e) : IsSuffixed u e :=
  ⟨h.opens, fun _ hk hcalm => (h.reads_end hk.ends hcalm hk.refuses_suffix).rule⟩

/-- A number starts with no word. -/
theorem IsNumber.opens {text : String} (h : IsNumber text) : OpensPlain text.toList := by
  obtain ⟨a, as, htext, ha⟩ := h.exists_digit
  have hname : isNamePart a = true := by
    simp [isNamePart, Char.isAlphanum, ha]
  rw [htext]
  refine ⟨⟨a, rfl, Or.inl hname⟩, ?_⟩
  intro k _ w hw heq
  have hall : ∀ w ∈ "new" :: ["await", "not", "typeof"] ++ statementWords,
      w.toList.head?.any (!Char.isDigit ·) = true := by
    decide
  obtain ⟨b, hb, hdigit⟩ := (Option.any_eq_true _ _).mp (hall w hw)
  rw [← heq, List.cons_append, firstWord, List.takeWhile_cons, hname] at hb
  cases hb
  rw [ha] at hdigit
  cases hdigit

/-- An operand without suffixes. -/
theorem reads_suffixed (h : Reads grammar (.rule .primary) u k (.ofNode e) [])
    (hstop : Refuses grammar (.rule .suffix) k) :
    Reads grammar (.rule .suffixed) u k (.ofNode e) [] := by
  have hchain := (h.label "head").seq_cons (hstop.star.label "tail").seq_last
  rw [List.append_nil] at hchain
  exact (hchain.action fun c d _ => ⟨_, rfl⟩).rule

theorem isSuffixed_number {text : String} (h : IsNumber text) :
    IsSuffixed text.toList (.number text) := by
  refine ⟨h.opens.opensOperand, ?_⟩
  intro k hk hcalm
  have hprimary : Reads grammar (.rule .primary) text.toList k (.ofNode (Expr.number text)) [] := by
    have hfirst := h.opens.refuses_before_number hk.ends (refuses_arrow hcalm)
    obtain ⟨p, hp, -, rest, rfl⟩ := hk
    have hall : ∀ p ∈ followers, p.1.toList.head?.any (· ∈ afterNumber) = true := by
      decide
    obtain ⟨a, ha, hafter⟩ := (Option.any_eq_true _ _).mp (hall p hp)
    obtain ⟨as, has⟩ := List.head?_eq_some_iff.mp ha
    rw [has, List.cons_append] at hfirst ⊢
    exact ((h.reads (of_decide_eq_true hafter)).choice_here.choice_after hfirst).rule
  exact reads_suffixed hprimary hk.refuses_suffix

/-- An operand without operators in front. -/
theorem OpensOperand.reads_unary (hopens : OpensOperand u) (hk : Ends k)
    (h : Reads grammar (.rule .suffixed) u k (.ofNode e) []) :
    Reads grammar (.rule .unary) u k (.ofNode e) [] := by
  have hawait := hopens.refuses_word hk (w := "await") (by decide) (by decide)
  have hop : Refuses grammar
      (.choice [.lit "!", word "not", word "typeof", .lit "-", .lit "+"]) (u ++ k) := by
    apply refuses_choice
    intro t ht
    simp only [List.mem_cons, List.not_mem_nil, or_false] at ht
    rcases ht with rfl | rfl | rfl | rfl | rfl
    · exact hopens.refuses_lit rfl (by decide)
    · exact hopens.refuses_word hk (by decide) (by decide)
    · exact hopens.refuses_word hk (by decide) (by decide)
    · exact hopens.refuses_lit rfl (by decide)
    · exact hopens.refuses_lit rfl (by decide)
  exact ((h.choice_here.choice_later hop.text.label.seq_head.action).choice_later
    hawait.seq_head.action).rule

/-- A text that is read as an operand with the operators in front of it. -/
structure IsUnary (u : List Char) (e : Expr) : Prop where
  opens : OpensExpr u
  reads : ∀ k, Follows 0 k → Calm (u ++ k) → Reads grammar (.rule .unary) u k (.ofNode e) []

theorem IsSuffixed.isUnary (h : IsSuffixed u e) : IsUnary u e :=
  ⟨h.opens.opensExpr, fun k hk hcalm => h.opens.reads_unary hk.ends (h.reads k hk hcalm)⟩

theorem IsSuffixed.await (h : IsSuffixed u e) :
    IsUnary ("await".toList ++ ([' '] ++ u)) (.await e) := by
  have hopens : OpensExpr "await".toList := opens_of_isName (by decide) (by decide)
  refine ⟨hopens.append fun k _ => by simp [Ends, isNamePart], ?_⟩
  intro k hk hcalm
  simp only [List.append_assoc] at hcalm
  have hread := ((h.isUnary.reads k hk hcalm.of_append.of_append).label "expr").seq_last
  have hblank := (reads_blank_space (h.opens.opensExpr.solid (k := k))).seq_cons hread
  have hends : Ends ([' '] ++ u ++ k) := by simp [Ends, isNamePart]
  have hword := (hends.reads_word "await").seq_cons hblank
  exact (hword.action fun c d _ => ⟨_, rfl⟩).choice_here.rule

/-- The marks of operators in front of an operand. -/
def unaryMarks : Body :=
  .choice [.lit "!", word "not", word "typeof", .lit "-", .lit "+"]

theorem reads_unary {mark gap : List Char} {op : UnaryOp} {v v' : Value Piece}
    (hawait : Refuses grammar (word "await") (mark ++ (gap ++ u) ++ k))
    (hmark : Reads grammar unaryMarks mark (gap ++ u ++ k) v [])
    (hop : UnaryOp.ofToken? (String.ofList mark) = some op)
    (hgap : Reads grammar (.rule .blank) gap (u ++ k) v' [])
    (hread : Reads grammar (.rule .unary) u k (.ofNode e) []) :
    Reads grammar (.rule .unary) (mark ++ (gap ++ u)) k (.ofNode (Expr.unary op e)) [] := by
  have hseq := (hmark.text.label "op").seq_cons (hgap.seq_cons (hread.label "expr").seq_last)
  have haccept (value : Value Piece) (c d : Cursor) :
      ∃ left, buildUnary ⟨[("expr", .ofNode e), ("op", .text (String.ofList mark))], value, c, d⟩ =
        some (.ofNode (Expr.unary op e), left) := by
    refine ActionM.exists_bind_eq_some (a := String.ofList mark) rfl ?_
    exact ActionM.exists_bind_eq_some (ActionM.require_eq_some hop) ⟨_, rfl⟩
  have hunary := hseq.action fun c d _ => haccept _ c d
  exact (hunary.choice_here.choice_later hawait.seq_head.action).rule

theorem IsSuffixed.sign (h : IsSuffixed u e) {a : Char} (ha : a ∈ ['!', '-', '+'])
    {op : UnaryOp} (hop : UnaryOp.ofToken? (String.ofList [a]) = some op) :
    IsUnary ([a] ++ u) (.unary op e) := by
  have hname : ∀ a ∈ ['!', '-', '+'], isNamePart a = false ∧ a ∈ ['(', '[', '!', '-', '+'] := by
    decide
  obtain ⟨hpart, hhead⟩ := hname a ha
  refine ⟨opens_of_not_isNamePart hpart hhead (by decide), ?_⟩
  intro k hk hcalm
  rw [List.append_assoc] at hcalm
  have hprobe : ∀ a ∈ ['!', '-', '+'],
      (grammar.probe false 150 (word "await") [a]).isFails = true ∧
        (grammar.probe false 150 unaryMarks [a]).isReadingOf [a] [] = true := by
    decide
  obtain ⟨hawait, hmarks⟩ := hprobe a ha
  obtain ⟨v, hmark⟩ := reads_on (k := u ++ k) hmarks
  have hgap := reads_blank_nil (h.opens.opensExpr.solid (k := k))
  have hread := h.isUnary.reads k hk hcalm.of_append
  exact reads_unary (refuses_on [a] hawait) hmark hop hgap hread

theorem IsSuffixed.typeOf (h : IsSuffixed u e) :
    IsUnary ("typeof".toList ++ ([' '] ++ u)) (.unary .typeOf e) := by
  have hopens : OpensExpr "typeof".toList := opens_of_isName (by decide) (by decide)
  refine ⟨hopens.append fun k _ => by simp [Ends, isNamePart], ?_⟩
  intro k hk hcalm
  simp only [List.append_assoc] at hcalm
  have hawait : Refuses grammar (word "await") ("typeof".toList ++ ([' '] ++ u) ++ k) := by
    rw [List.append_assoc]
    exact refuses_on "typeof".toList (by decide)
  have hmarks : (grammar.probe false 150 unaryMarks "typeof ".toList).isReadingOf
      "typeof".toList [' '] = true := by
    decide
  obtain ⟨v, hmark⟩ := reads_on (k := u ++ k) hmarks
  have hgap := reads_blank_space (h.opens.opensExpr.solid (k := k))
  have hread := h.isUnary.reads k hk hcalm.of_append.of_append
  exact reads_unary hawait hmark rfl hgap hread

theorem IsSuffixed.unary (h : IsSuffixed u e) (op : UnaryOp) :
    IsUnary ((unaryToken op).toList ++ u) (.unary op e) := by
  cases op with
  | not => exact h.sign (a := '!') (by decide) rfl
  | neg => exact h.sign (a := '-') (by decide) rfl
  | plus => exact h.sign (a := '+') (by decide) rfl
  | typeOf => exact h.typeOf

/-! ## Operations -/

variable {l r : List Char} {left right : Expr}

theorem IsUnary.reads_level {n : Nat} (h : IsUnary u e) (hn : n ≤ 11) (hk : Follows n k)
    (hcalm : Calm (u ++ k)) : Reads grammar (.rule (level n)) u k (.ofNode e) [] :=
  Language.reads_level (Nat.zero_le n) hn (h.reads k (hk.mono (Nat.zero_le n)) hcalm)
    fun _ hi hin => hk.refuses_continuation hi hin

theorem reads_expression (hopens : OpensExpr u) (hk : Ends k)
    (h : Reads grammar (.rule .pipeline) u k (.ofNode e) []) :
    Reads grammar (.rule .expression) u k (.ofNode e) [] := by
  have hyield := hopens.refuses_word hk (w := "yield") (by decide) (by decide)
  exact (h.choice_here.choice_later hyield.seq_head.action.rule).rule

theorem IsUnary.isExpr (h : IsUnary u e) : IsExpr u e := by
  refine ⟨h.opens, ?_⟩
  intro k hk hcalm
  have hread := h.reads_level le_rfl hk.follows hcalm
  exact reads_expression h.opens (hk.follows.mono (Nat.zero_le 11)).ends hread

/-- A text that is read as an expression in front of a closing parenthesis. -/
structure IsInner (u : List Char) (e : Expr) : Prop where
  opens : OpensExpr u
  reads : ∀ k, Calm (u ++ ')' :: k) →
    Reads grammar (.rule .expression) u (')' :: k) (.ofNode e) []

theorem IsExpr.isInner (h : IsExpr u e) : IsInner u e :=
  ⟨h.opens, fun k hcalm => h.reads (')' :: k) ⟨')', by decide, rfl⟩ hcalm⟩

/-- An operation of some level is an expression in front of a closing parenthesis. -/
theorem isInner_of_level {n : Nat} (hn : n ≤ 11) (hopens : OpensExpr u)
    (h : ∀ k, Calm (u ++ ')' :: k) →
      Reads grammar (.rule (level n)) u (')' :: k) (.ofNode e) []) : IsInner u e := by
  refine ⟨hopens, ?_⟩
  intro k hcalm
  have hfollows : Follows 11 (')' :: k) := Closes.follows ⟨')', by decide, rfl⟩
  have hread := Language.reads_level hn le_rfl (h k hcalm) fun i hi hi' =>
    hfollows.refuses_continuation (by omega) hi'
  exact reads_expression hopens (hfollows.mono (Nat.zero_le 11)).ends hread

/-- The operator of a level, in what makes an operand part of an operation. -/
def operatorOf : Body → Body
  | .action _ (.seq (_ :: .label _ (.text t) :: _)) => t
  | t => t

theorem body_level {op : BinaryOp} (hop : op ∈ plainOps) (hpow : op ≠ .pow) :
    body (level (opLevel op)) =
      binaryLevel (level (opLevel op - 1)) (operatorOf (continuation (opLevel op))) := by
  cases op with
  | pow => exact absurd rfl hpow
  | _ => rfl

/-- An operator and the operand behind it. -/
theorem reads_operand {next : Symbol} {t : Body} {mark : List Char} {op : BinaryOp}
    {v : Value Piece} (hsolid : solid (mark ++ ([' '] ++ r) ++ k) = true)
    (hmark : Reads grammar t mark ([' '] ++ r ++ k) v [])
    (hop : BinaryOp.ofToken? (String.ofList mark) = some op)
    (hopens : OpensExpr r) (hright : Reads grammar (.rule next) r k (.ofNode right) []) :
    Reads grammar (continuationOf (binaryLevel next t)) ([' '] ++ (mark ++ ([' '] ++ r))) k
      (.ofNode (Operand.mk op right)) [] := by
  have hoperand := (reads_layout_space hopens.solid).seq_cons (hright.label "right").seq_last
  have hseq := (reads_blank_space hsolid).seq_cons ((hmark.text.label "op").seq_cons hoperand)
  have haccept (value : Value Piece) (c d : Cursor) :
      ∃ left, buildOperand ⟨[("right", .ofNode right), ("op", .text (String.ofList mark))],
        value, c, d⟩ = some (.ofNode (Operand.mk op right), left) := by
    refine ActionM.exists_bind_eq_some (a := String.ofList mark) rfl ?_
    exact ActionM.exists_bind_eq_some (ActionM.require_eq_some hop) ⟨_, rfl⟩
  exact hseq.action fun c d _ => haccept _ c d

/-- Two operands with an operator between them. -/
theorem reads_binaryLevel_pair {next : Symbol} {t : Body} {mark : List Char} {op : BinaryOp}
    {v : Value Piece} (hsolid : solid (mark ++ ([' '] ++ r) ++ k) = true)
    (hleft : Reads grammar (.rule next) l ([' '] ++ (mark ++ ([' '] ++ r)) ++ k) (.ofNode left) [])
    (hmark : Reads grammar t mark ([' '] ++ r ++ k) v [])
    (hop : BinaryOp.ofToken? (String.ofList mark) = some op)
    (hopens : OpensExpr r) (hright : Reads grammar (.rule next) r k (.ofNode right) [])
    (hstop : Refuses grammar (continuationOf (binaryLevel next t)) k) :
    Reads grammar (binaryLevel next t) (l ++ ([' '] ++ (mark ++ ([' '] ++ r)))) k
      (.ofNode (Expr.binary op left right)) [] := by
  have hround := reads_operand hsolid hmark hop hopens hright
  have htail := Reads.star_cons (w := []) hround (by simp) hstop.star
  rw [List.append_nil] at htail
  have hpair := (hleft.label "head").seq_cons (htail.label "tail").seq_last
  exact hpair.action fun c d _ => ⟨_, rfl⟩

/-- What is known of each operator that is written as it is read. -/
theorem plainOps_facts {op : BinaryOp} (hop : op ∈ plainOps) :
    0 < opLevel op ∧ opLevel op ≤ 8 ∧ solid ((binaryToken op).toList ++ [' ']) = true ∧
      BinaryOp.ofToken? (binaryToken op) = some op := by
  have hall : ∀ op ∈ plainOps,
      0 < opLevel op ∧ opLevel op ≤ 8 ∧ solid ((binaryToken op).toList ++ [' ']) = true ∧
        BinaryOp.ofToken? (binaryToken op) = some op := by
    decide
  exact hall op hop

/-- The operator of its level is read in front of a blank. -/
theorem reads_operator {op : BinaryOp} (hop : op ∈ plainOps) (hpow : op ≠ .pow) :
    ∃ v, Reads grammar (operatorOf (continuation (opLevel op))) (binaryToken op).toList
      ([' '] ++ k) v [] := by
  have hall : ∀ op ∈ plainOps, op ≠ .pow →
      (grammar.probe false 150 (operatorOf (continuation (opLevel op)))
        ((binaryToken op).toList ++ [' '])).isReadingOf (binaryToken op).toList [' '] = true := by
    decide +kernel
  exact reads_on (hall op hop hpow)

theorem isInner_binary {op : BinaryOp} (hop : op ∈ plainOps) (hpow : op ≠ .pow)
    (hl : IsUnary l left) (hr : IsUnary r right) :
    IsInner (l ++ ((operatorText op).toList ++ r)) (.binary op left right) := by
  obtain ⟨hpos, hle, hsolid, htoken⟩ := plainOps_facts hop
  have hends (k : List Char) : Ends ((operatorText op).toList ++ r ++ k) := by
    rw [List.append_assoc]
    exact ((follows_operator op hop).mono (Nat.zero_le _)).ends
  refine isInner_of_level (n := opLevel op) (by omega) (hl.opens.append fun k _ => hends k) ?_
  intro k hcalm
  simp only [List.append_assoc] at hcalm
  -- The left operand ends at the operator, the right one at the bracket behind the whole.
  have hfollows : Follows 11 (')' :: k) := Closes.follows ⟨')', by decide, rfl⟩
  have htext : (operatorText op).toList ++ r =
      [' '] ++ ((binaryToken op).toList ++ ([' '] ++ r)) := by
    simp [operatorText]
  have hleft := hl.reads_level (by omega) (follows_operator op hop) hcalm
  rw [← List.append_assoc, htext] at hleft
  have hright := hr.reads_level (n := opLevel op - 1) (by omega) (hfollows.mono (by omega))
    hcalm.of_append.of_append
  have hstop := hfollows.refuses_continuation hpos (by omega)
  rw [continuation, body_level hop hpow] at hstop
  obtain ⟨v, hmark⟩ := reads_operator (k := r ++ ')' :: k) hop hpow
  rw [← List.append_assoc] at hmark
  have hsolid' : solid ((binaryToken op).toList ++ ([' '] ++ r) ++ ')' :: k) = true := by
    have happend := solid_append (k := r ++ ')' :: k) hsolid (by simp)
    simpa only [List.append_assoc] using happend
  have hread := reads_binaryLevel_pair hsolid' hleft hmark (by simpa using htoken) hr.opens hright
    hstop
  rw [← body_level hop hpow, ← htext] at hread
  exact hread.rule (r := level (opLevel op))

theorem isInner_pow (hl : IsUnary l left) (hr : IsUnary r right) :
    IsInner (l ++ (" ** ".toList ++ r)) (.binary .pow left right) := by
  have hpow (k : List Char) : Follows 0 (" ** ".toList ++ k) :=
    follows_operator .pow (by decide)
  refine isInner_of_level (n := 1) (by omega) (hl.opens.append fun k _ => ?_) ?_
  · rw [List.append_assoc]
    exact (hpow _).ends
  intro k hcalm
  simp only [List.append_assoc] at hcalm
  have hfollows : Follows 11 (')' :: k) := Closes.follows ⟨')', by decide, rfl⟩
  have hleft := hl.reads _ (hpow _) hcalm
  rw [← List.append_assoc] at hleft
  have hright := hr.reads_level (n := 1) (by omega) (hfollows.mono (by omega))
    hcalm.of_append.of_append
  have hnot : Reads grammar (.not (.lit "=")) [] ([' '] ++ r ++ ')' :: k) .empty [] := by
    rw [List.append_assoc]
    exact (refuses_on [' '] (by decide)).not
  have hrest := hnot.seq_cons ((reads_layout_space hr.opens.solid).seq_cons
    (hright.label "right").seq_last)
  have hop := (reads_blank_space rfl).seq_cons ((reads_lit "**").seq_cons hrest)
  have hread := (hleft.label "left").seq_cons hop
  exact (hread.action fun c d _ => ⟨_, rfl⟩).choice_here.rule

theorem isInner_conditional {c a t : List Char} {test consequent alternate : Expr}
    (ht : IsUnary t test) (hc : IsUnary c consequent) (ha : IsUnary a alternate) :
    IsInner (t ++ (" ? ".toList ++ (c ++ (" : ".toList ++ a))))
      (.conditional test consequent alternate) := by
  have hmark (k : List Char) : Follows 8 (" ? ".toList ++ k) :=
    ⟨(" ? ", 8), by decide, le_rfl, List.prefix_append _ k⟩
  have hcolon (k : List Char) : Follows 9 (" : ".toList ++ k) :=
    ⟨(" : ", 9), by decide, le_rfl, List.prefix_append _ k⟩
  refine isInner_of_level (n := 9) (by omega) (ht.opens.append fun k _ => ?_) ?_
  · rw [List.append_assoc]
    exact ((hmark _).mono (Nat.zero_le 8)).ends
  intro k hcalm
  simp only [List.append_assoc] at hcalm
  have hfollows : Follows 11 (')' :: k) := Closes.follows ⟨')', by decide, rfl⟩
  have htest : Reads grammar (.rule .coalesce) t
      (" ? ".toList ++ (c ++ (" : ".toList ++ a)) ++ ')' :: k) (.ofNode test) [] := by
    simp only [List.append_assoc]
    exact ht.reads_level (n := 8) (by omega) (hmark _) hcalm
  have hcons := hc.reads_level (by omega) (hcolon _) hcalm.of_append.of_append
  rw [← List.append_assoc] at hcons
  have halt := ha.reads_level (n := 9) (by omega) (hfollows.mono (by omega))
    hcalm.of_append.of_append.of_append.of_append
  have hlast := (reads_layout_space ha.opens.solid).seq_cons (halt.label "alternate").seq_last
  have helse := (reads_layout_space rfl).seq_cons ((reads_lit ":").seq_cons hlast)
  have hthen := (hcons.label "consequent").seq_cons helse
  have hgap : Reads grammar (.rule .layout) [' '] (c ++ (" : ".toList ++ a) ++ ')' :: k)
      (.list [.text " "]) [] := by
    rw [List.append_assoc]
    exact reads_layout_space hc.opens.solid
  have hnot : Reads grammar (.not (.oneOf [('?', '?'), ('.', '.')])) []
      ([' '] ++ (c ++ (" : ".toList ++ a)) ++ ')' :: k) .empty [] := by
    rw [List.append_assoc]
    exact (refuses_on [' '] (by decide)).not
  have hrest := (reads_lit "?").seq_cons (hnot.seq_cons (hgap.seq_cons hthen))
  have hread := (htest.label "test").seq_cons ((reads_blank_space rfl).seq_cons hrest)
  exact (hread.action fun c d _ => ⟨_, rfl⟩).choice_here.rule

end Language

end PegScript
