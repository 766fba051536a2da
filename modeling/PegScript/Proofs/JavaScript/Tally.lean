import PegScript.Proofs.JavaScript.Declarations

/-!
# Counting declarations along a lowering

The text of a piece has the texts of its children in it, mostly once.  A compound assignment to an
item that is found by a helper has its target twice, and with it every scope in the target.
`Piece.copies` tells for each scope in a piece how often it is written.

`Tallies` says of a lowering that the text it gives declares the variable of a pipeline as often as
the scopes that it writes, each with its copies.  Every lowering of a tree whose own texts do not
declare the variable does (`tallies_exprText` to `tallies_stmtTexts`).
-/

namespace PegScript

open JavaScript Lower

/-! ## Copies of scopes -/

/-- How often an assignment writes its target. -/
def AssignOp.timesWritten (op : AssignOp) : AssignTarget → Nat
  | .index _ index => if isStaticIndex index || op.binary?.isNone then 1 else 2
  | _ => 1

namespace Piece

/-- How often the text of a piece has that of a child. -/
def timesWritten : Piece → Piece → Nat
  | .stmt (.assign target op _), .assignTarget _ => op.timesWritten target
  | _, _ => 1

/-- How often each scope in a piece is written, in the order of lowering. -/
def copies (p : Piece) : List Nat :=
  (p.sameScope.attach.flatMap fun q => q.1.copies.map (p.timesWritten q.1 * ·))
    ++ p.scopeBlock?.toList.attach.flatMap fun b => 1 :: (Piece.block b.1).copies
termination_by sizeOf p
decreasing_by
  · exact sizeOf_lt_of_mem_children (mem_children_of_mem_sameScope q.2)
  · exact sizeOf_lt_of_mem_children (mem_children_of_mem_scopeBlock b.2)

theorem copies_eq (p : Piece) :
    p.copies = (p.sameScope.flatMap fun q => q.copies.map (p.timesWritten q * ·))
      ++ p.scopeBlock?.toList.flatMap fun b => 1 :: (Piece.block b).copies := by
  rw [copies, List.flatMap_subtype (g := fun q => q.copies.map (p.timesWritten q * ·))
      (fun _ _ => rfl), List.unattach_attach,
    List.flatMap_subtype (g := fun b => 1 :: (Piece.block b).copies) (fun _ _ => rfl),
    List.unattach_attach]

/-- Every scope has its number of copies. -/
theorem length_scopes (p : Piece) (n : Nat) :
    (scopesAmong n p.landmarks).length = p.copies.length := by
  induction p using induction_children generalizing n with
  | step p ih =>
    have hsame (qs : List Piece) (hqs : ∀ q ∈ qs, q ∈ p.children) (n : Nat) :
        (scopesAmong n (qs.flatMap landmarks)).length =
          (qs.flatMap fun q => q.copies.map (p.timesWritten q * ·)).length := by
      induction qs generalizing n with
      | nil => rfl
      | cons q qs ihqs =>
          obtain ⟨hq, hqs⟩ := List.forall_mem_cons.mp hqs
          rw [List.flatMap_cons, scopesAmong_append, List.length_append, ih q hq, ihqs hqs]
          simp
    have hown : scopesAmong n (if p.isNumbered then [.construct p] else []) = [] := by
      split <;> rfl
    rw [landmarks_eq, copies_eq, scopesAmong_append, scopesAmong_append, hown, List.nil_append,
      List.length_append, List.length_append,
      hsame _ fun q hq => mem_children_of_mem_sameScope hq]
    cases hblock : p.scopeBlock? with
    | none => rfl
    | some b =>
        have hinside := ih _ (mem_children_of_mem_scopeBlock (Option.mem_toList.mpr hblock))
        simp only [Option.toList_some, List.map_singleton, List.flatMap_singleton, scopesAmong,
          Landmark.scopesFrom, List.append_nil, List.length_cons, hinside]

/-- Where no assignment writes its target twice, every scope is written once. -/
theorem copies_eq_one {p : Piece} (h : ∀ q ∈ p.below, ∀ r, q.timesWritten r = 1) :
    ∀ c ∈ p.copies, c = 1 := by
  induction p using induction_children with
  | step p ih =>
    have hchild (q : Piece) (hq : q ∈ p.children) : ∀ c ∈ q.copies, c = 1 := by
      refine ih q hq fun r hr => h r ?_
      rw [below_eq]
      exact List.mem_cons_of_mem p (List.mem_flatMap.mpr ⟨q, hq, hr⟩)
    have hp : ∀ r, p.timesWritten r = 1 := by
      refine h p ?_
      rw [below_eq]
      exact List.mem_cons_self
    intro c hc
    rw [copies_eq] at hc
    rcases List.mem_append.mp hc with hsame | hscope
    · obtain ⟨q, hq, hc⟩ := List.mem_flatMap.mp hsame
      obtain ⟨d, hd, rfl⟩ := List.mem_map.mp hc
      rw [hp, hchild q (mem_children_of_mem_sameScope hq) d hd]
    · obtain ⟨b, hb, hc⟩ := List.mem_flatMap.mp hscope
      rcases List.mem_cons.mp hc with rfl | hc
      · rfl
      · exact hchild _ (mem_children_of_mem_scopeBlock hb) c hc

end Piece

/-- How many numbers the pieces take. -/
def numbersTaken (ps : List Piece) : Nat :=
  (constructsAmong (ps.flatMap Piece.landmarks)).length

/-- How often the scopes declare the variable of a pipeline, each with its copies. -/
def declaredBy (n : Nat) (scopes : List Scope) (copies : List Nat) : Nat :=
  (List.zipWith (fun scope c => c * scope.names.count (reference n)) scopes copies).sum

/-- How often the scopes in the pieces declare the variable, if `start` is the last number given out
before. -/
def tally (n start : Nat) (ps : List Piece) : Nat :=
  declaredBy n (scopesAmong start (ps.flatMap Piece.landmarks)) (ps.flatMap Piece.copies)

section Tally

variable {n start : Nat}

theorem declaredBy_cons (scope : Scope) (scopes : List Scope) (c : Nat) (copies : List Nat) :
    declaredBy n (scope :: scopes) (c :: copies) =
      c * scope.names.count (reference n) + declaredBy n scopes copies := by
  rw [declaredBy, List.zipWith_cons_cons, List.sum_cons]
  rfl

theorem declaredBy_append {scopes scopes' : List Scope} {copies copies' : List Nat}
    (h : scopes.length = copies.length) :
    declaredBy n (scopes ++ scopes') (copies ++ copies') =
      declaredBy n scopes copies + declaredBy n scopes' copies' := by
  rw [declaredBy, List.zipWith_append h, List.sum_append]
  rfl

theorem declaredBy_map_mul (k : Nat) (scopes : List Scope) (copies : List Nat) :
    declaredBy n scopes (copies.map (k * ·)) = k * declaredBy n scopes copies := by
  induction scopes generalizing copies with
  | nil => rfl
  | cons scope scopes ih =>
      cases copies with
      | nil => rfl
      | cons c copies =>
          rw [List.map_cons, declaredBy_cons, declaredBy_cons, ih, Nat.mul_add, Nat.mul_assoc]

theorem length_scopesAmong_flatMap (ps : List Piece) (start : Nat) :
    (scopesAmong start (ps.flatMap Piece.landmarks)).length =
      (ps.flatMap Piece.copies).length := by
  induction ps generalizing start with
  | nil => rfl
  | cons p ps ih =>
      rw [List.flatMap_cons, List.flatMap_cons, scopesAmong_append, List.length_append,
        List.length_append, p.length_scopes, ih]

theorem numbersTaken_append (ps qs : List Piece) :
    numbersTaken (ps ++ qs) = numbersTaken ps + numbersTaken qs := by
  rw [numbersTaken, List.flatMap_append, constructsAmong_append, List.length_append]
  rfl

theorem tally_append (n start : Nat) (ps qs : List Piece) :
    tally n start (ps ++ qs) = tally n start ps + tally n (start + numbersTaken ps) qs := by
  rw [tally, List.flatMap_append, List.flatMap_append, scopesAmong_append,
    declaredBy_append (length_scopesAmong_flatMap ps start)]
  rfl

/-- Pieces that meet and write the same as others. -/
structure SameTally (ps qs : List Piece) : Prop where
  landmarks : ps.flatMap Piece.landmarks = qs.flatMap Piece.landmarks
  copies : ps.flatMap Piece.copies = qs.flatMap Piece.copies

theorem SameTally.tally_eq {ps qs : List Piece} (h : SameTally ps qs) (n start : Nat) :
    tally n start ps = tally n start qs := by
  rw [tally, h.landmarks, h.copies]
  rfl

theorem SameTally.numbersTaken_eq {ps qs : List Piece} (h : SameTally ps qs) :
    numbersTaken ps = numbersTaken qs := by
  rw [numbersTaken, h.landmarks]
  rfl

/-- Whether the piece only puts the texts of its children together, each once. -/
def Piece.isPlain : Piece → Bool
  | .expr (.doBlock _) | .function _ | .stmt (.assign ..) => false
  | p => !p.isNumbered

theorem flatMap_copies {p : Piece} (h : ∀ q, p.timesWritten q = 1) :
    [p].flatMap Piece.copies = p.sameScope.flatMap Piece.copies
      ++ p.scopeBlock?.toList.flatMap fun b => 1 :: (Piece.block b).copies := by
  have hsame : (p.sameScope.flatMap fun q => q.copies.map (p.timesWritten q * ·)) =
      p.sameScope.flatMap Piece.copies :=
    List.flatMap_congr fun q _ => by simp only [h, Nat.one_mul, List.map_id_fun', id_eq]
  rw [List.flatMap_singleton, p.copies_eq, hsame]

theorem timesWritten_eq_one {p : Piece} (h : ∀ target op value, p ≠ .stmt (.assign target op value))
    (q : Piece) : p.timesWritten q = 1 := by
  unfold Piece.timesWritten
  split
  · exact (h _ _ _ rfl).elim
  · rfl

theorem sameTally_of_isPlain {p : Piece} (h : p.isPlain = true) : SameTally [p] p.sameScope := by
  have hnone : p.scopeBlock? = none := by
    unfold Piece.scopeBlock?
    split
    · cases h
    · cases h
    · rfl
  have hnumbered : p.isNumbered = false := by
    unfold Piece.isPlain at h
    split at h
    case h_4 => exact Bool.not_eq_true' _ ▸ h
    all_goals cases h
  have htimes : ∀ q, p.timesWritten q = 1 := by
    refine timesWritten_eq_one ?_
    rintro target op value rfl
    cases h
  constructor
  · rw [List.flatMap_singleton, p.landmarks_eq, hnone, hnumbered, if_neg (by decide),
      List.nil_append, Option.toList_none, List.map_nil, List.append_nil]
  · rw [flatMap_copies htimes, hnone, Option.toList_none, List.flatMap_nil, List.append_nil]

/-- The body of a function is a scope like a block that is used as an expression. -/
theorem sameTally_function (f : FunctionDef) :
    SameTally [.function f] (f.params.map .param ++ [.expr (.doBlock f.body)]) := by
  constructor
  · simp [(Piece.function f).landmarks_eq, (Piece.expr (.doBlock f.body)).landmarks_eq]
  · rw [flatMap_copies fun q => rfl]
    simp [(Piece.expr (.doBlock f.body)).copies_eq]

theorem tally_doBlock (n start : Nat) (b : Block) :
    tally n start [.expr (.doBlock b)] =
      (namesFrom start (Piece.block b).landmarks).count (reference n)
        + tally n start [.block b] := by
  simp [tally, (Piece.expr (.doBlock b)).landmarks_eq, (Piece.expr (.doBlock b)).copies_eq,
    scopesAmong, Landmark.scopesFrom, declaredBy, Scope.names]

theorem numbersTaken_doBlock (b : Block) :
    numbersTaken [.expr (.doBlock b)] = numbersTaken [.block b] := by
  simp [numbersTaken, (Piece.expr (.doBlock b)).landmarks_eq, constructsAmong,
    Landmark.constructs]

/-- A construct takes the next number before what is below it. -/
theorem tally_numbered {p : Piece} (h : p.isNumbered = true) (n start : Nat) :
    tally n start [p] = tally n (start + 1) p.sameScope ∧
      numbersTaken [p] = 1 + numbersTaken p.sameScope := by
  have hnone : p.scopeBlock? = none := by
    unfold Piece.isNumbered at h
    split at h <;> trivial
  have htimes : ∀ q, p.timesWritten q = 1 := by
    refine timesWritten_eq_one ?_
    rintro target op value rfl
    cases h
  have hlandmarks : [p].flatMap Piece.landmarks =
      .construct p :: p.sameScope.flatMap Piece.landmarks := by
    rw [List.flatMap_singleton, p.landmarks_eq, hnone, h, if_pos rfl, Option.toList_none,
      List.map_nil, List.append_nil, List.singleton_append]
  have hcopies : [p].flatMap Piece.copies = p.sameScope.flatMap Piece.copies := by
    rw [flatMap_copies htimes, hnone, Option.toList_none, List.flatMap_nil, List.append_nil]
  constructor
  · rw [tally, hlandmarks, hcopies]
    rfl
  · rw [numbersTaken, hlandmarks, constructsAmong, List.length_append]
    rfl

/-- What an assignment has in its target counts as often as the target is written. -/
theorem tally_assign (n start : Nat) (target : AssignTarget) (op : AssignOp) (value : Expr) :
    tally n start [.stmt (.assign target op value)] = tally n start [.expr value] +
        op.timesWritten target * tally n (start + numbersTaken [.expr value])
          [.assignTarget target] ∧
      numbersTaken [.stmt (.assign target op value)] =
        numbersTaken [.expr value] + numbersTaken [.assignTarget target] := by
  have hlandmarks : [Piece.stmt (.assign target op value)].flatMap Piece.landmarks =
      [Piece.expr value].flatMap Piece.landmarks ++
        [Piece.assignTarget target].flatMap Piece.landmarks := by
    simp [(Piece.stmt (.assign target op value)).landmarks_eq]
  have hcopies : [Piece.stmt (.assign target op value)].flatMap Piece.copies =
      [Piece.expr value].flatMap Piece.copies ++
        ([Piece.assignTarget target].flatMap Piece.copies).map (op.timesWritten target * ·) := by
    simp [(Piece.stmt (.assign target op value)).copies_eq, Piece.timesWritten]
  constructor
  · rw [tally, hlandmarks, hcopies, scopesAmong_append,
      declaredBy_append (length_scopesAmong_flatMap _ _), declaredBy_map_mul]
    rfl
  · rw [numbersTaken, hlandmarks, constructsAmong_append, List.length_append]
    rfl

end Tally

/-! ## Texts of a tree -/

/-- What a template has between its marks, with every substitution cut short. -/
def templateOutline (parts : List StrPart) : String :=
  String.join (parts.map fun
    | .text text => templateText text
    | .expr _ => "$\x7b\x7d")

/-- A string as it is written, with every substitution cut short. -/
def literalText (parts : List StrPart) : String :=
  match singleLine? parts with
  | some text => plain text
  | none => templateOutline parts

/-- The name that a pattern declares as a whole, behind the word that declares it. -/
def Pattern.declaredBehind (keyword : String) : Pattern → List String
  | .ident name => [keyword ++ " " ++ name]
  | _ => []

/-- The texts that a piece itself brings into the generated text. -/
def Piece.texts : Piece → List String
  | .expr (.ident name) | .expr (.member _ name _) | .property (.shorthand name)
  | .propertyKey (.ident name) | .pattern (.ident name) | .assignTarget (.ident name)
  | .assignTarget (.member _ name) | .stmt (.forRange name ..) => [name]
  | .expr (.rawStr text) => [raw text]
  | .propertyKey (.str text) => [plain text]
  | .expr (.str parts) => [literalText parts]
  | .pattern (.object _ rest) => rest.toList
  | .patternElement (.prop p) => [p.key]
  | .function f => f.name.toList
  | .stmt (.decl kind target _) => target.declaredBehind kind.keyword
  | .stmt (.guard target _ error _) => error :: target.toList.flatMap (·.declaredBehind "let")
  | .stmt (.importFrom clause) => [importText clause]
  | _ => []

/-- No text that the piece itself brings declares the variable of the pipeline with the number. -/
def Piece.DoesNotDeclare (n : Nat) (p : Piece) : Prop :=
  ∀ text ∈ p.texts, declarationCount n text = 0

/-- None of the pieces declares it. -/
abbrev DoNotDeclare (n : Nat) (pieces : List Piece) : Prop :=
  Everywhere (Piece.DoesNotDeclare n) pieces

namespace Program

/-- No text of the program itself declares the variable of the pipeline with the number. -/
def DoesNotDeclare (program : Program) (n : Nat) : Prop :=
  DoNotDeclare n program.pieces

/-- How often each scope of the program is written, the outermost one first. -/
def copies (program : Program) : List Nat :=
  1 :: (Piece.program program).copies

end Program

namespace JavaScript

/-! ## Lowerings that tally -/

variable {α β : Type} {n : Nat}

/-- A name that is read under another one is read under the variable of a pipeline. -/
def Emitter.ReadsReferences (s : Emitter) : Prop :=
  ∀ r ∈ s.rebind, ∃ m, r.reference = reference m

/-- The lowering takes the numbers of the pieces, and `K` relates its result to the number of
declarations in the scopes of the pieces. -/
def Tallies (n : Nat) (ps : List Piece) (K : α → Nat → Prop) (m : Lower α) : Prop :=
  ∀ s a s', s.ReadsReferences → m s = .ok (a, s') →
    s'.rebind = s.rebind ∧ s'.counter = s.counter + numbersTaken ps ∧
      K a (tally n s.counter ps)

/-- The text has the declarations of the pieces. -/
def TalliesText (n : Nat) (ps : List Piece) (m : Lower String) : Prop :=
  Tallies n ps (fun t k => declarationCount n t = k) m

/-- The texts together have the declarations of the pieces. -/
def TalliesTexts (n : Nat) (ps : List Piece) (m : Lower (List String)) : Prop :=
  Tallies n ps (fun ts k => (ts.map (declarationCount n)).sum = k) m

/-- The text, if there is one, has the declarations of the pieces. -/
def TalliesText? (n : Nat) (ps : List Piece) (m : Lower (Option String)) : Prop :=
  Tallies n ps (fun t k => (t.toList.map (declarationCount n)).sum = k) m

/-- The lines have the declarations of the pieces, and no declaration goes on behind them. -/
def TalliesLines (n : Nat) (ps : List Piece) (m : Lower String) : Prop :=
  Tallies n ps (fun t k => declarationCount n t = k ∧ EndsForGood n t) m

/-- The text has the declarations of the pieces, and can stand behind any other. -/
def TalliesBlock (n : Nat) (ps : List Piece) (m : Lower String) : Prop :=
  Tallies n ps (fun t k => declarationCount n t = k ∧ startsAfresh t = true) m

/-- The text of a pattern is a name or starts with a bracket. -/
def Bare (pattern : Pattern) (t : String) : Prop :=
  pattern = .ident t ∨ startsAfresh t = true

/-- The pattern, if there is one, has the declarations in it. -/
def TalliesPattern? (n : Nat) (pattern : Option Pattern) : Prop :=
  Tallies n (pattern.toList.map .pattern) (fun t k =>
    (t.toList.map (declarationCount n)).sum = k ∧ Option.Rel Bare pattern t) (patternText? pattern)

section Tallies

variable {ps qs : List Piece} {K : α → Nat → Prop} {K' : β → Nat → Prop} {m : Lower α}

theorem tallies_pure {a : α} (h : K a 0) : Tallies n [] K (pure a) := by
  rintro s b s' - ⟨⟩
  exact ⟨rfl, rfl, h⟩

theorem tallies_text {t : String} (h : declarationCount n t = 0) : TalliesText n [] (pure t) :=
  tallies_pure h

theorem tallies_throw {d : Defect} : Tallies n ps K (throw d) := by
  rintro s a s' - ⟨⟩

theorem Tallies.bind {f : α → Lower β} (hm : Tallies n ps K m)
    (hf : ∀ a k, K a k → Tallies n qs (fun b j => K' b (k + j)) (f a)) :
    Tallies n (ps ++ qs) K' (m >>= f) := by
  intro s b s'' hs hrun
  obtain ⟨a, s', hfirst, hsecond⟩ := bind_eq_ok hrun
  obtain ⟨hrebind, hcounter, ha⟩ := hm s a s' hs hfirst
  have hs' : s'.ReadsReferences := by
    rwa [Emitter.ReadsReferences, hrebind]
  obtain ⟨hrebind', hcounter', hb⟩ := hf a _ ha s' b s'' hs' hsecond
  refine ⟨hrebind'.trans hrebind, ?_, ?_⟩
  · rw [hcounter', hcounter, numbersTaken_append, Nat.add_assoc]
  · rw [tally_append, ← hcounter]
    exact hb

/-- A step behind which no pieces follow. -/
theorem Tallies.last {f : α → Lower β} (hm : Tallies n ps K m)
    (hf : ∀ a k, K a k → Tallies n [] (fun b j => K' b (k + j)) (f a)) :
    Tallies n ps K' (m >>= f) := by
  rw [← List.append_nil ps]
  exact hm.bind hf

theorem Tallies.mono {K' : α → Nat → Prop} (hm : Tallies n ps K m) (h : ∀ a k, K a k → K' a k) :
    Tallies n ps K' m := by
  intro s a s' hs hrun
  obtain ⟨hrebind, hcounter, ha⟩ := hm s a s' hs hrun
  exact ⟨hrebind, hcounter, h a _ ha⟩

theorem Tallies.map {f : α → β} (hm : Tallies n ps K m) (h : ∀ a k, K a k → K' (f a) k) :
    Tallies n ps K' (do return f (← m)) :=
  hm.last fun a k ha => tallies_pure (h a k ha)

theorem Tallies.of_sameTally (hm : Tallies n ps K m) (h : SameTally qs ps) :
    Tallies n qs K m := by
  intro s a s' hs hrun
  rw [h.tally_eq, h.numbersTaken_eq]
  exact hm s a s' hs hrun

/-- A piece that puts the texts of its children together. -/
theorem Tallies.of_piece {p : Piece} (hm : Tallies n ps K m) (hps : p.sameScope = ps := by simp)
    (hplain : p.isPlain = true := by rfl) : Tallies n [p] K m :=
  hm.of_sameTally (hps ▸ sameTally_of_isPlain hplain)

theorem TalliesText.cons {first : Lower String} {rest : Lower (List String)}
    (hfirst : TalliesText n ps first) (hrest : TalliesTexts n qs rest) :
    TalliesTexts n (ps ++ qs) (do return (← first) :: (← rest)) := by
  refine hfirst.bind fun t k ht => hrest.map fun ts j hts => ?_
  rw [List.map_cons, List.sum_cons, ht, hts]

/-- A step that takes no number and leaves the name that is read under another one. -/
theorem tallies_step {f : α → Lower β}
    (hm : ∀ s a s', m s = .ok (a, s') → s'.rebind = s.rebind ∧ s'.counter = s.counter)
    (hf : ∀ a, Tallies n ps K' (f a)) : Tallies n ps K' (m >>= f) := by
  have hstep : Tallies n [] (fun _ k => k = 0) m := by
    intro s a s' _ hrun
    exact ⟨(hm s a s' hrun).1, (hm s a s' hrun).2, rfl⟩
  refine hstep.bind fun a k hk => (hf a).mono fun b j hb => ?_
  rwa [hk, Nat.zero_add]

theorem tallies_need {h : Helper} {f : String → Lower β} (hf : Tallies n ps K' (f h.name)) :
    Tallies n ps K' (need h >>= f) := by
  intro s b s' hs hrun
  exact hf { s with helpers := s.helpers.insert h } b s' hs hrun

theorem tallies_indentation {f : String → Lower β}
    (hf : ∀ level, Tallies n ps K' (f (blanksAt level))) :
    Tallies n ps K' (indentation >>= f) := by
  intro s b s' hs hrun
  exact hf s.level s b s' hs hrun

/-- A name is read as it is, or under the variable of a pipeline. -/
theorem tallies_readAs {name : String} (hname : declarationCount n name = 0) :
    TalliesText n [] (readAs name) := by
  intro s a s' hs hrun
  rw [readAs_apply] at hrun
  cases hrun
  refine ⟨rfl, rfl, ?_⟩
  cases hr : s.rebind with
  | none => exact hname
  | some r =>
      dsimp only
      split
      case isTrue =>
        obtain ⟨k, hk⟩ := hs r hr
        rw [hk, declarationCount_reference]
        rfl
      case isFalse => exact hname

theorem Tallies.rebinding (hm : Tallies n ps K m) (name : String) (id : Nat) :
    Tallies n ps K (rebinding name (reference id) m) := by
  intro s a s' hs hrun
  rw [rebinding_apply] at hrun
  obtain ⟨⟨a, s₁⟩, hinner, ⟨⟩⟩ := exists_of_map_eq_ok hrun
  obtain ⟨-, hcounter, ha⟩ := hm _ a s₁ (by rintro r ⟨⟩; exact ⟨id, rfl⟩) hinner
  exact ⟨rfl, hcounter, ha⟩

theorem Tallies.indented (hm : Tallies n ps K m) : Tallies n ps K (indented m) := by
  intro s a s' hs hrun
  rw [indented_apply] at hrun
  obtain ⟨⟨a, s₁⟩, hinner, ⟨⟩⟩ := exists_of_map_eq_ok hrun
  exact hm { s with level := s.level + 1 } a s₁ hs hinner

theorem tallies_line (text : String) :
    Tallies n [] (fun l k => declarationCount n l = declarationCount n text + k ∧ EndsForGood n l)
      (line text) := by
  refine tallies_indentation fun level => tallies_pure ⟨?_, ?_⟩
  · simp +decide
  · simp +decide

theorem TalliesText.braces {lines : Lower String} (hm : TalliesText n ps lines) :
    TalliesBlock n ps (braces lines) := by
  refine hm.indented.last fun text k htext => tallies_indentation fun level => tallies_pure ?_
  rw [declarationCount_braces, htext, Nat.add_zero]
  exact ⟨rfl, startsAfresh_braces⟩

/-! ## Constructs and scopes -/

/-- A construct takes the next number. -/
theorem Tallies.numbered (ps : List Piece) {p : Piece} {f : Nat → Lower α}
    (hf : ∀ id, Tallies n ps K (f id)) (hps : p.sameScope = ps) (hp : p.isNumbered = true) :
    Tallies n [p] K (freshNumber >>= f) := by
  intro s a s' hs hrun
  obtain ⟨htally, htaken⟩ := tally_numbered hp n s.counter
  obtain ⟨hrebind, hcounter, ha⟩ := hf _ { s with counter := s.counter + 1 } a s' hs hrun
  rw [htally, htaken, hps, ← Nat.add_assoc]
  exact ⟨hrebind, hcounter, ha⟩

theorem TalliesText.pipeline {head : Expr} {stages : List PipeStage}
    (hhead : TalliesText n [.expr head] (exprText head))
    (hstages : ∀ id, TalliesTexts n (stages.map .pipeStage) (stageTexts (reference id) stages)) :
    TalliesText n [.expr (.pipeline head stages)] (exprText (.pipeline head stages)) := by
  rw [exprText]
  split
  case isTrue => exact tallies_throw
  case isFalse =>
    refine Tallies.numbered ([.expr head] ++ stages.map .pipeStage) (fun id => ?_) (by simp) rfl
    refine tallies_step (by rintro s a s' ⟨⟩; exact ⟨rfl, rfl⟩) fun _ => ?_
    refine hhead.bind fun h k hk => (hstages id).map fun values j hj => ?_
    refine (declarationCount_steps id).trans ?_
    rw [List.map_cons, List.sum_cons, declarationCount_grouped, hk, hj]

theorem TalliesText.assign {target : AssignTarget} {op : AssignOp} {value : Expr}
    {assigned : String → Lower String} (hvalue : TalliesText n [.expr value] (exprText value))
    (htarget : ∀ v, Tallies n [.assignTarget target] (fun t k =>
      declarationCount n t = declarationCount n v + op.timesWritten target * k) (assigned v)) :
    TalliesText n [.stmt (.assign target op value)]
      (do assigned (grouped value (← exprText value))) := by
  intro s t s'' hs hrun
  obtain ⟨v, s', hfirst, hsecond⟩ := bind_eq_ok hrun
  obtain ⟨hrebind, hcounter, hv⟩ := hvalue s v s' hs hfirst
  have hs' : s'.ReadsReferences := by
    rwa [Emitter.ReadsReferences, hrebind]
  obtain ⟨hrebind', hcounter', ht⟩ := htarget _ s' t s'' hs' hsecond
  obtain ⟨htally, htaken⟩ := tally_assign n s.counter target op value
  refine ⟨hrebind'.trans hrebind, ?_, ?_⟩
  · rw [hcounter', hcounter, htaken, Nat.add_assoc]
  · rw [htally, ← hcounter, ← hv, ← declarationCount_grouped]
    exact ht

theorem exists_of_mem_namesFrom {start : Nat} {ls : List Landmark} {name : String}
    (h : name ∈ namesFrom start ls) : ∃ m, name = reference m := by
  obtain ⟨p, -, rfl⟩ := List.mem_map.mp h
  exact ⟨p.2, rfl⟩

/-- What a lowering does inside a scope, with the variables that the scope declares. -/
theorem TalliesText.inner {block : Block} {m : Lower String} {s s₁ : Emitter} {t : String}
    (hm : TalliesText n [.block block] m) (hlays : LaysText (Piece.block block).landmarks m)
    (hs : s.ReadsReferences)
    (hrun : m { s with scopes := [] :: s.scopes, level := s.level + 1 } = .ok (t, s₁)) :
    s₁.rebind = s.rebind ∧
      s₁.counter = s.counter + numbersTaken [.expr (.doBlock block)] ∧
      (∀ name ∈ s₁.scopes.headD [], ∃ m, name = reference m) ∧
      (s₁.scopes.headD []).count (reference n) + declarationCount n t =
        tally n s.counter [.expr (.doBlock block)] := by
  obtain ⟨hrebind, hcounter, ht⟩ :=
    hm { s with scopes := [] :: s.scopes, level := s.level + 1 } t s₁ hs hrun
  have hscopes : s₁.scopes = namesFrom s.counter (Piece.block block).landmarks :: s.scopes :=
    (hlays (fun _ => False) _ t s₁ hrun).scopes
  rw [hscopes, List.headD_cons, numbersTaken_doBlock, tally_doBlock, ht]
  exact ⟨hrebind, hcounter, fun name hname => exists_of_mem_namesFrom hname, rfl⟩

theorem TalliesText.functionBody {block : Block}
    (hm : TalliesText n [.block block] (blockLines .returned block)) :
    TalliesText n [.expr (.doBlock block)] (functionBody (blockLines .returned block)) := by
  intro s t s' hs hrun
  obtain ⟨inner, s₁, hinner, rfl, rfl⟩ := functionBody_eq_ok hrun
  obtain ⟨hrebind, hcounter, hnames, hcount⟩ := hm.inner (lays_blockLines .returned block) hs hinner
  refine ⟨hrebind, hcounter, ?_⟩
  rw [← hcount]
  split
  case isTrue hempty =>
    obtain ⟨hlines, hnone⟩ : inner = "" ∧ s₁.scopes.headD [] = [] := by
      rwa [Bool.and_eq_true, String.isEmpty_iff, List.isEmpty_iff] at hempty
    rw [hlines, hnone]
    simp +decide
  case isFalse => exact declarationCount_scopeBody hnames

theorem TalliesText.arrowTail {tail : Expr} (hm : TalliesText n [.expr tail] (exprText tail)) :
    TalliesText n [.expr (.doBlock ⟨[], some tail⟩)]
      (arrowTail do return grouped tail (← exprText tail)) := by
  have hresult : TalliesText n [.block ⟨[], some tail⟩]
      (do return grouped tail (← exprText tail)) :=
    (hm.map fun t k ht => by simpa using ht).of_piece
  have hlays : LaysText (Piece.block ⟨[], some tail⟩).landmarks
      (do return grouped tail (← exprText tail)) :=
    fun _ => ((lays_exprText tail _).map fun t u => by grind).of_piece (by simp)
  intro s t s' hs hrun
  obtain ⟨inner, s₁, hinner, rfl, rfl⟩ := arrowTail_eq_ok hrun
  obtain ⟨hrebind, hcounter, hnames, hcount⟩ := hresult.inner hlays hs hinner
  refine ⟨hrebind, hcounter, ?_⟩
  rw [← hcount]
  split
  case isTrue hempty =>
    rw [List.isEmpty_iff.mp hempty]
    simp +decide
  case isFalse =>
    rw [declarationCount_scopeBody hnames]
    simp +decide

/-! ## Patterns and literals -/

/-- A pattern behind the word that declares it. -/
theorem declarationCount_declared {pattern : Pattern} {keyword t : String}
    (hname : ∀ text ∈ pattern.declaredBehind keyword, declarationCount n text = 0)
    (hpattern : DoNotDeclare n pattern.pieces)
    (hkeyword : declarationCount n (keyword ++ " ") = 0) (ht : Bare pattern t) :
    declarationCount n (keyword ++ " " ++ t) = declarationCount n t := by
  rcases ht with rfl | hstart
  · rw [hname _ List.mem_cons_self, hpattern.head t List.mem_cons_self]
  · rw [declarationCount_append_of_startsAfresh hstart, hkeyword, Nat.zero_add]

theorem TalliesText.guard {pattern : Option Pattern} {e : Expr} {error : String} {fallback : Block}
    (hexpr : TalliesText n [.expr e] (exprText (guarded e)))
    (hfallback : TalliesText n [.block fallback] (blockLines .discarded fallback))
    (hbinding : TalliesPattern? n pattern)
    (h : DoNotDeclare n (Stmt.guard pattern e error fallback).pieces) :
    TalliesText n [.stmt (.guard pattern e error fallback)]
      (stmtText (.guard pattern e error fallback)) := by
  rw [stmtText_guard, guardText_eq]
  refine Tallies.numbered ([.expr e] ++ ([.block fallback] ++ pattern.toList.map .pattern))
    (fun id => ?_) (by simp) rfl
  have hresult : declarationCount n ("_res" ++ toString id) = 0 :=
    declarationCount_numbered (by decide) id
  have hline (t : String) := @declarationCount_guardLine n t e.awaits id
  dsimp only [toString_string]
  generalize "_res" ++ toString id = result at hresult hline ⊢
  have hfailed : TalliesBlock n [.block fallback] (Lower.braces do
      return (← line ("const " ++ error ++ " = " ++ result ++ ".error;"))
        ++ (← blockLines .discarded fallback)) := by
    have herror : declarationCount n error = 0 := h.head error List.mem_cons_self
    refine TalliesText.braces ((tallies_line _).bind fun first k hfirst =>
      hfallback.map fun lines j hlines => ?_)
    simp +decide [hfirst, herror, hresult, hlines]
  have hbody : TalliesText n [.expr e] (do return grouped (guarded e) (← exprText (guarded e))) :=
    hexpr.map fun t k ht => by simpa using ht
  refine tallies_need (hbody.bind fun body k hbody => hfailed.bind fun failed j hfailed =>
    tallies_indentation fun level => hbinding.map fun bound i hbound => ?_)
  have hhead : declarationCount n ("let " ++ result ++ " = "
      ++ guardCall e.awaits (arrowResult body) ++ ";\n" ++ blanksAt level
      ++ ("if (!" ++ result ++ ".ok)")) = k := by
    rw [String.append_assoc, declarationCount_append_of_endsForGood
      (endsForGood_append_of_closesOff (by decide) _), hline, declarationCount_indented]
    simp +decide [hbody, hresult]
  rw [← hbound.1]
  cases hbound.2 with
  | none => simp [hfailed, hhead]
  | @some pattern t hbare =>
      have hdeclared : declarationCount n ("let " ++ t) = declarationCount n t := by
        have hlet : "let " = "let" ++ " " := rfl
        rw [hlet]
        refine declarationCount_declared (fun text htext => ?_) h.tail.left.left
          (by simp +decide) hbare
        exact h.head text (List.mem_cons_of_mem _ (List.mem_append_left _ htext))
      have hlast : declarationCount n ("\n" ++ blanksAt level ++
          ("let " ++ t ++ " = " ++ result ++ ".value;")) = declarationCount n t := by
        rw [String.append_assoc, declarationCount_append_of_endsForGood (by simp +decide),
          declarationCount_indented]
        simp +decide [hdeclared, hresult]
      have hstart : startsAfresh ("\n" ++ blanksAt level ++
          ("let " ++ t ++ " = " ++ result ++ ".value;")) = true := by
        rw [String.append_assoc]
        exact startsAfresh_append (by decide) (by decide) _
      simp [hfailed, hhead, hlast, hstart, Nat.add_assoc]

/-- What a clause behind a block starts with. -/
def IsClauseKeyword (n : Nat) (keyword : String) : Prop :=
  startsAfresh keyword = true ∧ (keyword ≠ "" ∧ keyword ≠ " ") ∧ declarationCount n keyword = 0

theorem isClauseKeyword_else : IsClauseKeyword n " else" :=
  ⟨by decide, by decide, by simp +decide⟩

theorem isClauseKeyword_finally : IsClauseKeyword n " finally" :=
  ⟨by decide, by decide, by simp +decide⟩

theorem declarationCount_else {ts : List String} :
    declarationCount n (" else ".intercalate ts) = (ts.map (declarationCount n)).sum :=
  declarationCount_intercalate (by decide) (by decide) (by simp +decide)

theorem endsForGood_exportDefault : EndsForGood n "export default " := by
  have hsplit : "export default " = "export defau" ++ "lt " := rfl
  have hend : "lt ".toList = 'l' :: "t ".toList := rfl
  rw [hsplit]
  refine (endsForGood_of_notMem (by decide)).append fun u hu hsuffix hwords => ?_
  rw [hend] at hsuffix
  rcases List.suffix_cons_iff.mp hsuffix with rfl | hsuffix
  · rw [declarationWords_eq] at hwords
    simp at hwords
  · exact endsForGood_of_notMem (by decide) u hu hsuffix hwords

/-- The rest of a template, behind what stands before it. -/
def TemplateTally (n : Nat) (parts : List StrPart) (ts : List String) (k : Nat) : Prop :=
  ∀ before, declarationCount n (before ++ templateOutline parts) = 0 →
    declarationCount n (before ++ String.join ts) = k

theorem TemplateTally.text {parts : List StrPart} {ts : List String} {k : Nat} (text : String)
    (h : TemplateTally n parts ts k) :
    TemplateTally n (.text text :: parts) (templateText text :: ts) k := by
  intro before hbefore
  have hmore := h (before ++ templateText text)
  rw [String.append_assoc, String.append_assoc] at hmore
  rw [String.join_cons]
  exact hmore (by simpa [templateOutline] using hbefore)

theorem TemplateTally.expr {parts : List StrPart} {ts : List String} {k : Nat} (e : Expr)
    (t : String) (h : TemplateTally n parts ts k) :
    TemplateTally n (.expr e :: parts) (("$\x7b" ++ t ++ "\x7d") :: ts)
      (declarationCount n t + k) := by
  intro before hbefore
  have hstart : startsAfresh ("$\x7b" ++ t ++ "\x7d") = true := by
    rw [String.append_assoc]
    exact startsAfresh_append (by decide) (by decide) _
  have hcut : templateOutline (.expr e :: parts) = "$\x7b\x7d" ++ templateOutline parts :=
    String.join_cons
  obtain ⟨hnone, houtline⟩ :
      declarationCount n before = 0 ∧ declarationCount n (templateOutline parts) = 0 := by
    rw [hcut, ← String.append_assoc,
      declarationCount_append_of_endsForGood (endsForGood_append_of_closesOff (by decide) _),
      declarationCount_append_of_startsAfresh (by decide)] at hbefore
    omega
  have hafter : declarationCount n (String.join ts) = k := by
    simpa using h "" (by simpa using houtline)
  rw [String.join_cons, ← String.append_assoc,
    declarationCount_append_of_endsForGood (endsForGood_append_append (by decide) _ _),
    declarationCount_append_of_startsAfresh hstart, hafter, hnone]
  simp +decide

theorem declarationCount_decl {kind : DeclKind} {pattern : Pattern} {init : Option Expr}
    {t : String} (h : Piece.DoesNotDeclare n (.stmt (.decl kind pattern init)))
    (hpattern : DoNotDeclare n pattern.pieces) (ht : Bare pattern t) :
    declarationCount n (kind.keyword ++ " " ++ t) = declarationCount n t := by
  refine declarationCount_declared h hpattern ?_ ht
  cases kind <;> simp +decide [DeclKind.keyword]

/-- A string without interpolation has no scopes. -/
theorem sameTally_of_singleLine {parts : List StrPart} {t : String}
    (h : singleLine? parts = some t) : SameTally [.expr (.str parts)] [] := by
  have hparts : SameTally [.expr (.str parts)] (parts.map .strPart) :=
    sameTally_of_isPlain (p := .expr (.str parts)) rfl
  refine ⟨hparts.landmarks.trans (landmarks_of_singleLine h), hparts.copies.trans ?_⟩
  unfold singleLine? at h
  split at h
  case h_1 => rfl
  case h_2 text => simp [(Piece.strPart (.text text)).copies_eq]
  case h_3 => cases h

theorem TalliesText.blockLines {body : List Stmt} {tail : Option Expr} {use : TailUse}
    (hbody : TalliesLines n (body.map .stmt) (stmtLines body))
    (htail : TalliesText n (tail.toList.map .expr) (tailLine use tail)) :
    TalliesText n [.block ⟨body, tail⟩] (blockLines use ⟨body, tail⟩) :=
  (hbody.bind fun lines k hlines => htail.map fun t j ht => by
    simp [hlines, ht]).of_piece

end Tallies

/-! ## Every lowering tallies -/

-- Each case goes along with the lowering function, as for the landmarks; the shapes of the texts
-- tell that nothing is declared between the parts.
mutual

theorem tallies_exprText : ∀ e : Expr, DoNotDeclare n e.pieces →
    TalliesText n [.expr e] (exprText e)
  | .number _, _ => (tallies_text (by simp)).of_piece
  | .str parts, h => by
      have hliteral : declarationCount n (literalText parts) = 0 := h.head _ List.mem_cons_self
      rw [exprText]
      split
      case h_1 text hline =>
        rw [literalText, hline] at hliteral
        exact (tallies_text hliteral).of_sameTally (sameTally_of_singleLine hline)
      case h_2 hline =>
        rw [literalText, hline] at hliteral
        refine Tallies.of_piece ((tallies_partTexts parts h.tail).map fun ts k hts => ?_)
        have hjoin : declarationCount n (String.join ts) = k := by
          simpa using hts "" (by simpa using hliteral)
        simp +decide [hjoin]
  | .rawStr _, h => (tallies_text (h.head _ List.mem_cons_self)).of_piece
  | .bool value, _ =>
      (tallies_text (by cases value <;> simp +decide)).of_piece
  | .null, _ => (tallies_text (by simp +decide)).of_piece
  | .undefined, _ => (tallies_text (by simp +decide)).of_piece
  | .this, _ => (tallies_text (by simp +decide)).of_piece
  | .ident name, h => (tallies_readAs (h.head _ List.mem_cons_self)).of_piece
  | .array items, h =>
      ((tallies_elementTexts items h.tail).map fun ts k hts => by
        simp +decide [hts]).of_piece
  | .object props, h =>
      ((tallies_propertyTexts props h.tail).map fun ts k hts => by
        simp [hts]).of_piece
  | .function f, h => (tallies_functionText f h.tail).of_piece
  | .doBlock block, h => (tallies_scopeText block h.tail).map fun t k ht => by simp [ht]
  | .unary op operand, h =>
      ((tallies_exprText operand h.tail).map fun t k ht => by simp [ht]).of_piece
  | .binary op left right, h => by
      refine Tallies.of_piece ((tallies_exprText left h.tail.left).bind fun l k hl =>
        (tallies_exprText right h.tail.right).map fun r j hr => ?_)
      split <;> simp [hl, hr]
  | .conditional test consequent alternate, h =>
      ((tallies_exprText test h.tail.left.left).bind fun t k ht =>
        (tallies_exprText consequent h.tail.left.right).bind fun c j hc =>
          (tallies_exprText alternate h.tail.right).map fun a i ha => by
            simp +decide [ht, hc, ha, Nat.add_assoc]).of_piece
  | .call callee args optional, h =>
      ((tallies_exprText callee h.tail.left).bind fun f k hf =>
        (tallies_elementTexts args h.tail.right).map fun ts j hts => by
          cases optional <;> simp +decide [hf, hts]).of_piece
  | .new callee args, h =>
      ((tallies_exprText callee h.tail.left).bind fun f k hf =>
        (tallies_elementTexts args h.tail.right).map fun ts j hts => by
          simp +decide [hf, hts]).of_piece
  | .member object property optional, h => by
      have hproperty : declarationCount n property = 0 := h.head _ List.mem_cons_self
      refine Tallies.of_piece ((tallies_exprText object h.tail).map fun o k ho => ?_)
      cases optional <;> simp +decide [ho, hproperty]
  | .index object index, h => by
      rw [exprText]
      split
      case isTrue =>
        exact ((tallies_exprText object h.tail.left).bind fun o k ho =>
          (tallies_exprText index h.tail.right).map fun i j hi => by
            simp +decide [ho, hi]).of_piece
      case isFalse =>
        refine tallies_need ?_
        exact ((tallies_exprText object h.tail.left).bind fun o k ho =>
          (tallies_exprText index h.tail.right).map fun i j hi => by
            simp [ho, hi]).of_piece
  | .pipeline head stages, h =>
      .pipeline (tallies_exprText head h.tail.left)
        fun id => tallies_stageTexts id stages h.tail.right
  | .range start stop step, h => by
      refine Tallies.of_piece (tallies_need <| (tallies_exprText start h.tail.left.left).bind
        fun a k ha => (tallies_exprText stop h.tail.left.right).bind fun b j hb =>
          (tallies_exprText? step h.tail.right).map fun c i hc => ?_)
      rw [← hc]
      cases c <;> simp +decide [ha, hb]
  | .await operand, h =>
      ((tallies_exprText operand h.tail).map fun t k ht => by
        simp +decide [ht]).of_piece
  | .yield argument delegate, h => by
      refine Tallies.of_piece ((tallies_exprText? argument h.tail).last fun text k htext => ?_)
      cases text with
      | none => exact tallies_pure (by cases delegate <;> simp_all +decide)
      | some text => exact tallies_pure (by cases delegate <;> simp_all +decide)

theorem tallies_exprText? : ∀ e : Option Expr, DoNotDeclare n (exprPieces? e) →
    TalliesText? n (e.toList.map .expr) (exprText? e)
  | none, _ => tallies_pure rfl
  | some e, h => (tallies_exprText e h).map fun t k ht => by simp [ht]

theorem tallies_partTexts : ∀ parts : List StrPart, DoNotDeclare n (partsPieces parts) →
    Tallies n (parts.map .strPart) (TemplateTally n parts) (partTexts parts)
  | [], _ => tallies_pure fun _ hbefore => hbefore
  | .text text :: parts, h => by
      have hpart : Tallies n [.strPart (.text text)] (fun t k => t = templateText text ∧ k = 0)
          (partText (.text text)) :=
        Tallies.of_piece (tallies_pure ⟨rfl, rfl⟩)
      refine hpart.bind fun t k ht => (tallies_partTexts parts h.right).map fun ts j hts => ?_
      rw [ht.1, ht.2, Nat.zero_add]
      exact hts.text text
  | .expr e :: parts, h => by
      have hpart : Tallies n [.strPart (.expr e)]
          (fun t k => ∃ u, t = "$\x7b" ++ u ++ "\x7d" ∧ declarationCount n u = k)
          (partText (.expr e)) :=
        ((tallies_exprText e h.left.tail).map fun t k ht =>
          ⟨grouped e t, rfl, by simpa using ht⟩).of_piece
      refine hpart.bind fun t k ht => (tallies_partTexts parts h.right).map fun ts j hts => ?_
      obtain ⟨u, rfl, rfl⟩ := ht
      exact hts.expr e u

theorem tallies_elementText : ∀ element : Element, DoNotDeclare n element.pieces →
    TalliesText n [.element element] (elementText element)
  | .expr e, h =>
      ((tallies_exprText e h.tail).map fun t k ht => by simp [ht]).of_piece
  | .spread e, h =>
      ((tallies_exprText e h.tail).map fun t k ht => by simp +decide [ht]).of_piece

theorem tallies_elementTexts : ∀ elements : List Element,
    DoNotDeclare n (elementsPieces elements) →
    TalliesTexts n (elements.map .element) (elementTexts elements)
  | [], _ => tallies_pure rfl
  | element :: elements, h =>
      (tallies_elementText element h.left).cons (tallies_elementTexts elements h.right)

theorem tallies_propertyText : ∀ prop : Property, DoNotDeclare n prop.pieces →
    TalliesText n [.property prop] (propertyText prop)
  | .keyValue key value, h =>
      ((tallies_keyText key h.tail.left).bind fun t k ht =>
        (tallies_exprText value h.tail.right).map fun v j hv => by
          simp +decide [ht, hv]).of_piece
  | .shorthand name, h => by
      have hname : declarationCount n name = 0 := h.head _ List.mem_cons_self
      refine Tallies.of_piece ((tallies_readAs hname).map fun read k hread => ?_)
      split <;> simp_all +decide
  | .spread e, h =>
      ((tallies_exprText e h.tail).map fun t k ht => by simp +decide [ht]).of_piece

theorem tallies_propertyTexts : ∀ props : List Property,
    DoNotDeclare n (propertiesPieces props) →
    TalliesTexts n (props.map .property) (propertyTexts props)
  | [], _ => tallies_pure rfl
  | prop :: props, h =>
      (tallies_propertyText prop h.left).cons (tallies_propertyTexts props h.right)

theorem tallies_keyText : ∀ key : PropertyKey, DoNotDeclare n key.pieces →
    TalliesText n [.propertyKey key] (keyText key)
  | .ident _, h | .str _, h => (tallies_text (h.head _ List.mem_cons_self)).of_piece
  | .number _, _ => (tallies_text (by simp)).of_piece
  | .computed e, h =>
      ((tallies_exprText e h.tail).map fun t k ht => by simp +decide [ht]).of_piece

theorem tallies_stageText (id : Nat) : ∀ stage : PipeStage,
    DoNotDeclare n stage.pieces →
    TalliesText n [.pipeStage stage] (stageText (reference id) stage)
  | .bind name e, h =>
      (((tallies_exprText e h.tail).rebinding name id).map fun t k ht => by
        simp [ht]).of_piece
  | .call callee, h =>
      ((tallies_exprText callee h.tail).map fun t k ht => by simp [ht]).of_piece

theorem tallies_stageTexts (id : Nat) : ∀ stages : List PipeStage,
    DoNotDeclare n (stagesPieces stages) →
    TalliesTexts n (stages.map .pipeStage) (stageTexts (reference id) stages)
  | [], _ => tallies_pure rfl
  | stage :: stages, h =>
      (tallies_stageText id stage h.left).cons (tallies_stageTexts id stages h.right)

theorem tallies_functionText : ∀ f : FunctionDef, DoNotDeclare n f.pieces →
    TalliesText n [.function f] (functionText f)
  | ⟨name, params, body, isAsync, isGenerator, isArrow⟩, h => by
      have hname : ∀ m ∈ name, declarationCount n m = 0 :=
        fun m hm => h.head m (Option.mem_toList.mpr hm)
      refine Tallies.of_sameTally ((tallies_paramTexts params h.tail.left).bind
        fun ts k hts => ?_) (sameTally_function _)
      have hhead := (declarationCount_functionHead
        (f := ⟨name, params, body, isAsync, isGenerator, isArrow⟩) hname).trans hts
      have hend := @endsForGood_functionHead n ts
        ⟨name, params, body, isAsync, isGenerator, isArrow⟩
      cases isArrow with
      | true =>
          exact (tallies_arrowText body h.tail.right).map fun t j ht => by simp [hend, hhead, ht]
      | false =>
          exact (tallies_scopeText body h.tail.right).map fun t j ht => by simp [hend, hhead, ht]

theorem tallies_paramText : ∀ param : Param, DoNotDeclare n param.pieces →
    TalliesText n [.param param] (paramText param)
  | ⟨pattern, default, rest⟩, h => by
      refine Tallies.of_piece ((tallies_patternText pattern h.tail.left).bind fun t k ht =>
        (tallies_exprText? default h.tail.right).map fun d j hd => ?_)
      cases rest <;> simp +decide [ht.1, hd]

theorem tallies_paramTexts : ∀ params : List Param, DoNotDeclare n (paramsPieces params) →
    TalliesTexts n (params.map .param) (paramTexts params)
  | [], _ => tallies_pure rfl
  | param :: params, h =>
      (tallies_paramText param h.left).cons (tallies_paramTexts params h.right)

theorem tallies_patternText : ∀ pattern : Pattern, DoNotDeclare n pattern.pieces →
    Tallies n [.pattern pattern] (fun t k => declarationCount n t = k ∧ Bare pattern t)
      (patternText pattern)
  | .ident _, h =>
      Tallies.of_piece (tallies_pure ⟨h.head _ List.mem_cons_self, .inl rfl⟩)
  | .object props rest, h => by
      have hrest : ∀ name ∈ rest.toList, declarationCount n name = 0 := h.head
      refine Tallies.of_piece ((tallies_patternPropTexts props h.tail).map fun ts k hts => ?_)
      refine ⟨?_, .inr startsAfresh_objectText⟩
      cases rest <;> simp_all +decide
  | .array items rest, h => by
      refine Tallies.of_piece ((tallies_arrayItemTexts items h.tail.left).bind fun ts k hts =>
        (tallies_patternText? rest h.tail.right).map fun r j hr => ?_)
      constructor
      · cases r <;> simp_all +decide
      · rw [Bare, String.append_assoc]
        exact .inr (startsAfresh_append (by decide) (by decide) _)

theorem tallies_patternText? : ∀ pattern : Option Pattern,
    DoNotDeclare n (patternPieces? pattern) →
    TalliesPattern? n pattern
  | none, _ => tallies_pure ⟨rfl, .none⟩
  | some pattern, h =>
      (tallies_patternText pattern h).map fun t k ht => ⟨by simp [ht.1], .some ht.2⟩

theorem tallies_patternPropText : ∀ prop : PatternProp, DoNotDeclare n prop.pieces →
    TalliesText n [.patternElement (.prop prop)] (patternPropText prop)
  | ⟨key, value, default⟩, h => by
      have hkey : declarationCount n key = 0 := h.head _ List.mem_cons_self
      refine Tallies.of_piece ((tallies_patternText? value h.tail.left).bind fun v k hv =>
        (tallies_exprText? default h.tail.right).map fun d j hd => ?_)
      rw [declarationCount_withDefault, hd, ← hv.1]
      cases v <;> simp +decide [hkey]

theorem tallies_patternPropTexts : ∀ props : List PatternProp,
    DoNotDeclare n (patternPropsPieces props) →
    TalliesTexts n (props.map fun x => .patternElement (.prop x)) (patternPropTexts props)
  | [], _ => tallies_pure rfl
  | prop :: props, h =>
      (tallies_patternPropText prop h.left).cons (tallies_patternPropTexts props h.right)

theorem tallies_arrayItemText : ∀ item : ArrayItem, DoNotDeclare n item.pieces →
    TalliesText n [.patternElement (.item item)] (arrayItemText item)
  | ⟨pattern, default⟩, h =>
      ((tallies_patternText pattern h.tail.left).bind fun t k ht =>
        (tallies_exprText? default h.tail.right).map fun d j hd => by
          simp [ht.1, hd]).of_piece

theorem tallies_arrayItemTexts : ∀ items : List ArrayItem,
    DoNotDeclare n (arrayItemsPieces items) →
    TalliesTexts n (items.map fun x => .patternElement (.item x)) (arrayItemTexts items)
  | [], _ => tallies_pure rfl
  | item :: items, h =>
      (tallies_arrayItemText item h.left).cons (tallies_arrayItemTexts items h.right)

theorem tallies_tailLine (use : TailUse) : ∀ tail : Option Expr,
    DoNotDeclare n (exprPieces? tail) →
    TalliesText n (tail.toList.map .expr) (tailLine use tail)
  | none, _ => tallies_text rfl
  | some e, h =>
      (tallies_exprText e h).last fun t k ht => (tallies_line _).mono fun l j hl => by
        simpa [ht] using hl.1

theorem tallies_blockLines (use : TailUse) : ∀ block : Block,
    DoNotDeclare n block.pieces →
    TalliesText n [.block block] (blockLines use block)
  | ⟨body, tail⟩, h =>
      .blockLines (tallies_stmtLines body h.tail.left) (tallies_tailLine use tail h.tail.right)

theorem tallies_bodyText : ∀ block : Block, DoNotDeclare n block.pieces →
    TalliesBlock n [.block block] (bodyText block)
  | ⟨body, tail⟩, h => by
      rw [bodyText]
      split
      case isTrue hempty =>
        simp only [Bool.and_eq_true, List.isEmpty_iff, Option.isNone_iff_eq_none] at hempty
        refine Tallies.of_piece (tallies_pure ⟨?_, by decide⟩) (by simp [hempty.1, hempty.2]) rfl
        simp +decide
      case isFalse =>
        exact TalliesText.braces (.blockLines (tallies_stmtLines body h.tail.left)
          (tallies_tailLine .discarded tail h.tail.right))

theorem tallies_scopeText : ∀ block : Block, DoNotDeclare n block.pieces →
    TalliesText n [.expr (.doBlock block)] (scopeText block)
  | ⟨body, tail⟩, h =>
      .functionBody (.blockLines (tallies_stmtLines body h.tail.left)
        (tallies_tailLine _ tail h.tail.right))

theorem tallies_arrowText : ∀ block : Block, DoNotDeclare n block.pieces →
    TalliesText n [.expr (.doBlock block)] (arrowText block)
  | ⟨[], some tail⟩, h => by
      rw [arrowText]
      exact .arrowTail (tallies_exprText tail h.tail.right)
  | ⟨[], none⟩, h => by
      rw [arrowText]
      · exact .functionBody (.blockLines (tallies_stmtLines [] h.tail.left)
          (tallies_tailLine _ none h.tail.right))
      · simp
  | ⟨stmt :: stmts, tail⟩, h => by
      rw [arrowText]
      · exact .functionBody (.blockLines (tallies_stmtLines (stmt :: stmts) h.tail.left)
          (tallies_tailLine _ tail h.tail.right))
      · simp

theorem tallies_bodyText? {keyword : String} (hkeyword : IsClauseKeyword n keyword) :
    ∀ block : Option Block, DoNotDeclare n (blockPieces? block) →
      TalliesBlock n (block.toList.map .block) (bodyText? keyword block)
  | none, _ => tallies_pure ⟨rfl, rfl⟩
  | some block, h =>
      (tallies_bodyText block h).map fun t k ht => by
        obtain ⟨hstart, hlong, hcount⟩ := hkeyword
        refine ⟨?_, startsAfresh_append hstart hlong t⟩
        simp [ht, hcount]

theorem tallies_branchText : ∀ branch : Branch, DoNotDeclare n branch.pieces →
    TalliesText n [.branch branch] (branchText branch)
  | ⟨test, body⟩, h =>
      ((tallies_exprText test h.tail.left).bind fun t k ht =>
        (tallies_bodyText body h.tail.right).map fun b j hb => by
          simp +decide [ht, hb]).of_piece

theorem tallies_branchTexts : ∀ branches : List Branch,
    DoNotDeclare n (branchesPieces branches) →
    TalliesTexts n (branches.map .branch) (branchTexts branches)
  | [], _ => tallies_pure rfl
  | branch :: branches, h =>
      (tallies_branchText branch h.left).cons (tallies_branchTexts branches h.right)

theorem tallies_handlerText : ∀ handler : Option Handler,
    DoNotDeclare n (handlerPieces? handler) →
    TalliesBlock n (handler.toList.map .handler) (handlerText handler)
  | none, _ => tallies_pure ⟨rfl, rfl⟩
  | some ⟨param, body⟩, h => by
      refine Tallies.of_piece ((tallies_patternText? param h.tail.left).bind fun p k hp =>
        (tallies_bodyText body h.tail.right).map fun b j hb => ?_)
      rw [← hp.1]
      cases p with
      | none => exact ⟨by simp +decide [hb], startsAfresh_append (by decide) (by decide) b⟩
      | some p =>
          refine ⟨by simp +decide [hb], ?_⟩
          dsimp only
          rw [String.append_assoc]
          exact startsAfresh_append (by decide) (by decide) _

theorem tallies_stmtLines : ∀ stmts : List Stmt, DoNotDeclare n (stmtsPieces stmts) →
    TalliesLines n (stmts.map .stmt) (stmtLines stmts)
  | [], _ => tallies_pure ⟨rfl, by simp +decide⟩
  | stmt :: stmts, h =>
      (tallies_stmtText stmt h.left).bind fun t k ht => (tallies_line t).bind fun first j hfirst =>
        (tallies_stmtLines stmts h.right).map fun lines i hlines => by
          refine ⟨?_, hfirst.2.append hlines.2⟩
          simp [hfirst, hlines, ht, Nat.add_assoc]

theorem tallies_assignText (op : AssignOp) (value : String) : ∀ target : AssignTarget,
    DoNotDeclare n target.pieces →
    Tallies n [.assignTarget target] (fun t k =>
      declarationCount n t = declarationCount n value + op.timesWritten target * k)
      (assignText op value target)
  | .ident name, h => by
      have hname : declarationCount n name = 0 := h.head _ List.mem_cons_self
      refine Tallies.of_piece ((tallies_readAs hname).map fun t k ht => ?_)
      simp +decide [ht, AssignOp.timesWritten, Nat.add_comm]
  | .member object property, h => by
      have hproperty : declarationCount n property = 0 := h.head _ List.mem_cons_self
      refine Tallies.of_piece ((tallies_exprText object h.tail).map fun o k ho => ?_)
      simp only [toString_string, ← String.append_assoc]
      simp +decide [ho, hproperty, AssignOp.timesWritten, Nat.add_comm]
  | .index object index, h => by
      rw [assignText]
      split
      case isTrue hstatic =>
        refine Tallies.of_piece ((tallies_exprText object h.tail.left).bind fun o k ho =>
          (tallies_exprText index h.tail.right).map fun i j hi => ?_)
        simp only [toString_string, ← String.append_assoc]
        simp +decide [ho, hi, hstatic, AssignOp.timesWritten, Nat.add_comm]
      case isFalse hstatic =>
        refine tallies_need (Tallies.of_piece ((tallies_exprText object h.tail.left).bind
          fun o k ho => (tallies_exprText index h.tail.right).last fun i j hi => ?_))
        split
        case h_1 hop =>
          refine tallies_pure ?_
          simp +decide [ho, hi, hop, AssignOp.timesWritten]
          omega
        case h_2 binary hop =>
          refine tallies_need (tallies_pure ?_)
          simp +decide [ho, hi, hop, hstatic, AssignOp.timesWritten]
          omega
  | .pattern pattern, h => by
      rw [assignText]
      split
      case isTrue =>
        refine Tallies.of_piece ((tallies_patternText pattern h.tail).last fun t k ht => ?_)
        cases pattern <;> exact tallies_pure (by
          simp +decide [ht.1, AssignOp.timesWritten, Nat.add_comm])
      case isFalse => exact tallies_throw

theorem tallies_stmtText : ∀ stmt : Stmt, DoNotDeclare n stmt.pieces →
    TalliesText n [.stmt stmt] (stmtText stmt)
  | .decl kind pattern (some init), h => by
      rw [stmtText_decl_some]
      refine Tallies.of_piece ((tallies_patternText pattern h.tail.left).bind fun t k ht =>
        (tallies_exprText init h.tail.right).map fun v j hv => ?_)
      have hdeclared := declarationCount_decl h.head h.tail.left ht.2
      simp +decide [hdeclared, ht.1, hv]
  | .decl kind pattern none, h => by
      rw [stmtText_decl_none]
      refine Tallies.of_piece ((tallies_patternText pattern h.tail.left).last fun t k ht => ?_)
      have hdeclared := declarationCount_decl h.head h.tail.left ht.2
      split
      · exact tallies_throw
      · exact tallies_pure (by simp +decide [hdeclared, ht.1])
  | .assign target op value, h =>
      .assign (tallies_exprText value h.tail.right)
        fun v => tallies_assignText op _ target h.tail.left
  | .expr e, h =>
      ((tallies_exprText e h.tail).map fun t k ht => by simp [ht]).of_piece
  | .ifElse branches otherwise, h =>
      ((tallies_branchTexts branches h.tail.left).bind fun ts k hts =>
        (tallies_bodyText? isClauseKeyword_else otherwise h.tail.right).map fun o j ho => by
          simp [ho, declarationCount_else, hts]).of_piece
  | .whileLoop test body, h =>
      ((tallies_exprText test h.tail.left).bind fun t k ht =>
        (tallies_bodyText body h.tail.right).map fun b j hb => by
          simp +decide [ht, hb]).of_piece
  | .loop body, h =>
      ((tallies_bodyText body h.tail).map fun b k hb => by
        simp +decide [hb]).of_piece
  | .forIn pattern iterable body, h =>
      ((tallies_patternText pattern h.tail.left.left).bind fun p k hp =>
        (tallies_exprText iterable h.tail.left.right).bind fun i j hi =>
          (tallies_bodyText body h.tail.right).map fun b l hb => by
            simp +decide [hp.1, hi, hb, Nat.add_assoc]).of_piece
  | .forRange binding start stop step body, h => by
      have hbinding : declarationCount n binding = 0 := h.head _ List.mem_cons_self
      rw [stmtText]
      refine Tallies.numbered
        ([.expr start] ++ ([.expr stop] ++ (step.toList.map .expr ++ [.block body]))) (fun id =>
          (tallies_exprText start h.tail.left.left.left).bind fun a i ha =>
            (tallies_exprText stop h.tail.left.left.right).bind fun b j hb =>
              (tallies_exprText? step h.tail.left.right).bind fun c k hc =>
                (tallies_bodyText body h.tail.right).map fun t l ht => ?_) (by simp) rfl
      rw [← hc]
      cases c <;> simp +decide [ht, declarationCount_countingHead hbinding, ha, hb, Nat.add_assoc]
  | .ret value, h => by
      refine Tallies.of_piece ((tallies_exprText? value h.tail).last fun text k htext => ?_)
      cases text <;> exact tallies_pure (by simp_all +decide)
  | .breakLoop, _ => (tallies_text (by simp +decide)).of_piece
  | .continueLoop, _ => (tallies_text (by simp +decide)).of_piece
  | .throw e, h =>
      ((tallies_exprText e h.tail).map fun t k ht => by simp +decide [ht]).of_piece
  | .tryCatch body handler finalizer, h =>
      ((tallies_bodyText body h.tail.left.left).bind fun b k hb =>
        (tallies_handlerText handler h.tail.left.right).bind fun c j hc =>
          (tallies_bodyText? isClauseKeyword_finally finalizer h.tail.right).map fun f i hf => by
            simp +decide [hb, hc, hf, Nat.add_assoc]).of_piece
  | .guard pattern e error fallback, h => by
      have hguarded : TalliesText n [.expr e] (exprText (guarded e)) := by
        cases e with
        | await operand =>
            exact (tallies_exprText operand h.tail.left.right.tail).of_piece
        | _ => exact tallies_exprText _ h.tail.left.right
      exact .guard hguarded (tallies_blockLines .discarded fallback h.tail.right)
        (tallies_patternText? pattern h.tail.left.left) h
  | .function f, h => by
      rw [stmtText]
      split
      · exact tallies_throw
      · exact (tallies_functionText f h.tail).of_piece
  | .importFrom _, h => (tallies_text (h.head _ List.mem_cons_self)).of_piece
  | .exportDecl decl, h => by
      rw [stmtText]
      split
      · exact ((tallies_stmtText decl h.tail).map fun t k ht => by
          simp +decide [ht]).of_piece
      · exact tallies_throw
  | .exportDefault e, h =>
      ((tallies_exprText e h.tail).map fun t k ht => by
        simp +decide [ht, endsForGood_exportDefault]).of_piece

end

theorem tallies_stmtTexts (stmts : List Stmt) (h : DoNotDeclare n (stmtsPieces stmts)) :
    TalliesTexts n (stmts.map .stmt) (stmtTexts stmts) := by
  induction stmts with
  | nil => exact tallies_pure rfl
  | cons stmt stmts ih =>
      exact (tallies_stmtText stmt h.left).cons (ih h.right)

/-! ## Whole programs -/

theorem isWordPart_of_isWhiteSpace {c : Char} (hc : isWhiteSpace c = true) :
    isWordPart c = false := by
  have hranges : ∀ range ∈ whiteSpace, range.2.val ≤ 32 ∨ 128 ≤ range.1.val := by decide
  obtain ⟨range, hrange, hbounds⟩ := List.any_eq_true.mp hc
  rw [Bool.and_eq_true, decide_eq_true_eq, decide_eq_true_eq, Char.le_def, Char.le_def] at hbounds
  have hoff : c.val ≤ 32 ∨ 128 ≤ c.val :=
    (hranges range hrange).imp (UInt32.le_trans hbounds.2) (UInt32.le_trans · hbounds.1)
  have hunderscore : c = '_' → c.val = 95 := by
    rintro rfl
    rfl
  delta isWordPart Char.isAlphanum Char.isAlpha Char.isUpper Char.isLower Char.isDigit
  grind

/-- White space at the end declares nothing. -/
theorem declarationCount_trimEnd {n : Nat} (t : String) :
    declarationCount n (trimEnd t) = declarationCount n t := by
  obtain ⟨blanks, hsplit, hblanks⟩ := exists_append_blanks t
  have hstart : startsAfresh (String.ofList blanks) = true := by
    unfold startsAfresh
    rw [String.toList_ofList]
    split
    case h_1 => rfl
    case h_2 => exact absurd (hblanks '_' (by simp)) (by decide)
    case h_3 c _ _ =>
      rw [isWordPart_of_isWhiteSpace (hblanks c List.mem_cons_self)]
      rfl
  have hnone : declarationCount n (String.ofList blanks) = 0 := by
    refine declarationCount_of_notMem (c := 'l') (by decide) fun hmem => ?_
    rw [String.toList_ofList] at hmem
    exact absurd (hblanks 'l' hmem) (by decide)
  have htext : t = trimEnd t ++ String.ofList blanks := by
    rw [← String.toList_inj, hsplit, String.toList_append, String.toList_ofList]
  calc declarationCount n (trimEnd t)
      = declarationCount n (trimEnd t ++ String.ofList blanks) := by
        rw [declarationCount_append_of_startsAfresh hstart, hnone, Nat.add_zero]
    _ = declarationCount n t := by rw [← htext]

theorem declarationCount_text {program : Program} {g : Generated}
    (hgenerate : generate program = .ok g) (hprogram : program.DoesNotDeclare n) :
    declarationCount n g.text = declaredBy n program.scopes program.copies := by
  obtain ⟨texts, s, hrun, htrim, -, hhoisted, -⟩ := exists_meets_of_generate hgenerate
  have hpieces : DoNotDeclare n (stmtsPieces program.body) := hprogram.tail
  have hsame : SameTally [.program program] (program.body.map .stmt) :=
    sameTally_of_isPlain (p := .program program) rfl
  have hstart : Emitter.ReadsReferences { scopes := [[]] } := by
    rintro r ⟨⟩
  obtain ⟨-, -, htexts⟩ := tallies_stmtTexts program.body hpieces _ texts s hstart hrun
  rw [← hsame.tally_eq] at htexts
  have hnames : (g.hoisted.map fun name => declarationCount n (declaration name)).sum =
      program.scope.names.count (reference n) := by
    rw [hhoisted]
    exact sum_declarationCount_declaration fun name hname => exists_of_mem_namesFrom hname
  have hbody : (g.body.map (declarationCount n)).sum = (texts.map (declarationCount n)).sum := by
    simp only [htrim, List.map_map, Function.comp_def, declarationCount_trimEnd]
  have hlines : declarationCount n g.text = (g.statements.map (declarationCount n)).sum := by
    simpa [Generated.text, Generated.joinLines] using
      @declarationCount_lines n g.statements id ""
  calc declarationCount n g.text
      = program.scope.names.count (reference n) + tally n 0 [.program program] := by
        rw [hlines, Generated.statements, List.map_append, List.sum_append, List.map_map, hbody,
          htexts, ← hnames]
        rfl
    _ = declaredBy n program.scopes program.copies := by
        rw [Program.scopes, Program.copies, declaredBy_cons, Nat.one_mul, tally,
          List.flatMap_singleton, List.flatMap_singleton]
        rfl

end JavaScript

end PegScript
