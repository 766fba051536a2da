import Mathlib.Data.List.Perm.Basic
import PegScript.Proofs.Tree.Containment
import PegScript.Proofs.Tree.Pieces

/-!
# Scopes and numbers

The body of a function, and a block that is used as an expression, are scopes of their own inside
the scope around them.  The parameters of a function belong to the scope around it.

Pipelines, counting loops and guarded evaluations take numbers, each the next one.  The landmarks of
a piece are what is met below it in the order of lowering: constructs that take a number, and
scopes, with the landmarks inside them.  From the number that was given out last, the landmarks tell
which number each construct takes and in which scope it is.
-/

namespace PegScript

namespace Piece

/-! ## A piece and everything below it -/

/-- The pieces of a piece.  Those that only exist until the piece around them is put together count
themselves too. -/
def below : Piece → List Piece
  | .program x => x.pieces
  | .block x => x.pieces
  | .stmt x => x.pieces
  | .expr x => x.pieces
  | .strPart x => x.pieces
  | .element x => x.pieces
  | .property x => x.pieces
  | .propertyKey x => x.pieces
  | .pipeStage x => x.pieces
  | .function x => x.pieces
  | .param x => x.pieces
  | .pattern x => x.pieces
  | .patternElement (.prop x) => x.pieces
  | .patternElement (.item x) => x.pieces
  | .patternElement (.rest x) => .patternElement (.rest x) :: x.pieces
  | .assignTarget x => x.pieces
  | .branch x => x.pieces
  | .handler x => x.pieces
  | .suffix x => .suffix x :: x.pieces
  | .operand ⟨op, right⟩ => .operand ⟨op, right⟩ :: right.pieces
  | .importFrom x => [.importFrom x]
  | .importSpec x => [.importSpec x]
  | .importClause x => [.importClause x]

theorem pieces_each {α : Type} (all : List α → List Piece) (piece : α → Piece)
    (hnil : all [] = []) (hcons : ∀ a as, all (a :: as) = (piece a).below ++ all as)
    (as : List α) : all as = (as.map piece).flatMap below := by
  induction as with
  | nil => exact hnil
  | cons a as ih => rw [hcons, ih, List.map_cons, List.flatMap_cons]

theorem pieces_option {α : Type} (all : Option α → List Piece) (piece : α → Piece)
    (hnone : all none = []) (hsome : ∀ a, all (some a) = (piece a).below)
    (a : Option α) : all a = (a.toList.map piece).flatMap below := by
  cases a with
  | none => exact hnone
  | some a => simp [hsome]

/-- The pieces of a piece are itself and the pieces of its children. -/
theorem below_eq (p : Piece) : p.below = p :: p.children.flatMap below := by
  have hparts := pieces_each partsPieces .strPart rfl fun _ _ => rfl
  have helements := pieces_each elementsPieces .element rfl fun _ _ => rfl
  have hprops := pieces_each propertiesPieces .property rfl fun _ _ => rfl
  have hstages := pieces_each stagesPieces .pipeStage rfl fun _ _ => rfl
  have hparams := pieces_each paramsPieces .param rfl fun _ _ => rfl
  have hpatternProps := pieces_each patternPropsPieces (fun x => .patternElement (.prop x)) rfl
    fun _ _ => rfl
  have hitems := pieces_each arrayItemsPieces (fun x => .patternElement (.item x)) rfl
    fun _ _ => rfl
  have hbranches := pieces_each branchesPieces .branch rfl fun _ _ => rfl
  have hstmts := pieces_each stmtsPieces .stmt rfl fun _ _ => rfl
  have hexpr := pieces_option exprPieces? .expr rfl fun _ => rfl
  have hpattern := pieces_option patternPieces? .pattern rfl fun _ => rfl
  have hblock := pieces_option blockPieces? .block rfl fun _ => rfl
  have hhandler := pieces_option handlerPieces? .handler rfl fun _ => rfl
  cases p with
  | program x | block x | function x | param x | branch x | handler x | operand x =>
    obtain ⟨⟩ := x
    simp [below, Program.pieces, *]
  | stmt x | expr x | strPart x | element x | property x | propertyKey x | pipeStage x | pattern x
  | assignTarget x | suffix x =>
    cases x <;> simp [below, Suffix.pieces, *]
  | patternElement x => rcases x with ⟨⟨⟩⟩ | ⟨⟨⟩⟩ | x <;> simp [below, *]
  | importFrom x | importSpec x | importClause x => simp [below]

/-- What holds of a piece whenever it holds of its children holds of every piece. -/
theorem induction_children {motive : Piece → Prop}
    (step : ∀ p : Piece, (∀ q ∈ p.children, motive q) → motive p) (p : Piece) : motive p :=
  step p fun q _ => induction_children step q
termination_by sizeOf p
decreasing_by exact sizeOf_lt_of_mem_children ‹_›

/-! ## Landmarks -/

/-- Whether the piece takes a number: for a pipeline, a counting loop or a guarded evaluation. -/
@[simp]
def isNumbered : Piece → Bool
  | .expr (.pipeline ..) | .stmt (.forRange ..) | .stmt (.guard ..) => true
  | _ => false

/-- Whether the piece is a pipeline. -/
def isPipeline : Piece → Bool
  | .expr (.pipeline ..) => true
  | _ => false

/-- The child of a piece that is a scope of its own. -/
@[simp]
def scopeBlock? : Piece → Option Block
  | .expr (.doBlock b) => some b
  | .function f => some f.body
  | _ => none

/-- The other children of a piece, in the order of lowering. -/
@[simp]
def sameScope : Piece → List Piece
  | .expr (.doBlock _) => []
  | .function f => f.params.map .param
  | .stmt (.assign target _ value) => [.expr value, .assignTarget target]
  | .stmt (.guard p e _ fallback) => .expr e :: .block fallback :: p.toList.map .pattern
  | piece => piece.children

theorem children_perm (p : Piece) :
    (p.sameScope ++ p.scopeBlock?.toList.map Piece.block).Perm p.children := by
  unfold sameScope
  split
  case h_1 b => exact .refl _
  case h_2 f =>
    obtain ⟨⟩ := f
    exact .refl _
  case h_3 target op value => exact .swap _ _ _
  case h_4 p e error fallback =>
    have hcomm : ([Piece.expr e, Piece.block fallback] ++ p.toList.map Piece.pattern).Perm
        (p.toList.map Piece.pattern ++ [Piece.expr e, Piece.block fallback]) :=
      List.perm_append_comm
    simpa using hcomm
  case h_5 piece hblock hfunction _ _ =>
    have hnone : p.scopeBlock? = none := by
      unfold scopeBlock?
      split
      · exact (hblock _ rfl).elim
      · exact (hfunction _ rfl).elim
      · rfl
    rw [hnone, Option.toList_none, List.map_nil, List.append_nil]

theorem mem_children_of_mem_sameScope {p q : Piece} (hq : q ∈ p.sameScope) : q ∈ p.children :=
  p.children_perm.subset (List.mem_append_left _ hq)

theorem mem_children_of_mem_scopeBlock {p : Piece} {b : Block} (hb : b ∈ p.scopeBlock?.toList) :
    Piece.block b ∈ p.children :=
  p.children_perm.subset (List.mem_append_right _ (List.mem_map_of_mem hb))

/-- The piece and the pieces below it that are in no inner scope. -/
def ownPieces (p : Piece) : List Piece :=
  p :: p.sameScope.attach.flatMap fun q => q.1.ownPieces
termination_by sizeOf p
decreasing_by exact sizeOf_lt_of_mem_children (mem_children_of_mem_sameScope q.2)

theorem ownPieces_eq (p : Piece) : p.ownPieces = p :: p.sameScope.flatMap ownPieces := by
  rw [ownPieces, List.flatMap_subtype (g := ownPieces) (fun _ _ => rfl), List.unattach_attach]

end Piece

/-- What is met in the order of lowering. -/
inductive Landmark where
  /-- A piece that takes a number. -/
  | construct (piece : Piece)
  /-- A scope with what is met inside it. -/
  | scope (block : Block) (inside : List Landmark)

namespace Piece

/-- What is met in a piece. -/
def landmarks (p : Piece) : List Landmark :=
  (if p.isNumbered then [.construct p] else [])
    ++ (p.sameScope.attach.flatMap fun q => q.1.landmarks)
    ++ p.scopeBlock?.toList.attach.map fun b => .scope b.1 (Piece.block b.1).landmarks
termination_by sizeOf p
decreasing_by
  · exact sizeOf_lt_of_mem_children (mem_children_of_mem_sameScope q.2)
  · exact sizeOf_lt_of_mem_children (mem_children_of_mem_scopeBlock b.2)

theorem landmarks_eq (p : Piece) :
    p.landmarks = (if p.isNumbered then [.construct p] else []) ++ p.sameScope.flatMap landmarks
      ++ p.scopeBlock?.toList.map fun b => .scope b (Piece.block b).landmarks := by
  rw [landmarks, List.flatMap_subtype (g := landmarks) (fun _ _ => rfl), List.unattach_attach,
    List.map_subtype (g := fun b => Landmark.scope b (Piece.block b).landmarks)
      (fun _ _ => rfl), List.unattach_attach]

end Piece

/-! ## Numbers -/

mutual

/-- The constructs at a landmark and inside it, in the order of their numbers. -/
def Landmark.constructs : Landmark → List Piece
  | .construct piece => [piece]
  | .scope _ inside => constructsAmong inside

/-- The constructs at some landmarks and inside them, in the order of their numbers. -/
def constructsAmong : List Landmark → List Piece
  | [] => []
  | l :: ls => l.constructs ++ constructsAmong ls

end

/-- The constructs with their numbers, if `n` is the last number given out before. -/
def numberedFrom (n : Nat) (ls : List Landmark) : List (Piece × Nat) :=
  (constructsAmong ls).zipIdx (n + 1)

/-- The constructs that are in no inner scope, with their numbers. -/
def ownFrom (n : Nat) : List Landmark → List (Piece × Nat)
  | [] => []
  | .construct piece :: ls => (piece, n + 1) :: ownFrom (n + 1) ls
  | .scope _ inside :: ls => ownFrom (n + (constructsAmong inside).length) ls

/-- A scope: its block, the last number given out before it, and what is met in it. -/
structure Scope where
  block : Block
  start : Nat
  landmarks : List Landmark

namespace Scope

/-- The constructs of a scope that are in no inner scope, with their numbers. -/
def own (scope : Scope) : List (Piece × Nat) :=
  ownFrom scope.start scope.landmarks

/-- The pipelines of a scope that are in no inner scope, with their numbers. -/
def pipelines (scope : Scope) : List (Piece × Nat) :=
  scope.own.filter (·.1.isPipeline)

end Scope

mutual

/-- The scope at a landmark, with those inside it. -/
def Landmark.scopesFrom (n : Nat) : Landmark → List Scope
  | .construct _ => []
  | .scope block inside => ⟨block, n, inside⟩ :: scopesAmong n inside

/-- The scopes at some landmarks, with those inside them. -/
def scopesAmong (n : Nat) : List Landmark → List Scope
  | [] => []
  | l :: ls => l.scopesFrom n ++ scopesAmong (n + l.constructs.length) ls

end

/-- The scope of a program. -/
def Program.scope (program : Program) : Scope :=
  ⟨⟨program.body, none⟩, 0, (Piece.program program).landmarks⟩

/-- The scopes inside the scope of a program. -/
def Program.innerScopes (program : Program) : List Scope :=
  scopesAmong 0 program.scope.landmarks

section Append

variable (n : Nat) (ls ls' : List Landmark)

@[simp]
theorem constructsAmong_append :
    constructsAmong (ls ++ ls') = constructsAmong ls ++ constructsAmong ls' := by
  induction ls with
  | nil => rfl
  | cons l ls ih => rw [List.cons_append, constructsAmong, constructsAmong, ih, List.append_assoc]

theorem numberedFrom_append :
    numberedFrom n (ls ++ ls') =
      numberedFrom n ls ++ numberedFrom (n + (constructsAmong ls).length) ls' := by
  rw [numberedFrom, constructsAmong_append, List.zipIdx_append, numberedFrom, numberedFrom,
    Nat.add_right_comm]

theorem ownFrom_append :
    ownFrom n (ls ++ ls') = ownFrom n ls ++ ownFrom (n + (constructsAmong ls).length) ls' := by
  induction ls generalizing n with
  | nil => rfl
  | cons l ls ih =>
      cases l with
      | construct piece =>
          simp [ownFrom, constructsAmong, Landmark.constructs, ih, Nat.add_assoc, Nat.add_comm 1]
      | scope block inside =>
          simp [ownFrom, constructsAmong, Landmark.constructs, ih, Nat.add_assoc]

theorem scopesAmong_append :
    scopesAmong n (ls ++ ls') =
      scopesAmong n ls ++ scopesAmong (n + (constructsAmong ls).length) ls' := by
  induction ls generalizing n with
  | nil => rfl
  | cons l ls ih => simp [scopesAmong, constructsAmong, ih, Nat.add_assoc]

end Append

/-- The constructs of a scope come in the order of their numbers. -/
theorem ownFrom_sublist (n : Nat) (ls : List Landmark) :
    (ownFrom n ls).Sublist (numberedFrom n ls) := by
  induction ls generalizing n with
  | nil => exact .slnil
  | cons l ls ih =>
      have hsplit := numberedFrom_append n [l] ls
      rw [List.singleton_append] at hsplit
      rw [hsplit]
      cases l with
      | construct piece =>
          exact .cons_cons _ (ih (n + 1))
      | scope block inside =>
          have hrest := ih (n + (constructsAmong inside).length)
          simp only [constructsAmong, Landmark.constructs, List.append_nil]
          exact hrest.trans (List.sublist_append_right _ _)

mutual

theorem Landmark.numbered_perm (n : Nat) : ∀ l : Landmark,
    (numberedFrom n [l]).Perm (ownFrom n [l] ++ (l.scopesFrom n).flatMap Scope.own)
  | .construct piece => .refl _
  | .scope block inside => by
      have hinside := numberedFrom_perm n inside
      rw [numberedFrom, constructsAmong, Landmark.constructs, constructsAmong, List.append_nil]
      exact hinside

/-- Every construct is in exactly one scope. -/
theorem numberedFrom_perm (n : Nat) : ∀ ls : List Landmark,
    (numberedFrom n ls).Perm (ownFrom n ls ++ (scopesAmong n ls).flatMap Scope.own)
  | [] => .refl _
  | l :: ls => by
      have hfirst := l.numbered_perm n
      have hrest := numberedFrom_perm (n + (constructsAmong [l]).length) ls
      have hlength : l.constructs.length = (constructsAmong [l]).length := by
        simp [constructsAmong]
      rw [← List.singleton_append, numberedFrom_append, ownFrom_append, List.singleton_append,
        scopesAmong, hlength, List.flatMap_append]
      refine (hfirst.append hrest).trans ?_
      rw [List.append_assoc, List.append_assoc]
      exact (List.perm_append_comm_assoc _ _ _).append_left _

end

theorem constructsAmong_flatMap {α : Type} (f : α → List Landmark) (as : List α) :
    constructsAmong (as.flatMap f) = as.flatMap fun a => constructsAmong (f a) := by
  induction as with
  | nil => rfl
  | cons a as ih => rw [List.flatMap_cons, constructsAmong_append, ih, List.flatMap_cons]

/-- What is met in a piece are its own number and what is met in its children. -/
theorem Piece.constructs_perm_children (p : Piece) :
    (constructsAmong p.landmarks).Perm
      ((if p.isNumbered then [p] else []) ++
        p.children.flatMap fun q => constructsAmong q.landmarks) := by
  have hown : constructsAmong (if p.isNumbered then [.construct p] else []) =
      if p.isNumbered then [p] else [] := by
    split <;> rfl
  have hscope : constructsAmong (p.scopeBlock?.toList.map fun b =>
      .scope b (Piece.block b).landmarks) =
      (p.scopeBlock?.toList.map Piece.block).flatMap fun q => constructsAmong q.landmarks := by
    cases p.scopeBlock? with
    | none => rfl
    | some b => simp [constructsAmong, Landmark.constructs]
  rw [landmarks_eq, constructsAmong_append, constructsAmong_append, hown, hscope,
    constructsAmong_flatMap, List.append_assoc, ← List.flatMap_append]
  exact (p.children_perm.flatMap_right _).append_left _

/-- The constructs that are met in a piece are those among its pieces. -/
theorem Piece.constructs_perm (p : Piece) :
    (constructsAmong p.landmarks).Perm (p.below.filter isNumbered) := by
  induction p using induction_children with
  | step p ih =>
    have hchildren : (p.children.flatMap fun q => constructsAmong q.landmarks).Perm
        (p.children.flatMap fun q => q.below.filter isNumbered) :=
      List.Perm.flatMap_left _ ih
    have hfilter : p.below.filter isNumbered = (if p.isNumbered then [p] else []) ++
        p.children.flatMap fun q => q.below.filter isNumbered := by
      rw [below_eq, List.filter_cons, List.filter_flatMap]
      split <;> rfl
    rw [hfilter]
    exact p.constructs_perm_children.trans (hchildren.append_left _)

/-! ## The constructs of one scope -/

/-- The construct at a landmark. -/
def Landmark.own : Landmark → List Piece
  | .construct piece => [piece]
  | .scope _ _ => []

theorem map_fst_ownFrom (n : Nat) (ls : List Landmark) :
    (ownFrom n ls).map Prod.fst = ls.flatMap Landmark.own := by
  induction ls generalizing n with
  | nil => rfl
  | cons l ls ih => cases l <;> simp [ownFrom, Landmark.own, ih]

/-- The constructs that are met outside every inner scope are those among the own pieces. -/
theorem Piece.flatMap_own (p : Piece) :
    p.landmarks.flatMap Landmark.own = p.ownPieces.filter isNumbered := by
  induction p using induction_children with
  | step p ih =>
    have hown : (if p.isNumbered then [.construct p] else []).flatMap Landmark.own =
        if p.isNumbered then [p] else [] := by
      split <;> rfl
    have hsame : p.sameScope.flatMap (fun q => q.landmarks.flatMap Landmark.own) =
        p.sameScope.flatMap fun q => q.ownPieces.filter isNumbered :=
      List.flatMap_congr fun q hq => ih q (mem_children_of_mem_sameScope hq)
    have hscope : (p.scopeBlock?.toList.map fun b =>
        Landmark.scope b (Piece.block b).landmarks).flatMap Landmark.own = [] := by
      cases p.scopeBlock? <;> rfl
    rw [landmarks_eq, ownPieces_eq, List.flatMap_append, List.flatMap_append, List.flatMap_assoc,
      hown, hsame, hscope, List.append_nil, List.filter_cons, List.filter_flatMap]
    split <;> rfl

theorem exists_of_mem_scopesAmong_flatMap {scope : Scope} {α : Type} {f : α → List Landmark}
    {as : List α} {n : Nat} (h : scope ∈ scopesAmong n (as.flatMap f)) :
    ∃ a ∈ as, ∃ m, scope ∈ scopesAmong m (f a) := by
  induction as generalizing n with
  | nil => cases h
  | cons a as ih =>
      rw [List.flatMap_cons, scopesAmong_append] at h
      rcases List.mem_append.mp h with hfirst | hrest
      · exact ⟨a, List.mem_cons_self, n, hfirst⟩
      · obtain ⟨b, hb, hscope⟩ := ih hrest
        exact ⟨b, List.mem_cons_of_mem a hb, hscope⟩

/-- What is met in a scope is what is met in its block. -/
theorem Piece.landmarks_of_mem_scopes {p : Piece} {n : Nat} {scope : Scope}
    (h : scope ∈ scopesAmong n p.landmarks) :
    scope.landmarks = (Piece.block scope.block).landmarks := by
  induction p using induction_children generalizing n with
  | step p ih =>
    rw [landmarks_eq, scopesAmong_append, scopesAmong_append] at h
    rcases List.mem_append.mp h with hbefore | hscope
    · rcases List.mem_append.mp hbefore with hown | hsame
      · split at hown <;> cases hown
      · obtain ⟨q, hq, m, hscope⟩ := exists_of_mem_scopesAmong_flatMap hsame
        exact ih q (mem_children_of_mem_sameScope hq) hscope
    · cases hblock : p.scopeBlock? with
      | none =>
          rw [hblock] at hscope
          cases hscope
      | some b =>
          rw [hblock] at hscope
          have hchild : Piece.block b ∈ p.children :=
            mem_children_of_mem_scopeBlock (Option.mem_toList.mpr hblock)
          simp only [Option.toList_some, List.map_singleton, scopesAmong, Landmark.scopesFrom,
            List.append_nil, List.mem_cons] at hscope
          rcases hscope with rfl | hinside
          · rfl
          · exact ih _ hchild hinside

theorem perm_blocks_flatMap {ps : List Piece} {blocks : Piece → List Block}
    (h : ∀ p ∈ ps, ∀ n, ((scopesAmong n p.landmarks).map Scope.block).Perm (blocks p)) (n : Nat) :
    ((scopesAmong n (ps.flatMap Piece.landmarks)).map Scope.block).Perm (ps.flatMap blocks) := by
  induction ps generalizing n with
  | nil => exact .refl _
  | cons p ps ih =>
      rw [List.flatMap_cons, List.flatMap_cons, scopesAmong_append, List.map_append]
      exact (h p List.mem_cons_self n).append
        (ih (fun q hq => h q (List.mem_cons_of_mem p hq)) _)

/-- The scopes that are met in a piece are those of its pieces. -/
theorem Piece.blocks_perm (p : Piece) (n : Nat) :
    ((scopesAmong n p.landmarks).map Scope.block).Perm (p.below.filterMap scopeBlock?) := by
  induction p using induction_children generalizing n with
  | step p ih =>
    let blocks (q : Piece) : List Block := q.below.filterMap scopeBlock?
    have hown : scopesAmong n (if p.isNumbered then [.construct p] else []) = [] := by
      split <;> rfl
    have hsame (m : Nat) : ((scopesAmong m (p.sameScope.flatMap landmarks)).map Scope.block).Perm
        (p.sameScope.flatMap blocks) :=
      perm_blocks_flatMap (fun q hq => ih q (mem_children_of_mem_sameScope hq)) m
    have hscope (m : Nat) : ((scopesAmong m (p.scopeBlock?.toList.map fun b =>
        .scope b (Piece.block b).landmarks)).map Scope.block).Perm
        (p.scopeBlock?.toList ++ (p.scopeBlock?.toList.map Piece.block).flatMap blocks) := by
      cases hblock : p.scopeBlock? with
      | none => exact .refl _
      | some b =>
          have hinside :=
            ih _ (mem_children_of_mem_scopeBlock (Option.mem_toList.mpr hblock)) m
          simpa [scopesAmong, Landmark.scopesFrom] using hinside
    have hbelow : (p.below.filterMap scopeBlock?).Perm (p.scopeBlock?.toList ++
        (p.sameScope.flatMap blocks ++ (p.scopeBlock?.toList.map Piece.block).flatMap blocks)) := by
      have hfirst : p.below.filterMap scopeBlock? =
          p.scopeBlock?.toList ++ p.children.flatMap blocks := by
        rw [below_eq, List.filterMap_cons, List.filterMap_flatMap]
        cases p.scopeBlock? <;> rfl
      rw [hfirst, ← List.flatMap_append]
      exact (p.children_perm.symm.flatMap_right _).append_left _
    rw [landmarks_eq, scopesAmong_append, scopesAmong_append, hown, List.nil_append,
      List.map_append]
    exact ((hsame _).append (hscope _)).trans
      ((List.perm_append_comm_assoc _ _ _).trans hbelow.symm)

/-- Pipelines are among the constructs that take a number. -/
theorem isNumbered_of_isPipeline {p : Piece} (hp : p.isPipeline = true) : p.isNumbered = true := by
  unfold Piece.isPipeline at hp
  split at hp
  · rfl
  · cases hp

theorem filter_isNumbered_isPipeline (ps : List Piece) :
    (ps.filter Piece.isNumbered).filter Piece.isPipeline = ps.filter Piece.isPipeline := by
  rw [List.filter_filter]
  refine List.filter_congr fun p _ => ?_
  cases hp : p.isPipeline with
  | false => rfl
  | true => exact isNumbered_of_isPipeline hp

/-! ## The scopes of a program -/

namespace Program

variable (program : Program)

/-- The scope of a program and those inside it. -/
def scopes : List Scope :=
  program.scope :: program.innerScopes

theorem numbered_perm :
    (numberedFrom 0 program.scope.landmarks).Perm (program.scopes.flatMap Scope.own) := by
  rw [scopes, List.flatMap_cons]
  exact numberedFrom_perm 0 program.scope.landmarks

/-- The inner scopes are those of the pieces of the program. -/
theorem blocks_perm :
    (program.innerScopes.map Scope.block).Perm (program.pieces.filterMap Piece.scopeBlock?) :=
  (Piece.program program).blocks_perm 0

theorem flatMap_pipelines :
    program.scopes.flatMap Scope.pipelines =
      (program.scopes.flatMap Scope.own).filter (·.1.isPipeline) :=
  List.filter_flatMap.symm

/-- The pipelines of all scopes are the pipelines of the program. -/
theorem pipelines_perm :
    ((program.scopes.flatMap Scope.pipelines).map Prod.fst).Perm
      (program.pieces.filter Piece.isPipeline) := by
  have hfirst : (numberedFrom 0 program.scope.landmarks).map Prod.fst =
      constructsAmong program.scope.landmarks :=
    List.zipIdx_map_fst _ _
  rw [flatMap_pipelines, ← filter_isNumbered_isPipeline]
  refine ((program.numbered_perm.symm.filter _).map _).trans ?_
  have hfilter : ((numberedFrom 0 program.scope.landmarks).filter (·.1.isPipeline)).map Prod.fst =
      (constructsAmong program.scope.landmarks).filter Piece.isPipeline := by
    rw [← hfirst, List.filter_map]
    rfl
  rw [hfilter]
  exact ((Piece.program program).constructs_perm).filter _

theorem landmarks_of_mem_scopes {scope : Scope} (hscope : scope ∈ program.scopes) :
    scope.landmarks = (Piece.block scope.block).landmarks := by
  rcases List.mem_cons.mp hscope with rfl | hinner
  · change (Piece.program program).landmarks = (Piece.block ⟨program.body, none⟩).landmarks
    rw [Piece.landmarks_eq (.program program), Piece.landmarks_eq (.block _)]
    simp
  · exact Piece.landmarks_of_mem_scopes hinner

/-- The pipelines of a scope are those of its block that are in no inner scope. -/
theorem pipelines_of_mem_scopes {scope : Scope} (hscope : scope ∈ program.scopes) :
    scope.pipelines.map Prod.fst =
      (Piece.block scope.block).ownPieces.filter Piece.isPipeline := by
  have hfilter : scope.pipelines.map Prod.fst =
      (scope.own.map Prod.fst).filter Piece.isPipeline := by
    rw [List.filter_map]
    rfl
  rw [hfilter, Scope.own, map_fst_ownFrom, program.landmarks_of_mem_scopes hscope,
    Piece.flatMap_own, filter_isNumbered_isPipeline]

/-- No number is taken twice. -/
theorem nodup_numbers : ((program.scopes.flatMap Scope.pipelines).map Prod.snd).Nodup := by
  have hnumbers : ((program.scopes.flatMap Scope.own).map Prod.snd).Nodup := by
    refine (program.numbered_perm.map _).nodup_iff.mp ?_
    rw [numberedFrom, List.zipIdx_map_snd]
    exact List.nodup_range'
  rw [flatMap_pipelines]
  exact hnumbers.sublist (List.filter_sublist.map _)

end Program

/-- The pipelines of a scope come in the order of their numbers. -/
theorem Scope.pairwise_pipelines (scope : Scope) :
    (scope.pipelines.map Prod.snd).Pairwise (· < ·) := by
  have hsublist : scope.pipelines.Sublist (numberedFrom scope.start scope.landmarks) :=
    List.filter_sublist.trans (ownFrom_sublist _ _)
  refine List.Pairwise.sublist (hsublist.map _) ?_
  rw [numberedFrom, List.zipIdx_map_snd]
  exact List.pairwise_lt_range'

end PegScript
