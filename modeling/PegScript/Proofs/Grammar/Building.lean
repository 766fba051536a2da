import Mathlib.Data.List.FinRange
import Mathlib.Data.List.Nodup
import PegScript.Grammar.Build

/-!
# When named rules make a grammar

Rules make a grammar if their names are distinct and every reference names one of them, the root
included.  The references of a rule are listed from left to right (`Term.references`), and
replacing them fails at the first one that has no replacement (`Term.errorOf?_traverse`).  So a
failed build names the first fault in the order of the checks, and a build that succeeds changes
nothing but references: with each of them looked up by name, the bodies are those of the rules
(`Term.rename_of_traverse`).

The main statement is `Grammar.build_outcome`.
-/

namespace PegScript

variable {ρ σ ν ε α β : Type}

/-! ## References -/

namespace Term

mutual

/-- The references in a term, from left to right. -/
def references : Term ρ ν → List ρ
  | .literal _ _ | .charIn _ | .anyChar => []
  | .rule r => [r]
  | .seq ts | .choice ts => referencesAll ts
  | .star t | .plus t | .opt t | .not t | .and t | .label _ t | .action _ t | .text t
  | .pick _ t => references t

/-- The references in terms that stand one after the other. -/
def referencesAll : List (Term ρ ν) → List ρ
  | [] => []
  | t :: ts => references t ++ referencesAll ts

end

mutual

/-- The term with every reference replaced, and nothing else changed. -/
def rename (f : ρ → σ) : Term ρ ν → Term σ ν
  | .literal s ignoreCase => .literal s ignoreCase
  | .charIn k => .charIn k
  | .anyChar => .anyChar
  | .rule r => .rule (f r)
  | .seq ts => .seq (renameAll f ts)
  | .choice ts => .choice (renameAll f ts)
  | .star t => .star (rename f t)
  | .plus t => .plus (rename f t)
  | .opt t => .opt (rename f t)
  | .not t => .not (rename f t)
  | .and t => .and (rename f t)
  | .label name t => .label name (rename f t)
  | .action act t => .action act (rename f t)
  | .text t => .text (rename f t)
  | .pick index t => .pick index (rename f t)

/-- The terms with every reference replaced. -/
def renameAll (f : ρ → σ) : List (Term ρ ν) → List (Term σ ν)
  | [] => []
  | t :: ts => rename f t :: renameAll f ts

end

end Term

/-! ## Replacing references -/

/-- The error, if there is one. -/
def errorOf? : Except ε α → Option ε
  | .error e => some e
  | .ok _ => none

@[simp] theorem errorOf?_map (f : α → β) (x : Except ε α) : errorOf? (x.map f) = errorOf? x := by
  cases x <;> rfl

theorem errorOf?_eq_some_iff {x : Except ε α} {e : ε} : errorOf? x = some e ↔ x = .error e := by
  cases x <;> simp [errorOf?]

theorem errorOf?_eq_none_iff {x : Except ε α} : errorOf? x = none ↔ ∃ a, x = .ok a := by
  cases x <;> simp [errorOf?]

theorem exists_of_map_eq_ok {f : α → β} {x : Except ε α} {b : β}
    (h : x.map f = .ok b) : ∃ a, x = .ok a ∧ f a = b := by
  cases x with
  | error e => cases h
  | ok a => exact ⟨a, rfl, Except.ok.inj h⟩

namespace Term

variable {f : ρ → Except ε σ}

mutual

/-- Replacing the references in a term fails at the first one that has no replacement. -/
theorem errorOf?_traverse : ∀ t : Term ρ ν,
    errorOf? (t.traverse f) = t.references.findSome? fun r => errorOf? (f r)
  | .literal _ _ | .charIn _ | .anyChar => rfl
  | .rule r => by
      rw [traverse, errorOf?_map, references, List.findSome?_singleton]
  | .seq ts | .choice ts => by
      rw [traverse, errorOf?_map, references, errorOf?_traverseList ts]
  | .star t | .plus t | .opt t | .not t | .and t | .label _ t | .action _ t | .text t
  | .pick _ t => by
      rw [traverse, errorOf?_map, references, errorOf?_traverse t]

theorem errorOf?_traverseList : ∀ ts : List (Term ρ ν),
    errorOf? (traverseList f ts) = (referencesAll ts).findSome? fun r => errorOf? (f r)
  | [] => rfl
  | t :: ts => by
      rw [referencesAll, List.findSome?_append, ← errorOf?_traverse t, ← errorOf?_traverseList ts,
        traverseList]
      cases t.traverse f with
      | error e => rfl
      | ok u => exact errorOf?_map _ _

end

mutual

/-- Where all references have replacements, these are all that changes. -/
theorem rename_of_traverse : ∀ (t : Term ρ ν) (u : Term σ ν), t.traverse f = .ok u →
    u.rename some = t.rename fun r => (f r).toOption
  | .literal s ignoreCase, u, h => by
      cases h
      rfl
  | .charIn k, u, h => by
      cases h
      rfl
  | .anyChar, u, h => by
      cases h
      rfl
  | .rule r, u, h => by
      obtain ⟨i, hr, rfl⟩ := exists_of_map_eq_ok h
      rw [rename, rename, hr]
      rfl
  | .seq ts, u, h | .choice ts, u, h => by
      obtain ⟨us, hts, rfl⟩ := exists_of_map_eq_ok h
      rw [rename, rename, renameAll_of_traverseList ts us hts]
  | .star t, u, h | .plus t, u, h | .opt t, u, h | .not t, u, h | .and t, u, h
  | .label name t, u, h | .action act t, u, h | .text t, u, h | .pick index t, u, h => by
      obtain ⟨u, ht, rfl⟩ := exists_of_map_eq_ok h
      rw [rename, rename, rename_of_traverse t u ht]

theorem renameAll_of_traverseList : ∀ (ts : List (Term ρ ν)) (us : List (Term σ ν)),
    traverseList f ts = .ok us → renameAll some us = renameAll (fun r => (f r).toOption) ts
  | [], us, h => by
      cases h
      rfl
  | t :: ts, us, h => by
      unfold traverseList at h
      split at h
      · cases h
      · rename_i u ht
        obtain ⟨us, hts, rfl⟩ := exists_of_map_eq_ok h
        rw [renameAll, renameAll, rename_of_traverse t u ht, renameAll_of_traverseList ts us hts]

end

variable {back : σ → ρ}

mutual

/-- If every replacement of a reference can be undone, so can that of all references in a term. -/
theorem traverse_back (hback : ∀ r i, f r = .ok i → back i = r) :
    ∀ (t : Term ρ ν) (u : Term σ ν), t.traverse f = .ok u →
      u.traverse (fun i => (.ok (back i) : Except ε ρ)) = .ok t
  | .literal s ignoreCase, u, h => by
      cases h
      rfl
  | .charIn k, u, h => by
      cases h
      rfl
  | .anyChar, u, h => by
      cases h
      rfl
  | .rule r, u, h => by
      obtain ⟨i, hr, rfl⟩ := exists_of_map_eq_ok h
      rw [traverse, hback r i hr]
      rfl
  | .seq ts, u, h | .choice ts, u, h => by
      obtain ⟨us, hts, rfl⟩ := exists_of_map_eq_ok h
      rw [traverse, traverseList_back hback ts us hts]
      rfl
  | .star t, u, h | .plus t, u, h | .opt t, u, h | .not t, u, h | .and t, u, h
  | .label name t, u, h | .action act t, u, h | .text t, u, h | .pick index t, u, h => by
      obtain ⟨u, ht, rfl⟩ := exists_of_map_eq_ok h
      rw [traverse, traverse_back hback t u ht]
      rfl

theorem traverseList_back (hback : ∀ r i, f r = .ok i → back i = r) :
    ∀ (ts : List (Term ρ ν)) (us : List (Term σ ν)), traverseList f ts = .ok us →
      traverseList (fun i => (.ok (back i) : Except ε ρ)) us = .ok ts
  | [], us, h => by
      cases h
      rfl
  | t :: ts, us, h => by
      unfold traverseList at h
      split at h
      · cases h
      · rename_i u ht
        obtain ⟨us, hts, rfl⟩ := exists_of_map_eq_ok h
        simp only [traverseList, traverse_back hback t u ht, traverseList_back hback ts us hts,
          Except.map]

end

end Term

/-! ## Names -/

namespace Grammar

variable {rules : List (Rule String ν)} {names seen : List String} {name : String}

theorem firstRepeated?_eq_none_iff :
    firstRepeated? seen names = none ↔ names.Nodup ∧ ∀ name ∈ names, name ∉ seen := by
  induction names generalizing seen with
  | nil => simp [firstRepeated?]
  | cons first names ih =>
      rw [firstRepeated?]
      split
      case isTrue hseen => simp [hseen]
      case isFalse hnew =>
        rw [ih, List.nodup_cons]
        simp only [List.mem_cons, not_or]
        grind

/-- The first name that occurred before: the names in front of it are distinct. -/
theorem firstRepeated?_eq_some_iff :
    firstRepeated? seen names = some name ↔
      ∃ before after, names = before ++ name :: after ∧ before.Nodup ∧
        (∀ other ∈ before, other ∉ seen) ∧ (name ∈ before ∨ name ∈ seen) := by
  induction names generalizing seen with
  | nil => simp [firstRepeated?]
  | cons first names ih =>
      rw [firstRepeated?]
      split
      case isTrue hseen =>
        constructor
        · intro h
          cases h
          exact ⟨[], names, rfl, .nil, by simp, .inr hseen⟩
        · rintro ⟨before, after, hnames, -, hbefore, -⟩
          cases before with
          | nil =>
              cases hnames
              rfl
          | cons _ before =>
              cases hnames
              exact absurd hseen (hbefore first (List.mem_cons_self ..))
      case isFalse hnew =>
        rw [ih]
        constructor
        · rintro ⟨before, after, rfl, hnodup, hbefore, hname⟩
          refine ⟨first :: before, after, rfl, ?_, ?_, ?_⟩
          · refine List.nodup_cons.mpr ⟨fun hmem => ?_, hnodup⟩
            exact hbefore first hmem (List.mem_cons_self ..)
          · refine List.forall_mem_cons.mpr ⟨hnew, fun other hother hseen => ?_⟩
            exact hbefore other hother (List.mem_cons_of_mem _ hseen)
          · grind
        · rintro ⟨before, after, hnames, hnodup, hbefore, hname⟩
          cases before with
          | nil =>
              cases hnames
              simp [hnew] at hname
          | cons _ before =>
              cases hnames
              obtain ⟨hfirst, hnodup⟩ := List.nodup_cons.mp hnodup
              refine ⟨before, after, rfl, hnodup, fun other hother => ?_, ?_⟩
              · have hother' := hbefore other (List.mem_cons_of_mem _ hother)
                grind
              · grind

theorem indexOf?_eq_none_iff : indexOf? rules name = none ↔ name ∉ rules.map (·.name) := by
  simp [indexOf?, List.findFinIdx?_eq_none_iff]

/-- Among rules with distinct names, a name leads to the only rule of that name. -/
theorem indexOf?_eq_some_iff (hdistinct : (rules.map (·.name)).Nodup) {i : Fin rules.length} :
    indexOf? rules name = some i ↔ (rules.get i).name = name := by
  rw [indexOf?, List.findFinIdx?_eq_some_iff]
  simp only [beq_iff_eq]
  constructor
  · intro h
    exact h.1
  · intro hname
    refine ⟨hname, fun j hj hsame => ?_⟩
    have hne := List.pairwise_iff_getElem.mp (List.pairwise_map.mp hdistinct) j i j.isLt i.isLt hj
    exact hne (hsame.trans hname.symm)

theorem toOption_resolveName : (resolveName rules name).toOption = indexOf? rules name := by
  unfold resolveName
  split
  case h_1 i hi => exact hi.symm
  case h_2 hnone => exact hnone.symm

theorem errorOf?_resolveName_eq_none_iff :
    errorOf? (resolveName rules name) = none ↔ name ∈ rules.map (·.name) := by
  unfold resolveName
  split
  case h_1 i hi =>
    refine iff_of_true rfl ?_
    by_contra hmem
    rw [indexOf?_eq_none_iff.mpr hmem] at hi
    cases hi
  case h_2 hnone => simpa [errorOf?] using indexOf?_eq_none_iff.mp hnone

theorem errorOf?_resolveName_eq_some_iff {e : BuildError} :
    errorOf? (resolveName rules name) = some e ↔
      name ∉ rules.map (·.name) ∧ e = .unknownRule name := by
  rw [← errorOf?_resolveName_eq_none_iff]
  unfold resolveName
  split <;> simp [errorOf?, eq_comm]

/-! ## All rules -/

theorem errorOf?_resolveRules (f : ρ → Except BuildError σ) (rules : List (Rule ρ ν)) :
    errorOf? (resolveRules f rules) =
      (rules.flatMap (·.body.references)).findSome? fun r => errorOf? (f r) := by
  induction rules with
  | nil => rfl
  | cons rule rules ih =>
      rw [List.flatMap_cons, List.findSome?_append, ← Term.errorOf?_traverse, ← ih, resolveRules]
      cases rule.body.traverse f with
      | error e => rfl
      | ok body =>
          cases resolveRules f rules with
          | error e => rfl
          | ok resolved => rfl

/-- The rule that a name stands for has that name. -/
theorem name_of_resolveName {rules : List (Rule String ν)} {name : String}
    {i : Fin rules.length} (h : resolveName rules name = .ok i) : (rules.get i).name = name := by
  unfold resolveName at h
  split at h
  · rename_i j hj
    cases h
    have hfound := (List.findFinIdx?_eq_some_iff.mp hj).1
    simpa using hfound
  · cases h

/-- Every rule keeps what it is, with the references in its body replaced. -/
theorem get_of_resolveRules {f : ρ → Except BuildError σ} {rules : List (Rule ρ ν)}
    {out : List (Rule σ ν)} {h : out.length = rules.length}
    (hresolve : resolveRules f rules = .ok ⟨out, h⟩) (i : Fin rules.length) :
    ∃ body, (rules.get i).body.traverse f = .ok body ∧
      out.get (i.cast h.symm) = { rules.get i with body } := by
  induction rules generalizing out with
  | nil => exact i.elim0
  | cons rule rules ih =>
      unfold resolveRules at hresolve
      split at hresolve
      · cases hresolve
      · rename_i body hbody
        split at hresolve
        · cases hresolve
        · rename_i out' h' hrest
          cases hresolve
          cases i using Fin.cases with
          | zero => exact ⟨body, hbody, rfl⟩
          | succ i => exact ih hrest i

end Grammar

/-- In the grammar every reference leads to the declared rule of that name: with references read as
names again, its rules are the declared ones. -/
def NumberedGrammar.Resolves (g : NumberedGrammar ν) (rules : List (Rule String ν)) : Prop :=
  ∃ hcount : g.count = rules.length, ∀ i : Fin g.count,
    ∃ body : Term String ν,
      (g.grammar.rule i).body.traverse
          (fun j => (.ok (g.grammar.nameOf j) : Except BuildError String)) = .ok body ∧
        { g.grammar.rule i with body } = rules.get (i.cast hcount)

theorem Grammar.resolves_of_build {rules : List (Rule String ν)} {root : String}
    {g : NumberedGrammar ν} (h : build rules root = .ok g) : g.Resolves rules := by
  unfold build at h
  split at h
  · cases h
  · split at h
    · cases h
    · rename_i resolved hlength hresolve
      split at h
      · cases h
      · cases h
        have hget := get_of_resolveRules hresolve
        refine ⟨rfl, fun i => ?_⟩
        obtain ⟨body, hbody, hrule⟩ := hget i
        have hback : ∀ name j, resolveName rules name = .ok j →
            (resolved.get (j.cast hlength.symm)).name = name := by
          intro name j hj
          obtain ⟨_, -, hdeclared⟩ := hget j
          rw [hdeclared]
          exact name_of_resolveName hj
        refine ⟨(rules.get i).body, ?_, ?_⟩
        · simp only [hrule]
          exact Term.traverse_back hback _ body hbody
        · simp only [hrule]
          rfl

/-! ## Building -/

/-- The grammar has the rules in their order.  A name finds the rule of that name, and a rule is as
it was given, except that each reference in its body is what the name there finds. -/
structure NumberedGrammar.Numbers (g : NumberedGrammar ν) (rules : List (Rule String ν))
    (root : String) : Prop where
  count : g.count = rules.length
  symbols : g.grammar.symbols = List.finRange g.count
  find : ∀ (name : String) (i : Fin g.count),
    g.grammar.find? name = some i ↔ rules[i.val]?.map (·.name) = some name
  rule : ∀ i : Fin g.count, ∃ given, rules[i.val]? = some given ∧
    (g.grammar.rule i).name = given.name ∧ (g.grammar.rule i).expect = given.expect ∧
    (g.grammar.rule i).silent = given.silent ∧
    (g.grammar.rule i).body.rename some = given.body.rename g.grammar.find?
  root : g.grammar.find? root = some g.grammar.root

namespace Grammar

variable {rules : List (Rule String ν)} {root : String}

theorem findSome?_resolveName_eq_none_iff {names : List String} :
    (names.findSome? fun name => errorOf? (resolveName rules name)) = none ↔
      ∀ name ∈ names, name ∈ rules.map (·.name) := by
  simp only [List.findSome?_eq_none_iff, errorOf?_resolveName_eq_none_iff]

theorem findSome?_resolveName_eq_some_iff {names : List String} {e : BuildError} :
    (names.findSome? fun name => errorOf? (resolveName rules name)) = some e ↔
      ∃ before name after, names = before ++ name :: after ∧
        (∀ other ∈ before, other ∈ rules.map (·.name)) ∧ name ∉ rules.map (·.name) ∧
        e = .unknownRule name := by
  simp only [List.findSome?_eq_some_iff, errorOf?_resolveName_eq_some_iff,
    errorOf?_resolveName_eq_none_iff]
  grind

/-- The checks of a build, in their order. -/
theorem errorOf?_build (rules : List (Rule String ν)) (root : String) :
    errorOf? (build rules root) =
      ((firstRepeated? [] (rules.map (·.name))).map BuildError.duplicateRule).or
        (((rules.flatMap (·.body.references)).findSome? fun name =>
            errorOf? (resolveName rules name)).or
          (if root ∈ rules.map (·.name) then none else some (.unknownRoot root))) := by
  rw [← errorOf?_resolveRules]
  unfold build
  split
  case h_1 name hname => rw [hname]; rfl
  case h_2 hnone =>
    rw [hnone]
    split
    case h_1 e he => rw [he]; rfl
    case h_2 resolved hlength hresolved =>
      rw [hresolved]
      split
      case h_1 hroot => rw [if_neg (indexOf?_eq_none_iff.mp hroot)]; rfl
      case h_2 start hstart =>
        have hroot : root ∈ rules.map (·.name) := by
          by_contra hmissing
          rw [indexOf?_eq_none_iff.mpr hmissing] at hstart
          cases hstart
        rw [if_pos hroot]; rfl

/-- Where all rules are listed and no two have the same name, a name finds the rule of that name. -/
theorem find?_eq_some_iff {g : Grammar ρ ν} (hall : ∀ r, r ∈ g.symbols)
    (hdistinct : ∀ r r', g.nameOf r = g.nameOf r' → r = r') {name : String} {r : ρ} :
    g.find? name = some r ↔ g.nameOf r = name := by
  constructor
  · intro h
    simpa using List.find?_some h
  · intro hname
    have hsome : (g.find? name).isSome := List.find?_isSome.mpr ⟨r, hall r, by simpa using hname⟩
    obtain ⟨r', hr'⟩ := Option.isSome_iff_exists.mp hsome
    have hname' : g.nameOf r' = name := by simpa using List.find?_some hr'
    rw [hr', hdistinct r' r (hname'.trans hname.symm)]

theorem nodup_of_build {g : NumberedGrammar ν} (h : build rules root = .ok g) :
    (rules.map (·.name)).Nodup := by
  have hnone := errorOf?_eq_none_iff.mpr ⟨g, h⟩
  rw [errorOf?_build, Option.or_eq_none_iff, Option.map_eq_none_iff,
    firstRepeated?_eq_none_iff] at hnone
  exact hnone.1.1

/-- A build that succeeds numbers the rules. -/
theorem numbers_of_build {g : NumberedGrammar ν} (h : build rules root = .ok g) :
    g.Numbers rules root := by
  have hdistinct := nodup_of_build h
  unfold build at h
  split at h
  · cases h
  · split at h
    · cases h
    · rename_i resolved hlength hresolve
      split at h
      · cases h
      · rename_i start hstart
        cases h
        have hget := get_of_resolveRules hresolve
        have hname (i : Fin rules.length) :
            (resolved.get (i.cast hlength.symm)).name = (rules.get i).name := by
          obtain ⟨body, -, hrule⟩ := hget i
          rw [hrule]
        -- both ways to look up a name are decided by the names of the rules
        have hfind : find? ⟨List.finRange rules.length,
            fun i => resolved.get (i.cast hlength.symm), start⟩ = indexOf? rules := by
          funext name
          refine Option.ext fun i => ?_
          rw [indexOf?_eq_some_iff hdistinct, find?_eq_some_iff List.mem_finRange, nameOf, hname]
          intro r r' hsame
          simp only [nameOf, hname] at hsame
          have hr := (indexOf?_eq_some_iff hdistinct).mpr hsame
          rw [(indexOf?_eq_some_iff hdistinct).mpr rfl] at hr
          exact (Option.some.inj hr).symm
        refine ⟨rfl, rfl, fun name i => ?_, fun i => ?_, ?_⟩
        · simp only [hfind]
          rw [indexOf?_eq_some_iff hdistinct]
          simp
        · obtain ⟨body, hbody, hrule⟩ := hget i
          refine ⟨rules.get i, by simp, ?_⟩
          simp only [hrule, true_and]
          rw [Term.rename_of_traverse _ _ hbody, hfind]
          simp only [toOption_resolveName]
        · simp only [hfind]
          exact hstart

/-- Rules make a grammar exactly if their names are distinct, every reference names a rule and the
root does.  Otherwise the first name that occurs twice is reported, if there is one, then the first
reference to a rule that does not exist, then the root.  In a grammar that is built the rules are
numbered and otherwise as they were given. -/
theorem build_outcome (rules : List (Rule String ν)) (root : String) :
    ((∃ g, build rules root = .ok g) ↔
      (rules.map (·.name)).Nodup ∧
        (∀ rule ∈ rules, ∀ name ∈ rule.body.references, name ∈ rules.map (·.name)) ∧
        root ∈ rules.map (·.name)) ∧
    (∀ name, build rules root = .error (.duplicateRule name) ↔
      ∃ before after, rules.map (·.name) = before ++ name :: after ∧ before.Nodup ∧
        name ∈ before) ∧
    (∀ name, build rules root = .error (.unknownRule name) ↔
      (rules.map (·.name)).Nodup ∧
        ∃ before after, rules.flatMap (·.body.references) = before ++ name :: after ∧
          (∀ other ∈ before, other ∈ rules.map (·.name)) ∧ name ∉ rules.map (·.name)) ∧
    (∀ name, build rules root = .error (.unknownRoot name) ↔
      (rules.map (·.name)).Nodup ∧
        (∀ rule ∈ rules, ∀ name ∈ rule.body.references, name ∈ rules.map (·.name)) ∧
        root ∉ rules.map (·.name) ∧ name = root) ∧
    ∀ g, build rules root = .ok g → g.Numbers rules root := by
  have hreferences : (∀ name ∈ rules.flatMap (·.body.references), name ∈ rules.map (·.name)) ↔
      ∀ rule ∈ rules, ∀ name ∈ rule.body.references, name ∈ rules.map (·.name) := by
    simp only [List.mem_flatMap]
    grind
  rw [← hreferences]
  simp only [← errorOf?_eq_some_iff, ← errorOf?_eq_none_iff, errorOf?_build]
  simp only [Option.or_eq_none_iff, Option.or_eq_some_iff, Option.map_eq_none_iff,
    Option.map_eq_some_iff, firstRepeated?_eq_none_iff, firstRepeated?_eq_some_iff,
    findSome?_resolveName_eq_none_iff, findSome?_resolveName_eq_some_iff]
  refine ⟨?_, fun name => ?_, fun name => ?_, fun name => ?_, fun g => numbers_of_build⟩
  · simp
  · simp
  · simp
  · simp [eq_comm]

/-- Of two references without a rule the left one is reported, however deep it stands. -/
example : errorOf? (build (ν := Unit) [{ name := "A", body := .seq [.not (.rule "B"), .rule "C"] }]
    "D") = some (.unknownRule "B") :=
  rfl

end Grammar

end PegScript
