import PegScript.Proofs.Semantics.Framing
import PegScript.Proofs.Semantics.Runs

/-!
# Matching on one stack of labels

The engine hands each operator what it has to put back, and each rule the number of rules that may
still become active.  Here the same matching is done in place: one stack of labels that is cut back
to an earlier height, and a count of the active rules that goes up and down (`Machine`).  Nothing
around a term is saved but numbers, so that each operator relies on its operands to leave the stack
and the counts in order.

They do, and the two ways to match agree (`Grammar.evaluateInPlace_eq`).  What matching in place
leaves behind is the subject of `Grammar.evaluateInPlace_restores`.
-/

namespace PegScript

variable {ρ ν : Type} [BEq ρ] [Hashable ρ]

/-- A session together with the number of active rules. -/
structure Machine (ρ ν : Type) [BEq ρ] [Hashable ρ] extends Session ρ ν where
  depth : Nat

namespace Machine

/-- Drops the latest labels until `height` are left. -/
def cut (m : Machine ρ ν) (height : Nat) : Machine ρ ν :=
  { m with labels := m.labels.drop (m.labels.length - height) }

/-- The labels above the lowest `height`. -/
def above (m : Machine ρ ν) (height : Nat) : List (String × Value ν) :=
  m.labels.take (m.labels.length - height)

/-- Notes something in the session. -/
def note (m : Machine ρ ν) (f : Session ρ ν → Session ρ ν) : Machine ρ ν :=
  { m with toSession := f m.toSession }

end Machine

/-- Tries to match at a place, in the state of a machine. -/
abbrev StackMatcher (ρ ν : Type) [BEq ρ] [Hashable ρ] :=
  Cursor → Machine ρ ν → Option (Match ν) × Machine ρ ν

/-! ## Operators in place -/

namespace StackMatcher

/-- A matcher that neither binds labels nor calls rules. -/
def leaf (p : Matcher ρ ν) : StackMatcher ρ ν := fun c m =>
  match p c m.toSession with
  | (result, s) => (result, m.note fun _ => s)

def opt (p : StackMatcher ρ ν) : StackMatcher ρ ν := fun c m =>
  match p c m with
  | (some found, m') => (some found, m')
  | (none, m') => (some ⟨c, .absent⟩, m')

def text (p : StackMatcher ρ ν) : StackMatcher ρ ν := fun c m =>
  match p c m with
  | (some found, m') => (some ⟨found.stop, .text (c.textTo found.stop)⟩, m')
  | (none, m') => (none, m')

def pick (index : Nat) (p : StackMatcher ρ ν) : StackMatcher ρ ν := fun c m =>
  match p c m with
  | (some found, m') => (some ⟨found.stop, found.value.pick index⟩, m')
  | (none, m') => (none, m')

def label (name : String) (p : StackMatcher ρ ν) : StackMatcher ρ ν := fun c m =>
  match p c m with
  | (some found, m') =>
    (some ⟨found.stop, .empty⟩, { m' with labels := (name, found.value) :: m'.labels })
  | (none, m') => (none, m')

def lookahead (positive : Bool) (p : StackMatcher ρ ν) : StackMatcher ρ ν := fun c m =>
  match p c { m with silent := m.silent + 1 } with
  | (result, m') =>
    (if result.isSome = positive then some ⟨c, .empty⟩ else none,
      { m'.cut m.labels.length with silent := m'.silent - 1 })

/-- The action gets the labels above those that were there. -/
def action (act : ActionM ν (Value ν)) (p : StackMatcher ρ ν) : StackMatcher ρ ν := fun c m =>
  match p c m with
  | (some found, m') =>
    ((act ⟨m'.above m.labels.length, found.value, c, found.stop⟩).map fun built =>
      ⟨found.stop, built.1⟩, m'.cut m.labels.length)
  | (none, m') => (none, m'.cut m.labels.length)

def repeatFrom (p : StackMatcher ρ ν) :
    Nat → List (Value ν) → Cursor → Machine ρ ν → (List (Value ν) × Cursor) × Machine ρ ν
  | 0, done, c, m => ((done.reverse, c), m)
  | bound + 1, done, c, m =>
    match p c m with
    | (none, m') => ((done.reverse, c), m')
    | (some found, m') =>
      if found.stop.offset = c.offset then (((found.value :: done).reverse, c), m')
      else repeatFrom p bound (found.value :: done) found.stop m'

def star (size : Nat) (p : StackMatcher ρ ν) : StackMatcher ρ ν := fun c m =>
  match repeatFrom p (size - c.offset + 1) [] c m with
  | ((values, stop), m') => (some ⟨stop, .list values⟩, m')

def plus (size : Nat) (p : StackMatcher ρ ν) : StackMatcher ρ ν := fun c m =>
  match repeatFrom p (size - c.offset + 1) [] c m with
  | (([], _), m') => (none, m')
  | ((values, stop), m') => (some ⟨stop, .list values⟩, m')

end StackMatcher

namespace Term

mutual

/-- Matches a term in place, with `call` to match rules. -/
def runInPlace (size : Nat) (call : ρ → StackMatcher ρ ν) : Term ρ ν → StackMatcher ρ ν
  | .literal s ignoreCase => .leaf (Matcher.literal s ignoreCase)
  | .charIn k => .leaf (Matcher.charIn k)
  | .anyChar => .leaf Matcher.anyChar
  | .rule r => call r
  | .seq terms => fun c m =>
    match runSeqInPlace size call terms c m with
    | (some (stop, values), m') => (some ⟨stop, .list values⟩, m')
    | (none, m') => (none, m'.cut m.labels.length)
  | .choice terms => runChoiceInPlace size call terms
  | .star term => .star size (runInPlace size call term)
  | .plus term => .plus size (runInPlace size call term)
  | .opt term => .opt (runInPlace size call term)
  | .not term => .lookahead false (runInPlace size call term)
  | .and term => .lookahead true (runInPlace size call term)
  | .label name term => .label name (runInPlace size call term)
  | .action act term => .action act (runInPlace size call term)
  | .text term => .text (runInPlace size call term)
  | .pick index term => .pick index (runInPlace size call term)

/-- Matches all terms in place, one after the other. -/
def runSeqInPlace (size : Nat) (call : ρ → StackMatcher ρ ν) :
    List (Term ρ ν) → Cursor → Machine ρ ν → Option (Cursor × List (Value ν)) × Machine ρ ν
  | [], c, m => (some (c, []), m)
  | term :: terms, c, m =>
    match runInPlace size call term c m with
    | (none, m') => (none, m')
    | (some found, m') =>
      match runSeqInPlace size call terms found.stop m' with
      | (none, m'') => (none, m'')
      | (some (stop, values), m'') => (some (stop, found.value :: values), m'')

/-- Matches the first term that does, in place. -/
def runChoiceInPlace (size : Nat) (call : ρ → StackMatcher ρ ν) :
    List (Term ρ ν) → StackMatcher ρ ν
  | [], _, m => (none, m)
  | term :: terms, c, m =>
    match runInPlace size call term c m with
    | (some found, m') => (some found, m')
    | (none, m') => runChoiceInPlace size call terms c m'

end

end Term

namespace Grammar

/-- Matches the body of a rule in place. -/
def runBodyInPlace (rule : Rule ρ ν) (body : StackMatcher ρ ν) : StackMatcher ρ ν := fun c m =>
  let opened : Machine ρ ν := { m with
    namedStart := if rule.expect.isSome then some c.offset else m.namedStart
    silent := if rule.silent then m.silent + 1 else m.silent }
  match body c opened with
  | (result, m') =>
    let closed : Machine ρ ν := { m'.cut m.labels.length with
      silent := if rule.silent then m'.silent - 1 else m'.silent
      namedStart := m.namedStart }
    match rule.expect, result with
    | some expect, none => (none, closed.note (·.fail c.offset (.named expect)))
    | _, _ => (result, closed)

/-- Matches a rule in place.  The recursion is bounded by `fuel`; what limits it is the number of
active rules. -/
def runRuleInPlace (g : Grammar ρ ν) (settings : Settings) (size : Nat) :
    Nat → ρ → StackMatcher ρ ν
  | 0, _, _, m => (none, m)
  | fuel + 1, r, c, m =>
    if m.overflow.isSome then (none, m)
    else if settings.maxDepth ≤ m.depth then (none, { m with overflow := some c.offset })
    else
      let m := m.note (·.reportEnter settings.traced r c)
      match m.memoized? settings.memoize r c.offset with
      | some result => (result, m.note (·.countHit.reportResult settings.traced r c result true))
      | none =>
        let m := m.note (·.countMiss settings.memoize)
        let body := (g.rule r).body.runInPlace size (runRuleInPlace g settings size fuel)
        match runBodyInPlace (g.rule r) body c { m with depth := m.depth + 1 } with
        | (result, m') =>
          (result, { m' with depth := m'.depth - 1 }.note fun s =>
            (s.remember settings.memoize r c.offset result).reportResult settings.traced r c
              result false)

/-- Matches a term in place.  At no time more than `maxDepth` rules are active. -/
def evaluateInPlace (g : Grammar ρ ν) (settings : Settings) (size : Nat) (t : Term ρ ν) :
    StackMatcher ρ ν :=
  t.runInPlace size (g.runRuleInPlace settings size (settings.maxDepth + 1))

end Grammar

/-! ## Both ways agree -/

namespace Machine

variable {s : Session ρ ν} {depth : Nat} {new labels : List (String × Value ν)}

theorem cut_mk (h : s.labels = new ++ labels) :
    (⟨s, depth⟩ : Machine ρ ν).cut labels.length = ⟨{ s with labels := labels }, depth⟩ := by
  simp [cut, h]

theorem above_mk (h : s.labels = new ++ labels) :
    (⟨s, depth⟩ : Machine ρ ν).above labels.length = new := by
  simp [above, h]

end Machine

/-- While `depth` rules are active, the matcher in place does what the matcher does, and leaves
as many rules active. -/
def StackMatcher.Follows (q : StackMatcher ρ ν) (p : Matcher ρ ν) (depth : Nat) : Prop :=
  ∀ (c : Cursor) (s s' : Session ρ ν) (result : Option (Match ν)), p c s = (result, s') →
    q c ⟨s, depth⟩ = (result, ⟨s', depth⟩)

namespace StackMatcher

variable {p : Matcher ρ ν} {q : StackMatcher ρ ν} {depth : Nat}

theorem follows_leaf (p : Matcher ρ ν) (depth : Nat) : Follows (leaf p) p depth := by
  intro c s s' result hrun
  simp only [leaf, hrun]
  rfl

/-- Operators that first run their operand follow each other if they treat its outcome alike. -/
theorem Follows.of_outcome (h : Follows q p depth) {p' : Matcher ρ ν} {q' : StackMatcher ρ ν}
    (hsame : ∀ (c : Cursor) (s s₁ : Session ρ ν) (result : Option (Match ν)),
      p c s = (result, s₁) → q c ⟨s, depth⟩ = (result, ⟨s₁, depth⟩) →
        q' c ⟨s, depth⟩ = ((p' c s).1, ⟨(p' c s).2, depth⟩)) :
    Follows q' p' depth := by
  intro c s s' result hrun
  have hoperand := hsame c s (p c s).2 (p c s).1 rfl (h c s _ _ rfl)
  rwa [hrun] at hoperand

theorem Follows.opt (h : Follows q p depth) : Follows (opt q) (Matcher.opt p) depth := by
  refine h.of_outcome fun c s s₁ result hp hq => ?_
  rw [StackMatcher.opt, Matcher.opt, hp, hq]
  cases result <;> rfl

theorem Follows.text (h : Follows q p depth) : Follows (text q) (Matcher.text p) depth := by
  refine h.of_outcome fun c s s₁ result hp hq => ?_
  rw [StackMatcher.text, Matcher.text, hp, hq]
  cases result <;> rfl

theorem Follows.pick (h : Follows q p depth) (index : Nat) :
    Follows (pick index q) (Matcher.pick index p) depth := by
  refine h.of_outcome fun c s s₁ result hp hq => ?_
  rw [StackMatcher.pick, Matcher.pick, hp, hq]
  cases result <;> rfl

theorem Follows.label (h : Follows q p depth) (name : String) :
    Follows (label name q) (Matcher.label name p) depth := by
  refine h.of_outcome fun c s s₁ result hp hq => ?_
  rw [StackMatcher.label, Matcher.label, hp, hq]
  cases result <;> rfl

/-- Cutting the stack back puts back the labels, since the operand only added to them. -/
theorem Follows.lookahead (h : Follows q p depth) (hp : p.Tidy) (positive : Bool) :
    Follows (lookahead positive q) (Matcher.lookahead positive p) depth := by
  intro c s s' result hrun
  cases hoperand : p c { s with silent := s.silent + 1 } with
  | mk result₁ s₁ =>
      have hsilent := h c _ s₁ result₁ hoperand
      have hadds := hp.exists_labels hoperand
      obtain ⟨new, hlabels⟩ : ∃ new, s₁.labels = new ++ s.labels := hadds
      simp only [Matcher.lookahead, Matcher.dropLabels, Matcher.silently, hoperand] at hrun
      cases hrun
      simp only [StackMatcher.lookahead, hsilent, Machine.cut_mk hlabels]
      rfl

/-- An action runs on the stack as it is and gets what its operand added. -/
theorem Follows.action (h : Follows q p depth) (hp : p.Tidy) (act : ActionM ν (Value ν)) :
    Follows (action act q) (Matcher.action act p) depth := by
  intro c s s' result hrun
  cases hoperand : p c { s with labels := [] } with
  | mk result₁ s₁ =>
      have hstack := h c s _ result₁ (hp.of_no_labels hoperand)
      unfold Matcher.action at hrun
      rw [hoperand] at hrun
      rw [StackMatcher.action, hstack]
      have hlabels : (s₁.onTopOf s.labels).labels = s₁.labels ++ s.labels := rfl
      cases result₁ with
      | none =>
          cases hrun
          simp only [Machine.cut_mk hlabels]
          rfl
      | some found =>
          cases hrun
          simp only [Machine.cut_mk hlabels, Machine.above_mk hlabels]
          rfl

theorem Follows.repeatFrom (h : Follows q p depth) (bound : Nat) :
    ∀ (collected : List (Value ν)) (c : Cursor) (s s' : Session ρ ν)
      (ended : List (Value ν) × Cursor), Matcher.repeatFrom p bound collected c s = (ended, s') →
        repeatFrom q bound collected c ⟨s, depth⟩ = (ended, ⟨s', depth⟩) := by
  induction bound with
  | zero =>
      rintro collected c s s' ended ⟨⟩
      rfl
  | succ bound ih =>
      intro collected c s s' ended hrun
      unfold Matcher.repeatFrom at hrun
      cases hp : p c s with
      | mk result₁ s₁ =>
          rw [hp] at hrun
          rw [StackMatcher.repeatFrom, h c s s₁ result₁ hp]
          cases result₁ with
          | none =>
              cases hrun
              rfl
          | some found =>
              simp only at hrun ⊢
              split at hrun
              · rename_i hstays
                cases hrun
                rw [if_pos hstays]
              · rename_i hmoved
                rw [if_neg hmoved, ih _ _ _ _ _ hrun]

theorem Follows.star (h : Follows q p depth) (size : Nat) :
    Follows (star size q) (Matcher.star size p) depth := by
  intro c s s' result hrun
  unfold Matcher.star at hrun
  cases hloop : Matcher.repeatFrom p (size - c.offset + 1) [] c s with
  | mk ended s₁ =>
      rw [hloop] at hrun
      rw [StackMatcher.star, h.repeatFrom _ _ _ _ _ _ hloop]
      cases hrun
      rfl

theorem Follows.plus (h : Follows q p depth) (size : Nat) :
    Follows (plus size q) (Matcher.plus size p) depth := by
  intro c s s' result hrun
  unfold Matcher.plus at hrun
  cases hloop : Matcher.repeatFrom p (size - c.offset + 1) [] c s with
  | mk ended s₁ =>
      obtain ⟨values, stop⟩ := ended
      rw [hloop] at hrun
      rw [StackMatcher.plus, h.repeatFrom _ _ _ _ _ _ hloop]
      cases values <;> cases hrun <;> rfl

end StackMatcher

namespace Term

variable {call : ρ → Matcher ρ ν} {callInPlace : ρ → StackMatcher ρ ν} {depth : Nat}

mutual

/-- If the rules are matched in place as they are matched, so is every term. -/
theorem runInPlace_follows (htidy : ∀ r, (call r).Tidy)
    (hcall : ∀ r, (callInPlace r).Follows (call r) depth) (size : Nat) :
    ∀ t : Term ρ ν, StackMatcher.Follows (t.runInPlace size callInPlace) (t.run size call) depth
  | .literal word ignoreCase => by
      unfold runInPlace run
      exact StackMatcher.follows_leaf _ depth
  | .charIn k => by
      unfold runInPlace run
      exact StackMatcher.follows_leaf _ depth
  | .anyChar => by
      unfold runInPlace run
      exact StackMatcher.follows_leaf _ depth
  | .rule r => by
      unfold runInPlace run
      exact hcall r
  | .seq ts => by
      intro c s s' result hrun
      unfold run at hrun
      unfold runInPlace
      cases hts : runSeq size call ts c s with
      | mk reached s₁ =>
          obtain ⟨new, hlabels⟩ := exists_labels_of_runSeq htidy hts
          rw [hts] at hrun
          simp only [runSeqInPlace_follows htidy hcall size ts c s s₁ reached hts]
          cases reached with
          | none =>
              cases hrun
              simp only [Machine.cut_mk hlabels]
          | some reached =>
              cases hrun
              rfl
  | .choice ts => by
      unfold runInPlace run
      exact runChoiceInPlace_follows htidy hcall size ts
  | .star t => by
      unfold runInPlace run
      exact (runInPlace_follows htidy hcall size t).star size
  | .plus t => by
      unfold runInPlace run
      exact (runInPlace_follows htidy hcall size t).plus size
  | .opt t => by
      unfold runInPlace run
      exact (runInPlace_follows htidy hcall size t).opt
  | .not t => by
      unfold runInPlace run
      exact (runInPlace_follows htidy hcall size t).lookahead (run_tidy htidy size t) false
  | .and t => by
      unfold runInPlace run
      exact (runInPlace_follows htidy hcall size t).lookahead (run_tidy htidy size t) true
  | .label name t => by
      unfold runInPlace run
      exact (runInPlace_follows htidy hcall size t).label name
  | .action act t => by
      unfold runInPlace run
      exact (runInPlace_follows htidy hcall size t).action (run_tidy htidy size t) act
  | .text t => by
      unfold runInPlace run
      exact (runInPlace_follows htidy hcall size t).text
  | .pick index t => by
      unfold runInPlace run
      exact (runInPlace_follows htidy hcall size t).pick index

theorem runSeqInPlace_follows (htidy : ∀ r, (call r).Tidy)
    (hcall : ∀ r, (callInPlace r).Follows (call r) depth) (size : Nat) :
    ∀ (ts : List (Term ρ ν)) (c : Cursor) (s s' : Session ρ ν)
      (reached : Option (Cursor × List (Value ν))), runSeq size call ts c s = (reached, s') →
        runSeqInPlace size callInPlace ts c ⟨s, depth⟩ = (reached, ⟨s', depth⟩)
  | [], c, s, s', reached, hrun => by
      cases hrun
      rfl
  | t :: ts, c, s, s', reached, hrun => by
      unfold runSeq at hrun
      unfold runSeqInPlace
      cases ht : t.run size call c s with
      | mk result₁ s₁ =>
          rw [ht] at hrun
          simp only [runInPlace_follows htidy hcall size t c s s₁ result₁ ht]
          cases result₁ with
          | none =>
              cases hrun
              rfl
          | some found =>
              cases hts : runSeq size call ts found.stop s₁ with
              | mk reached₂ s₂ =>
                  simp only [hts] at hrun
                  have hrest :=
                    runSeqInPlace_follows htidy hcall size ts found.stop s₁ s₂ reached₂ hts
                  simp only [hrest]
                  cases reached₂ <;> cases hrun <;> rfl

theorem runChoiceInPlace_follows (htidy : ∀ r, (call r).Tidy)
    (hcall : ∀ r, (callInPlace r).Follows (call r) depth) (size : Nat) :
    ∀ ts : List (Term ρ ν), StackMatcher.Follows (runChoiceInPlace size callInPlace ts)
      (runChoice size call ts) depth
  | [] => by
      intro c s s' result hrun
      cases hrun
      rfl
  | t :: ts => by
      intro c s s' result hrun
      unfold runChoice at hrun
      unfold runChoiceInPlace
      cases ht : t.run size call c s with
      | mk result₁ s₁ =>
          rw [ht] at hrun
          simp only [runInPlace_follows htidy hcall size t c s s₁ result₁ ht]
          cases result₁ with
          | some found =>
              cases hrun
              rfl
          | none => exact runChoiceInPlace_follows htidy hcall size ts c s₁ s' result hrun

end

end Term

namespace Grammar

/-- The body of a rule in place: the start of the named rule around is put back even where the rule
has no name, since the body has put it back itself. -/
theorem runBodyInPlace_follows {call : ρ → Matcher ρ ν} {rule : Rule ρ ν} {size depth : Nat}
    {body : StackMatcher ρ ν} (htidy : Matcher.Tidy (rule.body.run size call))
    (h : body.Follows (rule.body.run size call) depth) :
    (runBodyInPlace rule body).Follows (runBody size call rule) depth := by
  intro c s s' result hrun
  rw [runBody_eq] at hrun
  cases hbody : rule.body.run size call c (s.openRule rule c) with
  | mk result₁ s₁ =>
      obtain ⟨hrestored, -⟩ := htidy c (s.openRule rule c)
      rw [hbody] at hrestored
      have hadds := htidy.exists_labels hbody
      obtain ⟨new, hlabels⟩ : ∃ new, s₁.labels = new ++ s.labels := hadds
      have hopened : body c ⟨s.openRule rule c, depth⟩ = (result₁, ⟨s₁, depth⟩) :=
        h c _ s₁ result₁ hbody
      have hnamed : (if rule.expect.isSome then s.namedStart else s₁.namedStart) =
          s.namedStart := by
        rw [hrestored.namedStart, Session.openRule]
        split <;> simp_all
      rw [hbody] at hrun
      cases hrun
      unfold Session.openRule at hopened
      simp only [runBodyInPlace, hopened, Machine.cut_mk hlabels, Session.closeRule, hnamed]
      cases rule.expect <;> cases result₁ <;> rfl

/-- A rule is matched in place as it is matched with the allowance that the active rules leave.  The
induction is on the fuel, which is more than that allowance. -/
theorem runRuleInPlace_follows (g : Grammar ρ ν) (settings : Settings) (size : Nat) {fuel : Nat} :
    ∀ depth : Nat, settings.maxDepth - depth < fuel → ∀ r,
      (g.runRuleInPlace settings size fuel r).Follows
        (g.runRule settings size (settings.maxDepth - depth) r) depth := by
  induction fuel with
  | zero =>
      intro depth hfuel
      omega
  | succ fuel ih =>
      intro depth hfuel r c s s' result hrun
      unfold runRuleInPlace
      cases hover : s.overflow with
      | some offset =>
          rw [runRule_of_overflow hover] at hrun
          cases hrun
          simp
      | none =>
          simp only [Option.isSome_none, Bool.false_eq_true, if_false]
          split
          case isTrue hlimit =>
            rw [Nat.sub_eq_zero_of_le hlimit, runRule_zero hover] at hrun
            cases hrun
            rfl
          case isFalse hbelow =>
            have hallowed : settings.maxDepth - depth = settings.maxDepth - (depth + 1) + 1 := by
              omega
            rw [hallowed] at hrun
            simp only [Machine.note, memoized?_reportEnter]
            cases hkept : s.memoized? settings.memoize r c.offset with
            | some kept =>
                rw [runRule_of_kept hover hkept] at hrun
                cases hrun
                rfl
            | none =>
                have hrules := ih (depth + 1) (by omega)
                have hbodies := runRule_tidy g settings size (settings.maxDepth - (depth + 1))
                have hfollows := runBodyInPlace_follows
                  (Term.run_tidy hbodies size (g.rule r).body)
                  (Term.runInPlace_follows hbodies hrules size (g.rule r).body)
                cases hbody : runBody size
                    (g.runRule settings size (settings.maxDepth - (depth + 1))) (g.rule r) c
                    ((s.reportEnter settings.traced r c).countMiss settings.memoize) with
                | mk result₁ s₁ =>
                    rw [runRule_of_new hover hkept hbody] at hrun
                    cases hrun
                    simp only [hfollows c _ s₁ result hbody]
                    rfl

/-- Matching in place is matching with the allowance that the active rules leave. -/
theorem evaluateInPlace_eq (g : Grammar ρ ν) (settings : Settings) (size : Nat) (t : Term ρ ν)
    (c : Cursor) (s : Session ρ ν) (depth : Nat) :
    g.evaluateInPlace settings size t c ⟨s, depth⟩ =
      ((t.run size (g.runRule settings size (settings.maxDepth - depth)) c s).1,
        ⟨(t.run size (g.runRule settings size (settings.maxDepth - depth)) c s).2, depth⟩) :=
  Term.runInPlace_follows (runRule_tidy g settings size _)
    (runRuleInPlace_follows g settings size depth (by omega)) size t c s _ _ rfl

end Grammar

/-! ## What matching leaves behind -/

/-- Terms whose match binds no labels, whatever their operands bind. -/
def Term.keepsLabels : Term ρ ν → Bool
  | .rule _ | .action _ _ | .not _ | .and _ => true
  | _ => false

theorem Term.leavesLabels_run {call : ρ → Matcher ρ ν} (hcall : ∀ r, (call r).LeavesLabels)
    (size : Nat) {t : Term ρ ν} (h : t.keepsLabels = true) :
    Matcher.LeavesLabels (t.run size call) := by
  cases t with
  | rule r =>
      unfold run
      exact hcall r
  | action act t =>
      unfold run
      exact Matcher.leavesLabels_action act _
  | not t =>
      unfold run
      exact Matcher.leavesLabels_lookahead false _
  | and t =>
      unfold run
      exact Matcher.leavesLabels_lookahead true _
  | _ => simp [keepsLabels] at h

/-- Matching a term in place does what matching it does and puts the working state back: the
silence, the start of the named rule around and the number of active rules always, the labels when
it fails.  A match only adds labels, and a rule, an action or a lookahead adds none. -/
theorem Grammar.evaluateInPlace_restores (g : Grammar ρ ν) (settings : Settings) (size : Nat)
    (t : Term ρ ν) (c : Cursor) (m : Machine ρ ν) :
    ∃ (result : Option (Match ν)) (m' : Machine ρ ν),
      g.evaluateInPlace settings size t c m = (result, m') ∧
      t.run size (g.runRule settings size (settings.maxDepth - m.depth)) c m.toSession =
        (result, m'.toSession) ∧
      m'.silent = m.silent ∧ m'.namedStart = m.namedStart ∧ m'.depth = m.depth ∧
      (result = none → m'.labels = m.labels) ∧
      ∃ new, m'.labels = new ++ m.labels ∧ (t.keepsLabels = true → new = []) := by
  obtain ⟨s, depth⟩ := m
  have htidy := Term.run_tidy (runRule_tidy g settings size (settings.maxDepth - depth)) size t
  have hplace := evaluateInPlace_eq g settings size t c s depth
  cases hrun : t.run size (g.runRule settings size (settings.maxDepth - depth)) c s with
  | mk result s' =>
      rw [hrun] at hplace
      obtain ⟨hrestored, -⟩ := htidy c s
      rw [hrun] at hrestored
      obtain ⟨new, hlabels⟩ := htidy.exists_labels hrun
      refine ⟨result, ⟨s', depth⟩, hplace, rfl, hrestored.silent, hrestored.namedStart, rfl,
        hrestored.labels, new, hlabels, fun hkeeps => ?_⟩
      have hsame := Term.leavesLabels_run
        (leavesLabels_runRule g settings size (settings.maxDepth - depth)) size hkeeps c s
      rw [hrun, hlabels] at hsame
      exact List.append_left_eq_self.1 hsame

end PegScript
