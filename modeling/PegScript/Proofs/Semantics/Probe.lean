import PegScript.Proofs.Semantics.Reading

/-!
# Probing a term with the first characters of a source

Often the next few characters decide what a term does, whatever comes after them.  `Grammar.probe`
runs a term on these characters and gives up where it would need to see more, or where an action
would have to be run.  What it finds holds of every source that starts with these characters
(`Grammar.probe_right`).
-/

namespace PegScript

variable {ρ ν : Type}

/-- What a term makes of the known characters: those it reads, those it leaves, and its value and
labels. -/
structure Known (ν : Type) where
  read : List Char
  rest : List Char
  value : Value ν
  labels : List (String × Value ν)

/-- What a probe finds: nothing certain, failure, or a reading. -/
inductive Finding (ν : Type) where
  | unsure
  | fails
  | reads (a : Known ν)

namespace Finding

/-- A reading of nothing. -/
def nothing (p : List Char) (v : Value ν) : Finding ν :=
  .reads ⟨[], p, v, []⟩

/-- Changes what is known of a reading. -/
def map (f : Known ν → Known ν) : Finding ν → Finding ν
  | .reads a => .reads (f a)
  | finding => finding

/-- Another finding in place of failure. -/
def orElse (finding later : Finding ν) : Finding ν :=
  match finding with
  | .fails => later
  | finding => finding

/-- A reading with more items behind it. -/
def andThen (finding : Finding ν) (next : List Char → Finding ν) : Finding ν :=
  match finding with
  | .reads a =>
    match next a.rest with
    | .reads ⟨read, rest, .list values, labels⟩ =>
      .reads ⟨a.read ++ read, rest, .list (a.value :: values), labels ++ a.labels⟩
    | .fails => .fails
    | _ => .unsure
  | finding => finding

/-- A reading that is known to take something. -/
def moving (finding : Finding ν) : Finding ν :=
  match finding with
  | .reads a => if a.read = [] then .unsure else .reads a
  | finding => finding

/-- The finding of a negative lookahead. -/
def negate (p : List Char) : Finding ν → Finding ν
  | .unsure => .unsure
  | .fails => nothing p .empty
  | .reads _ => .fails

/-- Failure is certain; a reading may still be rejected. -/
def guarded : Finding ν → Finding ν
  | .fails => .fails
  | _ => .unsure

/-- Whether the finding is failure. -/
def isFails : Finding ν → Bool
  | .fails => true
  | _ => false

/-- Whether the finding is a reading of `u` without labels that leaves `rest`. -/
def isReadingOf (u rest : List Char) : Finding ν → Bool
  | .reads a => a.read == u && a.rest == rest && a.labels.isEmpty
  | _ => false

end Finding

/-- Where the known characters end: more may follow, unless they are the end of the source. -/
def atEnd (ends : Bool) : Finding ν :=
  if ends then .fails else .unsure

/-- Compares a fixed text with the known characters, and gives those behind it. -/
def probeText (ends : Bool) (s : String) : List Char → List Char → Finding ν
  | [], p => .reads ⟨s.toList, p, .text s, []⟩
  | _ :: _, [] => atEnd ends
  | a :: cs, b :: p => if a = b then probeText ends s cs p else .fails

/-- Looks at the next of the known characters. -/
def probeChar (ends : Bool) (k : CharClass) : List Char → Finding ν
  | [] => atEnd ends
  | a :: p => if k.contains a then .reads ⟨[a], p, .text (String.singleton a), []⟩ else .fails

/-- Compares the first character of a fixed text whatever its case. -/
def probeAnyCase (ends : Bool) : List Char → List Char → Finding ν
  | a :: _, b :: _ => if a.toLower = b.toLower then .unsure else .fails
  | _ :: _, [] => atEnd ends
  | [], _ => .unsure

/-- Runs a term on the known characters, `fuel` steps deep.  With `ends` they are the end of the
source. -/
def Grammar.probe (g : Grammar ρ ν) (ends : Bool) : Nat → Term ρ ν → List Char → Finding ν
  | 0, _, _ => .unsure
  | fuel + 1, t, p =>
    match t with
    | .literal s false => probeText ends s s.toList p
    | .literal s true => probeAnyCase ends s.toList p
    | .charIn k => probeChar ends k p
    | .rule r => (probe g ends fuel (g.rule r).body p).map fun a => { a with labels := [] }
    | .seq [] => .nothing p (.list [])
    | .seq (t :: ts) => (probe g ends fuel t p).andThen (probe g ends fuel (.seq ts))
    | .choice [] => .fails
    | .choice (t :: ts) => (probe g ends fuel t p).orElse (probe g ends fuel (.choice ts) p)
    | .star t =>
      match (probe g ends fuel t p).moving with
      | .fails => .nothing p (.list [])
      | finding => (finding.andThen (probe g ends fuel (.star t)))
    | .opt t => (probe g ends fuel t p).orElse (.nothing p .absent)
    | .not t => (probe g ends fuel t p).negate p
    | .label name t =>
      (probe g ends fuel t p).map fun a =>
        { a with value := .empty, labels := (name, a.value) :: a.labels }
    | .text t =>
      (probe g ends fuel t p).map fun a => { a with value := .text (String.ofList a.read) }
    | .pick index t =>
      (probe g ends fuel t p).map fun a => { a with value := a.value.pick index }
    | .action _ t => (probe g ends fuel t p).guarded
    | _ => .unsure

/-! ## Findings are right -/

/-- A finding about the known characters `p` that is right if `k` follows them. -/
def Finding.Right (g : Grammar ρ ν) (t : Term ρ ν) (p k : List Char) : Finding ν → Prop
  | .unsure => True
  | .fails => Refuses g t (p ++ k)
  | .reads a => p = a.read ++ a.rest ∧ Reads g t a.read (a.rest ++ k) a.value a.labels

namespace Finding

variable {g : Grammar ρ ν} {t u : Term ρ ν} {ts : List (Term ρ ν)} {p k : List Char}
  {finding : Finding ν} {ends : Bool}

theorem right_atEnd (hk : ends = true → Refuses g t k) :
    (atEnd ends).Right g t [] k := by
  cases ends with
  | false => trivial
  | true => exact hk rfl

theorem right_nothing {v : Value ν} (h : Reads g t [] (p ++ k) v []) :
    (nothing p v).Right g t p k :=
  ⟨rfl, h⟩

/-- A term around another one that fails with it and reads what it reads. -/
theorem Right.map {f : Known ν → Known ν} (h : finding.Right g t p k)
    (hread : ∀ a, (f a).read = a.read) (hrest : ∀ a, (f a).rest = a.rest)
    (hfails : Refuses g t (p ++ k) → Refuses g u (p ++ k))
    (hreads : ∀ a, Reads g t a.read (a.rest ++ k) a.value a.labels →
      Reads g u a.read (a.rest ++ k) (f a).value (f a).labels) :
    (finding.map f).Right g u p k := by
  cases finding with
  | unsure => trivial
  | fails => exact hfails h
  | reads a =>
      obtain ⟨hp, ha⟩ := h
      refine ⟨?_, ?_⟩
      · rw [hread, hrest]
        exact hp
      · rw [hread, hrest]
        exact hreads a ha

theorem Right.orElse {later : Finding ν} (h : finding.Right g t p k)
    (hlater : Refuses g t (p ++ k) → later.Right g u p k)
    (hreads : ∀ a : Known ν, p = a.read ++ a.rest →
      Reads g t a.read (a.rest ++ k) a.value a.labels →
      Reads g u a.read (a.rest ++ k) a.value a.labels) :
    (finding.orElse later).Right g u p k := by
  cases finding with
  | unsure => trivial
  | fails => exact hlater h
  | reads a => exact ⟨h.1, hreads a h.1 h.2⟩

/-- An alternative that fails leaves the choice to the later ones. -/
theorem Right.choice_later (h : finding.Right g (.choice ts) p k) (hfirst : Refuses g t (p ++ k)) :
    finding.Right g (.choice (t :: ts)) p k := by
  cases finding with
  | unsure => trivial
  | fails => exact hfirst.choice_cons h
  | reads a =>
      obtain ⟨rfl, ha⟩ := h
      rw [List.append_assoc] at hfirst
      exact ⟨rfl, ha.choice_later hfirst⟩

theorem Right.moving (h : finding.Right g t p k) : finding.moving.Right g t p k := by
  cases finding with
  | unsure => trivial
  | fails => exact h
  | reads a =>
      rw [Finding.moving]
      split
      · trivial
      · exact h

theorem read_ne_nil_of_moving {a : Known ν} (h : finding.moving = .reads a) : a.read ≠ [] := by
  cases finding with
  | unsure => cases h
  | fails => cases h
  | reads b =>
      rw [Finding.moving] at h
      split at h
      · cases h
      case isFalse hne =>
        cases h
        exact hne

theorem Right.negate (h : finding.Right g t p k) : (finding.negate p).Right g (.not t) p k := by
  cases finding with
  | unsure => trivial
  | fails => exact right_nothing (Refuses.not h)
  | reads a =>
      obtain ⟨rfl, ha⟩ := h
      have hnot := ha.not
      rw [← List.append_assoc] at hnot
      exact hnot

/-- A reading and then the rest of a sequence or of a repetition, `u` being the two together. -/
theorem Right.andThen {next : List Char → Finding ν} {ts : Term ρ ν}
    (h : finding.Right g t p k)
    (hnext : ∀ rest, (next rest).Right g ts rest k)
    (hfails : finding = .fails → Refuses g t (p ++ k) → Refuses g u (p ++ k))
    (hlater : ∀ a : Known ν, finding = .reads a → Reads g t a.read (a.rest ++ k) a.value a.labels →
      Refuses g ts (a.rest ++ k) → Refuses g u (a.read ++ (a.rest ++ k)))
    (hreads : ∀ (a : Known ν) (read rest : List Char) (values : List (Value ν))
      (labels : List (String × Value ν)), finding = .reads a →
      Reads g t a.read (read ++ (rest ++ k)) a.value a.labels →
      Reads g ts read (rest ++ k) (.list values) labels →
      Reads g u (a.read ++ read) (rest ++ k) (.list (a.value :: values)) (labels ++ a.labels)) :
    (finding.andThen next).Right g u p k := by
  cases finding with
  | unsure => trivial
  | fails => exact hfails rfl h
  | reads a =>
      obtain ⟨rfl, ha⟩ := h
      have htail := hnext a.rest
      unfold andThen
      dsimp only
      split
      case h_1 read rest values labels hfound =>
        rw [hfound] at htail
        obtain ⟨hrest, htail⟩ := htail
        dsimp only at hrest htail
        rw [hrest, List.append_assoc] at ha
        refine ⟨?_, hreads a read rest values labels rfl ha htail⟩
        rw [hrest, List.append_assoc]
      case h_2 hfound =>
        rw [hfound] at htail
        have hrefuses := hlater a rfl ha htail
        rw [← List.append_assoc] at hrefuses
        exact hrefuses
      case h_3 => trivial

theorem Right.guarded {act : ActionM ν (Value ν)} (h : finding.Right g t p k) :
    finding.guarded.Right g (.action act t) p k := by
  cases finding with
  | unsure => trivial
  | fails => exact Refuses.action h
  | reads a => trivial

end Finding

variable {g : Grammar ρ ν} {ends : Bool} {k : List Char}

theorem probeText_right (hk : ends = true → k = []) {s : String} {before cs p : List Char}
    (hs : s.toList = before ++ cs) :
    (probeText (ν := ν) ends s cs p).Right g (.lit s) (before ++ p) k := by
  induction cs generalizing before p with
  | nil =>
      rw [List.append_nil] at hs
      refine ⟨by rw [hs], ?_⟩
      exact reads_lit s
  | cons a cs ih =>
      cases p with
      | nil =>
          rw [List.append_nil]
          cases ends with
          | false => trivial
          | true =>
              rw [probeText, atEnd, if_pos rfl, Finding.Right, hk rfl, List.append_nil]
              apply refuses_lit
              rw [hs]
              intro hlong
              have hlength := hlong.length_le
              simp only [List.length_append, List.length_cons] at hlength
              omega
      | cons b p =>
          rw [probeText]
          split
          case isTrue hab =>
            have hsplit : s.toList = (before ++ [a]) ++ cs := by simp [hs]
            have hrest := ih (p := p) hsplit
            rw [hab, List.append_assoc] at hrest
            exact hrest
          case isFalse hab =>
            refine refuses_lit ?_
            rw [hs, List.append_assoc, List.prefix_append_right_inj]
            intro hpre
            exact hab (List.cons_prefix_cons.mp hpre).1

theorem probeChar_right (hk : ends = true → k = []) {c : CharClass} {p : List Char} :
    (probeChar (ν := ν) ends c p).Right g (.charIn c) p k := by
  cases p with
  | nil =>
      refine Finding.right_atEnd fun hends => refuses_charIn ?_
      rw [hk hends]
      simp
  | cons a p =>
      rw [probeChar]
      split
      case isTrue hmem => exact ⟨rfl, reads_charIn hmem⟩
      case isFalse hmem =>
        refine refuses_charIn ?_
        simpa using hmem

theorem probeAnyCase_right (hk : ends = true → k = []) {s : String} {p : List Char} :
    (probeAnyCase (ν := ν) ends s.toList p).Right g (.litAnyCase s) p k := by
  cases hs : s.toList with
  | nil => trivial
  | cons a cs =>
      cases p with
      | nil =>
          refine Finding.right_atEnd fun hends => refuses_litAnyCase hs ?_
          rw [hk hends]
          simp
      | cons b p =>
          rw [probeAnyCase]
          split
          case isTrue => trivial
          case isFalse hab =>
            refine refuses_litAnyCase hs ?_
            simpa using hab

/-- What a probe finds holds whatever follows the known characters, or at the end of the source if
nothing does. -/
theorem Grammar.probe_right (hk : ends = true → k = []) (fuel : Nat) (t : Term ρ ν)
    (p : List Char) : (g.probe ends fuel t p).Right g t p k := by
  induction fuel generalizing t p with
  | zero => trivial
  | succ fuel ih =>
      cases t with
      | literal s ignoreCase =>
          cases ignoreCase with
          | false =>
              have hs : s.toList = [] ++ s.toList := rfl
              exact probeText_right hk hs
          | true => exact probeAnyCase_right hk
      | charIn c => exact probeChar_right hk
      | rule r =>
          exact (ih (g.rule r).body p).map (fun _ => rfl) (fun _ => rfl)
            Refuses.rule (fun _ h => h.rule)
      | seq ts =>
          cases ts with
          | nil => exact Finding.right_nothing reads_seq_nil
          | cons t ts =>
              exact (ih t p).andThen (ih (.seq ts)) (fun _ h => h.seq_head)
                (fun _ _ hhead htail => Refuses.seq_tail hhead htail)
                (fun _ _ _ _ _ _ hhead htail => hhead.seq_cons htail)
      | choice ts =>
          cases ts with
          | nil => exact refuses_choice (by simp)
          | cons t ts =>
              exact (ih t p).orElse (fun h => (ih (.choice ts) p).choice_later h)
                (fun _ _ h => h.choice_here)
      | star t =>
          have hfirst := (ih t p).moving
          rw [probe]
          split
          case h_1 hfound =>
            rw [hfound] at hfirst
            exact Finding.right_nothing (Refuses.star hfirst)
          case h_2 hfound =>
            refine hfirst.andThen (ih (.star t)) (fun h _ => absurd h hfound) ?_ ?_
            · intro a ha hhead htail
              exact Refuses.star_tail hhead (Finding.read_ne_nil_of_moving ha) htail
            · intro a read rest values labels ha hhead htail
              exact hhead.star_cons (Finding.read_ne_nil_of_moving ha) htail
      | opt t =>
          exact (ih t p).orElse (fun h => Finding.right_nothing h.opt) (fun _ _ h => h.opt)
      | not t => exact (ih t p).negate
      | label name t =>
          exact (ih t p).map (fun _ => rfl) (fun _ => rfl) Refuses.label (fun _ h => h.label name)
      | text t =>
          exact (ih t p).map (fun _ => rfl) (fun _ => rfl) Refuses.text (fun _ h => h.text)
      | pick index t =>
          exact (ih t p).map (fun _ => rfl) (fun _ => rfl) Refuses.pick (fun _ h => h.pick index)
      | action act t => exact (ih t p).guarded
      | anyChar => trivial
      | plus t => trivial
      | and t => trivial

/-- A term that is found to fail on the known characters fails whatever follows them. -/
theorem refuses_of_probe {t : Term ρ ν} {p : List Char} {fuel : Nat}
    (hk : ends = true → k = []) (h : (g.probe ends fuel t p).isFails = true) :
    Refuses g t (p ++ k) := by
  have hright := g.probe_right hk fuel t p
  cases hfinding : g.probe ends fuel t p with
  | fails =>
      rw [hfinding] at hright
      exact hright
  | unsure => simp [hfinding, Finding.isFails] at h
  | reads a => simp [hfinding, Finding.isFails] at h

/-- A term that is found to read some of the known characters reads them whatever follows. -/
theorem reads_of_probe {t : Term ρ ν} {p u rest : List Char} {fuel : Nat}
    (hk : ends = true → k = []) (h : (g.probe ends fuel t p).isReadingOf u rest = true) :
    ∃ v, Reads g t u (rest ++ k) v [] := by
  have hright := g.probe_right hk fuel t p
  cases hfinding : g.probe ends fuel t p with
  | reads a =>
      rw [hfinding] at hright h
      simp only [Finding.isReadingOf, Bool.and_eq_true, beq_iff_eq, List.isEmpty_iff] at h
      obtain ⟨⟨rfl, rfl⟩, hlabels⟩ := h
      have hreads := hright.2
      rw [hlabels] at hreads
      exact ⟨a.value, hreads⟩
  | unsure => simp [hfinding, Finding.isReadingOf] at h
  | fails => simp [hfinding, Finding.isReadingOf] at h

end PegScript
