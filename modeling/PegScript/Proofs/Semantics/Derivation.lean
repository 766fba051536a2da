import PegScript.Grammar.Basic
import PegScript.Proofs.Text.Places

/-!
# What a grammar derives

The meaning of a grammar as a system of rules: a term at a place either derives a reading or derives
failure.  A reading says where the term stops, which value it has and which labels it binds for the
action around it.  There is no stack of labels, no count of active rules and no table here.

Labels travel with the reading that binds them.  A failed alternative has no reading, so its labels
go nowhere; a lookahead, an action and a rule have readings without labels.  Hence an action sees
the labels bound on the successful path of its own term and no others.

The rules are functional (`Derives.functional`), and a reading never ends before it starts
(`Derives.reaches`).
-/

namespace PegScript

variable {ρ ν : Type}

/-- What a term makes of the source at a place: where it stops, its value, and the labels it binds
for the action around it, the latest first. -/
structure Reading (ν : Type) where
  stop : Cursor
  value : Value ν
  labels : List (String × Value ν)

/-- `Derives g t c (some m)`: the term `t` reads `m` at the place `c`.  `Derives g t c none`: the
term fails there. -/
inductive Derives (g : Grammar ρ ν) :
    Term ρ ν → Cursor → Option (Reading ν) → Prop where
  | literal {text : String} {ignoreCase : Bool} {c stop : Cursor}
      (h : c.skipLiteral? text ignoreCase = some stop) :
      Derives g (.literal text ignoreCase) c
        (some ⟨stop, .text (c.textTo stop), []⟩)
  | literalFail {text : String} {ignoreCase : Bool} {c : Cursor}
      (h : c.skipLiteral? text ignoreCase = none) :
      Derives g (.literal text ignoreCase) c none
  | charIn {k : CharClass} {c stop : Cursor} {a : Char}
      (hnext : c.next? = some (a, stop)) (hmem : k.contains a = true) :
      Derives g (.charIn k) c (some ⟨stop, .text (String.singleton a), []⟩)
  | charInOther {k : CharClass} {c stop : Cursor} {a : Char}
      (hnext : c.next? = some (a, stop)) (hmem : k.contains a = false) :
      Derives g (.charIn k) c none
  | charInEnd {k : CharClass} {c : Cursor} (hnext : c.next? = none) :
      Derives g (.charIn k) c none
  | anyChar {c stop : Cursor} {a : Char} (hnext : c.next? = some (a, stop)) :
      Derives g .anyChar c (some ⟨stop, .text (String.singleton a), []⟩)
  | anyCharEnd {c : Cursor} (hnext : c.next? = none) :
      Derives g .anyChar c none
  /-- A rule reads what its body reads; its labels stay inside. -/
  | rule {r : ρ} {c : Cursor} {m : Reading ν}
      (h : Derives g (g.rule r).body c (some m)) :
      Derives g (.rule r) c (some ⟨m.stop, m.value, []⟩)
  | ruleFail {r : ρ} {c : Cursor} (h : Derives g (g.rule r).body c none) :
      Derives g (.rule r) c none
  | seqNil {c : Cursor} : Derives g (.seq []) c (some ⟨c, .list [], []⟩)
  | seqCons {t : Term ρ ν} {ts : List (Term ρ ν)} {c stop : Cursor}
      {m : Reading ν} {values : List (Value ν)}
      {labels : List (String × Value ν)}
      (hhead : Derives g t c (some m))
      (htail : Derives g (.seq ts) m.stop (some ⟨stop, .list values, labels⟩)) :
      Derives g (.seq (t :: ts)) c
        (some ⟨stop, .list (m.value :: values), labels ++ m.labels⟩)
  | seqFail {t : Term ρ ν} {ts : List (Term ρ ν)} {c : Cursor}
      (hhead : Derives g t c none) :
      Derives g (.seq (t :: ts)) c none
  | seqTailFail {t : Term ρ ν} {ts : List (Term ρ ν)} {c : Cursor} {m : Reading ν}
      (hhead : Derives g t c (some m))
      (htail : Derives g (.seq ts) m.stop none) :
      Derives g (.seq (t :: ts)) c none
  | choiceNil {c : Cursor} : Derives g (.choice []) c none
  /-- The first alternative that has a reading gives it to the choice. -/
  | choiceHere {t : Term ρ ν} {ts : List (Term ρ ν)} {c : Cursor} {m : Reading ν}
      (h : Derives g t c (some m)) :
      Derives g (.choice (t :: ts)) c (some m)
  | choiceLater {t : Term ρ ν} {ts : List (Term ρ ν)} {c : Cursor}
      {d : Option (Reading ν)}
      (hfail : Derives g t c none) (h : Derives g (.choice ts) c d) :
      Derives g (.choice (t :: ts)) c d
  /-- A repetition ends where its term fails. -/
  | starStop {t : Term ρ ν} {c : Cursor} (h : Derives g t c none) :
      Derives g (.star t) c (some ⟨c, .list [], []⟩)
  /-- It also ends after a reading that takes no input, whose value it keeps. -/
  | starEmpty {t : Term ρ ν} {c : Cursor} {value : Value ν}
      {labels : List (String × Value ν)}
      (h : Derives g t c (some ⟨c, value, labels⟩)) :
      Derives g (.star t) c (some ⟨c, .list [value], labels⟩)
  | starMore {t : Term ρ ν} {c stop : Cursor} {m : Reading ν}
      {values : List (Value ν)} {labels : List (String × Value ν)}
      (h : Derives g t c (some m)) (hmoved : m.stop ≠ c)
      (hrest : Derives g (.star t) m.stop (some ⟨stop, .list values, labels⟩)) :
      Derives g (.star t) c
        (some ⟨stop, .list (m.value :: values), labels ++ m.labels⟩)
  /-- One or more: the repetition, unless it has no item. -/
  | plus {t : Term ρ ν} {c stop : Cursor} {value : Value ν}
      {values : List (Value ν)} {labels : List (String × Value ν)}
      (h : Derives g (.star t) c (some ⟨stop, .list (value :: values), labels⟩)) :
      Derives g (.plus t) c (some ⟨stop, .list (value :: values), labels⟩)
  | plusFail {t : Term ρ ν} {c : Cursor} (h : Derives g t c none) :
      Derives g (.plus t) c none
  | opt {t : Term ρ ν} {c : Cursor} {m : Reading ν}
      (h : Derives g t c (some m)) :
      Derives g (.opt t) c (some m)
  | optAbsent {t : Term ρ ν} {c : Cursor} (h : Derives g t c none) :
      Derives g (.opt t) c (some ⟨c, .absent, []⟩)
  /-- A lookahead stays where it is and keeps no labels. -/
  | not {t : Term ρ ν} {c : Cursor} (h : Derives g t c none) :
      Derives g (.not t) c (some ⟨c, .empty, []⟩)
  | notFail {t : Term ρ ν} {c : Cursor} {m : Reading ν}
      (h : Derives g t c (some m)) :
      Derives g (.not t) c none
  | and {t : Term ρ ν} {c : Cursor} {m : Reading ν}
      (h : Derives g t c (some m)) :
      Derives g (.and t) c (some ⟨c, .empty, []⟩)
  | andFail {t : Term ρ ν} {c : Cursor} (h : Derives g t c none) :
      Derives g (.and t) c none
  | label {name : String} {t : Term ρ ν} {c : Cursor} {m : Reading ν}
      (h : Derives g t c (some m)) :
      Derives g (.label name t) c
        (some ⟨m.stop, .empty, (name, m.value) :: m.labels⟩)
  | labelFail {name : String} {t : Term ρ ν} {c : Cursor}
      (h : Derives g t c none) :
      Derives g (.label name t) c none
  /-- An action sees the labels of the reading of its own term, and passes none on. -/
  | action {act : ActionM ν (Value ν)} {t : Term ρ ν} {c : Cursor} {m : Reading ν}
      {value : Value ν} {left : ActionInput ν}
      (h : Derives g t c (some m))
      (hact : act ⟨m.labels, m.value, c, m.stop⟩ = some (value, left)) :
      Derives g (.action act t) c (some ⟨m.stop, value, []⟩)
  | actionReject {act : ActionM ν (Value ν)} {t : Term ρ ν} {c : Cursor}
      {m : Reading ν} (h : Derives g t c (some m))
      (hact : act ⟨m.labels, m.value, c, m.stop⟩ = none) :
      Derives g (.action act t) c none
  | actionFail {act : ActionM ν (Value ν)} {t : Term ρ ν} {c : Cursor}
      (h : Derives g t c none) :
      Derives g (.action act t) c none
  | text {t : Term ρ ν} {c : Cursor} {m : Reading ν}
      (h : Derives g t c (some m)) :
      Derives g (.text t) c (some ⟨m.stop, .text (c.textTo m.stop), m.labels⟩)
  | textFail {t : Term ρ ν} {c : Cursor} (h : Derives g t c none) :
      Derives g (.text t) c none
  | pick {index : Nat} {t : Term ρ ν} {c : Cursor} {m : Reading ν}
      (h : Derives g t c (some m)) :
      Derives g (.pick index t) c
        (some ⟨m.stop, m.value.pick index, m.labels⟩)
  | pickFail {index : Nat} {t : Term ρ ν} {c : Cursor}
      (h : Derives g t c none) :
      Derives g (.pick index t) c none

namespace Derives

variable {g : Grammar ρ ν}

/-- A term derives at most one outcome at a place. -/
theorem functional {t : Term ρ ν} {c : Cursor} {d d' : Option (Reading ν)}
    (h : Derives g t c d) (h' : Derives g t c d') : d = d' := by
  induction h generalizing d' with
  | seqCons hhead htail ihhead ihtail =>
      cases h' with
      | seqCons hhead' htail' =>
          cases ihhead hhead'
          cases ihtail htail'
          rfl
      | seqFail hhead' => cases ihhead hhead'
      | seqTailFail hhead' htail' =>
          cases ihhead hhead'
          cases ihtail htail'
  | seqFail hhead ihhead =>
      cases h' with
      | seqCons hhead' htail' => cases ihhead hhead'
      | seqFail hhead' => rfl
      | seqTailFail hhead' htail' => rfl
  | seqTailFail hhead htail ihhead ihtail =>
      cases h' with
      | seqCons hhead' htail' =>
          cases ihhead hhead'
          cases ihtail htail'
      | seqFail hhead' => rfl
      | seqTailFail hhead' htail' => rfl
  | choiceHere h ih =>
      cases h' with
      | choiceHere hm => exact ih hm
      | choiceLater hfail' hd => cases ih hfail'
  | choiceLater hfail h ihfail ih =>
      cases h' with
      | choiceHere hm => cases ihfail hm
      | choiceLater hfail' hd => exact ih hd
  | starStop h ih =>
      cases h' with
      | starStop h' => rfl
      | starEmpty h' => cases ih h'
      | starMore h' hmoved hrest => cases ih h'
  | starEmpty h ih =>
      cases h' with
      | starStop h' => cases ih h'
      | starEmpty h' =>
          cases ih h'
          rfl
      | starMore h' hmoved hrest =>
          cases ih h'
          exact absurd rfl hmoved
  | starMore h hmoved hrest ih ihrest =>
      cases h' with
      | starStop h' => cases ih h'
      | starEmpty h' =>
          cases ih h'
          exact absurd rfl hmoved
      | starMore h' hmoved' hrest' =>
          cases ih h'
          cases ihrest hrest'
          rfl
  | plus h ih =>
      cases h' with
      | plus h' => exact ih h'
      | plusFail h' => cases ih (starStop h')
  | plusFail h ih =>
      cases h' with
      | plus h' =>
          cases h' with
          | starEmpty h' => cases ih h'
          | starMore h' hmoved hrest => cases ih h'
      | plusFail h' => rfl
  | action h hact ih =>
      cases h' with
      | action h' hact' =>
          cases ih h'
          rw [hact] at hact'
          cases hact'
          rfl
      | actionReject h' hact' =>
          cases ih h'
          rw [hact] at hact'
          cases hact'
      | actionFail h' => cases ih h'
  | actionReject h hact ih =>
      cases h' with
      | action h' hact' =>
          cases ih h'
          rw [hact] at hact'
          cases hact'
      | actionReject h' hact' => rfl
      | actionFail h' => rfl
  | _ => cases h' <;> grind

/-- A reading starts before it stops. -/
theorem reaches_of_eq_some {t : Term ρ ν} {c : Cursor}
    {d : Option (Reading ν)} (h : Derives g t c d) :
    ∀ m, d = some m → c.Reaches m.stop := by
  induction h with
  | literal h =>
      rintro m ⟨⟩
      exact Cursor.reaches_of_skipLiteral? h
  | charIn hnext hmem =>
      rintro m ⟨⟩
      exact Cursor.reaches_of_next? hnext
  | anyChar hnext =>
      rintro m ⟨⟩
      exact Cursor.reaches_of_next? hnext
  | seqCons hhead htail ihhead ihtail =>
      rintro m ⟨⟩
      have hfirst := ihhead _ rfl
      have hlast := ihtail _ rfl
      exact hfirst.trans hlast
  | starMore h hmoved hrest ih ihrest =>
      rintro m ⟨⟩
      have hfirst := ih _ rfl
      have hlast := ihrest _ rfl
      exact hfirst.trans hlast
  | choiceLater hfail h ihfail ih => exact ih
  | seqNil | starStop h | starEmpty h | optAbsent h | not h | and h =>
      rintro m ⟨⟩
      exact Cursor.Reaches.refl _
  | rule h ih | choiceHere h ih | plus h ih | opt h ih | label h ih
  | action h hact ih | text h ih | pick h ih =>
      rintro m ⟨⟩
      have hstop := ih _ rfl
      exact hstop
  | _ =>
      rintro m ⟨⟩

theorem reaches {t : Term ρ ν} {c : Cursor} {m : Reading ν}
    (h : Derives g t c (some m)) : c.Reaches m.stop :=
  h.reaches_of_eq_some m rfl

/-- A choice fails where all of its terms fail. -/
theorem choice_none_iff {ts : List (Term ρ ν)} {c : Cursor} :
    Derives g (.choice ts) c none ↔ ∀ t ∈ ts, Derives g t c none := by
  induction ts with
  | nil => simpa using Derives.choiceNil
  | cons t ts ih =>
      rw [List.forall_mem_cons, ← ih]
      constructor
      · intro h
        cases h with
        | choiceLater hfail h => exact ⟨hfail, h⟩
      · rintro ⟨hfail, h⟩
        exact .choiceLater hfail h

/-- A sequence is read part by part. -/
theorem seq_cons_some {t : Term ρ ν} {ts : List (Term ρ ν)} {c : Cursor} {m : Reading ν}
    (h : Derives g (.seq (t :: ts)) c (some m)) :
    ∃ first more, Derives g t c (some first) ∧ Derives g (.seq ts) first.stop (some more) ∧
      m.stop = more.stop ∧ m.labels = more.labels ++ first.labels := by
  cases h with
  | seqCons hhead htail => exact ⟨_, _, hhead, htail, rfl, rfl⟩

/-! ## Fixed texts and single characters -/

theorem lit_some_iff {text : String} {c : Cursor} {m : Reading ν} :
    Derives g (.lit text) c (some m) ↔
      ∃ rest, c.rest = text.toList ++ rest ∧
        m = ⟨⟨c.offset + byteLength text.toList, rest⟩, .text text, []⟩ := by
  constructor
  · intro h
    cases h with
    | @literal _ _ _ stop h =>
        obtain ⟨hrest, hoffset⟩ := Cursor.skipLiteral?_eq_some_iff.mp h
        refine ⟨stop.rest, hrest, ?_⟩
        rw [Cursor.textTo_eq_ofList hrest hoffset, String.ofList_toList, ← hoffset]
  · rintro ⟨rest, hrest, rfl⟩
    have hread : Derives g (.lit text) c
        (some ⟨⟨c.offset + byteLength text.toList, rest⟩, .text (c.textTo ⟨_, rest⟩), []⟩) :=
      .literal (Cursor.skipLiteral?_eq_some_iff.mpr ⟨hrest, rfl⟩)
    rwa [Cursor.textTo_eq_ofList hrest rfl, String.ofList_toList] at hread

theorem lit_none_iff {text : String} {c : Cursor} :
    Derives g (.lit text) c none ↔ ¬ text.toList <+: c.rest := by
  constructor
  · intro h
    cases h with
    | literalFail h => exact Cursor.skipLiteral?_eq_none_iff.mp h
  · intro h
    exact .literalFail (Cursor.skipLiteral?_eq_none_iff.mpr h)

/-- A sequence that ends with a fixed text stops behind it. -/
theorem rest_of_seq_lit (ts : List (Term ρ ν)) {text : String} {c : Cursor} {m : Reading ν}
    (h : Derives g (.seq (ts ++ [.lit text])) c (some m)) :
    ∃ before, c.rest = before ++ (text.toList ++ m.stop.rest) := by
  induction ts generalizing c m with
  | nil =>
      cases h with
      | seqCons hhead htail =>
          obtain ⟨rest, hrest, rfl⟩ := lit_some_iff.mp hhead
          cases htail
          exact ⟨[], hrest⟩
  | cons t ts ih =>
      cases h with
      | seqCons hhead htail =>
          obtain ⟨cs, hcs, -⟩ := hhead.reaches
          obtain ⟨before, hbefore⟩ := ih htail
          refine ⟨cs ++ before, ?_⟩
          rw [hcs, hbefore, List.append_assoc]

theorem anyChar_some_iff {c : Cursor} {m : Reading ν} :
    Derives g .anyChar c (some m) ↔
      ∃ a rest, c.rest = a :: rest ∧
        m = ⟨⟨c.offset + a.utf8Size, rest⟩, .text (String.singleton a), []⟩ := by
  constructor
  · intro h
    cases h with
    | @anyChar _ stop a hnext =>
        obtain ⟨hrest, hoffset⟩ := Cursor.next?_eq_some_iff.mp hnext
        exact ⟨a, stop.rest, hrest, by rw [← hoffset]⟩
  · rintro ⟨a, rest, hrest, rfl⟩
    exact .anyChar (Cursor.next?_eq_some_iff.mpr ⟨hrest, rfl⟩)

theorem charIn_some_iff {k : CharClass} {c : Cursor} {m : Reading ν} :
    Derives g (.charIn k) c (some m) ↔
      ∃ a rest, c.rest = a :: rest ∧ k.contains a = true ∧
        m = ⟨⟨c.offset + a.utf8Size, rest⟩, .text (String.singleton a), []⟩ := by
  constructor
  · intro h
    cases h with
    | @charIn _ _ stop a hnext hmem =>
        obtain ⟨hrest, hoffset⟩ := Cursor.next?_eq_some_iff.mp hnext
        exact ⟨a, stop.rest, hrest, hmem, by rw [← hoffset]⟩
  · rintro ⟨a, rest, hrest, hmem, rfl⟩
    exact .charIn (Cursor.next?_eq_some_iff.mpr ⟨hrest, rfl⟩) hmem

end Derives

/-! ## Repetitions -/

/-- The rounds of a repetition from one place to another, with their values and labels.  The last
round fails or takes no input. -/
inductive Rounds (g : Grammar ρ ν) (t : Term ρ ν) :
    Cursor → Cursor → List (Value ν) → List (String × Value ν) → Prop where
  | stop {c : Cursor} (h : Derives g t c none) : Rounds g t c c [] []
  | empty {c : Cursor} {value : Value ν} {labels : List (String × Value ν)}
      (h : Derives g t c (some ⟨c, value, labels⟩)) :
      Rounds g t c c [value] labels
  | more {c stop : Cursor} {m : Reading ν} {values : List (Value ν)}
      {labels : List (String × Value ν)}
      (h : Derives g t c (some m)) (hmoved : m.stop ≠ c)
      (hrest : Rounds g t m.stop stop values labels) :
      Rounds g t c stop (m.value :: values) (labels ++ m.labels)

/-- A reading of a repetition is made of its rounds.  The induction is on the derivation. -/
theorem Derives.rounds {g : Grammar ρ ν} {t : Term ρ ν} {c stop : Cursor}
    {value : Value ν} {labels : List (String × Value ν)}
    (h : Derives g (.star t) c (some ⟨stop, value, labels⟩)) :
    ∃ values, value = .list values ∧ Rounds g t c stop values labels := by
  generalize hterm : Term.star t = u at h
  generalize hmatch : some (Reading.mk stop value labels) = d at h
  induction h generalizing stop value labels with
  | starStop h ih =>
      cases hterm
      cases hmatch
      exact ⟨[], rfl, .stop h⟩
  | starEmpty h ih =>
      cases hterm
      cases hmatch
      exact ⟨[_], rfl, .empty h⟩
  | starMore h hmoved hrest ih ihrest =>
      cases hterm
      cases hmatch
      obtain ⟨values, hvalues, hrounds⟩ := ihrest rfl rfl
      cases hvalues
      exact ⟨_, rfl, .more h hmoved hrounds⟩
  | _ => cases hterm

theorem Rounds.reaches {g : Grammar ρ ν} {t : Term ρ ν} {c stop : Cursor}
    {values : List (Value ν)} {labels : List (String × Value ν)}
    (h : Rounds g t c stop values labels) : c.Reaches stop := by
  induction h with
  | stop h | empty h => exact Cursor.Reaches.refl _
  | more h hmoved hrest ih => exact h.reaches.trans ih

end PegScript
