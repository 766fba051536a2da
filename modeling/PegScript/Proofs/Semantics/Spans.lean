import Mathlib.Computability.RegularExpressions
import PegScript.Proofs.Semantics.Adequacy
import PegScript.Proofs.Semantics.Reading

/-!
# The languages of terms

`Spans g t L` says that whatever the term `t` reads is a word of the language `L`.  A term reads
less than it could: choices are ordered, repetitions take all they can, and lookaheads refuse.  So
the language of a term, put together from the languages of its parts, bounds what it reads, and
which of its words are read is shown with `Reads`.
-/

namespace PegScript

open scoped Computability

variable {ρ ν : Type}

/-- The words of one character of the class. -/
def CharClass.words (k : CharClass) : Language Char :=
  {w | ∃ a, k.contains a = true ∧ w = [a]}

/-- The texts that differ from the given one in the case of ASCII letters only. -/
def wordsAnyCase (text : String) : Language Char :=
  {w | w.map Char.toLower = text.toList.map Char.toLower}

/-- Whatever the term reads is a word of the language. -/
def Spans (g : Grammar ρ ν) (t : Term ρ ν) (L : Language Char) : Prop :=
  ∀ c m, Derives g t c (some m) → ∃ w ∈ L, c.rest = w ++ m.stop.rest

/-! ## Texts in any case -/

theorem Cursor.skip?_toLower_eq_some_iff {text : List Char} {c d : Cursor} :
    c.skip? (fun a b => a.toLower == b.toLower) text = some d ↔
      ∃ w, w.map Char.toLower = text.map Char.toLower ∧ c.rest = w ++ d.rest ∧
        d.offset = c.offset + byteLength w := by
  induction text generalizing c with
  | nil =>
      cases c
      cases d
      simp [skip?, and_comm, eq_comm]
  | cons a text ih =>
      rw [skip?]
      split
      case h_1 b next hnext =>
        obtain ⟨hrest, hoffset⟩ := next?_eq_some_iff.mp hnext
        constructor
        · intro hskip
          split at hskip
          case isTrue hab =>
            obtain ⟨w, hw, hwrest, hwoffset⟩ := ih.mp hskip
            refine ⟨b :: w, ?_, ?_, ?_⟩
            · simp [hw, beq_iff_eq.mp hab]
            · rw [hrest, hwrest, List.cons_append]
            · rw [hwoffset, hoffset, byteLength_cons, Nat.add_assoc]
          case isFalse => cases hskip
        · rintro ⟨w, hw, hwrest, hwoffset⟩
          cases w with
          | nil => simp at hw
          | cons b' w =>
              obtain ⟨rfl, hlater⟩ := List.cons.inj (hrest.symm.trans hwrest)
              rw [List.map_cons, List.map_cons] at hw
              obtain ⟨hab, hw⟩ := List.cons.inj hw
              rw [if_pos (beq_iff_eq.mpr hab.symm)]
              refine ih.mpr ⟨w, hw, hlater, ?_⟩
              rw [hwoffset, hoffset, byteLength_cons, Nat.add_assoc]
      case h_2 hnext =>
        constructor
        · intro hskip
          cases hskip
        · rintro ⟨w, hw, hwrest, -⟩
          rw [next?_eq_none_iff.mp hnext] at hwrest
          obtain ⟨rfl, -⟩ := List.append_eq_nil_iff.mp hwrest.symm
          simp at hw

section

variable {g : Grammar ρ ν} {t : Term ρ ν} {ts : List (Term ρ ν)} {L M : Language Char}
  {k w : List Char}

theorem reads_litAnyCase {text : String} (h : w ∈ wordsAnyCase text) :
    Reads g (.litAnyCase text) w k (.text (String.ofList w)) [] := by
  intro o d hd
  have hskip : (⟨o, w ++ k⟩ : Cursor).skipLiteral? text true = some ⟨o + byteLength w, k⟩ :=
    Cursor.skip?_toLower_eq_some_iff.mpr ⟨w, h, rfl, rfl⟩
  have htext : (⟨o, w ++ k⟩ : Cursor).textTo ⟨o + byteLength w, k⟩ = String.ofList w :=
    Cursor.textTo_eq_ofList rfl rfl
  rw [hd.functional (.literal hskip), htext]

theorem reads_star_charIn {c : CharClass} (hw : ∀ a ∈ w, c.contains a = true)
    (hk : ∀ a ∈ k.head?, c.contains a = false) :
    Reads g (.star (.charIn c)) w k (.list (w.map fun a => .text (String.singleton a))) [] := by
  induction w with
  | nil => exact (refuses_charIn hk).star
  | cons a w ih =>
      obtain ⟨ha, hw⟩ := List.forall_mem_cons.mp hw
      exact (reads_charIn ha).star_cons (List.cons_ne_nil a []) (ih hw)

/-! ## Terms and their languages -/

theorem spans_lit (text : String) : Spans g (.lit text) {text.toList} := by
  intro c m h
  obtain ⟨rest, hrest, rfl⟩ := Derives.lit_some_iff.mp h
  exact ⟨_, rfl, hrest⟩

theorem spans_litAnyCase (text : String) : Spans g (.litAnyCase text) (wordsAnyCase text) := by
  intro c m h
  cases h with
  | literal hskip =>
      obtain ⟨w, hw, hrest, -⟩ := Cursor.skip?_toLower_eq_some_iff.mp hskip
      exact ⟨w, hw, hrest⟩

theorem spans_charIn (c : CharClass) : Spans g (.charIn c) c.words := by
  intro c m h
  obtain ⟨a, rest, hrest, hmem, rfl⟩ := Derives.charIn_some_iff.mp h
  exact ⟨[a], ⟨a, hmem, rfl⟩, hrest⟩

theorem Spans.mono (h : Spans g t L) (hle : ∀ w ∈ L, w ∈ M) : Spans g t M := by
  intro c m hread
  obtain ⟨w, hw, hrest⟩ := h c m hread
  exact ⟨w, hle w hw, hrest⟩

theorem Spans.rule {r : ρ} (h : Spans g (g.rule r).body L) : Spans g (.rule r) L := by
  intro c m hread
  cases hread with
  | @rule _ _ m hbody => exact h c m hbody

theorem spans_seq_nil : Spans g (.seq []) 1 := by
  intro c m hread
  cases hread
  exact ⟨[], rfl, rfl⟩

theorem Spans.seq_cons (hhead : Spans g t L) (htail : Spans g (.seq ts) M) :
    Spans g (.seq (t :: ts)) (L * M) := by
  intro c m hread
  cases hread with
  | seqCons hfirst hrest =>
      obtain ⟨w, hw, hwrest⟩ := hhead c _ hfirst
      obtain ⟨w', hw', hwrest'⟩ := htail _ _ hrest
      refine ⟨w ++ w', Language.mem_mul.mpr ⟨w, hw, w', hw', rfl⟩, ?_⟩
      rw [hwrest, hwrest', List.append_assoc]

theorem Spans.seq_last (h : Spans g t L) : Spans g (.seq [t]) L :=
  mul_one L ▸ h.seq_cons spans_seq_nil

theorem Spans.choice_cons (hfirst : Spans g t L) (hlater : Spans g (.choice ts) M) :
    Spans g (.choice (t :: ts)) (L + M) := by
  intro c m hread
  cases hread with
  | choiceHere hread =>
      obtain ⟨w, hw, hrest⟩ := hfirst c m hread
      exact ⟨w, Or.inl hw, hrest⟩
  | choiceLater hfail hread =>
      obtain ⟨w, hw, hrest⟩ := hlater c m hread
      exact ⟨w, Or.inr hw, hrest⟩

theorem Spans.choice_last (h : Spans g t L) : Spans g (.choice [t]) L := by
  intro c m hread
  cases hread with
  | choiceHere hread => exact h c m hread
  | choiceLater hfail hread => cases hread

theorem spans_choice (h : ∀ t ∈ ts, Spans g t L) : Spans g (.choice ts) L := by
  induction ts with
  | nil =>
      intro c m hread
      cases hread
  | cons t ts ih =>
      obtain ⟨hfirst, hlater⟩ := List.forall_mem_cons.mp h
      intro c m hread
      cases hread with
      | choiceHere hread => exact hfirst c m hread
      | choiceLater hfail hread => exact ih hlater c m hread

theorem Spans.rounds {c stop : Cursor} {values : List (Value ν)}
    {labels : List (String × Value ν)} (h : Spans g t L)
    (hrounds : Rounds g t c stop values labels) : ∃ w ∈ L∗, c.rest = w ++ stop.rest := by
  induction hrounds with
  | stop hfail | empty hround => exact ⟨[], Language.nil_mem_kstar L, rfl⟩
  | more hround hmoved hrest ih =>
      obtain ⟨w, hw, hwrest⟩ := h _ _ hround
      obtain ⟨w', hw', hwrest'⟩ := ih
      have hmore : L * L∗ ≤ L∗ := mul_kstar_le_kstar
      refine ⟨w ++ w', hmore (Language.mem_mul.mpr ⟨w, hw, w', hw', rfl⟩), ?_⟩
      rw [hwrest, hwrest', List.append_assoc]

theorem Spans.star (h : Spans g t L) : Spans g (.star t) L∗ := by
  intro c m hread
  obtain ⟨values, -, hrounds⟩ := Derives.rounds hread
  exact h.rounds hrounds

theorem Spans.opt (h : Spans g t L) : Spans g (.opt t) (1 + L) := by
  intro c m hread
  cases hread with
  | opt hread =>
      obtain ⟨w, hw, hrest⟩ := h c m hread
      exact ⟨w, Or.inr hw, hrest⟩
  | optAbsent hfail => exact ⟨[], Or.inl rfl, rfl⟩

theorem spans_not (t : Term ρ ν) : Spans g (.not t) 1 := by
  intro c m hread
  cases hread
  exact ⟨[], rfl, rfl⟩

theorem Spans.text (h : Spans g t L) : Spans g (.text t) L := by
  intro c m hread
  cases hread with
  | text hread =>
      obtain ⟨w, hw, hrest⟩ := h c _ hread
      exact ⟨w, hw, hrest⟩

theorem Spans.action {act : ActionM ν (Value ν)} (h : Spans g t L) : Spans g (.action act t) L := by
  intro c m hread
  cases hread with
  | action hread hact =>
      obtain ⟨w, hw, hrest⟩ := h c _ hread
      exact ⟨w, hw, hrest⟩

/-! ## Whole sources -/

/-- What is read to the end of a source is all of it. -/
theorem Reads.eq_of_end {source : String} {v : Value ν} {m : Reading ν} (h : Reads g t w k v [])
    (hsplit : source.toList = w ++ k) (hread : Derives g t (Cursor.start source) (some m))
    (hend : m.stop.rest = []) : source.toList = w ∧ m.value = v := by
  rw [Cursor.start, hsplit] at hread
  cases h 0 _ hread
  obtain rfl : k = [] := hend
  rw [hsplit, List.append_nil]
  exact ⟨rfl, rfl⟩

variable [BEq ρ] [Hashable ρ] [LawfulBEq ρ] [LawfulHashable ρ]

/-- A rule that reads the whole source is what a parse within the nesting limit finds. -/
theorem Grammar.parseFrom_eq_ok_of_reads {settings : Settings} {start : ρ} {source : String}
    {v : Value ν} (h : Reads g (.rule start) source.toList [] v [])
    (hdone : (g.parseFrom settings start source).session.overflow = none) :
    (g.parseFrom settings start source).outcome = .ok v := by
  obtain ⟨d, hd⟩ := exists_derives_of_overflow_eq_none hdone
  have hstart : Cursor.start source = ⟨0, source.toList ++ []⟩ := by
    rw [List.append_nil]
    rfl
  have hreading := hd
  rw [hstart] at hreading
  obtain rfl := h 0 d hreading
  refine (parseFrom_eq_ok_iff hdone).mpr ⟨_, hd, ?_⟩
  rw [Nat.zero_add]
  exact (utf8ByteSize_eq_byteLength source).symm

/-- A parse that succeeds has read the source to its end. -/
theorem Grammar.exists_derives_of_ok {settings : Settings} {start : ρ} {source : String}
    {v : Value ν} (h : (g.parseFrom settings start source).outcome = .ok v) :
    ∃ m, Derives g (g.rule start).body (Cursor.start source) (some m) ∧ m.stop.rest = [] ∧
      m.value = v := by
  obtain ⟨stop, hread, hstop⟩ := (parseFrom_eq_ok_iff (overflow_eq_none_of_ok h)).mp h
  have hbytes := hread.reaches.byteLength_eq
  have hend : stop.rest = [] := by
    rw [utf8ByteSize_eq_byteLength] at hstop
    refine byteLength_eq_zero_iff.mp ?_
    dsimp only [Cursor.start] at hbytes
    omega
  cases hread with
  | rule hbody => exact ⟨_, hbody, hend, rfl⟩

/-- A source that is parsed from a rule is a word of the language of the rule. -/
theorem Grammar.mem_of_parseFrom_eq_ok {settings : Settings} {start : ρ} {source : String}
    {v : Value ν} (h : Spans g (.rule start) L)
    (hok : (g.parseFrom settings start source).outcome = .ok v) : source.toList ∈ L := by
  obtain ⟨m, hread, hend, -⟩ := exists_derives_of_ok hok
  obtain ⟨w, hw, hrest⟩ := h _ _ (.rule hread)
  rw [hend, List.append_nil] at hrest
  have hall : source.toList = w := hrest
  rw [hall]
  exact hw

end

end PegScript
