import Mathlib.Data.List.Nodup
import PegScript.Language.Grammar
import PegScript.Proofs.JavaScript.Landmarks
import PegScript.Proofs.Semantics.ListedTable
import PegScript.Proofs.Tree.Names

/-!
# Made-up names in generated programs

A generated program has names that do not come from its source: those of its numbered constructs and
those of the helpers.  No two of them are the same.  Nothing keeps the source from using one of them,
and then the generated program uses one name for two things.  Which names can be made up is known
from the source, so a source that uses none of these is safe.
-/

namespace PegScript

namespace JavaScript

/-! ## Names with a number -/

/-- A text without digits and a number can be told from the text with the number behind it. -/
theorem append_toString_inj {stem stem' : String} {n n' : Nat}
    (hstem : ∀ c ∈ stem.toList, c.isDigit = false) (hstem' : ∀ c ∈ stem'.toList, c.isDigit = false)
    (h : stem ++ toString n = stem' ++ toString n') : stem = stem' ∧ n = n' := by
  have hlist : stem.toList ++ Nat.toDigits 10 n = stem'.toList ++ Nat.toDigits 10 n' := by
    have := congrArg String.toList h
    rwa [String.toList_append, String.toList_append, Nat.toString_eq_ofList_toDigits,
      Nat.toString_eq_ofList_toDigits, String.toList_ofList, String.toList_ofList] at this
  -- The text is what stands before the first digit.
  have hbefore (stem : String) (n : Nat) (hstem : ∀ c ∈ stem.toList, c.isDigit = false) :
      (stem.toList ++ Nat.toDigits 10 n).takeWhile (fun c => !c.isDigit) = stem.toList := by
    rw [List.takeWhile_append_of_pos (by simpa using hstem)]
    have hdigits (c : Char) (hc : c ∈ Nat.toDigits 10 n) : c.isDigit = true :=
      Nat.isDigit_of_mem_toDigits (by decide) (by decide) hc
    cases hcs : Nat.toDigits 10 n with
    | nil => simp
    | cons c cs => simp [hdigits c (by simp [hcs])]
  have hstems : stem.toList = stem'.toList := by
    rw [← hbefore stem n hstem, hlist, hbefore stem' n' hstem']
  refine ⟨String.toList_inj.mp hstems, ?_⟩
  rw [hstems, List.append_cancel_left_eq] at hlist
  calc
    n = Nat.ofDigitChars 10 (Nat.toDigits 10 n) 0 := Nat.ofDigitChars_ten_toDigits.symm
    _ = Nat.ofDigitChars 10 (Nat.toDigits 10 n') 0 := by rw [hlist]
    _ = n' := Nat.ofDigitChars_ten_toDigits

theorem exists_digit_toString (n : Nat) : ∃ c ∈ (toString n).toList, c.isDigit = true := by
  rw [Nat.toString_eq_ofList_toDigits, String.toList_ofList]
  obtain ⟨c, hc⟩ := List.exists_mem_of_ne_nil _ (Nat.toDigits_ne_nil (n := n) (b := 10))
  exact ⟨c, hc, Nat.isDigit_of_mem_toDigits (by decide) (by decide) hc⟩

theorem isDigit_of_mem_stem {c : Construct} {slot : Slot} (hslot : slot ∈ c.slots) :
    ∀ ch ∈ slot.stem.toList, ch.isDigit = false := by
  revert slot
  cases c <;> decide

theorem isDigit_of_mem_name (h : Helper) : ∀ ch ∈ h.name.toList, ch.isDigit = false := by
  cases h <;> decide

/-- A name tells its number and what it starts with. -/
theorem slot_name_inj {c c' : Construct} {slot slot' : Slot} {n n' : Nat} (hslot : slot ∈ c.slots)
    (hslot' : slot' ∈ c'.slots) (h : slot.name n = slot'.name n') :
    slot.stem = slot'.stem ∧ n = n' :=
  append_toString_inj (isDigit_of_mem_stem hslot) (isDigit_of_mem_stem hslot') h

/-! ## The names of the numbered constructs -/

/-- The names of constructs that have the numbers from one on. -/
def temporaries (ledger : List Construct) : List String :=
  (ledger.zipIdx 1).flatMap fun entry => entry.1.names entry.2

theorem nodup_names (n : Nat) (c : Construct) : (c.names n).Nodup := by
  have hslots : c.slots.Nodup := by cases c <;> decide
  have hstems : ∀ slot ∈ c.slots, ∀ slot' ∈ c.slots, slot.stem = slot'.stem → slot = slot' := by
    cases c <;> decide
  refine List.Nodup.map_on ?_ hslots
  intro slot hslot slot' hslot' heq
  exact hstems slot hslot slot' hslot' (slot_name_inj hslot hslot' heq).1

/-- Constructs with different numbers have no name in common. -/
theorem disjoint_names {n n' : Nat} (hn : n ≠ n') (c c' : Construct) :
    (c.names n).Disjoint (c'.names n') := by
  intro name hname hname'
  obtain ⟨slot, hslot, rfl⟩ := List.mem_map.mp hname
  obtain ⟨slot', hslot', heq⟩ := List.mem_map.mp hname'
  exact hn (slot_name_inj hslot hslot' heq.symm).2

theorem nodup_temporaries (ledger : List Construct) : (temporaries ledger).Nodup := by
  refine List.nodup_flatMap.mpr ⟨fun entry _ => nodup_names entry.2 entry.1, ?_⟩
  have hnumbers : (ledger.zipIdx 1).Pairwise fun entry entry' => entry.2 ≠ entry'.2 := by
    apply List.pairwise_map.mp
    rw [List.zipIdx_map_snd]
    exact List.nodup_range' 1
  exact hnumbers.imp fun hn => disjoint_names hn _ _

theorem name_notMem_temporaries (h : Helper) (ledger : List Construct) :
    h.name ∉ temporaries ledger := by
  intro hname
  obtain ⟨entry, -, hname⟩ := List.mem_flatMap.mp hname
  obtain ⟨slot, -, heq⟩ := List.mem_map.mp hname
  obtain ⟨c, hc, hdigit⟩ := exists_digit_toString entry.2
  have hmem : c ∈ h.name.toList := by
    rw [← heq, Slot.name, String.toList_append]
    exact List.mem_append_right _ hc
  rw [isDigit_of_mem_name h c hmem] at hdigit
  cases hdigit

/-! ## Reserved names -/

/-- The names that generated text of the program may make up: the names of the helpers that it
needs, and those of its kinds of numbered constructs with a number up to how many there are. -/
def reservedNames (program : Program) : List String :=
  (Helper.all.filter fun h => Effect.helper h ∈ effectsOf program.pieces).map Helper.name
    ++ ([.pipeline, .counting, .guarded].filter (· ∈ constructsOf program.pieces)).flatMap
      fun c => (List.range' 1 (constructsOf program.pieces).card).flatMap c.names

theorem mem_reservedNames_of_helper {program : Program} {g : Generated} {h : Helper}
    (hgenerate : generate program = .ok g) (hnoted : g.helpers.contains h = true) :
    h.name ∈ reservedNames program := by
  rw [(effects_of_generate_eq_ok hgenerate).1] at hnoted
  refine List.mem_append_left _ (List.mem_map_of_mem (List.mem_filter.mpr ⟨?_, ?_⟩))
  · cases h <;> decide
  · exact decide_eq_true hnoted

theorem mem_reservedNames_of_temporaries {program : Program} {ledger : List Construct}
    (hledger : ledger = constructsOf program.pieces) {name : String}
    (hname : name ∈ temporaries ledger) : name ∈ reservedNames program := by
  obtain ⟨⟨c, n⟩, hentry, hname⟩ := List.mem_flatMap.mp hname
  obtain ⟨hfirst, hlast, hc⟩ := List.mem_zipIdx hentry
  have hkind : c ∈ constructsOf program.pieces := by
    rw [← hledger, hc]
    exact List.getElem_mem _
  have hnumber : n ∈ List.range' 1 (constructsOf program.pieces).card := by
    rw [← hledger, Multiset.coe_card]
    simp only [List.mem_range'_1]
    omega
  refine List.mem_append_right _ (List.mem_flatMap.mpr ⟨c, List.mem_filter.mpr ⟨?_, ?_⟩, ?_⟩)
  · cases c <;> decide
  · exact decide_eq_true hkind
  · exact List.mem_flatMap.mpr ⟨n, hnumber, hname⟩

/-- The numbered constructs of a program, in the order in which they are lowered, give values to
their names in the generated text.  All these names are distinct, also from the names of the
helpers.  An identifier of the program that is not reserved in it is none of these names, and not
the name of a helper that is called. -/
theorem generate_hygienic {program : Program} {g : Generated}
    (hgenerate : generate program = .ok g) :
    ∃ ledger : List Construct, ledger = constructsOf program.pieces ∧
      (∀ (n : Nat) (c : Construct), ledger[n]? = some c →
        ∀ slot ∈ c.slots, Occurs (slot.mark (n + 1)) g.text) ∧
      (temporaries ledger).Nodup ∧ (∀ h : Helper, h.name ∉ temporaries ledger) ∧
      ∀ name ∈ program.identifiers, name ∉ reservedNames program →
        name ∉ temporaries ledger ∧ ∀ h, g.helpers.contains h = true → name ≠ h.name := by
  obtain ⟨ledger, hledger, hconstructs, -⟩ := exists_shown_of_generate hgenerate
  refine ⟨ledger, hledger, ?_, nodup_temporaries ledger,
    fun h => name_notMem_temporaries h ledger, ?_⟩
  · intro n c hc slot hslot
    exact (hconstructs n c hc _ (List.mem_map_of_mem hslot)).occurs_text
  · intro name _ hfree
    constructor
    · intro hname
      exact hfree (mem_reservedNames_of_temporaries hledger hname)
    · rintro h hnoted rfl
      exact hfree (mem_reservedNames_of_helper hgenerate hnoted)

/-- A pipeline in a loop that counts, and a guarded evaluation. -/
def countedPipeline : Program :=
  ⟨[.forRange "i" (.number "0") (.number "3") none
      ⟨[], some (.pipeline (.ident "i") [.call (.ident "_ref")])⟩,
    .guard none (.call (.ident "f") [] false) "e" ⟨[], none⟩]⟩

theorem countedPipeline_hygienic :
    ∃ g, generate countedPipeline = .ok g ∧
      ∃ ledger : List Construct, ledger = constructsOf countedPipeline.pieces ∧
        (∀ (n : Nat) (c : Construct), ledger[n]? = some c →
          ∀ slot ∈ c.slots, Occurs (slot.mark (n + 1)) g.text) ∧
        (temporaries ledger).Nodup ∧ (∀ h : Helper, h.name ∉ temporaries ledger) ∧
        countedPipeline.identifiers = ["i", "i", "_ref", "e", "f"] ∧
        ∀ name ∈ countedPipeline.identifiers, name ∉ temporaries ledger ∧
          ∀ h, g.helpers.contains h = true → name ≠ h.name := by
  refine ⟨_, rfl, ?_⟩
  obtain ⟨ledger, hledger, hconstructs, hnodup, hhelpers, hfree⟩ :=
    @generate_hygienic countedPipeline _ rfl
  have hunreserved : ∀ name ∈ countedPipeline.identifiers,
      name ∉ reservedNames countedPipeline := by
    decide +kernel
  exact ⟨ledger, hledger, hconstructs, hnodup, hhelpers, by decide +kernel,
    fun name hname => hfree name hname (hunreserved name hname)⟩

/-- A source can use the name that its generated program makes up for a pipeline. -/
theorem pipeline_captures_identifier :
    ∃ program g, Language.parse {} "x |> _ref1" = .ok program ∧ generate program = .ok g ∧
      "_ref1" ∈ program.identifiers ∧ constructsOf program.pieces = {.pipeline} ∧
      temporaries [.pipeline] = ["_ref1"] ∧
      g.text = "let _ref1;\n(_ref1 = x, _ref1 = _ref1(_ref1), _ref1);\n" := by
  have hcheck := Language.grammar.eq_of_runListed {} rfl 2000 .program "x |> _ref1"
    (fun run => (run.outcome.bind (Language.programOf "x |> _ref1")).toOption.any fun program =>
      (generate program).toOption.any fun g => decide ("_ref1" ∈ program.identifiers ∧
        constructsOf program.pieces = {.pipeline} ∧
        g.text = "let _ref1;\n(_ref1 = x, _ref1 = _ref1(_ref1), _ref1);\n"))
    (a := true) (by decide +kernel)
  change (Language.parse {} "x |> _ref1").toOption.any _ = true at hcheck
  cases hparse : Language.parse {} "x |> _ref1" with
  | error diagnosis =>
      rw [hparse] at hcheck
      cases hcheck
  | ok program =>
      rw [hparse] at hcheck
      change (generate program).toOption.any _ = true at hcheck
      cases hgenerate : generate program with
      | error d =>
          rw [hgenerate] at hcheck
          cases hcheck
      | ok g =>
          rw [hgenerate] at hcheck
          obtain ⟨hname, hconstructs, htext⟩ := of_decide_eq_true hcheck
          exact ⟨program, g, rfl, hgenerate, hname, hconstructs, by decide, htext⟩

end JavaScript

end PegScript
