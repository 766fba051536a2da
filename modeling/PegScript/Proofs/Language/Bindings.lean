import PegScript.Proofs.Language.WellFormed
import PegScript.Proofs.Semantics.ListedTable

/-!
# Names that a program binds

A name of a variable is what the rule `identifier` reads, and that rule reads every name but the
keywords.  Members, properties and imports have names by the rule `identifierName`, which reads
keywords too; wherever such a name is bound as well, a keyword has to be turned down by a check of
its own.  The key of a pattern has that check.  The name of an import that gets no other name has
none, and it is the only name of a parsed program that can be bound and be a keyword.
-/

namespace PegScript

/-! ## Terms with an outcome everywhere -/

variable {ρ ν : Type} {g : Grammar ρ ν} {t : Term ρ ν} {ts : List (Term ρ ν)}

/-- The term has an outcome at every place. -/
def Decides (g : Grammar ρ ν) (t : Term ρ ν) : Prop :=
  ∀ c, ∃ d, Derives g t c d

theorem decides_literal (text : String) (ignoreCase : Bool) :
    Decides g (.literal text ignoreCase) := by
  intro c
  cases hskip : c.skipLiteral? text ignoreCase with
  | none => exact ⟨_, .literalFail hskip⟩
  | some stop => exact ⟨_, .literal hskip⟩

theorem decides_charIn (k : CharClass) : Decides g (.charIn k) := by
  intro c
  cases hnext : c.next? with
  | none => exact ⟨_, .charInEnd hnext⟩
  | some next =>
      cases hmem : k.contains next.1 with
      | true => exact ⟨_, .charIn hnext hmem⟩
      | false => exact ⟨_, .charInOther hnext hmem⟩

theorem Decides.rule {r : ρ} (h : Decides g (g.rule r).body) : Decides g (.rule r) := by
  intro c
  obtain ⟨_ | m, hbody⟩ := h c
  · exact ⟨_, .ruleFail hbody⟩
  · exact ⟨_, .rule hbody⟩

theorem Decides.not (h : Decides g t) : Decides g (.not t) := by
  intro c
  obtain ⟨_ | m, hterm⟩ := h c
  · exact ⟨_, .not hterm⟩
  · exact ⟨_, .notFail hterm⟩

theorem Decides.text (h : Decides g t) : Decides g (.text t) := by
  intro c
  obtain ⟨_ | m, hterm⟩ := h c
  · exact ⟨_, .textFail hterm⟩
  · exact ⟨_, .text hterm⟩

theorem Decides.pick (index : Nat) (h : Decides g t) : Decides g (.pick index t) := by
  intro c
  obtain ⟨_ | m, hterm⟩ := h c
  · exact ⟨_, .pickFail hterm⟩
  · exact ⟨_, .pick hterm⟩

theorem decides_seq (h : ∀ t ∈ ts, Decides g t) : Decides g (.seq ts) := by
  induction ts with
  | nil => exact fun c => ⟨_, .seqNil⟩
  | cons t ts ih =>
      intro c
      obtain ⟨hhead, htail⟩ := List.forall_mem_cons.mp h
      obtain ⟨_ | m, hfirst⟩ := hhead c
      · exact ⟨_, .seqFail hfirst⟩
      · obtain ⟨_ | ⟨stop, value, labels⟩, hrest⟩ := ih htail m.stop
        · exact ⟨_, .seqTailFail hfirst hrest⟩
        · obtain ⟨values, rfl⟩ : ∃ values, value = .list values := by
            cases hrest <;> exact ⟨_, rfl⟩
          exact ⟨_, .seqCons hfirst hrest⟩

theorem decides_choice (h : ∀ t ∈ ts, Decides g t) : Decides g (.choice ts) := by
  induction ts with
  | nil => exact fun c => ⟨_, .choiceNil⟩
  | cons t ts ih =>
      intro c
      obtain ⟨hhead, htail⟩ := List.forall_mem_cons.mp h
      obtain ⟨_ | m, hfirst⟩ := hhead c
      · obtain ⟨d, hlater⟩ := ih htail c
        exact ⟨d, .choiceLater hfirst hlater⟩
      · exact ⟨_, .choiceHere hfirst⟩

/-- A repetition has an outcome, since each round but the last takes input. -/
theorem Decides.star (h : Decides g t) : Decides g (.star t) := by
  intro c
  generalize hbytes : byteLength c.rest = bytes
  induction bytes using Nat.strongRecOn generalizing c with
  | ind bytes ih =>
      obtain ⟨_ | m, hround⟩ := h c
      · exact ⟨_, .starStop hround⟩
      · by_cases hmoved : m.stop = c
        · obtain ⟨stop, value, labels⟩ := m
          cases hmoved
          exact ⟨_, .starEmpty hround⟩
        · have hless : byteLength m.stop.rest < bytes := by
            rw [← hbytes]
            exact hround.reaches.byteLength_lt hmoved
          obtain ⟨_ | ⟨stop, value, labels⟩, hrest⟩ := ih _ hless m.stop rfl
          · cases hrest
          · obtain ⟨values, rfl, -⟩ := hrest.rounds
            exact ⟨_, .starMore hround hmoved hrest⟩

namespace Language

/-! ## What the rule for identifiers accepts -/

/-- The rule for names of variables reads the text to its end. -/
def IsIdentifier (text : String) : Prop :=
  ∃ m, Derives grammar (.rule .identifier) (Cursor.start text) (some m) ∧ m.stop.rest = []

theorem decides_word (w : String) : Decides grammar (word w) := by
  have hpart : Decides grammar (.rule .identPart) := (decides_charIn _).rule
  have htext : Decides grammar (.lit w) := decides_literal w false
  exact decides_seq (by simp [htext, hpart.not])

theorem decides_identifier : Decides grammar (.rule .identifier) := by
  have hkeyword : Decides grammar (.rule .keyword) := by
    refine (decides_choice ?_).rule
    intro t ht
    obtain ⟨w, -, rfl⟩ := List.mem_map.mp ht
    exact decides_word w
  have hstart : Decides grammar (.rule .identStart) := (decides_charIn _).rule
  have hparts : Decides grammar (.star (.rule .identPart)) := (decides_charIn _).rule.star
  have hname : Decides grammar Lexical.identifierName :=
    (decides_seq (by simp [hstart, hparts])).text
  exact ((decides_seq (by simp [hkeyword.not, hname])).pick 1).rule

/-- The rule for identifiers accepts the names that are not keywords. -/
theorem isIdentifier_iff {text : String} : IsIdentifier text ↔ isVariable text = true := by
  constructor
  · rintro ⟨m, hread, hend⟩
    cases hread with
    | rule hbody =>
      obtain ⟨name, k, hvariable, hk, hsplit, -⟩ := exists_variable_of_derives hbody
      rw [isVariable, Bool.and_eq_true, Bool.not_eq_true'] at hvariable
      have hreads := hk.reads_identifier hvariable.1 hvariable.2 0
      rw [← hsplit] at hreads
      have hstop := congrArg (·.stop.rest) (Option.some.inj (hreads _ (.rule hbody)))
      dsimp only at hstop hend
      rw [← hstop, hend, List.append_nil] at hsplit
      rw [String.toList_inj.mp hsplit, isVariable, hvariable.1, hvariable.2]
      rfl
  · intro hvariable
    rw [isVariable, Bool.and_eq_true, Bool.not_eq_true'] at hvariable
    have hends : Ends [] := by simp [Ends]
    obtain ⟨d, hd⟩ := decides_identifier (Cursor.start text)
    have hread := hends.reads_identifier hvariable.1 hvariable.2 0 d
    rw [List.append_nil] at hread
    obtain rfl := hread hd
    exact ⟨_, hd, rfl⟩

/-! ## Bindings -/

theorem isVariable_iff {name : String} :
    isVariable name = true ↔ isName name = true ∧ name ∉ keywords := by
  simp [isVariable, isKeyword]

/-- What an import binds is a variable, or else a name that is imported under itself. -/
theorem isVariable_of_mem_importBindings {clause : Import} (hnamed : clause.Named) {name : String}
    (hname : name ∈ clause.bindings) :
    isVariable name = true ∨ (⟨name, none⟩ ∈ clause.named ∧ isName name = true) := by
  rw [Import.bindings, List.mem_append, List.mem_append, List.mem_map] at hname
  rcases hname with (hdefault | hnamespace) | ⟨⟨imported, localName⟩, hspec, rfl⟩
  · exact .inl (hnamed.default name (Option.mem_toList.mp hdefault))
  · exact .inl (hnamed.namespaceName name (Option.mem_toList.mp hnamespace))
  · have hproper := hnamed.named _ hspec
    cases localName with
    | none => exact .inr ⟨hspec, hproper.name⟩
    | some name => exact .inl (hproper.localName name rfl)

/-- A binding of a piece with proper names is a variable, or else a name that is imported under
itself. -/
theorem isVariable_of_mem_bindings {piece : Piece} (hwell : piece.WellFormed)
    (hnamed : piece.Named) {name : String} (hname : name ∈ piece.bindings) :
    isVariable name = true ∨
      ∃ clause, piece = .stmt (.importFrom clause) ∧ ⟨name, none⟩ ∈ clause.named ∧
        isName name = true := by
  unfold Piece.bindings at hname
  split at hname
  case h_1 | h_2 | h_3 | h_4 =>
    cases List.mem_singleton.mp hname
    exact .inl hnamed
  case h_5 | h_7 => exact .inl (hnamed name (by simpa using hname))
  case h_6 =>
    -- A key without a pattern binds its name, which is why keys are checked against the keywords.
    cases List.mem_singleton.mp hname
    have hkey : isKeyword name = false := hwell rfl
    have hproper : isName name = true := hnamed
    exact .inl (by rw [isVariable, hproper, hkey]; rfl)
  case h_8 clause =>
    refine (isVariable_of_mem_importBindings hnamed hname).imp_right ?_
    exact fun himported => ⟨clause, rfl, himported⟩
  case h_9 => cases hname

/-- Every name that a parsed program binds, anywhere, is accepted by the rule for identifiers and is
no keyword, with one exception: a name that is imported under itself may be a keyword. -/
theorem parse_bindings (settings : Settings) (source : String) (program : Program)
    (h : parse settings source = .ok program) :
    ∀ piece ∈ program.pieces, ∀ name ∈ piece.bindings,
      (IsIdentifier name ∧ name ∉ keywords) ∨
        (name ∈ keywords ∧
          ∃ clause, piece = .stmt (.importFrom clause) ∧ ⟨name, none⟩ ∈ clause.named) := by
  intro piece hpiece name hname
  obtain ⟨hwell, hnamed⟩ := sound_of_parse h piece hpiece
  rcases isVariable_of_mem_bindings hwell hnamed hname with
    hvariable | ⟨clause, hclause, hspec, hproper⟩
  · exact .inl ⟨isIdentifier_iff.mpr hvariable, (isVariable_iff.mp hvariable).2⟩
  · by_cases hword : name ∈ keywords
    · exact .inr ⟨hword, clause, hclause, hspec⟩
    · exact .inl ⟨isIdentifier_iff.mpr (isVariable_iff.mpr ⟨hproper, hword⟩), hword⟩

/-- A default import, and a keyword that is imported under another name. -/
theorem parse_bindings_renamed :
    ∃ program, parse { memoize := false } "import a, \x7bif as b\x7d from \"\"" = .ok program ∧
      program.pieces.flatMap Piece.bindings = ["a", "b"] ∧
      ∀ piece ∈ program.pieces, ∀ name ∈ piece.bindings,
        (IsIdentifier name ∧ name ∉ keywords) ∨
          (name ∈ keywords ∧
            ∃ clause, piece = .stmt (.importFrom clause) ∧ ⟨name, none⟩ ∈ clause.named) := by
  have hbindings : (parse { memoize := false } "import a, \x7bif as b\x7d from \"\"").toOption.map
      (·.pieces.flatMap Piece.bindings) = some ["a", "b"] := by
    decide +kernel
  cases hparse : parse { memoize := false } "import a, \x7bif as b\x7d from \"\"" with
  | error diagnosis =>
      rw [hparse] at hbindings
      cases hbindings
  | ok program =>
      rw [hparse] at hbindings
      exact ⟨program, rfl, Option.some.inj hbindings, parse_bindings _ _ program hparse⟩

/-- An import without another name binds a keyword, which the rule for identifiers refuses. -/
theorem parse_importKeyword :
    ∃ program, parse {} "import \x7bif\x7d from \"m\"" = .ok program ∧
      "if" ∈ program.pieces.flatMap Piece.bindings ∧ "if" ∈ keywords ∧ ¬ IsIdentifier "if" := by
  have hbindings : (parse {} "import \x7bif\x7d from \"m\"").toOption.map
      (·.pieces.flatMap Piece.bindings) = some ["if"] :=
    grammar.eq_of_runListed {} rfl 5000 .program _
      (fun run => (run.outcome.bind (programOf "import \x7bif\x7d from \"m\"")).toOption.map
        (·.pieces.flatMap Piece.bindings))
      (by decide +kernel)
  have hrefused : ¬ IsIdentifier "if" := by
    rw [isIdentifier_iff]
    decide +kernel
  cases hparse : parse {} "import \x7bif\x7d from \"m\"" with
  | error diagnosis =>
      rw [hparse] at hbindings
      cases hbindings
  | ok program =>
      rw [hparse] at hbindings
      have hnames : program.pieces.flatMap Piece.bindings = ["if"] := Option.some.inj hbindings
      refine ⟨program, rfl, ?_, by decide, hrefused⟩
      rw [hnames]
      exact List.mem_singleton_self _

end Language

end PegScript
