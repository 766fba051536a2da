import PegScript.Proofs.Semantics.Placeless
import PegScript.Proofs.Semantics.Reading

/-!
# Characters added at the end of a source

A source that goes on with some more characters is read as before up to its old end.  What happens
there depends on the term: it may stop as before, go on and take some of the added characters, or,
where the end made it fail, not fail any more.

`Kept` says how an outcome at a place may differ from the outcome at the same place of the longer
source, and `Stable` that it differs no more than that, whichever characters of a given kind are
added.  For each operator there is a lemma that says when it has stable outcomes.
-/

namespace PegScript

variable {ρ ν : Type}

/-! ## Places of the longer source -/

namespace Cursor

/-- The place `c'` has behind it what `c` has, and then the characters `w`, which are idle. -/
structure Padded (idle w : List Char) (c c' : Cursor) : Prop where
  rest : c'.rest = c.rest ++ w
  isIdle : ∀ a ∈ w, a ∈ idle

variable {idle w : List Char} {c c' d d' : Cursor}

/-- Where the source has a character left, the longer source has the same one. -/
theorem next?_padded {a : Char} (hpad : c.Padded idle w c') (h : c.next? = some (a, d)) :
    c'.next? = some (a, ⟨c'.offset + a.utf8Size, d.rest ++ w⟩) := by
  rw [next?_eq_some_iff] at h ⊢
  rw [hpad.rest, h.1]
  exact ⟨rfl, rfl⟩

/-- A text without idle characters is met or missed as before. -/
theorem skip?_padded {same : Char → Char → Bool} {text : List Char}
    (htext : ∀ a ∈ text, ∀ b ∈ idle, same a b = false) (h : c.Padded idle w c') :
    (c'.skip? same text).map Cursor.rest = (c.skip? same text).map (·.rest ++ w) := by
  induction text generalizing c c' with
  | nil => simp [skip?, h.rest]
  | cons a text ih =>
      obtain ⟨ha, htext⟩ := List.forall_mem_cons.mp htext
      obtain ⟨offset, rest⟩ := c
      obtain ⟨offset', rest'⟩ := c'
      obtain ⟨rfl, hidle⟩ := h
      cases rest with
      | nil =>
          cases w with
          | nil => simp [skip?, next?]
          | cons b w => simp [skip?, next?, ha b (hidle b List.mem_cons_self)]
      | cons b rest =>
          simp only [skip?, next?, List.cons_append]
          split
          · exact ih htext ⟨rfl, hidle⟩
          · rfl

theorem skipLiteral?_padded {text : String}
    (htext : ∀ a ∈ text.toList, ∀ b ∈ idle, a.toLower ≠ b.toLower) (h : c.Padded idle w c')
    (ignoreCase : Bool) :
    (c'.skipLiteral? text ignoreCase).map Cursor.rest =
      (c.skipLiteral? text ignoreCase).map (·.rest ++ w) := by
  unfold skipLiteral?
  split
  · apply skip?_padded _ h
    simpa using htext
  · apply skip?_padded _ h
    intro a ha b hb
    have hne : a ≠ b := fun heq => htext a ha b hb (by rw [heq])
    simpa using hne

/-- Between two places and the same places of the longer source lies the same text. -/
theorem textTo_padded (h : c.Reaches d) (h' : c'.Reaches d') (hc : c'.rest = c.rest ++ w)
    (hd : d'.rest = d.rest ++ w) : c'.textTo d' = c.textTo d := by
  obtain ⟨cs, hrest, hoffset⟩ := h
  obtain ⟨cs', hrest', hoffset'⟩ := h'
  have hsame : cs' = cs := by
    rw [hc, hd, hrest, List.append_assoc] at hrest'
    exact (List.append_cancel_right hrest').symm
  rw [textTo_eq_ofList hrest hoffset, textTo_eq_ofList hrest' hoffset', hsame]

end Cursor

/-! ## Outcomes in the longer source -/

/-- The reading `m'` goes as `m` does, with the added characters `w` at the end of the source, of
which it leaves `left`.  It may take some of them only where `m` comes to the end of the source. -/
structure Reading.Follows (w left : List Char) (m m' : Reading ν) : Prop where
  isSuffix : left <:+ w
  rest : m'.stop.rest = m.stop.rest ++ left
  atEnd : m.stop.rest ≠ [] → left = w
  same : left = w → m'.value = m.value ∧ m'.labels = m.labels

/-- How an outcome may differ in the longer source.  A tight one takes none of the added
characters. -/
inductive Kept (w : List Char) (tight : Bool) :
    Option (Reading ν) → Option (Reading ν) → Prop where
  | fails : Kept w tight none none
  | reads {m m' : Reading ν} {left : List Char} (h : m.Follows w left m')
      (htight : tight = true → left = w) : Kept w tight (some m) (some m')

/-- The outcome `d` of the term at the place is kept, whichever idle characters are added. -/
def Stable (g : Grammar ρ ν) (idle : List Char) (tight : Bool) (t : Term ρ ν) (c : Cursor)
    (d : Option (Reading ν)) : Prop :=
  ∀ ⦃w c' d'⦄, c.Padded idle w c' → Derives g t c' d' → Kept w tight d d'

/-- As `Stable`, but the added characters may also save the term from failing, if it then reads up
to the end of the longer source. -/
def Trailing (g : Grammar ρ ν) (idle : List Char) (t : Term ρ ν) (c : Cursor)
    (d : Option (Reading ν)) : Prop :=
  ∀ ⦃w c' d'⦄, c.Padded idle w c' → Derives g t c' d' →
    Kept w false d d' ∨ (d = none ∧ ∃ m', d' = some m' ∧ m'.stop.rest = [])

/-- Every reading of the term takes something. -/
def Consumes (g : Grammar ρ ν) (t : Term ρ ν) : Prop :=
  ∀ ⦃c m⦄, Derives g t c (some m) → m.stop.rest.length < c.rest.length

section Follows

variable {idle w left left' : List Char} {m m' : Reading ν}

theorem Reading.Follows.padded {c c' : Cursor} (h : m.Follows w left m')
    (hpad : c.Padded idle w c') : m.stop.Padded idle left m'.stop :=
  ⟨h.rest, fun a ha => hpad.isIdle a (h.isSuffix.subset ha)⟩

/-- Other values and labels at the same stop. -/
theorem Reading.Follows.replace (h : m.Follows w left m') {v v' : Value ν}
    {labels labels' : List (String × Value ν)}
    (hsame : left = w → v' = v ∧ labels' = labels) :
    Reading.Follows w left ⟨m.stop, v, labels⟩ ⟨m'.stop, v', labels'⟩ :=
  ⟨h.isSuffix, h.rest, h.atEnd, hsame⟩

/-- A reading with more items behind it. -/
theorem Reading.Follows.cons {stop stop' : Cursor} {values values' : List (Value ν)}
    {labels labels' : List (String × Value ν)} (h : m.Follows w left m')
    (hreach : m.stop.Reaches stop)
    (hmore : Reading.Follows left left' ⟨stop, .list values, labels⟩
      ⟨stop', .list values', labels'⟩) :
    Reading.Follows w left' ⟨stop, .list (m.value :: values), labels ++ m.labels⟩
      ⟨stop', .list (m'.value :: values'), labels' ++ m'.labels⟩ where
  isSuffix := hmore.isSuffix.trans h.isSuffix
  rest := hmore.rest
  atEnd := by
    intro hend
    have hstop : m.stop.rest ≠ [] := by
      obtain ⟨cs, hrest, -⟩ := hreach
      intro hnil
      rw [hnil] at hrest
      exact hend (List.append_eq_nil_iff.mp hrest.symm).2
    rw [hmore.atEnd hend, h.atEnd hstop]
  same := by
    rintro rfl
    have hleft : left = left' := h.isSuffix.eq_of_length_le hmore.isSuffix.length_le
    obtain ⟨hvalue, hlabels⟩ := h.same hleft
    obtain ⟨hvalues, hlabels'⟩ := hmore.same hleft.symm
    cases hvalues
    dsimp only at hlabels'
    rw [hvalue, hlabels, hlabels']
    exact ⟨rfl, rfl⟩

/-- A reading that is the same in both sources. -/
theorem Reading.Follows.of_rest (hrest : m'.stop.rest = m.stop.rest ++ w)
    (hvalue : m'.value = m.value) (hlabels : m'.labels = m.labels) : m.Follows w w m' :=
  ⟨List.suffix_rfl, hrest, fun _ => rfl, fun _ => ⟨hvalue, hlabels⟩⟩

theorem Kept.of_rest {tight : Bool} (hrest : m'.stop.rest = m.stop.rest ++ w)
    (hvalue : m'.value = m.value) (hlabels : m'.labels = m.labels) :
    Kept w tight (some m) (some m') :=
  .reads (.of_rest hrest hvalue hlabels) fun _ => rfl

theorem Kept.mono {tight tight' : Bool} {d d' : Option (Reading ν)} (h : Kept w tight d d')
    (himp : tight' = true → tight = true) : Kept w tight' d d' := by
  cases h with
  | fails => exact .fails
  | reads hfollows htight => exact .reads hfollows fun h => htight (himp h)

/-- A reading up to the end of the source may go on with added characters. -/
theorem Kept.of_isSuffix (hend : m.stop.rest = []) (hsuffix : m'.stop.rest <:+ w)
    (hne : m'.stop.rest ≠ w) : Kept w false (some m) (some m') :=
  .reads ⟨hsuffix, by rw [hend, List.nil_append], absurd hend, (absurd · hne)⟩ nofun

/-- Where it is known what the term reads in both sources. -/
theorem Kept.of_reads {g : Grammar ρ ν} {t : Term ρ ν} {tight : Bool} {c c' : Cursor}
    {d d' : Option (Reading ν)} {u k : List Char} {v : Value ν} {labels : List (String × Value ν)}
    (hreads : Reads g t u k v labels) (hreads' : Reads g t u (k ++ w) v labels)
    (hrest : c.rest = u ++ k) (hrest' : c'.rest = u ++ (k ++ w)) (h : Derives g t c d)
    (h' : Derives g t c' d') : Kept w tight d d' := by
  obtain ⟨offset, rest⟩ := c
  obtain ⟨offset', rest'⟩ := c'
  subst hrest hrest'
  rw [hreads _ _ h, hreads' _ _ h']
  exact .of_rest rfl rfl rfl

end Follows

/-! ## Stable outcomes -/

namespace Stable

variable {g : Grammar ρ ν} {idle : List Char} {tight tight' : Bool} {t : Term ρ ν}
  {ts : List (Term ρ ν)} {c : Cursor} {d : Option (Reading ν)} {m : Reading ν}

theorem mono (h : Stable g idle tight t c d) (himp : tight' = true → tight = true) :
    Stable g idle tight' t c d :=
  fun _ _ _ hpad h' => (h hpad h').mono himp

/-- A term that fails fails in the longer source. -/
theorem not_reads (h : Stable g idle tight t c none) {w : List Char} {c' : Cursor}
    (hpad : c.Padded idle w c') {m' : Reading ν} : ¬ Derives g t c' (some m') :=
  fun h' => nomatch h hpad h'

/-- A term with a reading has one in the longer source. -/
theorem not_fails (h : Stable g idle tight t c (some m)) {w : List Char} {c' : Cursor}
    (hpad : c.Padded idle w c') : ¬ Derives g t c' none :=
  fun h' => nomatch h hpad h'

/-- A reading in the longer source follows the reading without the added characters. -/
theorem follows (h : Stable g idle tight t c (some m)) {w : List Char} {c' : Cursor}
    (hpad : c.Padded idle w c') {m' : Reading ν} (h' : Derives g t c' (some m')) :
    ∃ left, m.Follows w left m' ∧ (tight = true → left = w) := by
  cases h hpad h' with
  | reads hfollows htight => exact ⟨_, hfollows, htight⟩

theorem literal {text : String} {ignoreCase : Bool}
    (htext : ∀ a ∈ text.toList, ∀ b ∈ idle, a.toLower ≠ b.toLower)
    (h : Derives g (.literal text ignoreCase) c d) :
    Stable g idle true (.literal text ignoreCase) c d := by
  intro w c' d' hpad h'
  have hskip := Cursor.skipLiteral?_padded htext hpad ignoreCase
  cases h with
  | literal h =>
      cases h' with
      | literal h' =>
          rw [h, h', Option.map_some, Option.map_some, Option.some.injEq] at hskip
          have htext := Cursor.textTo_padded (Cursor.reaches_of_skipLiteral? h)
            (Cursor.reaches_of_skipLiteral? h') hpad.rest hskip
          exact .of_rest hskip (congrArg Value.text htext) rfl
      | literalFail h' =>
          rw [h, h'] at hskip
          cases hskip
  | literalFail h =>
      cases h' with
      | literal h' =>
          rw [h, h'] at hskip
          cases hskip
      | literalFail h' => exact .fails

theorem charIn {k : CharClass} (hplace : c.rest ≠ [] ∨ ∀ a ∈ idle, k.contains a = false)
    (h : Derives g (.charIn k) c d) : Stable g idle true (.charIn k) c d := by
  intro w c' d' hpad h'
  cases h with
  | charIn hnext hmem =>
      have hread : Derives g (.charIn k) c' _ := .charIn (Cursor.next?_padded hpad hnext) hmem
      cases h'.functional hread
      exact .of_rest rfl rfl rfl
  | charInOther hnext hmem =>
      cases h'.functional (.charInOther (Cursor.next?_padded hpad hnext) hmem)
      exact .fails
  | charInEnd hnext =>
      rw [Cursor.next?_eq_none_iff] at hnext
      have hidle := hplace.resolve_left (not_not_intro hnext)
      cases h' with
      | @charIn _ _ stop a hnext' hmem =>
          obtain ⟨hrest, -⟩ := Cursor.next?_eq_some_iff.mp hnext'
          rw [hpad.rest, hnext, List.nil_append] at hrest
          have ha := hidle a (hpad.isIdle a (by simp [hrest]))
          rw [hmem] at ha
          cases ha
      | charInOther hnext' hmem => exact .fails
      | charInEnd hnext' => exact .fails

theorem anyChar (hplace : c.rest ≠ []) (h : Derives g .anyChar c d) :
    Stable g idle true .anyChar c d := by
  intro w c' d' hpad h'
  cases h with
  | anyChar hnext =>
      have hread : Derives g .anyChar c' _ := .anyChar (Cursor.next?_padded hpad hnext)
      cases h'.functional hread
      exact .of_rest rfl rfl rfl
  | anyCharEnd hnext => exact absurd (Cursor.next?_eq_none_iff.mp hnext) hplace

theorem rule {r : ρ} (h : Stable g idle tight (g.rule r).body c d) :
    Stable g idle tight (.rule r) c (d.map fun m => ⟨m.stop, m.value, []⟩) := by
  intro w c' d' hpad h'
  cases h' with
  | rule h' =>
      cases h hpad h' with
      | reads hfollows htight =>
          exact .reads (hfollows.replace fun hleft => ⟨(hfollows.same hleft).1, rfl⟩) htight
  | ruleFail h' =>
      cases h hpad h'
      exact .fails

theorem of_body {r : ρ}
    (hbody : ∀ ⦃d⦄, Derives g (g.rule r).body c d → Stable g idle tight (g.rule r).body c d)
    (h : Derives g (.rule r) c d) : Stable g idle tight (.rule r) c d := by
  cases h with
  | rule h => exact (hbody h).rule
  | ruleFail h => exact (hbody h).rule

theorem seqNil : Stable g idle true (.seq []) c (some ⟨c, .list [], []⟩) := by
  intro w c' d' hpad h'
  cases h'
  exact .of_rest hpad.rest rfl rfl

theorem seqCons {stop : Cursor} {values : List (Value ν)} {labels : List (String × Value ν)}
    (hhead : Stable g idle tight t c (some m))
    (htail : Stable g idle tight' (.seq ts) m.stop (some ⟨stop, .list values, labels⟩))
    (hreach : m.stop.Reaches stop) {both : Bool}
    (htight : both = true → tight' = true ∧ (tight = true ∨ m.stop.rest ≠ [])) :
    Stable g idle both (.seq (t :: ts)) c
      (some ⟨stop, .list (m.value :: values), labels ++ m.labels⟩) := by
  intro w c' d' hpad h'
  cases h' with
  | seqFail hhead' => exact absurd hhead' (hhead.not_fails hpad)
  | seqTailFail hhead' htail' =>
      obtain ⟨left, hfollows, -⟩ := hhead.follows hpad hhead'
      exact absurd htail' (htail.not_fails (hfollows.padded hpad))
  | seqCons hhead' htail' =>
      obtain ⟨left, hfollows, hleft⟩ := hhead.follows hpad hhead'
      obtain ⟨left', hmore, hleft'⟩ := htail.follows (hfollows.padded hpad) htail'
      refine .reads (hfollows.cons hreach hmore) fun hboth => ?_
      obtain ⟨hlast, hfirst | hinside⟩ := htight hboth
      · rw [hleft' hlast, hleft hfirst]
      · rw [hleft' hlast, hfollows.atEnd hinside]

theorem seqFail (h : Stable g idle tight t c none) :
    Stable g idle tight' (.seq (t :: ts)) c none := by
  intro w c' d' hpad h'
  cases h' with
  | seqCons hhead' htail' => exact absurd hhead' (h.not_reads hpad)
  | seqFail hhead' => exact .fails
  | seqTailFail hhead' htail' => exact .fails

theorem seqTailFail (hhead : Stable g idle tight t c (some m))
    (htail : Stable g idle tight' (.seq ts) m.stop none) {both : Bool} :
    Stable g idle both (.seq (t :: ts)) c none := by
  intro w c' d' hpad h'
  cases h' with
  | seqCons hhead' htail' =>
      obtain ⟨left, hfollows, -⟩ := hhead.follows hpad hhead'
      exact absurd htail' (htail.not_reads (hfollows.padded hpad))
  | seqFail hhead' => exact .fails
  | seqTailFail hhead' htail' => exact .fails

theorem choiceHere (h : Stable g idle tight t c (some m)) :
    Stable g idle tight (.choice (t :: ts)) c (some m) := by
  intro w c' d' hpad h'
  cases h' with
  | choiceHere h' => exact h hpad h'
  | choiceLater hfail' h' => exact absurd hfail' (h.not_fails hpad)

theorem choiceLater (hfail : Stable g idle tight t c none)
    (h : Stable g idle tight' (.choice ts) c d) :
    Stable g idle tight' (.choice (t :: ts)) c d := by
  intro w c' d' hpad h'
  cases h' with
  | choiceHere h' => exact absurd h' (hfail.not_reads hpad)
  | choiceLater hfail' h' => exact h hpad h'

theorem starStop (h : Stable g idle tight t c none) :
    Stable g idle true (.star t) c (some ⟨c, .list [], []⟩) := by
  intro w c' d' hpad h'
  cases h' with
  | starStop h' => exact .of_rest hpad.rest rfl rfl
  | starEmpty h' => exact absurd h' (h.not_reads hpad)
  | starMore h' hmoved hrest => exact absurd h' (h.not_reads hpad)

/-- At the end of the source a repetition may go on with the added characters. -/
theorem starStop_of_end (hconsumes : Consumes g t) (hend : c.rest = []) :
    Stable g idle false (.star t) c (some ⟨c, .list [], []⟩) := by
  intro w c' d' hpad h'
  have hw : c'.rest = w := by rw [hpad.rest, hend, List.nil_append]
  cases h' with
  | starStop h' => exact .of_rest hpad.rest rfl rfl
  | starEmpty h' => exact absurd (hconsumes h') (Nat.lt_irrefl _)
  | @starMore _ _ stop m values labels h' hmoved hrest =>
      obtain ⟨cs, hcs, -⟩ := hrest.reaches
      obtain ⟨ds, hds, -⟩ := h'.reaches
      have hmore : stop.rest.length < w.length := by
        have hless := hconsumes h'
        rw [hw, hcs, List.length_append] at hless
        exact Nat.lt_of_le_of_lt (Nat.le_add_left _ _) hless
      have hsuffix : stop.rest <:+ w := ⟨ds ++ cs, by rw [← hw, hds, hcs, List.append_assoc]⟩
      exact .of_isSuffix hend hsuffix fun hleft => Nat.lt_irrefl _ (hleft ▸ hmore)

theorem starMore {stop : Cursor} {values : List (Value ν)} {labels : List (String × Value ν)}
    (hround : Stable g idle tight t c (some m)) (hconsumes : Consumes g t)
    (hrest : Stable g idle tight' (.star t) m.stop (some ⟨stop, .list values, labels⟩))
    (hreach : m.stop.Reaches stop) (htight : tight' = true → tight = true) :
    Stable g idle tight' (.star t) c
      (some ⟨stop, .list (m.value :: values), labels ++ m.labels⟩) := by
  intro w c' d' hpad h'
  cases h' with
  | starStop h' => exact absurd h' (hround.not_fails hpad)
  | starEmpty h' => exact absurd (hconsumes h') (Nat.lt_irrefl _)
  | starMore h' hmoved hrest' =>
      obtain ⟨left, hfollows, hleft⟩ := hround.follows hpad h'
      obtain ⟨left', hmore, hleft'⟩ := hrest.follows (hfollows.padded hpad) hrest'
      refine .reads (hfollows.cons hreach hmore) fun hboth => ?_
      rw [hleft' hboth, hleft (htight hboth)]

theorem plus {stop : Cursor} {value : Value ν} {values : List (Value ν)}
    {labels : List (String × Value ν)}
    (h : Stable g idle tight (.star t) c (some ⟨stop, .list (value :: values), labels⟩))
    (hreach : c.Reaches stop) :
    Stable g idle tight (.plus t) c (some ⟨stop, .list (value :: values), labels⟩) := by
  intro w c' d' hpad h'
  cases h' with
  | plus h' => exact h hpad h'
  | plusFail h' =>
      -- The repetition would stop at once, before all of the added characters.
      obtain ⟨left, hfollows, -⟩ := h.follows hpad (.starStop h')
      obtain ⟨cs, hcs, -⟩ := hreach
      have hrest := hfollows.rest
      rw [hpad.rest, hcs, List.append_assoc] at hrest
      have hlength := congrArg List.length hrest
      simp only [List.length_append] at hlength
      have hleft : left = w := hfollows.isSuffix.eq_of_length_le (by omega)
      cases (hfollows.same hleft).1

theorem plusFail (h : Stable g idle tight t c none) :
    Stable g idle tight' (.plus t) c none := by
  intro w c' d' hpad h'
  cases h' with
  | plus h' =>
      cases h' with
      | starEmpty h' => exact absurd h' (h.not_reads hpad)
      | starMore h' hmoved hrest => exact absurd h' (h.not_reads hpad)
  | plusFail h' => exact .fails

theorem opt (h : Stable g idle tight t c (some m)) : Stable g idle tight (.opt t) c (some m) := by
  intro w c' d' hpad h'
  cases h' with
  | opt h' => exact h hpad h'
  | optAbsent h' => exact absurd h' (h.not_fails hpad)

theorem optAbsent (h : Stable g idle tight t c none) :
    Stable g idle tight' (.opt t) c (some ⟨c, .absent, []⟩) := by
  intro w c' d' hpad h'
  cases h' with
  | opt h' => exact absurd h' (h.not_reads hpad)
  | optAbsent h' => exact .of_rest hpad.rest rfl rfl

theorem not (h : Stable g idle tight t c none) :
    Stable g idle tight' (.not t) c (some ⟨c, .empty, []⟩) := by
  intro w c' d' hpad h'
  cases h' with
  | not h' => exact .of_rest hpad.rest rfl rfl
  | notFail h' => exact absurd h' (h.not_reads hpad)

theorem notFail (h : Stable g idle tight t c (some m)) :
    Stable g idle tight' (.not t) c none := by
  intro w c' d' hpad h'
  cases h' with
  | not h' => exact absurd h' (h.not_fails hpad)
  | notFail h' => exact .fails

theorem and (h : Stable g idle tight t c (some m)) :
    Stable g idle tight' (.and t) c (some ⟨c, .empty, []⟩) := by
  intro w c' d' hpad h'
  cases h' with
  | and h' => exact .of_rest hpad.rest rfl rfl
  | andFail h' => exact absurd h' (h.not_fails hpad)

theorem andFail (h : Stable g idle tight t c none) : Stable g idle tight' (.and t) c none := by
  intro w c' d' hpad h'
  cases h' with
  | and h' => exact absurd h' (h.not_reads hpad)
  | andFail h' => exact .fails

theorem label {name : String} (h : Stable g idle tight t c d) :
    Stable g idle tight (.label name t) c
      (d.map fun m => ⟨m.stop, .empty, (name, m.value) :: m.labels⟩) := by
  intro w c' d' hpad h'
  cases h' with
  | label h' =>
      cases h hpad h' with
      | reads hfollows htight =>
          refine .reads (hfollows.replace fun hleft => ?_) htight
          obtain ⟨hvalue, hlabels⟩ := hfollows.same hleft
          rw [hvalue, hlabels]
          exact ⟨rfl, rfl⟩
  | labelFail h' =>
      cases h hpad h'
      exact .fails

theorem pick {index : Nat} (h : Stable g idle tight t c d) :
    Stable g idle tight (.pick index t) c
      (d.map fun m => ⟨m.stop, m.value.pick index, m.labels⟩) := by
  intro w c' d' hpad h'
  cases h' with
  | pick h' =>
      cases h hpad h' with
      | reads hfollows htight =>
          refine .reads (hfollows.replace fun hleft => ?_) htight
          obtain ⟨hvalue, hlabels⟩ := hfollows.same hleft
          exact ⟨by rw [hvalue], hlabels⟩
  | pickFail h' =>
      cases h hpad h'
      exact .fails

theorem text (h : Stable g idle tight t c (some m)) (hreach : c.Reaches m.stop) :
    Stable g idle tight (.text t) c (some ⟨m.stop, .text (c.textTo m.stop), m.labels⟩) := by
  intro w c' d' hpad h'
  cases h' with
  | text h' =>
      obtain ⟨left, hfollows, htight⟩ := h.follows hpad h'
      refine .reads (hfollows.replace fun hleft => ?_) htight
      have hrest := hfollows.rest
      rw [hleft] at hrest
      rw [Cursor.textTo_padded hreach h'.reaches hpad.rest hrest]
      exact ⟨rfl, (hfollows.same hleft).2⟩
  | textFail h' => exact absurd h' (h.not_fails hpad)

theorem textFail (h : Stable g idle tight t c none) : Stable g idle tight' (.text t) c none := by
  intro w c' d' hpad h'
  cases h' with
  | text h' => exact absurd h' (h.not_reads hpad)
  | textFail h' => exact .fails

variable {act : ActionM ν (Value ν)}

/-- What a term that takes none of the added characters gives to an action is the same up to the
place. -/
theorem alike {w : List Char} {c' : Cursor} {m' : Reading ν} (hpad : c.Padded idle w c')
    (hreach : c.Reaches m.stop) (hreach' : c'.Reaches m'.stop) (hfollows : m.Follows w w m') :
    ActionInput.Alike ⟨m.labels, m.value, c, m.stop⟩ ⟨m'.labels, m'.value, c', m'.stop⟩ := by
  obtain ⟨hvalue, hlabels⟩ := hfollows.same rfl
  exact ⟨hlabels, hvalue, Cursor.textTo_padded hreach hreach' hpad.rest hfollows.rest⟩

/-- An action that may reject needs a tight term. -/
theorem action {value : Value ν} {left : ActionInput ν} (h : Stable g idle tight t c (some m))
    (hreach : c.Reaches m.stop) (hplaceless : act.Placeless)
    (haccepts : tight = true ∨ ∀ input, act input ≠ none)
    (hact : act ⟨m.labels, m.value, c, m.stop⟩ = some (value, left)) :
    Stable g idle tight (.action act t) c (some ⟨m.stop, value, []⟩) := by
  intro w c' d' hpad h'
  cases h' with
  | action h' hact' =>
      obtain ⟨left, hfollows, htight⟩ := h.follows hpad h'
      refine .reads (hfollows.replace fun hleft => ?_) htight
      subst hleft
      obtain ⟨left', hgives, -⟩ :=
        hplaceless.alike (alike hpad hreach h'.reaches hfollows) _ _ hact
      rw [hact'] at hgives
      cases hgives
      exact ⟨rfl, rfl⟩
  | actionReject h' hact' =>
      rcases haccepts with hall | hnone
      · obtain ⟨left, hfollows, htight⟩ := h.follows hpad h'
        cases htight hall
        obtain ⟨left', hgives, -⟩ :=
          hplaceless.alike (alike hpad hreach h'.reaches hfollows) _ _ hact
        rw [hact'] at hgives
        cases hgives
      · exact absurd hact' (hnone _)
  | actionFail h' => exact absurd h' (h.not_fails hpad)

theorem actionReject (h : Stable g idle true t c (some m)) (hreach : c.Reaches m.stop)
    (hplaceless : act.Placeless) (hact : act ⟨m.labels, m.value, c, m.stop⟩ = none) :
    Stable g idle tight' (.action act t) c none := by
  intro w c' d' hpad h'
  cases h' with
  | action h' hact' =>
      obtain ⟨left, hfollows, htight⟩ := h.follows hpad h'
      cases htight rfl
      rw [hplaceless.eq_none (alike hpad hreach h'.reaches hfollows) hact] at hact'
      cases hact'
  | actionReject h' hact' => exact .fails
  | actionFail h' => exact .fails

theorem actionFail (h : Stable g idle tight t c none) :
    Stable g idle tight' (.action act t) c none := by
  intro w c' d' hpad h'
  cases h' with
  | action h' hact' => exact absurd h' (h.not_reads hpad)
  | actionReject h' hact' => exact .fails
  | actionFail h' => exact .fails

end Stable

namespace Trailing

variable {g : Grammar ρ ν} {idle : List Char} {t : Term ρ ν} {ts : List (Term ρ ν)} {c : Cursor}

theorem stable {m : Reading ν} (h : Trailing g idle t c (some m)) :
    Stable g idle false t c (some m) :=
  fun _ _ _ hpad h' => (h hpad h').resolve_right nofun

theorem rule {r : ρ} {d : Option (Reading ν)} (h : Trailing g idle (g.rule r).body c d) :
    Trailing g idle (.rule r) c (d.map fun m => ⟨m.stop, m.value, []⟩) := by
  intro w c' d' hpad h'
  cases h' with
  | rule h' =>
      obtain hkept | ⟨rfl, m', hm', hend⟩ := h hpad h'
      · cases hkept with
        | reads hfollows _ =>
            exact .inl (.reads (hfollows.replace fun hleft => ⟨(hfollows.same hleft).1, rfl⟩) nofun)
      · cases hm'
        exact .inr ⟨rfl, _, rfl, hend⟩
  | ruleFail h' =>
      obtain hkept | ⟨-, m', hm', -⟩ := h hpad h'
      · cases hkept
        exact .inl .fails
      · cases hm'

theorem of_body {r : ρ} {d : Option (Reading ν)}
    (hbody : ∀ ⦃d⦄, Derives g (g.rule r).body c d → Trailing g idle (g.rule r).body c d)
    (h : Derives g (.rule r) c d) : Trailing g idle (.rule r) c d := by
  cases h with
  | rule h => exact (hbody h).rule
  | ruleFail h => exact (hbody h).rule

/-- A term that reads up to the end of the longer source leaves nothing for what has to take
something. -/
theorem seqFail {tight : Bool} (h : Trailing g idle t c none) (hconsumes : Consumes g (.seq ts)) :
    Stable g idle tight (.seq (t :: ts)) c none := by
  intro w c' d' hpad h'
  cases h' with
  | seqCons hhead' htail' =>
      obtain hkept | ⟨-, m', hm', hend⟩ := h hpad hhead'
      · nomatch hkept
      · cases hm'
        have hless := hconsumes htail'
        rw [hend] at hless
        exact absurd hless (Nat.not_lt_zero _)
  | seqFail hhead' => exact .fails
  | seqTailFail hhead' htail' => exact .fails

end Trailing

end PegScript
