import PegScript.Text.Cursor

/-!
# Places of one text

Matching only ever moves a cursor forward over whole characters.  This module says what that means
for the offset and for the text that is left, and that within one text the offset alone tells two
places apart.  The memo table relies on the last fact, since its keys hold offsets only.
-/

namespace PegScript

/-! ## Bytes of a text -/

/-- The number of bytes that the characters take. -/
def byteLength : List Char → Nat
  | [] => 0
  | a :: cs => a.utf8Size + byteLength cs

@[simp] theorem byteLength_nil : byteLength [] = 0 := rfl

@[simp] theorem byteLength_cons (a : Char) (cs : List Char) :
    byteLength (a :: cs) = a.utf8Size + byteLength cs := rfl

@[simp] theorem byteLength_append (cs ds : List Char) :
    byteLength (cs ++ ds) = byteLength cs + byteLength ds := by
  induction cs with
  | nil => simp
  | cons a cs ih => simp [ih, Nat.add_assoc]

theorem byteLength_eq_zero_iff {cs : List Char} :
    byteLength cs = 0 ↔ cs = [] := by
  cases cs with
  | nil => simp
  | cons a cs =>
      have hpos := a.utf8Size_pos
      constructor
      · intro h
        rw [byteLength_cons] at h
        omega
      · intro h
        cases h

/-- The size of a text is the number of bytes of its characters. -/
theorem utf8ByteSize_ofList (cs : List Char) :
    (String.ofList cs).utf8ByteSize = byteLength cs := by
  induction cs with
  | nil => simp
  | cons a cs ih =>
      have hcons : String.ofList (a :: cs) =
          String.singleton a ++ String.ofList cs := by
        apply String.toList_injective
        simp
      rw [hcons, String.utf8ByteSize_append, ih, byteLength_cons]
      simp

theorem utf8ByteSize_eq_byteLength (source : String) :
    source.utf8ByteSize = byteLength source.toList := by
  rw [← utf8ByteSize_ofList, String.ofList_toList]

/-- Of two beginnings of one text that have the same number of bytes, neither is longer. -/
theorem append_inj_of_byteLength_eq
    {cs ds rest rest' : List Char}
    (happend : cs ++ rest = ds ++ rest')
    (hbytes : byteLength cs = byteLength ds) :
    cs = ds ∧ rest = rest' := by
  induction cs generalizing ds with
  | nil =>
      have hds : ds = [] := byteLength_eq_zero_iff.mp hbytes.symm
      subst hds
      exact ⟨rfl, happend⟩
  | cons a cs ih =>
      cases ds with
      | nil => cases byteLength_eq_zero_iff.mp hbytes
      | cons b ds =>
          rw [List.cons_append, List.cons_append, List.cons.injEq] at happend
          obtain ⟨rfl, htail⟩ := happend
          rw [byteLength_cons, byteLength_cons] at hbytes
          obtain ⟨rfl, hrest⟩ := ih htail (by omega)
          exact ⟨rfl, hrest⟩

theorem takeBytes_byteLength (cs rest : List Char) :
    takeBytes (byteLength cs) (cs ++ rest) = cs := by
  induction cs with
  | nil => simp [takeBytes]
  | cons a cs ih =>
      obtain ⟨n, hn⟩ := Nat.exists_eq_succ_of_ne_zero
        (Nat.pos_iff_ne_zero.mp a.utf8Size_pos)
      have hlength : byteLength (a :: cs) = (n + byteLength cs) + 1 := by
        rw [byteLength_cons, hn]
        omega
      have hleft : n + byteLength cs + 1 - a.utf8Size = byteLength cs := by
        omega
      rw [hlength, List.cons_append, takeBytes, hleft, ih]

namespace Cursor

/-! ## Moving forward -/

/-- The later place `d` is reached from `c` by moving over whole characters. -/
def Reaches (c d : Cursor) : Prop :=
  ∃ cs, c.rest = cs ++ d.rest ∧ d.offset = c.offset + byteLength cs

theorem Reaches.refl (c : Cursor) : c.Reaches c :=
  ⟨[], rfl, rfl⟩

theorem Reaches.trans {c d e : Cursor}
    (h : c.Reaches d) (h' : d.Reaches e) : c.Reaches e := by
  obtain ⟨cs, hrest, hoffset⟩ := h
  obtain ⟨ds, hrest', hoffset'⟩ := h'
  refine ⟨cs ++ ds, ?_, ?_⟩
  · rw [hrest, hrest', List.append_assoc]
  · rw [hoffset', hoffset, byteLength_append, Nat.add_assoc]

theorem Reaches.offset_le {c d : Cursor}
    (h : c.Reaches d) : c.offset ≤ d.offset := by
  obtain ⟨cs, -, hoffset⟩ := h
  omega

theorem Reaches.byteLength_eq {c d : Cursor} (h : c.Reaches d) :
    byteLength c.rest = d.offset - c.offset + byteLength d.rest := by
  obtain ⟨cs, hrest, hoffset⟩ := h
  rw [hrest, byteLength_append]
  omega

/-- Two places reached from one place are equal if their offsets are. -/
theorem Reaches.eq_of_offset_eq {c d e : Cursor}
    (hd : c.Reaches d) (he : c.Reaches e)
    (hoffset : d.offset = e.offset) : d = e := by
  obtain ⟨cs, hrest, hd⟩ := hd
  obtain ⟨ds, hrest', he⟩ := he
  have hbytes : byteLength cs = byteLength ds := by omega
  have happend : cs ++ d.rest = ds ++ e.rest := by
    rw [← hrest, ← hrest']
  obtain ⟨-, htail⟩ := append_inj_of_byteLength_eq happend hbytes
  cases d
  cases e
  simp_all

/-- A step that takes no input stays where it is. -/
theorem Reaches.eq_iff_offset_eq {c d : Cursor} (h : c.Reaches d) :
    d.offset = c.offset ↔ d = c := by
  constructor
  · intro hoffset
    exact h.eq_of_offset_eq (Reaches.refl c) hoffset
  · intro heq
    rw [heq]

/-- A step that takes input leaves less of it. -/
theorem Reaches.byteLength_lt {c d : Cursor}
    (h : c.Reaches d) (hne : d ≠ c) :
    byteLength d.rest < byteLength c.rest := by
  have hoffset : d.offset ≠ c.offset := fun heq =>
    hne (h.eq_iff_offset_eq.mp heq)
  have hle := h.offset_le
  have hbytes := h.byteLength_eq
  omega

theorem next?_eq_none_iff {c : Cursor} : c.next? = none ↔ c.rest = [] := by
  cases c with
  | mk offset rest => cases rest <;> simp [next?]

theorem next?_eq_some_iff {c d : Cursor} {a : Char} :
    c.next? = some (a, d) ↔
      c.rest = a :: d.rest ∧ d.offset = c.offset + a.utf8Size := by
  cases c with
  | mk offset rest =>
      cases rest with
      | nil => simp [next?]
      | cons b rest =>
          cases d
          simp only [next?, Option.some.injEq, Prod.mk.injEq, mk.injEq, List.cons.injEq]
          grind

theorem reaches_of_next? {c d : Cursor} {a : Char}
    (h : c.next? = some (a, d)) : c.Reaches d := by
  obtain ⟨hrest, hoffset⟩ := next?_eq_some_iff.mp h
  refine ⟨[a], ?_, ?_⟩
  · rw [hrest, List.singleton_append]
  · rw [hoffset]
    simp

theorem reaches_of_skip? {same : Char → Char → Bool} {text : List Char}
    {c d : Cursor} (h : c.skip? same text = some d) :
    c.Reaches d := by
  induction text generalizing c with
  | nil =>
      cases h
      exact Reaches.refl _
  | cons a text ih =>
      unfold skip? at h
      cases hnext : c.next? with
      | none => simp [hnext] at h
      | some p =>
          obtain ⟨b, next⟩ := p
          simp only [hnext] at h
          split at h
          · exact (reaches_of_next? hnext).trans (ih h)
          · cases h

theorem reaches_of_skipLiteral? {text : String} {ignoreCase : Bool}
    {c d : Cursor} (h : c.skipLiteral? text ignoreCase = some d) :
    c.Reaches d := by
  unfold skipLiteral? at h
  split at h
  · exact reaches_of_skip? h
  · exact reaches_of_skip? h

/-- The text between two places is what lies between them. -/
theorem skip?_eq_some_iff {text : List Char} {c d : Cursor} :
    c.skip? (· == ·) text = some d ↔
      c.rest = text ++ d.rest ∧ d.offset = c.offset + byteLength text := by
  induction text generalizing c with
  | nil =>
      cases c
      cases d
      simp [skip?, and_comm, eq_comm]
  | cons a text ih =>
      rw [skip?]
      split
      case h_1 b next hnext =>
        obtain ⟨hrest, hoffset⟩ := next?_eq_some_iff.mp hnext
        by_cases hab : a = b
        · subst hab
          rw [if_pos BEq.rfl, ih, hrest, hoffset]
          simp [Nat.add_assoc]
        · simp [hab, hrest, Ne.symm hab]
      case h_2 hnext =>
        simp [next?_eq_none_iff.mp hnext]

/-- A fixed text is read exactly where the source goes on with it. -/
theorem skipLiteral?_eq_some_iff {text : String} {c d : Cursor} :
    c.skipLiteral? text false = some d ↔
      c.rest = text.toList ++ d.rest ∧ d.offset = c.offset + byteLength text.toList :=
  skip?_eq_some_iff

theorem skipLiteral?_eq_none_iff {text : String} {c : Cursor} :
    c.skipLiteral? text false = none ↔ ¬ text.toList <+: c.rest := by
  constructor
  · rintro h ⟨rest, hrest⟩
    have hsome : c.skipLiteral? text false =
        some ⟨c.offset + byteLength text.toList, rest⟩ :=
      skipLiteral?_eq_some_iff.mpr ⟨hrest.symm, rfl⟩
    rw [h] at hsome
    cases hsome
  · intro h
    cases hskip : c.skipLiteral? text false with
    | none => rfl
    | some d =>
        obtain ⟨hrest, -⟩ := skipLiteral?_eq_some_iff.mp hskip
        exact absurd ⟨d.rest, hrest.symm⟩ h

theorem textTo_eq_ofList {c d : Cursor} {cs : List Char}
    (hrest : c.rest = cs ++ d.rest)
    (hoffset : d.offset = c.offset + byteLength cs) :
    c.textTo d = String.ofList cs := by
  have hbytes : d.offset - c.offset = byteLength cs := by omega
  rw [textTo, hbytes, hrest, takeBytes_byteLength]

/-! ## Places of a source -/

/-- The cursor is a place of the source. -/
def IsPlaceOf (c : Cursor) (source : String) : Prop :=
  (start source).Reaches c

theorem start_isPlaceOf (source : String) :
    (start source).IsPlaceOf source :=
  Reaches.refl _

theorem IsPlaceOf.move {c d : Cursor} {source : String}
    (h : c.IsPlaceOf source) (hmove : c.Reaches d) :
    d.IsPlaceOf source :=
  Reaches.trans h hmove

theorem IsPlaceOf.eq_of_offset_eq {c d : Cursor} {source : String}
    (hc : c.IsPlaceOf source) (hd : d.IsPlaceOf source)
    (hoffset : c.offset = d.offset) : c = d :=
  Reaches.eq_of_offset_eq hc hd hoffset

theorem IsPlaceOf.offset_le {c : Cursor} {source : String} (h : c.IsPlaceOf source) :
    c.offset ≤ source.utf8ByteSize := by
  obtain ⟨cs, hrest, hoffset⟩ := h
  have hsize : source.utf8ByteSize = byteLength cs + byteLength c.rest := by
    rw [utf8ByteSize_eq_byteLength, ← byteLength_append, ← hrest, start]
  simp only [start] at hoffset
  omega

/-- The bytes behind a place, counted from its offset. -/
theorem IsPlaceOf.byteLength_rest {c : Cursor} {source : String}
    (h : c.IsPlaceOf source) :
    byteLength c.rest = source.utf8ByteSize - c.offset := by
  have hbytes := Reaches.byteLength_eq h
  rw [utf8ByteSize_eq_byteLength]
  simp only [start] at hbytes
  omega

end Cursor

end PegScript
