/-
  BlockSync.Proofs.Json.Strings
  ─────────────────────────────
  **WHAT STANDS BETWEEN QUOTES.**

  A JSON string may write any character by an escape, and some characters only so.  Each
  unit of the text between the quotes is read as the unit that it writes
  (`takeUnits?_of_units`).  A text in which no character asks for an escape may be written
  as it is, and it is read back as it is.
-/
import BlockSync.Json.Reader

namespace BlockSync.Json

/-! ## §1. Units. -/

/-- A character that stands for itself in a string. -/
def Plain (c : Char) : Prop := c ≠ '"' ∧ c ≠ '\\' ∧ 0x20 ≤ c.toNat

instance (c : Char) : Decidable (Plain c) := inferInstanceAs (Decidable (_ ∧ _))

/-- The text of one unit: a character as it is, a letter that stands for a character, or
the four digits of a code. -/
inductive UnitText : StringUnit → List Char → Prop where
  | plain {c : Char} (h : Plain c) : UnitText (.char c) [c]
  | escape {c d : Char} (h : escaped? c = some d) : UnitText (.char d) ['\\', c]
  | code {a b c d : Char} {n : Nat} (h : fourDigits? a b c d = some n) :
      UnitText (.code n) ['\\', 'u', a, b, c, d]

/-- The text of some units, which is what stands between the quotes of a string. -/
inductive UnitsText : List StringUnit → List Char → Prop where
  | nil : UnitsText [] []
  | cons {u : StringUnit} {us : List StringUnit} {s t : List Char} (h : UnitText u s)
      (h' : UnitsText us t) : UnitsText (u :: us) (s ++ t)

theorem takeUnits?_unit {u : StringUnit} {s : List Char} (h : UnitText u s) (rest : List Char) :
    takeUnits? (s ++ rest) = (takeUnits? rest).map fun (us, rest) => (u :: us, rest) := by
  cases h with
  | @plain c h =>
    obtain ⟨hquote, hslash, hcontrol⟩ := h
    show takeUnits? (c :: rest) = _
    rw [takeUnits?, if_neg (Nat.not_lt.mpr hcontrol)]
    · exact hquote
    · exact fun _ _ _ _ _ heq _ => hslash heq
    · exact fun _ _ heq _ => hslash heq
  | @escape c d h =>
    show takeUnits? ('\\' :: c :: rest) = _
    rw [takeUnits?, h]
    · cases takeUnits? rest <;> rfl
    · -- no character is written by the letter of the codes
      rintro _ _ _ _ _ rfl -
      cases h
  | @code a b c d n h =>
    show takeUnits? ('\\' :: 'u' :: a :: b :: c :: d :: rest) = _
    rw [takeUnits?, h]
    cases takeUnits? rest <;> rfl

/-- **Units are read up to the quote**, as they are written. -/
theorem takeUnits?_of_units {us : List StringUnit} {s : List Char} (h : UnitsText us s)
    (rest : List Char) : takeUnits? (s ++ '"' :: rest) = some (us, rest) := by
  induction h with
  | nil =>
    show takeUnits? ('"' :: rest) = _
    unfold takeUnits?
    rfl
  | cons hunit _ ih => rw [List.append_assoc, takeUnits?_unit hunit, ih, Option.map_some]

/-! ## §2. Plain texts. -/

theorem plain_of_all {cs : List Char} (h : cs.all (fun c => decide (Plain c)) = true) :
    ∀ c ∈ cs, Plain c :=
  fun c hc => of_decide_eq_true (List.all_eq_true.mp h c hc)

/-- A plain text writes itself. -/
theorem UnitsText.of_plain {cs : List Char} (h : ∀ c ∈ cs, Plain c) :
    UnitsText (cs.map .char) cs := by
  induction cs with
  | nil => exact .nil
  | cons c cs ih =>
    obtain ⟨hc, hcs⟩ := List.forall_mem_cons.mp h
    exact .cons (.plain hc) (ih hcs)

theorem joinUnits?_map_char (cs : List Char) : joinUnits? (cs.map .char) = some cs := by
  induction cs with
  | nil => rfl
  | cons c cs ih =>
    show (joinUnits? (cs.map .char)).map (c :: ·) = _
    rw [ih]
    rfl

/-- **A plain text between quotes is a string.** -/
theorem parse?_quoted {cs : List Char} (h : ∀ c ∈ cs, Plain c) :
    parse? ('"' :: cs ++ ['"']) = some (.string (some cs)) := by
  have hvalue : ∀ depth, takeValue? (depth + 1) ('"' :: cs ++ ['"'])
      = some (.string (some cs), []) := by
    intro depth
    show (takeUnits? (cs ++ ['"'])).map _ = _
    rw [takeUnits?_of_units (.of_plain h) [], Option.map_some]
    dsimp only
    rw [joinUnits?_map_char]
  unfold parse?
  rw [hvalue]
  rfl

end BlockSync.Json
