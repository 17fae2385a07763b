/-
  BlockSync.Proofs.Json.Numbers
  ─────────────────────────────
  **WHAT IS WRITTEN AS A NUMBER.**

  A number is a sign or none, a whole part without leading zeros, a fraction or none, and
  an exponent or none.  A reader cannot know where a number ends but by what follows it: a
  blank, a comma, a closing bracket, or nothing (`Ended`).  So each part is read as it is
  written if what follows could not belong to it (`takeNumber?_of_numberText`).

  The decimal digits of a natural number are a number, and its value is that number
  (`numberText_decimal`).
-/
import BlockSync.Block.Json

namespace BlockSync.Json

/-! ## §1. The parts of a number. -/

/-- One digit at least. -/
def Digits (s : List Char) : Prop := s ≠ [] ∧ ∀ c ∈ s, isDigit c = true

/-- A whole part: a single zero, or digits that begin with another one. -/
inductive Whole : List Char → Prop where
  | zero : Whole ['0']
  | digits {c : Char} {s : List Char} (hc : c ≠ '0') (h : ∀ d ∈ c :: s, isDigit d = true) :
      Whole (c :: s)

/-- The ten digits. -/
theorem mem_of_isDigit {c : Char} (h : isDigit c = true) :
    c = '0' ∨ c = '1' ∨ c = '2' ∨ c = '3' ∨ c = '4' ∨ c = '5' ∨ c = '6' ∨ c = '7' ∨ c = '8'
      ∨ c = '9' := by
  unfold isDigit at h
  obtain ⟨hlow, hhigh⟩ := Bool.and_eq_true_iff.mp h
  have hlow' : 48 ≤ c.toNat := of_decide_eq_true hlow
  have hhigh' : c.toNat ≤ 57 := of_decide_eq_true hhigh
  simp only [← Char.toNat_inj]
  simp only [Char.reduceToNat]
  omega

/-- A fraction, or none. -/
inductive FractionText : Bool → List Char → Prop where
  | none : FractionText false []
  | some {s : List Char} (h : Digits s) : FractionText true ('.' :: s)

/-- An exponent, or none. -/
inductive ExponentText : Bool → List Char → Prop where
  | none : ExponentText false []
  | unsigned {e : Char} {s : List Char} (he : e = 'e' ∨ e = 'E') (h : Digits s) :
      ExponentText true (e :: s)
  | signed {e sign : Char} {s : List Char} (he : e = 'e' ∨ e = 'E')
      (hsign : sign = '+' ∨ sign = '-') (h : Digits s) : ExponentText true (e :: sign :: s)

/-- The sign of a negative number, or none. -/
inductive SignText : Bool → List Char → Prop where
  | none : SignText false []
  | minus : SignText true ['-']

/-- A number, with its value if it has no sign, fraction or exponent. -/
inductive NumberText : Option Nat → List Char → Prop where
  | mk {negative fraction exponent : Bool} {sign whole f e : List Char}
      (hsign : SignText negative sign) (hwhole : Whole whole) (hf : FractionText fraction f)
      (he : ExponentText exponent e) :
      NumberText (if !negative && !fraction && !exponent then some (decimalValue whole) else none)
        (sign ++ (whole ++ (f ++ e)))

/-! ## §2. What may follow. -/

/-- The text goes on with a blank, a comma or a closing bracket, or it is at its end. -/
def Ended (s : List Char) : Prop :=
  ∀ c rest, s = c :: rest → isBlank c = true ∨ c = ',' ∨ c = ']' ∨ c = '\x7d'

/-- The text does not go on with a character of a kind. -/
def Lacks (p : Char → Bool) (s : List Char) : Prop := ∀ c rest, s = c :: rest → p c = false

theorem Lacks.nil (p : Char → Bool) : Lacks p [] := fun _ _ h => nomatch h

theorem Lacks.cons {p : Char → Bool} {c : Char} (h : p c = false) (s : List Char) :
    Lacks p (c :: s) := by
  rintro d rest heq
  cases heq
  exact h

theorem Ended.blank {c : Char} (h : isBlank c = true) (s : List Char) : Ended (c :: s) := by
  rintro d rest heq
  cases heq
  exact Or.inl h

/-- The characters that an end can begin with. -/
theorem mem_of_isBlank {c : Char} (h : isBlank c = true) : c ∈ [' ', '\t', '\n', '\r'] := by
  unfold isBlank at h
  simpa [or_assoc] using h

/-- A property that none of the few characters has at which a text can end. -/
theorem Ended.lacks {p : Char → Bool} {s : List Char} (h : Ended s)
    (hp : [' ', '\t', '\n', '\r', ',', ']', '\x7d'].any p = false) : Lacks p s := by
  have hp : ∀ c ∈ [' ', '\t', '\n', '\r', ',', ']', '\x7d'], p c = false :=
    fun c hc => Bool.eq_false_iff.mpr (List.any_eq_false.mp hp c hc)
  intro c rest hs
  rcases h c rest hs with hblank | rfl | rfl | rfl
  · have hmem := mem_of_isBlank hblank
    exact hp c (List.mem_append_left [',', ']', '\x7d'] hmem)
  · exact hp _ (by decide)
  · exact hp _ (by decide)
  · exact hp _ (by decide)

theorem takeWhile_of_lacks {p : Char → Bool} {s : List Char} (h : Lacks p s) :
    s.takeWhile p = [] ∧ s.dropWhile p = s := by
  cases s with
  | nil => exact ⟨rfl, rfl⟩
  | cons c s =>
    have hc := h c s rfl
    rw [List.takeWhile_cons, List.dropWhile_cons, hc]
    exact ⟨rfl, rfl⟩

/-- What is all of a kind is taken, up to what is not. -/
theorem takeWhile_append {p : Char → Bool} {s rest : List Char} (hs : ∀ c ∈ s, p c = true)
    (hrest : Lacks p rest) :
    (s ++ rest).takeWhile p = s ∧ (s ++ rest).dropWhile p = rest := by
  obtain ⟨htake, hdrop⟩ := takeWhile_of_lacks hrest
  rw [List.takeWhile_append_of_pos hs, List.dropWhile_append_of_pos hs, htake, hdrop,
    List.append_nil]
  exact ⟨rfl, rfl⟩

/-! ## §3. Each part is read. -/

theorem dropDigits?_append {s rest : List Char} (h : Digits s) (hrest : Lacks isDigit rest) :
    dropDigits? (s ++ rest) = some rest := by
  obtain ⟨hne, hall⟩ := h
  obtain ⟨htake, hdrop⟩ := takeWhile_append hall hrest
  unfold dropDigits?
  rw [htake, hdrop]
  cases s with
  | nil => exact absurd rfl hne
  | cons c s => rfl

theorem takeWhole?_append {s rest : List Char} (h : Whole s) (hrest : Lacks isDigit rest) :
    takeWhole? (s ++ rest) = some (s, rest) := by
  cases h with
  | zero => rfl
  | @digits c s hc h =>
    obtain ⟨htake, hdrop⟩ := takeWhile_append h hrest
    unfold takeWhole?
    split
    next heq =>
      cases heq
      exact absurd rfl hc
    next =>
      rw [htake, hdrop]

theorem takeFraction?_append {fraction : Bool} {s rest : List Char}
    (h : FractionText fraction s) (hdigit : Lacks isDigit rest) (hpoint : Lacks (· = '.') rest) :
    takeFraction? (s ++ rest) = some (fraction, rest) := by
  cases h with
  | none =>
    show takeFraction? rest = _
    unfold takeFraction?
    split
    next => exact absurd (hpoint _ _ rfl) (by decide)
    next => rfl
  | @some s h =>
    show (dropDigits? (s ++ rest)).map _ = _
    rw [dropDigits?_append h hdigit]
    rfl

theorem isDigit_head {s : List Char} (h : Digits s) :
    ∃ c rest, s = c :: rest ∧ isDigit c = true := by
  obtain ⟨hne, hall⟩ := h
  cases s with
  | nil => exact absurd rfl hne
  | cons c s => exact ⟨c, s, rfl, hall c List.mem_cons_self⟩

theorem takeExponent?_append {exponent : Bool} {s rest : List Char}
    (h : ExponentText exponent s) (hdigit : Lacks isDigit rest)
    (hletter : Lacks (fun c => c = 'e' || c = 'E') rest) :
    takeExponent? (s ++ rest) = some (exponent, rest) := by
  cases h with
  | none =>
    show takeExponent? rest = _
    unfold takeExponent?
    split
    next => exact absurd (hletter _ _ rfl) (by decide)
    next => exact absurd (hletter _ _ rfl) (by decide)
    next => rfl
  | @unsigned e s he h =>
    have hread : (dropDigits? (s ++ rest)).map (true, ·) = some (true, rest) := by
      rw [dropDigits?_append h hdigit]
      rfl
    -- the first digit is no sign
    obtain ⟨c, t, rfl, hc⟩ := isDigit_head h
    rcases mem_of_isDigit hc with rfl | rfl | rfl | rfl | rfl | rfl | rfl | rfl | rfl | rfl
    all_goals
      rcases he with rfl | rfl
      · exact hread
      · exact hread
  | @signed e sign s he hsign h =>
    have hread : (dropDigits? (s ++ rest)).map (true, ·) = some (true, rest) := by
      rw [dropDigits?_append h hdigit]
      rfl
    rcases he with rfl | rfl
    · rcases hsign with rfl | rfl
      · exact hread
      · exact hread
    · rcases hsign with rfl | rfl
      · exact hread
      · exact hread

theorem Whole.head {s : List Char} (h : Whole s) : ∃ c rest, s = c :: rest ∧ isDigit c = true := by
  cases h with
  | zero => exact ⟨'0', [], rfl, by decide⟩
  | @digits c s hc h => exact ⟨c, s, rfl, h c List.mem_cons_self⟩

theorem lacks_fraction {p : Char → Bool} {fraction : Bool} {f rest : List Char}
    (hf : FractionText fraction f) (hpoint : p '.' = false) (hrest : Lacks p rest) :
    Lacks p (f ++ rest) := by
  cases hf with
  | none => exact hrest
  | some => exact .cons hpoint _

theorem lacks_exponent {p : Char → Bool} {exponent : Bool} {e rest : List Char}
    (he : ExponentText exponent e) (hletter : p 'e' = false ∧ p 'E' = false)
    (hrest : Lacks p rest) : Lacks p (e ++ rest) := by
  cases he with
  | none => exact hrest
  | unsigned he =>
    rcases he with rfl | rfl
    · exact .cons hletter.1 _
    · exact .cons hletter.2 _
  | signed he =>
    rcases he with rfl | rfl
    · exact .cons hletter.1 _
    · exact .cons hletter.2 _

/-- Whether a number has a sign, and what follows it. -/
def dropSign (s : List Char) : Bool × List Char :=
  match s with
  | '-' :: rest => (true, rest)
  | _ => (false, s)

theorem dropSign_append {negative : Bool} {sign t : List Char} (h : SignText negative sign)
    (ht : Lacks (· = '-') t) : dropSign (sign ++ t) = (negative, t) := by
  cases h with
  | minus => rfl
  | none =>
    show dropSign t = _
    unfold dropSign
    split
    next => exact absurd (ht _ _ rfl) (by decide)
    next => rfl

/-- The three parts of a number behind its sign. -/
def takeUnsigned? (negative : Bool) (s : List Char) : Option (Json × List Char) :=
  (takeWhole? s).bind fun w => (takeFraction? w.2).bind fun f => (takeExponent? f.2).bind fun e =>
    some (.number (if !negative && !f.1 && !e.1 then some (decimalValue w.1) else none), e.2)

theorem takeNumber?_eq (s : List Char) :
    takeNumber? s = takeUnsigned? (dropSign s).1 (dropSign s).2 := rfl

/-- A number begins with a digit or a minus. -/
theorem NumberText.head {n : Option Nat} {s : List Char} (h : NumberText n s) :
    ∃ c rest, s = c :: rest ∧ (isDigit c = true ∨ c = '-') := by
  cases h with
  | mk hsign hwhole =>
    cases hsign with
    | none =>
      obtain ⟨c, t, rfl, hc⟩ := hwhole.head
      exact ⟨c, _, rfl, Or.inl hc⟩
    | minus => exact ⟨'-', _, rfl, Or.inr rfl⟩

/-- **A number is read up to its end**, as it is written. -/
theorem takeNumber?_of_numberText {n : Option Nat} {s rest : List Char} (h : NumberText n s)
    (hrest : Ended rest) : takeNumber? (s ++ rest) = some (.number n, rest) := by
  have hdigit : Lacks isDigit rest := hrest.lacks rfl
  have hpoint : Lacks (· = '.') rest := hrest.lacks rfl
  have hletter : Lacks (fun c => c = 'e' || c = 'E') rest := hrest.lacks rfl
  cases h with
  | @mk negative fraction exponent sign whole f e hsign hwhole hf he =>
    have hdigitE : Lacks isDigit (e ++ rest) := lacks_exponent he (by decide) hdigit
    have hwholeRead := takeWhole?_append hwhole (lacks_fraction hf (by decide) hdigitE)
    have hfRead := takeFraction?_append hf hdigitE (lacks_exponent he (by decide) hpoint)
    have heRead := takeExponent?_append he hdigit hletter
    have hsigned : Lacks (· = '-') (whole ++ (f ++ (e ++ rest))) := by
      obtain ⟨c, t, rfl, hc⟩ := hwhole.head
      refine .cons (decide_eq_false fun hminus => ?_) _
      rw [hminus] at hc
      cases hc
    rw [List.append_assoc, List.append_assoc, List.append_assoc, takeNumber?_eq,
      dropSign_append hsign hsigned]
    unfold takeUnsigned?
    rw [hwholeRead, Option.bind_some, hfRead, Option.bind_some, heRead]
    rfl

/-! ## §4. Natural numbers. -/

theorem exists_digitChar_of_mem {base : Nat} (hbase : 1 < base) {c : Char} (n : Nat)
    (hc : c ∈ Nat.toDigits base n) : ∃ k < base, c = k.digitChar := by
  induction n using Nat.strongRecOn with
  | ind n ih =>
    rcases Nat.lt_or_ge n base with hlt | hge
    · rw [Nat.toDigits_of_lt_base hlt] at hc
      exact ⟨n, hlt, List.mem_singleton.mp hc⟩
    · rw [Nat.toDigits_of_base_le hbase hge] at hc
      rcases List.mem_append.mp hc with hfront | hlast
      · exact ih (n / base) (Nat.div_lt_self (by omega) hbase) hfront
      · exact ⟨n % base, Nat.mod_lt n (by omega), List.mem_singleton.mp hlast⟩

/-- The digits of a positive number do not begin with a zero. -/
theorem exists_toDigits_eq (n : Nat) (hn : 0 < n) :
    ∃ c s, Nat.toDigits 10 n = c :: s ∧ c ≠ '0' := by
  induction n using Nat.strongRecOn with
  | ind n ih =>
    rcases Nat.lt_or_ge n 10 with hlt | hge
    · have hfirst : ∀ k < 10, 0 < k → k.digitChar ≠ '0' := by decide
      exact ⟨n.digitChar, [], Nat.toDigits_of_lt_base hlt, hfirst n hlt hn⟩
    · -- one more digit behind those of a tenth
      obtain ⟨c, s, heq, hc⟩ := ih (n / 10) (by omega) (by omega)
      refine ⟨c, s ++ [(n % 10).digitChar], ?_, hc⟩
      rw [Nat.toDigits_of_base_le (by decide) hge, heq]
      rfl

theorem whole_decimal (n : Nat) : Whole (Nat.toDigits 10 n) := by
  rcases Nat.eq_zero_or_pos n with rfl | hn
  · exact .zero
  · obtain ⟨c, s, heq, hc⟩ := exists_toDigits_eq n hn
    rw [heq]
    refine .digits hc fun d hd => ?_
    have hvalue : ∀ k < 10, isDigit k.digitChar = true := by decide
    obtain ⟨k, hk, rfl⟩ := exists_digitChar_of_mem (by decide) n (heq ▸ hd)
    exact hvalue k hk

theorem decimalValue_toDigits (n : Nat) : decimalValue (Nat.toDigits 10 n) = n := by
  unfold decimalValue
  rw [← Nat.ofDigitChars_eq_foldl, Nat.ofDigitChars_ten_toDigits]

/-- **The decimal digits of a natural number are a number**, and this is its value. -/
theorem numberText_decimal (n : Nat) : NumberText (some n) (Block.decimalDigits n) := by
  have h := NumberText.mk .none (whole_decimal n) .none .none
  rw [decimalValue_toDigits, List.append_nil, List.append_nil] at h
  exact h

end BlockSync.Json
