/-
  BlockSync.Proofs.Json.Grammar
  ─────────────────────────────
  **EVERY JSON TEXT IS READ AS WHAT IT SAYS.**

  `Written` says which texts a value may be written as, without a word on how a text is
  read: the items of an array and the members of an object in their order, blanks wherever
  they may stand, numbers and strings in each of their forms.

  A piece of a text is read up to its end, whatever may follow it there, by any reader with
  a bound of twice its length (`read_of_written`).  So a value with blanks around it is
  read as that value (`parse?_of_written`), and a text writes one value at most.
-/
import BlockSync.Proofs.Json.Numbers
import BlockSync.Proofs.Json.Strings

namespace BlockSync.Json

/-! ## §1. What is written. -/

/-- Blanks, or nothing. -/
def Blank (s : List Char) : Prop := ∀ c ∈ s, isBlank c = true

/-- What a piece of a text stands for. -/
inductive Piece where
  | value (j : Json)
  /-- A value with blanks around it. -/
  | element (j : Json)
  /-- What stands between the brackets of an array with an item. -/
  | items (js : List Json)
  /-- A name and its value. -/
  | member (m : Option (List Char) × Json)
  /-- What stands between the braces of an object with a member. -/
  | members (ms : List (Option (List Char) × Json))

/-- **The texts of a piece.** -/
inductive Written : Piece → List Char → Prop where
  | null : Written (.value .null) ['n', 'u', 'l', 'l']
  | yes : Written (.value (.bool true)) ['t', 'r', 'u', 'e']
  | no : Written (.value (.bool false)) ['f', 'a', 'l', 's', 'e']
  | number {n : Option Nat} {s : List Char} (h : NumberText n s) : Written (.value (.number n)) s
  | string {us : List StringUnit} {s : List Char} (h : UnitsText us s) :
      Written (.value (.string (joinUnits? us))) ('"' :: (s ++ ['"']))
  | emptyArray {w : List Char} (hw : Blank w) : Written (.value (.array [])) ('[' :: (w ++ [']']))
  | array {js : List Json} {s : List Char} (h : Written (.items js) s) :
      Written (.value (.array js)) ('[' :: (s ++ [']']))
  | emptyObject {w : List Char} (hw : Blank w) :
      Written (.value (.object [])) ('\x7b' :: (w ++ ['\x7d']))
  | object {ms : List (Option (List Char) × Json)} {s : List Char} (h : Written (.members ms) s) :
      Written (.value (.object ms)) ('\x7b' :: (s ++ ['\x7d']))
  | element {j : Json} {before s after : List Char} (hbefore : Blank before)
      (h : Written (.value j) s) (hafter : Blank after) :
      Written (.element j) (before ++ (s ++ after))
  | lastItem {j : Json} {s : List Char} (h : Written (.element j) s) : Written (.items [j]) s
  | items {j : Json} {js : List Json} {s t : List Char} (h : Written (.element j) s)
      (h' : Written (.items js) t) : Written (.items (j :: js)) (s ++ ',' :: t)
  | member {us : List StringUnit} {j : Json} {before name after s : List Char}
      (hbefore : Blank before) (hname : UnitsText us name) (hafter : Blank after)
      (h : Written (.element j) s) :
      Written (.member (joinUnits? us, j))
        (before ++ '"' :: (name ++ '"' :: (after ++ ':' :: s)))
  | lastMember {m : Option (List Char) × Json} {s : List Char} (h : Written (.member m) s) :
      Written (.members [m]) s
  | members {m : Option (List Char) × Json} {ms : List (Option (List Char) × Json)}
      {s t : List Char} (h : Written (.member m) s) (h' : Written (.members ms) t) :
      Written (.members (m :: ms)) (s ++ ',' :: t)

/-! ## §2. Blanks. -/

theorem dropBlanks_append {w : List Char} (hw : Blank w) (s : List Char) :
    dropBlanks (w ++ s) = dropBlanks s :=
  List.dropWhile_append_of_pos hw

theorem dropBlanks_cons {c : Char} (hc : isBlank c = false) (s : List Char) :
    dropBlanks (c :: s) = c :: s := by
  unfold dropBlanks
  rw [List.dropWhile_cons, hc]
  rfl

theorem dropBlanks_dropBlanks (s : List Char) : dropBlanks (dropBlanks s) = dropBlanks s := by
  induction s with
  | nil => rfl
  | cons c s ih =>
    cases hc : isBlank c with
    | true => rw [show dropBlanks (c :: s) = dropBlanks s from List.dropWhile_cons_of_pos hc, ih]
    | false => rw [dropBlanks_cons hc, dropBlanks_cons hc]

/-- Blanks may stand where a text is at its end. -/
theorem Ended.append {w rest : List Char} (hw : Blank w) (hrest : Ended rest) :
    Ended (w ++ rest) := by
  cases w with
  | nil => exact hrest
  | cons c w => exact .blank (hw c List.mem_cons_self) _

/-- Readers skip blanks in front. -/
theorem takeValue?_dropBlanks (d : Nat) (s : List Char) :
    takeValue? d (dropBlanks s) = takeValue? d s := by
  cases d with
  | zero => rfl
  | succ d => rw [takeValue?, takeValue?, dropBlanks_dropBlanks]

theorem takeItems?_dropBlanks (d : Nat) (s : List Char) :
    takeItems? d (dropBlanks s) = takeItems? d s := by
  cases d with
  | zero => rfl
  | succ d => rw [takeItems?, takeItems?, takeValue?_dropBlanks]

theorem takeMembers?_dropBlanks (d : Nat) (s : List Char) :
    takeMembers? d (dropBlanks s) = takeMembers? d s := by
  cases d with
  | zero => rfl
  | succ d => rw [takeMembers?, takeMembers?, dropBlanks_dropBlanks]

/-! ## §3. One construct at a time. -/

/-- What a reader of values does behind the opening bracket of an array. -/
def behindBracket (d : Nat) (s : List Char) : Option (Json × List Char) :=
  match dropBlanks s with
  | ']' :: rest => some (.array [], rest)
  | rest => (takeItems? d rest).map fun (items, rest) => (.array items, rest)

/-- What a reader of values does behind the opening brace of an object. -/
def behindBrace (d : Nat) (s : List Char) : Option (Json × List Char) :=
  match dropBlanks s with
  | '\x7d' :: rest => some (.object [], rest)
  | rest => (takeMembers? d rest).map fun (members, rest) => (.object members, rest)

/-- What a reader of items does behind an item. -/
def behindItem (d : Nat) (j : Json) (t : List Char) : Option (List Json × List Char) :=
  match dropBlanks t with
  | ',' :: rest => (takeItems? d rest).map fun (items, rest) => (j :: items, rest)
  | ']' :: rest => some ([j], rest)
  | _ => none

/-- What a reader of members does behind a member. -/
def behindMember (d : Nat) (m : Option (List Char) × Json) (t : List Char) :
    Option (List (Option (List Char) × Json) × List Char) :=
  match dropBlanks t with
  | ',' :: rest => (takeMembers? d rest).map fun (ms, rest) => (m :: ms, rest)
  | '\x7d' :: rest => some ([m], rest)
  | _ => none

theorem behindItem_congr {t u : List Char} (h : dropBlanks t = dropBlanks u) (d : Nat)
    (j : Json) : behindItem d j t = behindItem d j u := by
  unfold behindItem
  rw [h]

theorem behindMember_congr {t u : List Char} (h : dropBlanks t = dropBlanks u) (d : Nat)
    (m : Option (List Char) × Json) : behindMember d m t = behindMember d m u := by
  unfold behindMember
  rw [h]

section Constructs

variable {d : Nat} {j : Json} {s t rest : List Char}

theorem takeValue?_array (h : ∀ r, dropBlanks s ≠ ']' :: r) :
    takeValue? (d + 1) ('[' :: s)
      = (takeItems? d s).map fun (items, rest) => (Json.array items, rest) := by
  show behindBracket d s = _
  rw [← takeItems?_dropBlanks]
  unfold behindBracket
  split
  next heq => exact absurd heq (h _)
  next => rfl

theorem takeValue?_object (h : ∀ r, dropBlanks s ≠ '\x7d' :: r) :
    takeValue? (d + 1) ('\x7b' :: s)
      = (takeMembers? d s).map fun (members, rest) => (Json.object members, rest) := by
  show behindBrace d s = _
  rw [← takeMembers?_dropBlanks]
  unfold behindBrace
  split
  next heq => exact absurd heq (h _)
  next => rfl

/-- A digit or a minus is where a number begins. -/
theorem takeValue?_number {c : Char} (hc : isDigit c = true ∨ c = '-') :
    takeValue? (d + 1) (c :: s) = takeNumber? (c :: s) := by
  rcases hc with hdigit | rfl
  · rcases mem_of_isDigit hdigit with
      rfl | rfl | rfl | rfl | rfl | rfl | rfl | rfl | rfl | rfl
    all_goals rfl
  · rfl

theorem takeItems?_item (h : takeValue? d s = some (j, t)) :
    takeItems? (d + 1) s = behindItem d j t := by
  rw [takeItems?, h]
  rfl

theorem takeMembers?_member {us : List StringUnit} {behind value : List Char}
    (hquote : dropBlanks s = '"' :: rest) (hname : takeUnits? rest = some (us, behind))
    (hcolon : dropBlanks behind = ':' :: value) (h : takeValue? d value = some (j, t)) :
    takeMembers? (d + 1) s = behindMember d (joinUnits? us, j) t := by
  rw [takeMembers?, hquote]
  simp only [hname, hcolon, h, Option.bind_eq_bind, Option.bind_some]
  rfl

end Constructs

/-! ## §4. How a piece begins. -/

/-- A value begins with no blank, and with no closing bracket. -/
theorem Written.head_value {j : Json} {s : List Char} (h : Written (.value j) s) :
    ∃ c rest, s = c :: rest ∧ isBlank c = false ∧ c ≠ ']' := by
  cases h with
  | number h =>
    obtain ⟨c, rest, hs, hc⟩ := h.head
    refine ⟨c, rest, hs, ?_⟩
    rcases hc with hdigit | rfl
    · rcases mem_of_isDigit hdigit with
        rfl | rfl | rfl | rfl | rfl | rfl | rfl | rfl | rfl | rfl
      all_goals decide
    · decide
  | _ => exact ⟨_, _, rfl, by decide, by decide⟩

/-- So behind the blanks in front of it there is no closing bracket. -/
theorem Written.head_element {j : Json} {s : List Char} (h : Written (.element j) s)
    (t r : List Char) : dropBlanks (s ++ t) ≠ ']' :: r := by
  cases h with
  | element hbefore h =>
    obtain ⟨c, rest, rfl, hblank, hc⟩ := h.head_value
    rw [List.append_assoc, dropBlanks_append hbefore]
    show dropBlanks (c :: _) ≠ _
    rw [dropBlanks_cons hblank]
    exact fun heq => hc (List.cons.inj heq).1

theorem Written.head_items {js : List Json} {s : List Char} (h : Written (.items js) s)
    (t r : List Char) : dropBlanks (s ++ t) ≠ ']' :: r := by
  cases h with
  | lastItem h => exact h.head_element t r
  | items h _ =>
    rw [List.append_assoc]
    exact h.head_element _ r

theorem Written.head_member {m : Option (List Char) × Json} {s : List Char}
    (h : Written (.member m) s) (t r : List Char) : dropBlanks (s ++ t) ≠ '\x7d' :: r := by
  cases h with
  | member hbefore =>
    rw [List.append_assoc, dropBlanks_append hbefore]
    show dropBlanks ('"' :: _) ≠ _
    rw [dropBlanks_cons (by decide)]
    exact fun heq => absurd (List.cons.inj heq).1 (by decide)

theorem Written.head_members {ms : List (Option (List Char) × Json)} {s : List Char}
    (h : Written (.members ms) s) (t r : List Char) : dropBlanks (s ++ t) ≠ '\x7d' :: r := by
  cases h with
  | lastMember h => exact h.head_member t r
  | members h _ =>
    rw [List.append_assoc]
    exact h.head_member _ r

/-! ## §5. Every piece is read. -/

/-- **A piece is read up to its end**, whatever may follow it there, with a bound of twice
its length.  The blanks behind a value are left to whoever asked for it. -/
def Piece.Read : Piece → List Char → Prop
  | .value j, s => ∀ d rest, 2 * s.length ≤ d → Ended rest →
      takeValue? d (s ++ rest) = some (j, rest)
  | .element j, s => ∀ d rest, 2 * s.length ≤ d → Ended rest →
      ∃ t, takeValue? d (s ++ rest) = some (j, t) ∧ dropBlanks t = dropBlanks rest
  | .items js, s => ∀ d rest, 2 * s.length < d →
      takeItems? d (s ++ ']' :: rest) = some (js, rest)
  | .member m, s => ∀ d rest, 2 * s.length ≤ d → Ended rest →
      takeMembers? (d + 1) (s ++ rest) = behindMember d m rest
  | .members ms, s => ∀ d rest, 2 * s.length < d →
      takeMembers? d (s ++ '\x7d' :: rest) = some (ms, rest)

theorem Ended.cons {c : Char} (h : c = ',' ∨ c = ']' ∨ c = '\x7d') (s : List Char) :
    Ended (c :: s) := by
  rintro d rest heq
  cases heq
  exact Or.inr h

/-- A bound for a text that is not empty. -/
theorem exists_succ_of_bound {c : Char} {s : List Char} {d : Nat}
    (h : 2 * (c :: s).length ≤ d) : ∃ e, d = e + 1 :=
  Nat.exists_eq_succ_of_ne_zero fun hd => by rw [hd] at h; cases h

section Pieces

variable {j : Json} {js : List Json} {m : Option (List Char) × Json}
  {ms : List (Option (List Char) × Json)} {s t w : List Char}

theorem read_literal {c : Char}
    (h : ∀ d rest, takeValue? (d + 1) (c :: (s ++ rest)) = some (j, rest)) :
    (Piece.value j).Read (c :: s) := by
  intro d rest hd _
  obtain ⟨d, rfl⟩ := exists_succ_of_bound hd
  exact h d rest

theorem read_number {n : Option Nat} (h : NumberText n s) : (Piece.value (.number n)).Read s := by
  intro d rest hd hrest
  obtain ⟨c, t, rfl, hc⟩ := h.head
  obtain ⟨d, rfl⟩ := exists_succ_of_bound hd
  exact (takeValue?_number hc).trans (takeNumber?_of_numberText h hrest)

theorem read_string {us : List StringUnit} (h : UnitsText us s) :
    (Piece.value (.string (joinUnits? us))).Read ('"' :: (s ++ ['"'])) := by
  refine read_literal fun d rest => ?_
  show (takeUnits? (s ++ ['"'] ++ rest)).map _ = _
  rw [List.append_assoc]
  show (takeUnits? (s ++ '"' :: rest)).map _ = _
  rw [takeUnits?_of_units h]
  rfl

theorem read_emptyArray (hw : Blank w) : (Piece.value (.array [])).Read ('[' :: (w ++ [']'])) := by
  refine read_literal fun d rest => ?_
  show behindBracket d (w ++ [']'] ++ rest) = _
  unfold behindBracket
  rw [List.append_assoc, dropBlanks_append hw]
  rfl

theorem read_emptyObject (hw : Blank w) :
    (Piece.value (.object [])).Read ('\x7b' :: (w ++ ['\x7d'])) := by
  refine read_literal fun d rest => ?_
  show behindBrace d (w ++ ['\x7d'] ++ rest) = _
  unfold behindBrace
  rw [List.append_assoc, dropBlanks_append hw]
  rfl

theorem read_array (h : Written (.items js) s) (ih : (Piece.items js).Read s) :
    (Piece.value (.array js)).Read ('[' :: (s ++ [']'])) := by
  intro d rest hd _
  obtain ⟨d, rfl⟩ := exists_succ_of_bound hd
  have hbound : 2 * s.length < d := by
    rw [List.length_cons, List.length_append] at hd
    omega
  show takeValue? (d + 1) ('[' :: (s ++ [']'] ++ rest)) = _
  rw [List.append_assoc, takeValue?_array (h.head_items _)]
  show (takeItems? d (s ++ ']' :: rest)).map _ = _
  rw [ih d rest hbound]
  rfl

theorem read_object (h : Written (.members ms) s) (ih : (Piece.members ms).Read s) :
    (Piece.value (.object ms)).Read ('\x7b' :: (s ++ ['\x7d'])) := by
  intro d rest hd _
  obtain ⟨d, rfl⟩ := exists_succ_of_bound hd
  have hbound : 2 * s.length < d := by
    rw [List.length_cons, List.length_append] at hd
    omega
  show takeValue? (d + 1) ('\x7b' :: (s ++ ['\x7d'] ++ rest)) = _
  rw [List.append_assoc, takeValue?_object (h.head_members _)]
  show (takeMembers? d (s ++ '\x7d' :: rest)).map _ = _
  rw [ih d rest hbound]
  rfl

theorem read_element {before after : List Char} (hbefore : Blank before)
    (hafter : Blank after) (ih : (Piece.value j).Read s) :
    (Piece.element j).Read (before ++ (s ++ after)) := by
  intro d rest hd hrest
  rw [List.length_append, List.length_append] at hd
  refine ⟨after ++ rest, ?_, dropBlanks_append hafter rest⟩
  rw [← takeValue?_dropBlanks, List.append_assoc, dropBlanks_append hbefore,
    takeValue?_dropBlanks, List.append_assoc]
  exact ih d _ (by omega) (hrest.append hafter)

theorem read_lastItem (ih : (Piece.element j).Read s) : (Piece.items [j]).Read s := by
  intro d rest hd
  obtain ⟨d, rfl⟩ := Nat.exists_eq_succ_of_ne_zero (Nat.ne_zero_of_lt hd)
  obtain ⟨t, hvalue, ht⟩ := ih d (']' :: rest) (Nat.le_of_lt_succ hd) (.cons (by decide) _)
  rw [takeItems?_item hvalue, behindItem_congr ht]
  rfl

theorem read_items (ih : (Piece.element j).Read s) (ih' : (Piece.items js).Read t) :
    (Piece.items (j :: js)).Read (s ++ ',' :: t) := by
  intro d rest hd
  obtain ⟨d, rfl⟩ := Nat.exists_eq_succ_of_ne_zero (Nat.ne_zero_of_lt hd)
  rw [List.length_append, List.length_cons] at hd
  obtain ⟨u, hvalue, hu⟩ := ih d (',' :: (t ++ ']' :: rest)) (by omega) (.cons (by decide) _)
  rw [List.append_assoc]
  show takeItems? (d + 1) (s ++ ',' :: (t ++ ']' :: rest)) = _
  rw [takeItems?_item hvalue, behindItem_congr hu]
  show (takeItems? d (t ++ ']' :: rest)).map _ = _
  rw [ih' d rest (by omega)]
  rfl

theorem read_member {us : List StringUnit} {before name after : List Char}
    (hbefore : Blank before) (hname : UnitsText us name) (hafter : Blank after)
    (ih : (Piece.element j).Read s) :
    (Piece.member (joinUnits? us, j)).Read
      (before ++ '"' :: (name ++ '"' :: (after ++ ':' :: s))) := by
  intro d rest hd hrest
  simp only [List.length_append, List.length_cons] at hd
  obtain ⟨t, hvalue, ht⟩ := ih d rest (by omega) hrest
  have hquote : dropBlanks (before ++ '"' :: (name ++ '"' :: (after ++ ':' :: s)) ++ rest)
      = '"' :: (name ++ '"' :: (after ++ ':' :: (s ++ rest))) := by
    rw [List.append_assoc, dropBlanks_append hbefore]
    show '"' :: (name ++ '"' :: (after ++ ':' :: s) ++ rest) = _
    rw [List.append_assoc]
    show '"' :: (name ++ '"' :: (after ++ ':' :: s ++ rest)) = _
    rw [List.append_assoc]
    rfl
  have hcolon : dropBlanks (after ++ ':' :: (s ++ rest)) = ':' :: (s ++ rest) :=
    dropBlanks_append hafter _
  rw [takeMembers?_member hquote (takeUnits?_of_units hname _) hcolon hvalue,
    behindMember_congr ht]

theorem read_lastMember (ih : (Piece.member m).Read s) : (Piece.members [m]).Read s := by
  intro d rest hd
  obtain ⟨d, rfl⟩ := Nat.exists_eq_succ_of_ne_zero (Nat.ne_zero_of_lt hd)
  exact ih d ('\x7d' :: rest) (Nat.le_of_lt_succ hd) (.cons (by decide) _)

theorem read_members (ih : (Piece.member m).Read s) (ih' : (Piece.members ms).Read t) :
    (Piece.members (m :: ms)).Read (s ++ ',' :: t) := by
  intro d rest hd
  obtain ⟨d, rfl⟩ := Nat.exists_eq_succ_of_ne_zero (Nat.ne_zero_of_lt hd)
  rw [List.length_append, List.length_cons] at hd
  rw [List.append_assoc]
  refine (ih d (',' :: (t ++ '\x7d' :: rest)) (by omega) (.cons (by decide) _)).trans ?_
  show (takeMembers? d (t ++ '\x7d' :: rest)).map _ = _
  rw [ih' d rest (by omega)]
  rfl

end Pieces

/-- **What is written is read.** -/
theorem read_of_written {p : Piece} {s : List Char} (h : Written p s) : p.Read s := by
  induction h with
  | null => exact read_literal fun _ _ => rfl
  | yes => exact read_literal fun _ _ => rfl
  | no => exact read_literal fun _ _ => rfl
  | number h => exact read_number h
  | string h => exact read_string h
  | emptyArray hw => exact read_emptyArray hw
  | array h ih => exact read_array h ih
  | emptyObject hw => exact read_emptyObject hw
  | object h ih => exact read_object h ih
  | element hbefore _ hafter ih => exact read_element hbefore hafter ih
  | lastItem _ ih => exact read_lastItem ih
  | items _ _ ih ih' => exact read_items ih ih'
  | member hbefore hname hafter _ ih => exact read_member hbefore hname hafter ih
  | lastMember _ ih => exact read_lastMember ih
  | members _ _ ih ih' => exact read_members ih ih'

/-- **A text is read as the value that it writes**, with blanks around it. -/
theorem parse?_of_written {j : Json} {s : List Char} (h : Written (.element j) s) :
    parse? s = some j := by
  have hend : Ended [] := fun c rest heq => nomatch heq
  obtain ⟨t, hvalue, ht⟩ := read_of_written h (2 * s.length + 2) [] (Nat.le_add_right _ _) hend
  rw [List.append_nil] at hvalue
  unfold parse?
  simp only [hvalue, Option.bind_eq_bind, Option.bind_some, ht]
  rfl

/-- So it writes no other value. -/
theorem Written.unique {j k : Json} {s : List Char} (h : Written (.element j) s)
    (h' : Written (.element k) s) : j = k :=
  Option.some.inj ((parse?_of_written h).symm.trans (parse?_of_written h'))

end BlockSync.Json
