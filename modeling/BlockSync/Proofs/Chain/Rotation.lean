/-
  BlockSync.Proofs.Chain.Rotation
  ───────────────────────────────
  **BLOCKS THAT GO ROUND, AND BLOCKS THAT ARE LEFT OUT.**

  A rotation is a `Replay` that never runs out of positions:

      the front block is attempted
      it goes behind the others if it has no parent, and is gone otherwise

  Some of the blocks may be such that every attempt on them breaks down, and that the
  other verdicts are the same without them (`Blind`).  Then each of them is attempted
  once for each time that it was queued, in that order (`inOrder_after`).  And nobody
  else can tell whether they were there: a rotation with them is a rotation without
  them, at as many attempts as the others had (`after_filter`).
-/
import BlockSync.Proofs.Chain.Linked

namespace BlockSync

/-! ## §1. Rotations. -/

/-- How far a rotation has come: the attempts so far, and the blocks that wait. -/
structure Rotation where
  attempts : List (Block × Verdict)
  waiting : List Block

namespace Rotation

variable {answer : List Block → Block → Verdict} {bs rest : List Block} {b : Block} {n m : Nat}

/-- What a verdict puts behind the others. -/
def goesBack (b : Block) (v : Verdict) : List Block :=
  if v = .outcome .noParent then [b] else []

theorem goesBack_noParent (b : Block) : goesBack b (.outcome .noParent) = [b] := if_pos rfl

theorem goesBack_of_ne {v : Verdict} (h : v ≠ .outcome .noParent) : goesBack b v = [] := if_neg h

/-- One more attempt, if there is a block for it. -/
def next (answer : List Block → Block → Verdict) (r : Rotation) : Rotation :=
  match r.waiting with
  | [] => r
  | b :: rest =>
    let v := answer (r.attempts.map Prod.fst) b
    ⟨r.attempts ++ [(b, v)], rest ++ goesBack b v⟩

/-- What some blocks have come to when they were offered a number of attempts. -/
def after (answer : List Block → Block → Verdict) (bs : List Block) : Nat → Rotation
  | 0 => ⟨[], bs⟩
  | n + 1 => (after answer bs n).next answer

theorem after_succ_of_nil (h : (after answer bs n).waiting = []) :
    after answer bs (n + 1) = after answer bs n := by
  show (after answer bs n).next answer = _
  unfold next
  rw [h]

theorem after_succ_of_cons {es : List (Block × Verdict)}
    (h : after answer bs n = ⟨es, b :: rest⟩) :
    after answer bs (n + 1)
      = ⟨es ++ [(b, answer (es.map Prod.fst) b)],
        rest ++ goesBack b (answer (es.map Prod.fst) b)⟩ := by
  show (after answer bs n).next answer = _
  rw [h]
  rfl

theorem length_attempts_le : (after answer bs n).attempts.length ≤ n := by
  induction n with
  | zero => exact Nat.le_refl 0
  | succ n ih =>
    cases hafter : after answer bs n with
    | mk es waiting =>
      rw [hafter] at ih
      change es.length ≤ n at ih
      cases waiting with
      | nil =>
        rw [after_succ_of_nil (by rw [hafter]), hafter]
        exact Nat.le_succ_of_le ih
      | cons b rest =>
        rw [after_succ_of_cons hafter, List.length_append, List.length_singleton]
        exact Nat.succ_le_succ ih

/-- Where no block waits, all further offers are in vain. -/
theorem after_of_nil (h : (after answer bs n).waiting = []) (hle : n ≤ m) :
    after answer bs m = after answer bs n := by
  induction hle with
  | refl => rfl
  | @step m _ ih => rw [after_succ_of_nil (by rw [ih]; exact h), ih]

/-- Where there is one more attempt, a block waits for it. -/
theorem exists_waiting (hfull : (after answer bs m).attempts.length = m) (h : n < m) :
    ∃ b rest, (after answer bs n).waiting = b :: rest := by
  cases hwaiting : (after answer bs n).waiting with
  | nil =>
    exfalso
    have hle : (after answer bs n).attempts.length ≤ n := length_attempts_le
    rw [after_of_nil hwaiting (Nat.le_of_lt h)] at hfull
    omega
  | cons b rest => exact ⟨b, rest, rfl⟩

end Rotation

/-! ## §2. Blocks that are left out. -/

/-- Of the blocks that are not kept, those that have been attempted and those that are
still queued are all that there were, in their order. -/
def InOrder (keep : Block → Bool) (bs attempted queued : List Block) : Prop :=
  (attempted ++ queued).filter (!keep ·) = bs.filter (!keep ·)

/-- The other verdicts are the same without the blocks that are not kept, and every
attempt on one of those breaks down, as long as it is their turn. -/
structure Blind (answer : List Block → Block → Verdict) (keep : Block → Bool)
    (bs : List Block) : Prop where
  kept : ∀ (ended : List Block) {b : Block}, keep b = true →
    answer (ended.filter keep) b = answer ended b
  dropped : ∀ {ended rest : List Block} {b : Block}, keep b = false →
    InOrder keep bs ended (b :: rest) → (answer ended b).outcome? = none

section LeftOut

open Rotation (after goesBack goesBack_of_ne after_succ_of_nil after_succ_of_cons)

variable {answer : List Block → Block → Verdict} {keep : Block → Bool} {bs ended rest : List Block}
  {b : Block}

namespace InOrder

theorem start : InOrder keep bs [] bs := rfl

/-- Who is taken from the front is the next to be attempted. -/
theorem taken_iff : InOrder keep bs ended (b :: rest) ↔ InOrder keep bs (ended ++ [b]) rest := by
  unfold InOrder
  rw [List.append_assoc]
  rfl

/-- A kept block may go behind the others. -/
theorem concat (h : InOrder keep bs ended rest) (hb : keep b = true) :
    InOrder keep bs ended (rest ++ [b]) := by
  unfold InOrder at h ⊢
  rw [← List.append_assoc, List.filter_append, List.filter_cons_of_neg (by simp [hb]),
    List.filter_nil, List.append_nil]
  exact h

end InOrder

namespace Blind

theorem goesBack_of_inOrder (h : Blind answer keep bs) (hb : keep b = false)
    (horder : InOrder keep bs ended (b :: rest)) : goesBack b (answer ended b) = [] := by
  refine goesBack_of_ne fun hv => ?_
  have hnone := h.dropped hb horder
  rw [hv] at hnone
  cases hnone

/-- **One attempt** leaves those that are not kept in their order. -/
theorem inOrder_attempt (h : Blind answer keep bs) (horder : InOrder keep bs ended (b :: rest)) :
    InOrder keep bs (ended ++ [b]) (rest ++ goesBack b (answer ended b)) := by
  cases hb : keep b with
  | false =>
    rw [h.goesBack_of_inOrder hb horder, List.append_nil]
    exact InOrder.taken_iff.mp horder
  | true =>
    have hnext := InOrder.taken_iff.mp horder
    unfold goesBack
    split
    · exact hnext.concat hb
    · rw [List.append_nil]
      exact hnext

/-- Each of them is attempted once, and in their order. -/
theorem inOrder_after (h : Blind answer keep bs) (n : Nat) :
    InOrder keep bs ((after answer bs n).attempts.map Prod.fst) (after answer bs n).waiting := by
  induction n with
  | zero => exact InOrder.start
  | succ n ih =>
    cases hafter : after answer bs n with
    | mk es waiting =>
      rw [hafter] at ih
      cases waiting with
      | nil =>
        rw [after_succ_of_nil (by rw [hafter]), hafter]
        exact ih
      | cons b rest =>
        rw [after_succ_of_cons hafter, List.map_append]
        exact h.inOrder_attempt ih

theorem filter_attempt (b : Block) (v : Verdict) :
    [(b, v)].filter (keep ·.1) = if keep b then [(b, v)] else [] := by
  rw [List.filter_cons, List.filter_nil]

theorem filter_goesBack (hb : keep b = true) (v : Verdict) :
    (goesBack b v).filter keep = goesBack b v := by
  unfold goesBack
  split
  · rw [List.filter_cons_of_pos hb, List.filter_nil]
  · rfl

/-- **A rotation without them is the rotation with them, at as many attempts as the
others had.** -/
theorem after_filter (h : Blind answer keep bs) (n : Nat) :
    after answer (bs.filter keep) ((after answer bs n).attempts.filter (keep ·.1)).length
      = ⟨(after answer bs n).attempts.filter (keep ·.1), (after answer bs n).waiting.filter keep⟩
    := by
  induction n with
  | zero => rfl
  | succ n ih =>
    have horder := h.inOrder_after n
    cases hafter : after answer bs n with
    | mk es waiting =>
      rw [hafter] at ih horder
      dsimp only at ih horder
      cases waiting with
      | nil =>
        rw [after_succ_of_nil (by rw [hafter]), hafter]
        exact ih
      | cons b rest =>
        rw [after_succ_of_cons hafter]
        dsimp only
        cases hb : keep b with
        | false =>
          -- the attempt is left out, and nothing goes back
          rw [List.filter_cons_of_neg (by simp [hb])] at ih
          rw [h.goesBack_of_inOrder hb horder, List.append_nil, List.filter_append, filter_attempt,
            hb, if_neg Bool.false_ne_true, List.append_nil]
          exact ih
        | true =>
          -- the same attempt comes next on the other side
          have hsame : (es.filter (keep ·.1)).map Prod.fst = (es.map Prod.fst).filter keep :=
            List.filter_map.symm
          rw [List.filter_cons_of_pos hb] at ih
          rw [List.filter_append, List.filter_append, filter_goesBack hb, filter_attempt, hb,
            if_pos rfl, List.length_append, List.length_singleton, after_succ_of_cons ih, hsame,
            h.kept _ hb]

/-- Of the others none is connected. -/
theorem connected_filter (h : Blind answer keep bs) (n : Nat) :
    connected ((after answer bs n).attempts.filter (keep ·.1))
      = connected (after answer bs n).attempts := by
  induction n with
  | zero => rfl
  | succ n ih =>
    have horder := h.inOrder_after n
    cases hafter : after answer bs n with
    | mk es waiting =>
      rw [hafter] at ih horder
      dsimp only at ih horder
      cases waiting with
      | nil =>
        rw [after_succ_of_nil (by rw [hafter]), hafter]
        exact ih
      | cons b rest =>
        rw [after_succ_of_cons hafter]
        dsimp only
        rw [List.filter_append, connected_append, connected_append, ih, filter_attempt]
        split
        next => rfl
        next hb =>
          rw [connected_of_outcome?_eq_none (h.dropped (Bool.eq_false_iff.mpr hb) horder)]
          rfl

end Blind
end LeftOut
end BlockSync
