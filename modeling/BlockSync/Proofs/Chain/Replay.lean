/-
  BlockSync.Proofs.Chain.Replay
  ─────────────────────────────
  **THE ATTEMPTS ON A LINE OF BLOCKS, ONE AFTER THE OTHER.**

  If nobody appends to a line, and the verdict on a block depends on nothing but the
  attempts before it, then all attempts there will ever be are settled from the
  beginning:

      the front block is attempted
      it goes behind the others if it has no parent, and is gone otherwise
      an empty line stays empty

  `Replay.after` has the attempts up to any number, and the line that is left.  More
  attempts leave the earlier ones as they are (`take_attempts`), and where there is one
  more it is on the front block (`exists_attempt`).

  What a chain must be like for this is `Chain.AnswersBy`.  Every chain that does not
  change by itself is like that (`answersBy_verdictAfter`).
-/
import BlockSync.Chain.Basic
import BlockSync.Proofs.Store.BlockQueue.Line

namespace BlockSync

/-! ## §1. Chains that answer by the attempts. -/

/-- A chain whose verdict on a block depends on the attempts before it, and on nothing
else.  In a state with `Made c bs pending` it has ended attempts on `bs`, in this
order, and has been handed what is pending; it may have many such states, and change
between them by itself. -/
structure Chain.AnswersBy {σ : Type} (C : Chain σ) (answer : List Block → Block → Verdict)
    (Made : σ → (ended pending : List Block) → Prop) : Prop where
  receive : ∀ {c bs}, Made c bs [] → ∀ b, Made (C.receive c b) bs [b]
  conclude : ∀ {c bs b v next}, Made c bs [b] → C.conclude c b = some (v, next) →
    v = answer bs b ∧ Made next (bs ++ [b]) []

namespace Chain

variable {σ : Type} (C : Chain σ) (start : σ)

/-- The state of a chain that was handed some blocks, one after the other, and ended
each attempt at once. -/
def stateAfter (bs : List Block) : Option σ :=
  bs.foldlM (fun c b => (C.conclude (C.receive c b) b).map Prod.snd) start

/-- The verdict of that chain on one more block. -/
def verdictAfter (bs : List Block) (b : Block) : Verdict :=
  match (C.stateAfter start bs).bind fun c => C.conclude (C.receive c b) b with
  | some (v, _) => v
  | none => .crashed .other

/-- The states of a chain that does not change by itself. -/
def MadeFrom (c : σ) (bs pending : List Block) : Prop :=
  ∃ d, C.stateAfter start bs = some d ∧ c = pending.foldl C.receive d

/-- **Every chain that does not change by itself answers by the attempts.** -/
theorem answersBy_verdictAfter : C.AnswersBy (C.verdictAfter start) (C.MadeFrom start) where
  receive := by
    rintro c bs ⟨d, hd, hc⟩ b
    exact ⟨d, hd, congrArg (C.receive · b) hc⟩
  conclude := by
    rintro c bs b v next ⟨d, hd, rfl⟩ hconclude
    change C.conclude (C.receive d b) b = some (v, next) at hconclude
    constructor
    · unfold verdictAfter
      rw [hd, Option.bind_some, hconclude]
    · refine ⟨next, ?_, rfl⟩
      unfold stateAfter at hd ⊢
      rw [List.foldlM_append, hd]
      show ((C.conclude (C.receive d b) b).map Prod.snd).bind _ = _
      rw [hconclude]
      rfl

end Chain

/-! ## §2. Replays. -/

/-- The line after the verdict on a block that was taken from it. -/
def Line.settle (l : Line) (b : Block) (v : Verdict) : Line :=
  if v = .outcome .noParent then l.append b else l

/-- How far a line has come: what waits in it, and the attempts so far. -/
structure Replay where
  line : Line
  attempts : List (Block × Verdict)

namespace Replay

variable {answer : List Block → Block → Verdict} {l : Line} {n m : Nat}

/-- One more attempt, if there is a block for it. -/
def next (answer : List Block → Block → Verdict) (r : Replay) : Replay :=
  match r.line.blocks with
  | [] => r
  | b :: _ =>
    let v := answer (r.attempts.map Prod.fst) b
    ⟨r.line.pop.settle b v, r.attempts ++ [(b, v)]⟩

/-- What a line has come to when it was offered a number of attempts. -/
def after (answer : List Block → Block → Verdict) (l : Line) : Nat → Replay
  | 0 => ⟨l, []⟩
  | n + 1 => (after answer l n).next answer

theorem after_succ_of_nil (h : (after answer l n).line.blocks = []) :
    after answer l (n + 1) = after answer l n := by
  show (after answer l n).next answer = _
  unfold next
  rw [h]

theorem after_succ_of_cons {b : Block} {rest : List Block}
    (h : (after answer l n).line.blocks = b :: rest) :
    after answer l (n + 1)
      = ⟨(after answer l n).line.pop.settle b (answer ((after answer l n).attempts.map Prod.fst) b),
        (after answer l n).attempts
          ++ [(b, answer ((after answer l n).attempts.map Prod.fst) b)]⟩ := by
  show (after answer l n).next answer = _
  unfold next
  rw [h]

theorem length_attempts_le : (after answer l n).attempts.length ≤ n := by
  induction n with
  | zero => exact Nat.le_refl 0
  | succ n ih =>
    cases hline : (after answer l n).line.blocks with
    | nil =>
      rw [after_succ_of_nil hline]
      omega
    | cons b rest =>
      rw [after_succ_of_cons hline, List.length_append, List.length_singleton]
      omega

/-- As long as a block waits, no offer was in vain. -/
theorem length_attempts_of_cons {b : Block} {rest : List Block}
    (h : (after answer l n).line.blocks = b :: rest) :
    (after answer l n).attempts.length = n := by
  induction n generalizing b rest with
  | zero => rfl
  | succ n ih =>
    cases hline : (after answer l n).line.blocks with
    | nil =>
      -- a line that is empty once stays so
      rw [after_succ_of_nil hline, hline] at h
      cases h
    | cons d ds => rw [after_succ_of_cons hline, List.length_append, ih hline, List.length_singleton]

/-- **Later attempts leave the earlier ones as they are.** -/
theorem take_attempts (h : n ≤ m) :
    (after answer l m).attempts.take n = (after answer l n).attempts := by
  induction h with
  | refl => exact List.take_of_length_le length_attempts_le
  | @step m hle ih =>
    -- one more offer is in vain, or appends an attempt behind the first n
    cases hline : (after answer l m).line.blocks with
    | nil => rw [after_succ_of_nil hline, ih]
    | cons b rest =>
      rw [after_succ_of_cons hline,
        List.take_append_of_le_length (by rw [length_attempts_of_cons hline]; exact hle), ih]

/-- Where there is one more attempt, it is on the front block. -/
theorem exists_attempt (hfull : (after answer l m).attempts.length = m) (h : n < m) :
    ∃ b rest later, (after answer l n).line.blocks = b :: rest
      ∧ (after answer l m).attempts = (after answer l n).attempts
        ++ (b, answer ((after answer l n).attempts.map Prod.fst) b) :: later := by
  have htake : (after answer l m).attempts.take (n + 1) = (after answer l (n + 1)).attempts :=
    take_attempts h
  cases hline : (after answer l n).line.blocks with
  | nil =>
    -- an empty line would have left the next offer in vain, and all the others
    exfalso
    have hlen := congrArg List.length htake
    have hle : (after answer l n).attempts.length ≤ n := length_attempts_le
    rw [after_succ_of_nil hline, List.length_take, hfull] at hlen
    omega
  | cons b rest =>
    refine ⟨b, rest, (after answer l m).attempts.drop (n + 1), rfl, ?_⟩
    rw [after_succ_of_cons hline] at htake
    calc (after answer l m).attempts
        = (after answer l m).attempts.take (n + 1) ++ (after answer l m).attempts.drop (n + 1) :=
          (List.take_append_drop _ _).symm
      _ = _ := by rw [htake, List.append_assoc]; rfl

end Replay
end BlockSync
