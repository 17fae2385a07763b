/-
  BlockSync.Proofs.Store.Service
  ──────────────────────────────
  **WHO ONLY CALLS CANNOT TELL WHAT ANSWERS.**

  A service answers calls and may be started again in between.  Two services
  whose states are related, so that each call gets one answer from both and
  leaves them related, answer every run of calls and starts alike
  (`Service.trace_eq`).  The first of the two may give up at any call with an
  answer of its own; nothing is said of a run in which it does.
-/
import BlockSync.Store.Error

namespace BlockSync

/-- What may happen to a service: a call, or its process ends and starts again. -/
inductive Step (κ : Type) where
  | call (c : κ)
  | restart
deriving DecidableEq

/-- The calls among some steps, in their order. -/
def Step.calls {κ : Type} : List (Step κ) → List κ
  | [] => []
  | .call c :: rest => c :: calls rest
  | .restart :: rest => calls rest

/-- Something with states in `σ` that answers calls in `κ` by answers in `α`. -/
structure Service (σ κ α : Type) where
  perform : σ → κ → α × σ
  /-- The state that a new process finds. -/
  restart : σ → Except StoreError σ
  /-- The last answer, if there is no such state. -/
  unopened : StoreError → α

/-- An answer from what an operation gave or why it refused. -/
def answered {α β : Type} (refused : StoreError → α) (f : β → α) : Except StoreError β → α
  | .ok b => f b
  | .error e => refused e

namespace Service

variable {σ τ κ α : Type}

/-- All answers of a service to some steps.  Starting again shows only if it
fails. -/
def trace (S : Service σ κ α) : List (Step κ) → σ → List α
  | [], _ => []
  | .call c :: rest, s => (S.perform s c).1 :: S.trace rest (S.perform s c).2
  | .restart :: rest, s =>
    match S.restart s with
    | .ok next => S.trace rest next
    | .error e => [S.unopened e]

/-- **Related services answer alike**, as long as the first does not give up. -/
theorem trace_eq {S : Service σ κ α} {T : Service τ κ α} {R : σ → τ → Prop} {gaveUp : α}
    (legal : κ → Prop)
    (hcall : ∀ {s t}, R s t → ∀ c, legal c →
      ((S.perform s c).1 = (T.perform t c).1 ∧ R (S.perform s c).2 (T.perform t c).2)
        ∨ (S.perform s c).1 = gaveUp)
    (hrestart : ∀ {s t}, R s t →
      ∃ s' t', S.restart s = .ok s' ∧ T.restart t = .ok t' ∧ R s' t')
    (steps : List (Step κ)) :
    ∀ {s : σ} {t : τ}, R s t → (∀ c ∈ Step.calls steps, legal c) →
      gaveUp ∉ S.trace steps s → S.trace steps s = T.trace steps t := by
  induction steps with
  | nil => intro s t _ _ _; rfl
  | cons step rest ih =>
    intro s t hR hlegal hgo
    cases step with
    | call c =>
      have hrest : ∀ c ∈ Step.calls rest, legal c :=
        fun d hd => hlegal d (List.mem_cons_of_mem c hd)
      unfold trace at hgo
      rw [List.mem_cons, not_or] at hgo
      -- the first either answers like the second, or gives up here
      rcases hcall hR c (hlegal c List.mem_cons_self) with ⟨ha, hn⟩ | ha
      · unfold trace
        rw [ha, ih hn hrest hgo.2]
      · exact absurd ha.symm hgo.1
    | restart =>
      obtain ⟨s', t', hs, ht, hn⟩ := hrestart hR
      unfold trace at hgo
      rw [hs] at hgo
      unfold trace
      rw [hs, ht]
      exact ih hn hlegal hgo

/-- A service that never gives up in some states, and never leaves them, never
gives up in a whole run. -/
theorem not_mem_trace {S : Service σ κ α} {P : σ → Prop} {gaveUp : α}
    (hcall : ∀ {s}, P s → ∀ c, (S.perform s c).1 ≠ gaveUp ∧ P (S.perform s c).2)
    (hrestart : ∀ {s}, P s → ∃ next, S.restart s = .ok next ∧ P next) (steps : List (Step κ)) :
    ∀ {s}, P s → gaveUp ∉ S.trace steps s := by
  induction steps with
  | nil => intro s _ hmem; cases hmem
  | cons step rest ih =>
    intro s hs
    cases step with
    | call c =>
      obtain ⟨ha, hn⟩ := hcall hs c
      unfold trace
      rw [List.mem_cons, not_or]
      exact ⟨fun he => ha he.symm, ih hn⟩
    | restart =>
      obtain ⟨next, hr, hn⟩ := hrestart hs
      unfold trace
      rw [hr]
      exact ih hn

/-- A service that lives through every start answers as if there were none. -/
theorem trace_calls {S : Service σ κ α} (hS : ∀ s, S.restart s = .ok s)
    (steps : List (Step κ)) :
    ∀ s, S.trace ((Step.calls steps).map .call) s = S.trace steps s := by
  induction steps with
  | nil => intro s; rfl
  | cons step rest ih =>
    intro s
    cases step with
    | call c => exact congrArg ((S.perform s c).1 :: ·) (ih (S.perform s c).2)
    | restart =>
      have hstay : S.trace (.restart :: rest) s = S.trace rest s := by
        show (match S.restart s with
          | .ok next => S.trace rest next
          | .error e => [S.unopened e]) = _
        rw [hS]
      rw [hstay]
      exact ih s

theorem calls_map_call (cs : List κ) : Step.calls (cs.map .call) = cs := by
  induction cs with
  | nil => rfl
  | cons c cs ih => exact congrArg (c :: ·) ih

end Service
end BlockSync
