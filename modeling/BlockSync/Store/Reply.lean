/-
  BlockSync.Store.Reply
  ─────────────────────
  **WHAT AN OPERATION ON A STORE GIVES BACK.**

  An operation answers with a value or an error, and in either case leaves a
  store behind: an error alone does not say that nothing changed.
-/
import BlockSync.Journal

namespace BlockSync

/-- The answer of an operation, the store it leaves and the events it logged. -/
structure Reply (σ α : Type) where
  answer : Except StoreError α
  next : σ
  events : List Event

namespace Reply

/-- A value, and a changed store. -/
def ok {σ α : Type} (a : α) (next : σ) : Reply σ α := ⟨.ok a, next, []⟩

/-- An error, and the store as it was. -/
def refuse {σ α : Type} (e : StoreError) (same : σ) : Reply σ α := ⟨.error e, same, []⟩

/-- The same reply of a larger store. -/
def mapNext {σ τ α : Type} (f : σ → τ) (r : Reply σ α) : Reply τ α :=
  ⟨r.answer, f r.next, r.events⟩

end Reply
end BlockSync
