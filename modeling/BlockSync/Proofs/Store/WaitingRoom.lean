/-
  BlockSync.Proofs.Store.WaitingRoom
  ──────────────────────────────────
  **NOBODY OVERSLEEPS, AND NO BLOCK IS HANDED OUT TWICE.**

  Waiters come and leave at any time, each goes on by single steps, and an append
  inserts first and rings the bell at some later time; polls and clears come between
  any two of these steps (`Run`).  A waiter counts as asleep from the moment at which
  it found nothing, so that a ring between that moment and its sleep is one that it
  has to hear as well.

  A book is kept beside the run: what was appended, what was taken and by whom, and
  how many appends have still to ring.  One step keeps the room and the book in order
  (`Orderly`), and so does every run (`Run.orderly`):

      awake        beside a queued block a waiter sleeps only until the bell rings
      appended     what was appended was taken, in this order, or is queued
      once         no waiter took two entries
      result_iff   a waiter was served what stands under its number

  Where a waiter goes on, it is replaced by what it became; its number is its own,
  so the others are not concerned (`mem_replaced`).

  The operations of a room are runs (`Run.enqueue`, `Run.enqueueBatch`, `Run.serve`).
-/
import BlockSync.Proofs.Store.BlockQueue
import BlockSync.Store.WaitingRoom
import Mathlib.Data.List.Nodup

namespace BlockSync

/-! ## §1. One step of a waiter. -/

/-- Whatever is at the front is what a poll answers, and it is gone then. -/
theorem BlockQueue.Placed.poll_cons {q : BlockQueue} {e : Except StoreError Block}
    {rest : List (Except StoreError Block)} (h : q.Placed) (hcontents : q.contents = e :: rest) :
    e ≠ .error .emptyQueue ∧ q.poll.answer = e ∧ q.poll.next.Placed
      ∧ q.poll.next.contents = rest := by
  cases e with
  | ok b =>
    obtain ⟨hanswer, hplaced, hrest, -⟩ := h.poll_block hcontents
    exact ⟨fun heq => (by cases heq), hanswer, hplaced, hrest⟩
  | error e =>
    obtain ⟨hanswer, hplaced, hrest, -⟩ := h.poll_damage hcontents
    obtain ⟨damage, rfl⟩ := corruption_of_mem_contents (hcontents ▸ List.mem_cons_self)
    exact ⟨fun heq => (by cases heq), hanswer, hplaced, hrest⟩

namespace Waiter

variable (w : Waiter)

theorem id_step (q : BlockQueue) : (w.step q).1.id = w.id := by
  unfold step
  split
  next => rfl
  next =>
    dsimp only
    split
    next => rfl
    next => rfl
  next => rfl
  next => rfl
  next => rfl

theorem id_hear : w.hear.id = w.id := by
  unfold hear
  split
  next => rfl
  next => rfl
  next => rfl

theorem result?_hear : w.hear.result? = w.result? := by
  unfold hear
  split
  next h => unfold result?; rw [h]
  next h => unfold result?; rw [h]
  next => rfl

theorem phase_hear_ne : w.hear.phase ≠ .asleep false := by
  unfold hear
  split
  next => exact fun h => by cases h
  next => exact fun h => by cases h
  next hnot => exact hnot false

variable {w}

/-- **One step of a waiter** leaves the queue alone, and it sleeps only where nothing
is queued or where it slept before; or it takes the entry at the front. -/
theorem step_cases {q : BlockQueue} (h : q.Placed) :
    ((w.step q).2.1 = q ∧ (w.step q).1.result? = w.result?
        ∧ ((w.step q).1.phase = .asleep false → q.contents = [] ∨ w.phase = .asleep false))
      ∨ ∃ e rest, q.contents = e :: rest ∧ w.result? = none ∧ (w.step q).1.result? = some e
        ∧ (w.step q).1.phase ≠ .asleep false
        ∧ (w.step q).2.1.Placed ∧ (w.step q).2.1.contents = rest := by
  unfold step
  split
  next hphase =>
    refine Or.inl ⟨rfl, ?_, fun heq => (by cases heq)⟩
    unfold result?
    rw [hphase]
  next rung hphase =>
    have hnone : w.result? = none := by unfold result?; rw [hphase]
    cases hcontents : q.contents with
    | nil =>
      obtain ⟨hanswer, hnext⟩ := BlockQueue.poll_of_contents_nil hcontents
      dsimp only
      rw [hanswer]
      exact Or.inl ⟨hnext, hnone.symm, fun _ => Or.inl rfl⟩
    | cons e rest =>
      obtain ⟨hne, hanswer, hplaced, hrest⟩ := h.poll_cons hcontents
      refine Or.inr ⟨e, rest, rfl, hnone, ?_⟩
      dsimp only
      rw [hanswer]
      split
      next => exact absurd rfl hne
      next => exact ⟨rfl, fun heq => (by cases heq), hplaced, hrest⟩
  next hphase =>
    refine Or.inl ⟨rfl, ?_, fun heq => (by cases heq)⟩
    unfold result?
    rw [hphase]
  next hphase => exact Or.inl ⟨rfl, rfl, fun _ => Or.inr hphase⟩
  next hphase => exact Or.inl ⟨rfl, rfl, fun heq => Or.inr heq⟩

/-- Who was served stays served, and touches nothing any more. -/
theorem steps_of_served {e : Except StoreError Block} (h : w.phase = .served e) (q : BlockQueue)
    (n : Nat) : (w.steps n q).1 = w ∧ (w.steps n q).2.1 = q := by
  have hstep : w.step q = (w, q, []) := by
    unfold step
    rw [h]
  induction n with
  | zero => exact ⟨rfl, rfl⟩
  | succ n ih =>
    unfold steps
    rw [hstep]
    exact ih

theorem steps_of_listening {q : BlockQueue} {e : Except StoreError Block}
    {rest : List (Except StoreError Block)} {rung : Bool} (hq : q.Placed)
    (hcontents : q.contents = e :: rest) (h : w.phase = .listening rung) (n : Nat) :
    (w.steps (n + 1) q).1.result? = some e := by
  obtain ⟨hne, hanswer, -, -⟩ := hq.poll_cons hcontents
  have hserved : (w.step q).1.phase = .served e := by
    unfold step
    rw [h]
    dsimp only
    rw [hanswer]
    split
    next => exact absurd rfl hne
    next => rfl
  unfold steps
  dsimp only
  rw [(steps_of_served hserved _ n).1]
  unfold result?
  rw [hserved]

/-- **A waiter that can go on gets the entry at the front**, if nobody is faster. -/
theorem result?_run {q : BlockQueue} {e : Except StoreError Block}
    {rest : List (Except StoreError Block)} (hq : q.Placed) (hcontents : q.contents = e :: rest)
    (hnone : w.result? = none) (hawake : w.phase ≠ .asleep false) :
    (w.run q).1.result? = some e := by
  unfold run
  cases hphase : w.phase with
  | starting =>
    have hstep : w.step q = ({ w with phase := .listening false }, q, []) := by
      unfold step
      rw [hphase]
    unfold steps
    rw [hstep]
    exact steps_of_listening (w := { w with phase := .listening false }) hq hcontents rfl 2
  | listening rung => exact steps_of_listening hq hcontents hphase 3
  | asleep rung =>
    cases rung with
    | false => exact absurd hphase hawake
    | true =>
      have hstep : w.step q = ({ w with phase := .starting }, q, []) := by
        unfold step
        rw [hphase]
      unfold steps
      rw [hstep]
      exact steps_of_listening (w := { w with phase := .listening false }) hq hcontents rfl 1
  | served e =>
    unfold result? at hnone
    rw [hphase] at hnone
    cases hnone

end Waiter

/-! ## §2. Runs. -/

namespace WaitingRoom

/-- Who took an entry from the queue. -/
inductive Taker where
  | waiter (id : Nat)
  | poll
  | clear
deriving DecidableEq

/-- The number of a waiter. -/
def Taker.waiter? : Taker → Option Nat
  | .waiter id => some id
  | _ => none

/-- An entry that was taken. -/
abbrev Receipt := Taker × Except StoreError Block

/-- What is kept in mind about a run. -/
structure Book where
  /-- How many appends have inserted and not rung the bell yet. -/
  unrung : Nat
  /-- The entries that were there at first, and those that were appended, in order. -/
  appended : List (Except StoreError Block)
  /-- The entries that were taken, in order. -/
  gone : List Receipt

namespace Book

/-- An append inserted some blocks. -/
def insert (k : Book) (new : List Block) : Book :=
  { k with unrung := k.unrung + 1, appended := k.appended ++ new.map .ok }

/-- The bell rang for one append. -/
def ring (k : Book) : Book := { k with unrung := k.unrung - 1 }

/-- Some entries were taken. -/
def take (k : Book) (receipts : List Receipt) : Book :=
  { k with gone := k.gone ++ receipts }

/-- The waiters that took an entry, in order. -/
def served (k : Book) : List Nat := k.gone.filterMap (·.1.waiter?)

theorem take_nil (k : Book) : k.take [] = k := by
  unfold take
  rw [List.append_nil]

end Book

/-- What a waiter receives in a step. -/
def received (w next : Waiter) : List Receipt :=
  match w.result?, next.result? with
  | none, some e => [(.waiter w.id, e)]
  | _, _ => []

/-- What somebody receives by a poll. -/
def polled (answer : Except StoreError Block) : List Receipt :=
  match answer with
  | .error .emptyQueue => []
  | answer => [(.poll, answer)]

/-- What an append did: if anything was inserted, the bell has to ring. -/
def insertion {α : Type} (k : Book) (answer : Except StoreError α) (new : α → List Block) : Book :=
  match answer with
  | .ok a => if new a = [] then k else k.insert (new a)
  | .error _ => k

/-- The runs of a room, with what is kept in mind of them: waiters come, take a step
and leave at any time; an append inserts, and the bell rings for it at any later
time; polls and clears come between any two of these steps. -/
inductive Run : WaitingRoom → Book → Prop where
  | opened {q : BlockQueue} (hq : q.Placed) : Run (.ofQueue q) ⟨0, q.contents, []⟩
  | entered {r : WaitingRoom} {k : Book} (h : Run r k) : Run r.enter k
  | left {r : WaitingRoom} {k : Book} (h : Run r k) (id : Nat) : Run (r.leave id) k
  | stepped {r : WaitingRoom} {k : Book} (h : Run r k) (before after : List Waiter) {w : Waiter}
      (hw : r.waiters = before ++ w :: after) :
      Run { r with
          queue := (w.step r.queue).2.1
          waiters := before ++ (w.step r.queue).1 :: after }
        (k.take (received w (w.step r.queue).1))
  | inserted {r : WaitingRoom} {k : Book} (h : Run r k) (b : Block) (hb : b.Storable) :
      Run { r with queue := (r.queue.enqueue b).next }
        (insertion k (r.queue.enqueue b).answer fun _ => [b])
  | insertedAll {r : WaitingRoom} {k : Book} (h : Run r k) (bs : List Block)
      (hbs : ∀ b ∈ bs, b.Storable) :
      Run { r with queue := (r.queue.enqueueBatch bs).next }
        (insertion k (r.queue.enqueueBatch bs).answer fun kept => bs.take kept)
  | rung {r : WaitingRoom} {k : Book} (h : Run r k) (hdue : 0 < k.unrung) : Run r.ring k.ring
  | polled {r : WaitingRoom} {k : Book} (h : Run r k) :
      Run { r with queue := r.queue.poll.next } (k.take (polled r.queue.poll.answer))
  | cleared {r : WaitingRoom} {k : Book} (h : Run r k) :
      Run { r with queue := r.queue.clear } (k.take (r.queue.contents.map (Taker.clear, ·)))

/-! ## §3. The invariant. -/

/-- How it stands with a room and with what is kept in mind. -/
structure Orderly (r : WaitingRoom) (k : Book) : Prop where
  placed : r.queue.Placed
  /-- Only between the insertion and the ring somebody may sleep beside a block. -/
  awake : 0 < k.unrung ∨ r.queue.contents = [] ∨ ∀ w ∈ r.waiters, w.phase ≠ .asleep false
  appended : k.appended = k.gone.map Prod.snd ++ r.queue.contents
  distinct : (r.waiters.map Waiter.id).Nodup
  known : ∀ w ∈ r.waiters, w.id < r.nextId
  once : k.served.Nodup
  past : ∀ id ∈ k.served, id < r.nextId
  result_iff : ∀ w ∈ r.waiters, ∀ e, w.result? = some e ↔ (.waiter w.id, e) ∈ k.gone

theorem Book.mem_served {k : Book} {id : Nat} : id ∈ k.served ↔ ∃ e, (.waiter id, e) ∈ k.gone := by
  unfold served
  rw [List.mem_filterMap]
  constructor
  · rintro ⟨⟨taker, e⟩, he, hid⟩
    cases taker with
    | waiter _ =>
      obtain rfl := Option.some.inj hid
      exact ⟨e, he⟩
    | poll => cases hid
    | clear => cases hid
  · rintro ⟨e, he⟩
    exact ⟨_, he, rfl⟩

theorem Book.served_take_of_others (k : Book) {receipts : List Receipt}
    (h : ∀ e ∈ receipts, e.1.waiter? = none) : (k.take receipts).served = k.served := by
  unfold served take
  rw [List.filterMap_append, List.filterMap_eq_nil_iff.mpr h, List.append_nil]

theorem Book.served_take_waiter (k : Book) (id : Nat) (e : Except StoreError Block) :
    (k.take [(.waiter id, e)]).served = k.served ++ [id] := by
  unfold served take
  rw [List.filterMap_append]
  rfl

theorem map_id_replaced {before after : List Waiter} {w next : Waiter} (hid : next.id = w.id) :
    (before ++ next :: after).map Waiter.id = (before ++ w :: after).map Waiter.id := by
  rw [List.map_append, List.map_cons, hid, ← List.map_cons, ← List.map_append]

/-- Where one of several waiters is replaced, the others have other numbers. -/
theorem mem_replaced {before after : List Waiter} {w next d : Waiter}
    (hdistinct : ((before ++ w :: after).map Waiter.id).Nodup)
    (hd : d ∈ before ++ next :: after) :
    d = next ∨ (d ∈ before ++ w :: after ∧ d.id ≠ w.id) := by
  rw [List.map_append, List.map_cons, List.nodup_middle, ← List.map_append] at hdistinct
  have hother : ∀ d ∈ before ++ after, d.id ≠ w.id := fun d hd heq =>
    (List.nodup_cons.mp hdistinct).1 (heq ▸ List.mem_map_of_mem hd)
  rcases List.mem_append.mp hd with hbefore | hd
  · exact Or.inr ⟨List.mem_append_left _ hbefore, hother d (List.mem_append_left _ hbefore)⟩
  · rcases List.mem_cons.mp hd with rfl | hafter
    · exact Or.inl rfl
    · exact Or.inr ⟨List.mem_append_right _ (List.mem_cons_of_mem w hafter),
        hother d (List.mem_append_right _ hafter)⟩

namespace Orderly

variable {r : WaitingRoom} {k : Book}

theorem opened {q : BlockQueue} (hq : q.Placed) :
    Orderly (.ofQueue q) ⟨0, q.contents, []⟩ where
  placed := hq
  awake := Or.inr (Or.inr fun _ hw => by cases hw)
  appended := rfl
  distinct := List.nodup_nil
  known _ hw := by cases hw
  once := List.nodup_nil
  past _ hid := by cases hid
  result_iff _ hw := by cases hw

theorem enter (h : Orderly r k) : Orderly r.enter k where
  placed := h.placed
  awake := by
    refine h.awake.imp_right (Or.imp_right fun hawake w hw => ?_)
    rcases List.mem_append.mp hw with hw | hw
    · exact hawake w hw
    · obtain rfl := List.mem_singleton.mp hw
      exact fun heq => by cases heq
  appended := h.appended
  distinct := by
    show ((r.waiters ++ [(⟨r.nextId, .starting⟩ : Waiter)]).map Waiter.id).Nodup
    rw [List.map_append, List.nodup_append]
    refine ⟨h.distinct, List.pairwise_singleton _ _, ?_⟩
    rintro id hid _ hnew rfl
    obtain ⟨w, hw, rfl⟩ := List.mem_map.mp hid
    have hlt := h.known w hw
    rw [List.mem_singleton.mp hnew] at hlt
    exact Nat.lt_irrefl _ hlt
  known w hw := by
    rcases List.mem_append.mp hw with hw | hw
    · exact Nat.lt_succ_of_lt (h.known w hw)
    · rw [List.mem_singleton.mp hw]
      exact Nat.lt_succ_self _
  once := h.once
  past id hid := Nat.lt_succ_of_lt (h.past id hid)
  result_iff w hw e := by
    rcases List.mem_append.mp hw with hw | hw
    · exact h.result_iff w hw e
    · -- a number that nobody had before stands under no receipt
      rw [List.mem_singleton.mp hw]
      refine iff_of_false (fun heq => by cases heq) fun he => ?_
      exact Nat.lt_irrefl _ (h.past _ (Book.mem_served.mpr ⟨e, he⟩))

theorem leave (h : Orderly r k) (id : Nat) : Orderly (r.leave id) k where
  placed := h.placed
  awake := h.awake.imp_right (Or.imp_right fun hawake w hw => hawake w (List.mem_filter.mp hw |>.1))
  appended := h.appended
  distinct := h.distinct.sublist (List.filter_sublist.map Waiter.id)
  known w hw := h.known w (List.mem_filter.mp hw |>.1)
  once := h.once
  past := h.past
  result_iff w hw := h.result_iff w (List.mem_filter.mp hw |>.1)

theorem ring (h : Orderly r k) : Orderly r.ring k.ring where
  placed := h.placed
  awake := by
    refine Or.inr (Or.inr fun w hw => ?_)
    obtain ⟨d, -, rfl⟩ := List.mem_map.mp hw
    exact d.phase_hear_ne
  appended := h.appended
  distinct := by
    have hids : r.ring.waiters.map Waiter.id = r.waiters.map Waiter.id := by
      show (r.waiters.map Waiter.hear).map Waiter.id = _
      rw [List.map_map]
      exact List.map_congr_left fun w _ => w.id_hear
    rw [hids]
    exact h.distinct
  known w hw := by
    obtain ⟨d, hd, rfl⟩ := List.mem_map.mp hw
    rw [d.id_hear]
    exact h.known d hd
  once := h.once
  past := h.past
  result_iff w hw e := by
    obtain ⟨d, hd, rfl⟩ := List.mem_map.mp hw
    rw [d.id_hear, d.result?_hear]
    exact h.result_iff d hd e

/-- Blocks go behind the entries of the queue. -/
theorem insert (h : Orderly r k) {q : BlockQueue} {new : List Block}
    (happend : BlockQueue.Appended r.queue q new) :
    Orderly { r with queue := q } (k.insert new) where
  placed := happend.placed
  awake := Or.inl (Nat.succ_pos _)
  appended := by
    show k.appended ++ new.map .ok = k.gone.map Prod.snd ++ q.contents
    rw [happend.contents, h.appended, List.append_assoc]
  distinct := h.distinct
  known := h.known
  once := h.once
  past := h.past
  result_iff := h.result_iff

/-- Somebody who did not wait takes entries from the front. -/
theorem take (h : Orderly r k) {q : BlockQueue} {receipts : List Receipt} (hplaced : q.Placed)
    (hfront : r.queue.contents = receipts.map Prod.snd ++ q.contents)
    (htaker : ∀ e ∈ receipts, e.1.waiter? = none) :
    Orderly { r with queue := q } (k.take receipts) where
  placed := hplaced
  awake := by
    refine h.awake.imp_right (Or.imp_left fun hnil => ?_)
    rw [hfront] at hnil
    exact (List.append_eq_nil_iff.mp hnil).2
  appended := by
    show k.appended = (k.gone ++ receipts).map Prod.snd ++ q.contents
    rw [h.appended, hfront, List.map_append, List.append_assoc]
  distinct := h.distinct
  known := h.known
  once := by
    rw [k.served_take_of_others htaker]
    exact h.once
  past id hid := by
    rw [k.served_take_of_others htaker] at hid
    exact h.past id hid
  result_iff w hw e := by
    refine (h.result_iff w hw e).trans ⟨List.mem_append_left _, fun he => ?_⟩
    rcases List.mem_append.mp he with he | he
    · exact he
    · cases htaker _ he

/-- A waiter goes on, and leaves the queue alone. -/
theorem step_aside (h : Orderly r k) {before after : List Waiter} {w next : Waiter}
    (hw : r.waiters = before ++ w :: after) (hid : next.id = w.id)
    (hresult : next.result? = w.result?)
    (hsleep : next.phase = .asleep false → r.queue.contents = [] ∨ w.phase = .asleep false) :
    Orderly { r with waiters := before ++ next :: after } k := by
  have hdistinct := h.distinct
  rw [hw] at hdistinct
  have hmem : w ∈ r.waiters := by rw [hw]; simp
  have hcases : ∀ d ∈ before ++ next :: after, d = next ∨ d ∈ r.waiters := fun d hd =>
    (mem_replaced hdistinct hd).imp_right fun hd => hw ▸ hd.1
  refine ⟨h.placed, ?_, h.appended, ?_, ?_, h.once, h.past, ?_⟩
  · by_cases hnil : r.queue.contents = []
    · exact Or.inr (Or.inl hnil)
    · refine h.awake.imp_right fun hawake => Or.inr fun d hd hasleep => ?_
      replace hawake := hawake.resolve_left hnil
      rcases hcases d hd with rfl | hd
      · exact hawake w hmem ((hsleep hasleep).resolve_left hnil)
      · exact hawake d hd hasleep
  · show ((before ++ next :: after).map Waiter.id).Nodup
    rw [map_id_replaced hid]
    exact hdistinct
  · intro d hd
    rcases hcases d hd with rfl | hd
    · rw [hid]
      exact h.known w hmem
    · exact h.known d hd
  · intro d hd e
    rcases hcases d hd with rfl | hd
    · rw [hid, hresult]
      exact h.result_iff w hmem e
    · exact h.result_iff d hd e

/-- A waiter takes the entry at the front. -/
theorem step_served (h : Orderly r k) {before after : List Waiter} {w next : Waiter}
    {q : BlockQueue} {e : Except StoreError Block}
    (hw : r.waiters = before ++ w :: after) (hid : next.id = w.id) (hnone : w.result? = none)
    (hsome : next.result? = some e) (hawake : next.phase ≠ .asleep false) (hplaced : q.Placed)
    (hfront : r.queue.contents = e :: q.contents) :
    Orderly { r with queue := q, waiters := before ++ next :: after }
      (k.take [(.waiter w.id, e)]) := by
  have hdistinct := h.distinct
  rw [hw] at hdistinct
  have hmem : w ∈ r.waiters := by rw [hw]; simp
  have hnew : ∀ d, (Taker.waiter w.id, d) ∉ k.gone := fun d hd => by
    have := (h.result_iff w hmem d).mpr hd
    rw [hnone] at this
    cases this
  refine ⟨hplaced, ?_, ?_, ?_, ?_, ?_, ?_, ?_⟩
  · -- who slept beside this entry slept beside the one before
    refine h.awake.imp_right fun hothers => Or.inr fun d hd => ?_
    rcases mem_replaced hdistinct hd with rfl | ⟨hd, -⟩
    · exact hawake
    · refine hothers.resolve_left (fun hnil => ?_) d (hw ▸ hd)
      rw [hfront] at hnil
      cases hnil
  · show k.appended = (k.gone ++ [_]).map Prod.snd ++ q.contents
    rw [h.appended, hfront, List.map_append, List.append_assoc]
    rfl
  · show ((before ++ next :: after).map Waiter.id).Nodup
    rw [map_id_replaced hid]
    exact hdistinct
  · intro d hd
    rcases mem_replaced hdistinct hd with rfl | ⟨hd, -⟩
    · rw [hid]
      exact h.known w hmem
    · exact h.known d (hw ▸ hd)
  · rw [k.served_take_waiter, List.nodup_append]
    refine ⟨h.once, List.pairwise_singleton _ _, ?_⟩
    rintro id hserved _ hsame rfl
    rw [List.mem_singleton.mp hsame] at hserved
    obtain ⟨d, hd⟩ := Book.mem_served.mp hserved
    exact hnew d hd
  · intro id hserved
    rw [k.served_take_waiter] at hserved
    rcases List.mem_append.mp hserved with hserved | hsame
    · exact h.past id hserved
    · rw [List.mem_singleton.mp hsame]
      exact h.known w hmem
  · intro d hd d'
    show _ ↔ _ ∈ k.gone ++ [(Taker.waiter w.id, e)]
    rw [List.mem_append, List.mem_singleton]
    rcases mem_replaced hdistinct hd with rfl | ⟨hd, hne⟩
    · rw [hid, hsome]
      constructor
      · intro heq
        rw [Option.some.inj heq]
        exact Or.inr rfl
      · rintro (hgone | heq)
        · exact absurd hgone (hnew d')
        · rw [(Prod.mk.inj heq).2]
    · refine (h.result_iff d (hw ▸ hd) d').trans ⟨Or.inl, ?_⟩
      rintro (hgone | heq)
      · exact hgone
      · exact absurd (Taker.waiter.inj (Prod.mk.inj heq).1) hne

/-- **One step of a waiter.** -/
theorem step (h : Orderly r k) {before after : List Waiter} {w : Waiter}
    (hw : r.waiters = before ++ w :: after) :
    Orderly { r with
        queue := (w.step r.queue).2.1
        waiters := before ++ (w.step r.queue).1 :: after }
      (k.take (received w (w.step r.queue).1)) := by
  have hid := w.id_step r.queue
  unfold received
  rcases w.step_cases h.placed with
    ⟨hqueue, hresult, hsleep⟩ | ⟨e, rest, hcontents, hnone, hsome, hawake, hplaced, hrest⟩
  · have haside := h.step_aside hw hid hresult hsleep
    rw [hqueue, hresult]
    cases w.result? with
    | none =>
      dsimp only
      rw [k.take_nil]
      exact haside
    | some e =>
      dsimp only
      rw [k.take_nil]
      exact haside
  · rw [hnone, hsome]
    exact h.step_served hw hid hnone hsome hawake hplaced (by rw [hrest]; exact hcontents)

/-- A poll takes the entry at the front, if there is one. -/
theorem poll (h : Orderly r k) :
    Orderly { r with queue := r.queue.poll.next } (k.take (polled r.queue.poll.answer)) := by
  cases hcontents : r.queue.contents with
  | nil =>
    obtain ⟨hanswer, hnext⟩ := BlockQueue.poll_of_contents_nil hcontents
    rw [hanswer, hnext]
    unfold polled
    rw [k.take_nil]
    exact h
  | cons e rest =>
    obtain ⟨hne, hanswer, hplaced, hrest⟩ := h.placed.poll_cons hcontents
    have hpolled : polled r.queue.poll.answer = [(.poll, e)] := by
      rw [hanswer]
      unfold polled
      split
      next => exact absurd rfl hne
      next => rfl
    rw [hpolled]
    refine h.take hplaced (by rw [hcontents, hrest]; rfl) fun d hd => ?_
    rw [List.mem_singleton.mp hd]
    rfl

theorem clear (h : Orderly r k) :
    Orderly { r with queue := r.queue.clear } (k.take (r.queue.contents.map (Taker.clear, ·))) := by
  have hclear : r.queue.clear.Holds [] := BlockQueue.Holds.clear r.queue
  refine h.take hclear.placed ?_ fun d hd => ?_
  · rw [hclear.contents_eq, List.map_map]
    exact (List.map_id _).symm.trans (List.append_nil _).symm
  · obtain ⟨e, -, rfl⟩ := List.mem_map.mp hd
    rfl

end Orderly

/-- **Every run keeps order.** -/
theorem Run.orderly {r : WaitingRoom} {k : Book} (h : Run r k) : Orderly r k := by
  induction h with
  | opened hq => exact .opened hq
  | entered _ ih => exact ih.enter
  | left _ id ih => exact ih.leave id
  | stepped _ before after hw ih => exact ih.step hw
  | @inserted r k _ b hb ih =>
    rcases ih.placed.enqueue hb with ⟨hanswer, happended⟩ | ⟨hanswer, hnext⟩
    · rw [hanswer]
      exact ih.insert happended
    · rw [hanswer, hnext]
      exact ih
  | @insertedAll r k _ bs hbs ih =>
    rcases ih.placed.enqueueBatch bs hbs with ⟨hanswer, happended⟩ | ⟨hanswer, hnext⟩
    · rw [hanswer]
      unfold insertion
      dsimp only
      split
      next hnil =>
        -- nothing fitted, so the queue has what it had
        rw [hnil] at happended
        have hsame : r.queue.contents
            = ([] : List Receipt).map Prod.snd ++ (r.queue.enqueueBatch bs).next.contents := by
          rw [happended.contents]
          exact (List.append_nil _).symm
        have htake := ih.take happended.placed hsame fun e he => by cases he
        rw [k.take_nil] at htake
        exact htake
      next => exact ih.insert happended
    · rw [hanswer, hnext]
      exact ih
  | rung _ _ ih => exact ih.ring
  | polled _ ih => exact ih.poll
  | cleared _ ih => exact ih.clear

/-! ## §4. The operations of a room. -/

/-- An append is an insertion with a ring, if it inserts anything. -/
theorem Run.enqueue {r : WaitingRoom} {k : Book} (h : Run r k) {b : Block} (hb : b.Storable) :
    ∃ l, Run (r.enqueue b).next l ∧ l.unrung = k.unrung := by
  have hinserted := h.inserted b hb
  unfold WaitingRoom.enqueue quietly Reply.mapNext
  dsimp only
  cases hanswer : (r.queue.enqueue b).answer with
  | ok u =>
    rw [hanswer] at hinserted
    exact ⟨_, hinserted.rung (Nat.succ_pos _), rfl⟩
  | error e =>
    rw [hanswer] at hinserted
    exact ⟨k, hinserted, rfl⟩

theorem Run.enqueueBatch {r : WaitingRoom} {k : Book} (h : Run r k) {bs : List Block}
    (hbs : ∀ b ∈ bs, b.Storable) : ∃ l, Run (r.enqueueBatch bs).next l ∧ l.unrung = k.unrung := by
  have hinserted := h.insertedAll bs hbs
  unfold WaitingRoom.enqueueBatch quietly Reply.mapNext
  dsimp only
  rcases h.orderly.placed.enqueueBatch bs hbs with ⟨hanswer, -⟩ | ⟨hanswer, -⟩
  · rw [hanswer] at hinserted ⊢
    unfold insertion at hinserted
    dsimp only at hinserted ⊢
    generalize hkept : Capacity.admissible r.queue.capacity r.queue.length bs.length = kept
      at hinserted ⊢
    have hle : kept ≤ bs.length := hkept ▸ Nat.min_le_right _ _
    by_cases hpos : 0 < kept
    · have hne : bs.take kept ≠ [] := by
        intro hnil
        have hlength := congrArg List.length hnil
        rw [List.length_take_of_le hle] at hlength
        exact Nat.ne_of_gt hpos hlength
      rw [if_neg hne] at hinserted
      rw [if_pos hpos]
      exact ⟨_, hinserted.rung (Nat.succ_pos _), rfl⟩
    · obtain rfl := Nat.eq_zero_of_not_pos hpos
      rw [if_pos List.take_zero] at hinserted
      rw [if_neg hpos]
      exact ⟨k, hinserted, rfl⟩
  · rw [hanswer] at hinserted ⊢
    exact ⟨k, hinserted, rfl⟩

/-- Some steps of one of the waiters. -/
theorem Run.steps {before after : List Waiter} (n : Nat) :
    ∀ {r : WaitingRoom} {k : Book} {w : Waiter}, Run r k → r.waiters = before ++ w :: after →
      ∃ l, Run { r with
          queue := (w.steps n r.queue).2.1
          waiters := before ++ (w.steps n r.queue).1 :: after } l
        ∧ l.unrung = k.unrung := by
  induction n with
  | zero =>
    intro r k w h hw
    refine ⟨k, ?_, rfl⟩
    have hsame : { r with waiters := before ++ w :: after } = r := by rw [← hw]
    show Run { r with waiters := before ++ w :: after } k
    rw [hsame]
    exact h
  | succ n ih =>
    intro r k w h hw
    exact ih (h.stepped before after hw) rfl

/-- Letting all waiters run is a run. -/
theorem Run.serve {r : WaitingRoom} {k : Book} (h : Run r k) :
    ∃ l, Run r.serve.1 l ∧ l.unrung = k.unrung := by
  have hall : ∀ (ws before : List Waiter) {r : WaitingRoom} {k : Book}, Run r k →
      r.waiters = before ++ ws →
      ∃ l, Run { r with
          queue := (runAll ws r.queue).2.1
          waiters := before ++ (runAll ws r.queue).1 } l
        ∧ l.unrung = k.unrung := by
    intro ws
    induction ws with
    | nil =>
      intro before r k h hw
      refine ⟨k, ?_, rfl⟩
      have hsame : { r with waiters := before ++ [] } = r := by rw [← hw]
      show Run { r with waiters := before ++ [] } k
      rw [hsame]
      exact h
    | cons w ws ih =>
      intro before r k h hw
      obtain ⟨l, hl, hunrung⟩ := h.steps 4 hw
      obtain ⟨m, hm, hunrung'⟩ := ih (before ++ [(w.run r.queue).1]) hl
        (by rw [List.append_assoc]; rfl)
      refine ⟨m, ?_, hunrung'.trans hunrung⟩
      rw [List.append_assoc] at hm
      exact hm
  exact hall r.waiters [] h rfl

/-! ## §5. Nobody oversleeps. -/

/-- **NOBODY OVERSLEEPS, AND NO BLOCK IS HANDED OUT TWICE.**  In every run, whenever no
append is between its insertion and its ring and something is queued, no waiter
sleeps that did not hear the bell; so each that was not served would get the entry
at the front, if it were the next to go on.

At any time the entries that were appended are those that were taken, in this order,
and then those that are queued; no waiter took two of them, and what a waiter was
served is the one that stands under its number. -/
theorem Run.nobody_oversleeps {r : WaitingRoom} {k : Book} (h : Run r k) :
    (k.unrung = 0 → r.queue.isEmpty = false →
        ∀ w ∈ r.waiters, w.phase ≠ .asleep false
          ∧ (w.result? = none → (w.run r.queue).1.result? = r.queue.contents.head?))
      ∧ k.appended = k.gone.map Prod.snd ++ r.queue.contents
      ∧ k.served.Nodup
      ∧ ∀ w ∈ r.waiters, ∀ e, w.result? = some e ↔ (.waiter w.id, e) ∈ k.gone := by
  have horderly := h.orderly
  refine ⟨fun hunrung hqueued w hw => ?_, horderly.appended, horderly.once,
    horderly.result_iff⟩
  cases hcontents : r.queue.contents with
  | nil =>
    unfold BlockQueue.isEmpty at hqueued
    rw [horderly.placed.length_eq, hcontents] at hqueued
    cases hqueued
  | cons e rest =>
    have hawake : w.phase ≠ .asleep false := by
      rcases horderly.awake with hpos | hnil | hawake
      · exact absurd hunrung (Nat.ne_of_gt hpos)
      · rw [hcontents] at hnil
        cases hnil
      · exact hawake w hw
    exact ⟨hawake, fun hnone => Waiter.result?_run horderly.placed hcontents hnone hawake⟩

/-- The first waiter finds nothing and sleeps; a block is inserted, and before the
bell rings a second waiter takes it and leaves.  Of three more blocks two have room.
A third waiter has its ticket when somebody else takes the first of them.

Then all waiters run: the first one gets the block that is left, and the third one falls
asleep.  One block is appended, and of two more one has room: nobody sleeps beside them. -/
theorem nobody_oversleeps_between_rings :
    let b : UInt8 → Block := fun n => .linking n.toUInt64 (.replicate n) (.replicate (n - 1))
    ∃ r k, Run r k ∧ k.unrung = 0 ∧ r.queue.isEmpty = false
      ∧ r.waiters.map Waiter.id = [0, 2]
      ∧ k.gone = [(.waiter 1, .ok (b 1)), (.poll, .ok (b 2))]
      ∧ k.appended = [.ok (b 1), .ok (b 2), .ok (b 3)]
      ∧ (∀ w ∈ r.waiters, w.phase ≠ .asleep false
        ∧ (w.result? = none → (w.run r.queue).1.result? = some (.ok (b 3))))
      ∧ let later := ((r.serve.1.enqueue (b 5)).next.enqueueBatch [b 6, b 7]).next
        ∃ l, Run later l ∧ l.unrung = 0
          ∧ later.waiters.map Waiter.result? = [some (.ok (b 3)), none]
          ∧ ∀ w ∈ later.waiters, w.phase ≠ .asleep false
            ∧ (w.result? = none → (w.run later.queue).1.result? = some (.ok (b 5))) := by
  intro b
  have hbegin : Run (.ofQueue (.empty 2)) ⟨0, [], []⟩ := .opened trivial
  have hasleep := (hbegin.entered.stepped [] [] rfl).stepped [] [] rfl
  have hinserted := hasleep.inserted (b 1) (by decide +kernel)
  have htaken := (hinserted.entered.stepped [_] [] rfl).stepped [_] [] rfl
  have hrung := (htaken.rung (by decide +kernel)).left 1
  have hmore := (hrung.insertedAll [b 2, b 3, b 4] (by decide +kernel)).rung (by decide +kernel)
  have hrun := (hmore.entered.stepped [_] [] rfl).polled
  have hall := hrun.nobody_oversleeps.1 (by decide +kernel) (by decide +kernel)
  -- the room's own operations from here on
  obtain ⟨k₁, hserved, hunrung₁⟩ := hrun.serve
  obtain ⟨k₂, happended, hunrung₂⟩ := hserved.enqueue (b := b 5) (by decide +kernel)
  have hstorable : ∀ c ∈ [b 6, b 7], c.Storable := by decide +kernel
  obtain ⟨l, hlater, hunrung₃⟩ := happended.enqueueBatch hstorable
  have hunrung : l.unrung = 0 := hunrung₃.trans (hunrung₂.trans hunrung₁)
  have hlast := hlater.nobody_oversleeps.1 hunrung (by decide +kernel)
  exact ⟨_, _, hrun, by decide +kernel, by decide +kernel, by decide +kernel, by decide +kernel,
    by decide +kernel, hall, l, hlater, hunrung, by decide +kernel, hlast⟩

end WaitingRoom
end BlockSync
