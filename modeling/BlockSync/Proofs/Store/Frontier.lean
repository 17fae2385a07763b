/-
  BlockSync.Proofs.Store.Frontier
  ───────────────────────────────
  **EVERY FRONTIER ANSWERS AS A LIST OF HASHES.**

  A frontier in memory is a list; a frontier in a tree is a range of positions
  with 32 bytes under each.  `Frontier.Holds` says for either that it stands for
  a list of hashes.  `listed` is what each call does to such a list:

      reset h                         [h]
      pushFront, pushFrontBatch,
      returnBatch                     in front, in the order given
      pushBack                        behind the others
      drainFront n, front n           answer the first n, taken or left
      peek                            the first, or there is none

  A frontier that holds a list answers each call as the list does
  (`Holds.perform`) and opens again with the same list (`Holds.reopen`), so whole
  runs agree, whatever lies in between.
-/
import BlockSync.Proofs.Block.Binary
import BlockSync.Proofs.Store.Positions
import BlockSync.Proofs.Store.Service
import BlockSync.Store.Frontier

namespace BlockSync

/-! ## §1. Stored hashes. -/

namespace StoredFrontier

theorem decodeHash_bytes (h : BlockHash) : decodeHash h.bytes = .ok h := by
  unfold decodeHash
  rw [BlockHash.ofBytes?_bytes]

theorem mapM_decodeHash (hs : List BlockHash) :
    (hs.map BlockHash.bytes).mapM decodeHash = .ok hs := by
  induction hs with
  | nil => rfl
  | cons h hs ih =>
    rw [List.map_cons, List.mapM_cons, decodeHash_bytes, ih]
    rfl

/-- Hashes with the consecutive positions they are stored under. -/
def positioned : (start : UInt64) → List BlockHash → List (BlockHash × UInt64)
  | _, [] => []
  | start, h :: hs => (h, start) :: positioned (start + 1) hs

theorem mapM_decodeEntry (hs : List BlockHash) :
    ∀ p, (Position.entriesFrom p (hs.map BlockHash.bytes)).mapM decodeEntry
      = .ok (positioned p hs) := by
  induction hs with
  | nil => intro p; rfl
  | cons h hs ih =>
    intro p
    have hentry : decodeEntry (Position.encode p, h.bytes) = .ok (h, p) := by
      unfold decodeEntry
      rw [decodeHash_bytes, Position.decode_encode]
      rfl
    show ((Position.encode p, h.bytes)
      :: Position.entriesFrom (p + 1) (hs.map BlockHash.bytes)).mapM decodeEntry = _
    rw [List.mapM_cons, hentry, ih]
    rfl

theorem map_fst_positioned (hs : List BlockHash) : ∀ p, (positioned p hs).map Prod.fst = hs := by
  induction hs with
  | nil => intro p; rfl
  | cons h hs ih => intro p; exact congrArg (h :: ·) (ih (p + 1))

/-- The last of some stored hashes is as many positions behind the first as
there are others. -/
theorem getLast?_positioned (hs : List BlockHash) (h : BlockHash) :
    ∀ p, (positioned p (hs ++ [h])).getLast? = some (h, p + UInt64.ofNat hs.length) := by
  induction hs with
  | nil =>
    intro p
    show some (h, p) = some (h, p + 0)
    rw [UInt64.add_zero]
  | cons k hs ih =>
    intro p
    have hp : p + 1 + UInt64.ofNat hs.length = p + UInt64.ofNat (hs.length + 1) := by
      rw [UInt64.add_assoc, UInt64.ofNat_add, UInt64.add_comm 1]
      rfl
    have hrest := ih (p + 1)
    rw [hp] at hrest
    show ((k, p) :: positioned (p + 1) (hs ++ [h])).getLast? = _
    rw [List.getLast?_cons, hrest]
    rfl

end StoredFrontier

theorem Tree.apply_append (t : Tree) (as bs : List Tree.Change) :
    t.apply (as ++ bs) = (t.apply as).apply bs :=
  List.foldl_append

/-! ## §2. What a frontier holds. -/

namespace Frontier

/-- A frontier that stands for a list of hashes. -/
def Holds : Frontier → List BlockHash → Prop
  | .volatile hs, l => hs = l
  | .stored f, l => f.tree.Fills f.span (l.map BlockHash.bytes)

/-- The hashes of a frontier, the front one first. -/
def hashes : Frontier → List BlockHash
  | .volatile hs => hs
  | .stored f => f.tree.values.filterMap BlockHash.ofBytes?

/-- The frontier of a process that has started again: a tree is opened anew, a
frontier in memory has nothing to open. -/
def reopen (f : Frontier) : Except StoreError Frontier :=
  match f.tree? with
  | some t => (openTree t).map Prod.fst
  | none => .ok f

/-- **Pushed one by one from the last, hashes lie in front in their order.** -/
theorem foldl_push_reverse (ks hs : List BlockHash) :
    ks.reverse.foldl (fun front k => k :: front) hs = ks ++ hs := by
  induction ks with
  | nil => rfl
  | cons k ks ih => rw [List.reverse_cons, List.foldl_append, ih]; rfl

namespace Holds

variable {f : Frontier} {l : List BlockHash}

theorem hashes_eq (h : f.Holds l) : f.hashes = l := by
  cases f with
  | volatile hs => exact h
  | stored f =>
    show f.tree.values.filterMap BlockHash.ofBytes? = l
    rw [Tree.Fills.values_eq h, List.filterMap_map]
    have hread : BlockHash.ofBytes? ∘ BlockHash.bytes = some := funext BlockHash.ofBytes?_bytes
    rw [hread, List.filterMap_some]

theorem length_eq (h : f.Holds l) : f.length = l.length := by
  cases f with
  | volatile hs => exact congrArg List.length h
  | stored f =>
    have hlen : f.span.length = (l.map BlockHash.bytes).length := h.length
    rw [List.length_map] at hlen
    exact hlen

theorem peek_nil (h : f.Holds []) : f.peek = .error .emptyFrontier := by
  cases f with
  | volatile hs =>
    obtain rfl : hs = [] := h
    rfl
  | stored f =>
    show StoredFrontier.peek f = _
    unfold StoredFrontier.peek
    rw [Tree.Fills.first?_nil h]

theorem peek_cons {k : BlockHash} (h : f.Holds (k :: l)) : f.peek = .ok k := by
  cases f with
  | volatile hs =>
    obtain rfl : hs = k :: l := h
    rfl
  | stored f =>
    show StoredFrontier.peek f = _
    unfold StoredFrontier.peek
    rw [Tree.Fills.first?_cons h]
    exact StoredFrontier.decodeHash_bytes k

theorem front_eq (h : f.Holds l) (n : Nat) : f.front n = .ok (l.take n) := by
  cases f with
  | volatile hs =>
    obtain rfl : hs = l := h
    rfl
  | stored f =>
    show StoredFrontier.front f n = _
    unfold StoredFrontier.front
    rw [Tree.Fills.values_eq h, ← List.map_take, StoredFrontier.mapM_decodeHash]

theorem clear (f : Frontier) : f.clear.Holds [] := by
  cases f with
  | volatile hs => rfl
  | stored f => exact Tree.Fills.cleared f.tree

/-- Resetting works from any state: it deletes every key, and the one it writes
lies just before the middle. -/
theorem reset (f : Frontier) (k : BlockHash) :
    (f.reset k).answer = .ok () ∧ (f.reset k).next.Holds [k] := by
  cases f with
  | volatile hs => exact ⟨rfl, rfl⟩
  | stored f =>
    have hroom : Span.fresh.frontStart [k.bytes].length = .ok (Span.middle - 1) := rfl
    have hfills := (Tree.Fills.cleared f.tree).prepend _ hroom
    have hreset : f.reset k = .ok ()
        ⟨f.tree.apply (f.tree.deleteAll ++ [.put (Position.encode (Span.middle - 1)) k.bytes]),
          ⟨Span.middle - 1, Span.fresh.tail⟩⟩ := rfl
    show (f.reset k).answer = .ok () ∧ Holds (.stored (f.reset k).next) [k]
    rw [hreset]
    refine ⟨rfl, ?_⟩
    show Tree.Fills (f.tree.apply (_ ++ _)) _ _
    rw [Tree.apply_append]
    exact hfills

theorem pushFrontBatch (h : f.Holds l) (ks : List BlockHash) :
    ((f.pushFrontBatch ks).answer = .ok () ∧ (f.pushFrontBatch ks).next.Holds (ks ++ l))
      ∨ ((f.pushFrontBatch ks).answer = .error .keySpaceExhausted
        ∧ (f.pushFrontBatch ks).next = f) := by
  cases f with
  | volatile hs =>
    obtain rfl : hs = l := h
    exact Or.inl ⟨rfl, foldl_push_reverse ks hs⟩
  | stored f =>
    show ((StoredFrontier.pushFrontBatch f ks).answer = _
        ∧ Holds (.stored (StoredFrontier.pushFrontBatch f ks).next) _)
      ∨ ((StoredFrontier.pushFrontBatch f ks).answer = _
        ∧ Frontier.stored (StoredFrontier.pushFrontBatch f ks).next = _)
    unfold StoredFrontier.pushFrontBatch
    cases ks with
    | nil => exact Or.inl ⟨rfl, h⟩
    | cons k ks =>
      -- an empty batch is answered without a look at the room
      rw [if_neg (by simp)]
      cases hroom : f.span.frontStart (k :: ks).length with
      | error e =>
        rw [Span.frontStart_error hroom]
        exact Or.inr ⟨rfl, rfl⟩
      | ok start =>
        refine Or.inl ⟨rfl, ?_⟩
        have hfills := Tree.Fills.prepend ((k :: ks).map BlockHash.bytes) h
          (by rw [List.length_map]; exact hroom)
        rw [← List.map_append] at hfills
        exact hfills

theorem pushBack (h : f.Holds l) (k : BlockHash) :
    ((f.pushBack k).answer = .ok () ∧ (f.pushBack k).next.Holds (l ++ [k]))
      ∨ ((f.pushBack k).answer = .error .keySpaceExhausted ∧ (f.pushBack k).next = f) := by
  cases f with
  | volatile hs =>
    obtain rfl : hs = l := h
    exact Or.inl ⟨rfl, rfl⟩
  | stored f =>
    show ((StoredFrontier.pushBack f k).answer = _
        ∧ Holds (.stored (StoredFrontier.pushBack f k).next) _)
      ∨ ((StoredFrontier.pushBack f k).answer = _
        ∧ Frontier.stored (StoredFrontier.pushBack f k).next = _)
    unfold StoredFrontier.pushBack
    cases hroom : f.span.backEnd 1 with
    | error e =>
      rw [Span.backEnd_error hroom]
      exact Or.inr ⟨rfl, rfl⟩
    | ok tail =>
      refine Or.inl ⟨rfl, ?_⟩
      have hfills := Tree.Fills.append [k.bytes] h hroom
      have hmap : l.map BlockHash.bytes ++ [k.bytes] = (l ++ [k]).map BlockHash.bytes := by simp
      rw [hmap] at hfills
      exact hfills

/-- Draining takes the first hashes, and what follows them stays. -/
theorem drainFront (h : f.Holds l) (n : Nat) :
    (f.drainFront n).answer = .ok (l.take n) ∧ (f.drainFront n).next.Holds (l.drop n) := by
  cases f with
  | volatile hs =>
    obtain rfl : hs = l := h
    exact ⟨rfl, rfl⟩
  | stored f =>
    have hfills : f.tree.Fills f.span (l.map BlockHash.bytes) := h
    have htaken : f.tree.entries.take n
        = Position.entriesFrom f.span.head ((l.take n).map BlockHash.bytes) := by
      rw [hfills.entries, Position.take_entriesFrom, ← List.map_take]
    show (StoredFrontier.drainFront f n).answer = _
      ∧ Holds (.stored (StoredFrontier.drainFront f n).next) _
    simp only [StoredFrontier.drainFront]
    rw [htaken, StoredFrontier.mapM_decodeEntry]
    dsimp only
    -- the last entry taken says where the head goes; with none the head stays
    rcases List.eq_nil_or_concat (l.take n) with hnil | ⟨ks, k, hks⟩
    · have hdrop : l.drop n = l := by
        have := List.take_append_drop n l
        rwa [hnil] at this
      rw [hnil, hdrop]
      exact ⟨rfl, h⟩
    · rw [List.concat_eq_append] at hks
      have hlen : (l.take n).length = ks.length + 1 := by rw [hks]; simp
      have hle : (l.take n).length ≤ l.length := by
        rw [List.length_take]
        omega
      have hbound := hfills.bound
      rw [List.length_map] at hbound
      have hlast : (f.span.head + UInt64.ofNat ks.length).toNat + 1
          = f.span.head.toNat + ((l.take n).map BlockHash.bytes).length := by
        rw [Position.toNat_add_ofNat (by omega), List.length_map]
        omega
      rw [hks, StoredFrontier.getLast?_positioned, ← hks]
      refine ⟨congrArg Except.ok (StoredFrontier.map_fst_positioned _ _), ?_⟩
      rw [← List.take_append_drop n l, List.map_append] at hfills
      exact hfills.deleteFront _ hlast

/-- **A frontier that starts again succeeds and holds the same hashes.** -/
theorem reopen (h : f.Holds l) : f.reopen = .ok f := by
  cases f with
  | volatile hs => rfl
  | stored f =>
    have hr : Span.recover f.tree = .ok f.span := Tree.Fills.recover h
    show (openTree f.tree).map Prod.fst = _
    unfold openTree StoredFrontier.recover
    rw [hr]
    rfl

end Holds

/-- A refused call leaves the frontier as it was, whatever is stored in it. -/
theorem next_pushFrontBatch_of_error {f : Frontier} {hs : List BlockHash} {e : StoreError}
    (h : (f.pushFrontBatch hs).answer = .error e) : (f.pushFrontBatch hs).next = f := by
  cases f with
  | volatile old => cases h
  | stored f =>
    change (StoredFrontier.pushFrontBatch f hs).answer = .error e at h
    show Frontier.stored (StoredFrontier.pushFrontBatch f hs).next = .stored f
    unfold StoredFrontier.pushFrontBatch at h ⊢
    split
    · rfl
    next hne =>
      rw [if_neg hne] at h
      cases hroom : f.span.frontStart hs.length with
      | error cause => rfl
      | ok start =>
        rw [hroom] at h
        cases h

theorem next_pushBack_of_error {f : Frontier} {k : BlockHash} {e : StoreError}
    (h : (f.pushBack k).answer = .error e) : (f.pushBack k).next = f := by
  cases f with
  | volatile old => cases h
  | stored f =>
    change (StoredFrontier.pushBack f k).answer = .error e at h
    show Frontier.stored (StoredFrontier.pushBack f k).next = .stored f
    unfold StoredFrontier.pushBack at h ⊢
    cases hroom : f.span.backEnd 1 with
    | error cause => rfl
    | ok tail =>
      rw [hroom] at h
      cases h

theorem next_drainFront_of_error {f : Frontier} {n : Nat} {e : StoreError}
    (h : (f.drainFront n).answer = .error e) : (f.drainFront n).next = f := by
  cases f with
  | volatile hs => cases h
  | stored f =>
    change (StoredFrontier.drainFront f n).answer = .error e at h
    show Frontier.stored (StoredFrontier.drainFront f n).next = .stored f
    simp only [StoredFrontier.drainFront] at h ⊢
    cases htaken : (f.tree.entries.take n).mapM StoredFrontier.decodeEntry with
    | error cause => rfl
    | ok decoded =>
      rw [htaken] at h
      dsimp only at h
      -- both ways out of a read that went through are answers
      split at h
      · cases h
      · cases h

/-! ## §3. Calls and answers. -/

/-- A call to a frontier. -/
inductive Call where
  | reset (h : BlockHash)
  | pushFront (h : BlockHash)
  | pushFrontBatch (hs : List BlockHash)
  | returnBatch (hs : List BlockHash)
  | pushBack (h : BlockHash)
  | peek
  | drainFront (max : Nat)
  | front (count : Nat)
  | length
  | isEmpty
  | clear
deriving DecidableEq

/-- What a call is answered. -/
inductive Answer where
  | done
  | hash (h : BlockHash)
  | hashes (hs : List BlockHash)
  | count (n : Nat)
  | flag (yes : Bool)
  | refused (e : StoreError)
  /-- The frontier could not be opened again, so there is nothing left to call. -/
  | unopened (e : StoreError)
deriving DecidableEq

/-- The answer of a frontier to a call, and the frontier after it. -/
def perform (f : Frontier) : Call → Answer × Frontier
  | .reset h => (answered .refused (fun _ => .done) (f.reset h).answer, (f.reset h).next)
  | .pushFront h =>
    (answered .refused (fun _ => .done) (f.pushFront h).answer, (f.pushFront h).next)
  | .pushFrontBatch hs =>
    (answered .refused (fun _ => .done) (f.pushFrontBatch hs).answer, (f.pushFrontBatch hs).next)
  | .returnBatch hs =>
    (answered .refused (fun _ => .done) (f.returnBatch hs).answer, (f.returnBatch hs).next)
  | .pushBack h => (answered .refused (fun _ => .done) (f.pushBack h).answer, (f.pushBack h).next)
  | .peek => (answered .refused .hash f.peek, f)
  | .drainFront n => (answered .refused .hashes (f.drainFront n).answer, (f.drainFront n).next)
  | .front n => (answered .refused .hashes (f.front n), f)
  | .length => (.count f.length, f)
  | .isEmpty => (.flag f.isEmpty, f)
  | .clear => (.done, f.clear)

/-- The answer of a list of hashes to a call, and the list after it. -/
def listed (l : List BlockHash) : Call → Answer × List BlockHash
  | .reset h => (.done, [h])
  | .pushFront h => (.done, h :: l)
  | .pushFrontBatch hs => (.done, hs ++ l)
  | .returnBatch hs => (.done, hs ++ l)
  | .pushBack h => (.done, l ++ [h])
  | .peek =>
    match l with
    | [] => (.refused .emptyFrontier, [])
    | h :: rest => (.hash h, h :: rest)
  | .drainFront n => (.hashes (l.take n), l.drop n)
  | .front n => (.hashes (l.take n), l)
  | .length => (.count l.length, l)
  | .isEmpty => (.flag l.isEmpty, l)
  | .clear => (.done, [])

/-- **A frontier answers a call as the list it holds does**, or it has no room and
is left as it was. -/
theorem Holds.perform {f : Frontier} {l : List BlockHash} (h : f.Holds l) (c : Call) :
    ((f.perform c).1 = (listed l c).1 ∧ (f.perform c).2.Holds (listed l c).2)
      ∨ ((f.perform c).1 = .refused .keySpaceExhausted ∧ (f.perform c).2 = f) := by
  have hfront : ∀ hs : List BlockHash,
      ((answered Answer.refused (fun _ => .done) (f.pushFrontBatch hs).answer = .done
        ∧ (f.pushFrontBatch hs).next.Holds (hs ++ l))
        ∨ (answered Answer.refused (fun _ => .done) (f.pushFrontBatch hs).answer
            = .refused .keySpaceExhausted ∧ (f.pushFrontBatch hs).next = f)) := by
    intro hs
    rcases h.pushFrontBatch hs with ⟨ha, hn⟩ | ⟨ha, hn⟩
    · exact Or.inl ⟨congrArg (answered Answer.refused fun _ => .done) ha, hn⟩
    · exact Or.inr ⟨congrArg (answered Answer.refused fun _ => .done) ha, hn⟩
  cases c with
  | reset k =>
    obtain ⟨ha, hn⟩ := Holds.reset f k
    exact Or.inl ⟨congrArg (answered Answer.refused fun _ => .done) ha, hn⟩
  | pushFront k => exact hfront [k]
  | pushFrontBatch hs => exact hfront hs
  | returnBatch hs => exact hfront hs
  | pushBack k =>
    rcases h.pushBack k with ⟨ha, hn⟩ | ⟨ha, hn⟩
    · exact Or.inl ⟨congrArg (answered Answer.refused fun _ => .done) ha, hn⟩
    · exact Or.inr ⟨congrArg (answered Answer.refused fun _ => .done) ha, hn⟩
  | peek =>
    left
    cases l with
    | nil => exact ⟨congrArg (answered Answer.refused .hash) h.peek_nil, h⟩
    | cons k rest => exact ⟨congrArg (answered Answer.refused .hash) h.peek_cons, h⟩
  | drainFront n =>
    obtain ⟨ha, hn⟩ := h.drainFront n
    exact Or.inl ⟨congrArg (answered Answer.refused .hashes) ha, hn⟩
  | front n => exact Or.inl ⟨congrArg (answered Answer.refused .hashes) (h.front_eq n), h⟩
  | length => exact Or.inl ⟨congrArg Answer.count h.length_eq, h⟩
  | isEmpty =>
    refine Or.inl ⟨congrArg Answer.flag ?_, h⟩
    unfold isEmpty
    rw [h.length_eq]
    cases l with
    | nil => rfl
    | cons k rest => rfl
  | clear => exact Or.inl ⟨rfl, Holds.clear f⟩

theorem exists_holds_perform {f : Frontier} (h : ∃ l, f.Holds l) (c : Call) :
    ∃ l, (f.perform c).2.Holds l := by
  obtain ⟨l, hl⟩ := h
  rcases hl.perform c with ⟨-, hn⟩ | ⟨-, hn⟩
  · exact ⟨_, hn⟩
  · exact ⟨l, by rw [hn]; exact hl⟩

/-! ## §4. Whole runs. -/

/-- A frontier as a service. -/
def service : Service Frontier Call Answer := ⟨perform, reopen, .unopened⟩

/-- A list of hashes as a service that nothing can interrupt. -/
def listedService : Service (List BlockHash) Call Answer := ⟨listed, .ok, .unopened⟩

/-- **A frontier answers as the list it holds does, start after start**, unless it
runs out of room. -/
theorem Holds.trace_eq {f : Frontier} {l : List BlockHash} (h : f.Holds l)
    (steps : List (Step Call)) (hroom : .refused .keySpaceExhausted ∉ service.trace steps f) :
    service.trace steps f = listedService.trace steps l := by
  refine Service.trace_eq (R := Holds) (fun _ => True) ?_ ?_ steps h
    (fun _ _ => trivial) hroom
  · intro f' l' hf c _
    rcases hf.perform c with hsame | ⟨ha, -⟩
    · exact Or.inl hsame
    · exact Or.inr ha
  · intro f' l' hf
    exact ⟨f', l', hf.reopen, rfl, hf⟩

/-- A frontier in memory never runs out of room, and stays in memory. -/
theorem perform_volatile (hs : List BlockHash) (c : Call) :
    ((volatile hs).perform c).1 ≠ .refused .keySpaceExhausted
      ∧ ∃ next, ((volatile hs).perform c).2 = volatile next := by
  cases c with
  | peek =>
    refine ⟨?_, _, rfl⟩
    cases hs with
    | nil => intro h; cases h
    | cons h rest => intro h; cases h
  | _ => exact ⟨fun h => (by cases h), _, rfl⟩

theorem not_mem_trace_volatile (steps : List (Step Call)) (hs : List BlockHash) :
    .refused .keySpaceExhausted ∉ service.trace steps (volatile hs) := by
  refine Service.not_mem_trace (P := fun q => ∃ v, q = volatile v) ?_ ?_ steps ⟨hs, rfl⟩
  · rintro _ ⟨v, rfl⟩ c
    exact perform_volatile v c
  · rintro _ ⟨v, rfl⟩
    exact ⟨_, rfl, v, rfl⟩

/-- **A FRONTIER IS A LIST, WHEREVER IT LIVES.**  In memory it answers all calls
as the list does that is empty at the beginning.  In a tree that was empty it
does so too, started again at any moments, as long as it has not run out of
positions. -/
theorem trace_eq_listed (steps : List (Step Call)) :
    service.trace ((Step.calls steps).map .call) .empty = listedService.trace steps []
      ∧ ∀ f events, openTree .empty = .ok (f, events) →
        .refused .keySpaceExhausted ∉ service.trace steps f →
        service.trace steps f = listedService.trace steps [] := by
  constructor
  · have hempty : Holds .empty [] := rfl
    rw [hempty.trace_eq _ (not_mem_trace_volatile _ _)]
    exact Service.trace_calls (fun _ => rfl) steps []
  · intro f events hopen hroom
    have hf : StoredFrontier.recover .empty = .ok ⟨.empty, .fresh⟩ := rfl
    unfold openTree at hopen
    rw [hf] at hopen
    cases hopen
    have hstored : Holds (.stored ⟨.empty, .fresh⟩) [] := Tree.Fills.empty
    exact hstored.trace_eq steps hroom

/-- A frontier that is reset onto a key it already has, grows at both ends, is
emptied and starts again in each of these states. -/
def wanderingSteps : List (Step Call) :=
  let h (n : UInt8) : BlockHash := .replicate n
  [.call (.pushFront (h 1)), .call (.reset (h 2)), .restart,
    .call (.pushBack (h 3)), .call (.pushFrontBatch [h 4, h 5]), .call (.drainFront 2), .restart,
    .call (.returnBatch [h 4, h 5]), .call (.front 3), .call (.drainFront 9), .restart,
    .call .peek, .call (.pushBack (h 6)), .restart, .call .peek, .call .length]

theorem trace_wanderingSteps :
    openTree .empty = .ok (.stored ⟨.empty, .fresh⟩, [.openedFrontier 0])
      ∧ .refused .keySpaceExhausted ∉ service.trace wanderingSteps (.stored ⟨.empty, .fresh⟩)
      ∧ service.trace wanderingSteps (.stored ⟨.empty, .fresh⟩)
          = listedService.trace wanderingSteps [] := by
  have hopen : openTree .empty = .ok (.stored ⟨.empty, .fresh⟩, [.openedFrontier 0]) := by
    rfl
  have hroom : .refused .keySpaceExhausted
      ∉ service.trace wanderingSteps (.stored ⟨.empty, .fresh⟩) := by decide +kernel
  exact ⟨hopen, hroom, (trace_eq_listed wanderingSteps).2 _ _ hopen hroom⟩

end Frontier
end BlockSync
