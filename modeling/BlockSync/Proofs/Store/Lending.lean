/-
  BlockSync.Proofs.Store.Lending
  ──────────────────────────────
  **WHAT IS GIVEN BACK STANDS WHERE IT WAS TAKEN.**

  Batches are drained from the front of a frontier, hashes are appended behind it
  meanwhile, and the batches come back, the one taken last first.  As a list this is
  plain.  In a tree it is a matter of positions: a drain leaves its own positions free
  before the head, unless it takes the last hash there is.  Then the range starts in
  the middle again, and what comes back lands before the middle, beside whatever was
  appended since.

      HasRoom            as many positions before the head as hashes are owed
      hasRoom_drainFront a drain leaves room for what it takes, or half the key space
      Lent.balanced      what is owed and what is held are the old and the new hashes
      returned_in_order  all that is owed can be given back, and is in order then
-/
import BlockSync.Proofs.Store.Frontier

namespace BlockSync

/-! ## §1. Batches that are out. -/

namespace Frontier

/-- What may become of a frontier by drains, appends and batches given back: the
batches that are still out, the one taken last first, and the hashes appended. -/
inductive Lent (start : Frontier) :
    Frontier → (out : List (List BlockHash)) → (appended : List BlockHash) → Prop where
  | begun : Lent start start [] []
  | taken {f : Frontier} {out : List (List BlockHash)} {xs : List BlockHash}
      (h : Lent start f out xs) (n : Nat) {hs : List BlockHash}
      (hanswer : (f.drainFront n).answer = .ok hs) :
      Lent start (f.drainFront n).next (hs :: out) xs
  | appended {f : Frontier} {out : List (List BlockHash)} {xs : List BlockHash}
      (h : Lent start f out xs) (k : BlockHash) (hanswer : (f.pushBack k).answer = .ok ()) :
      Lent start (f.pushBack k).next out (xs ++ [k])
  | returned {f : Frontier} {hs : List BlockHash} {out : List (List BlockHash)}
      {xs : List BlockHash} (h : Lent start f (hs :: out) xs) :
      Lent start (f.returnBatch hs).next out xs

/-- The hashes of the batches that are out, in the order in which they were taken. -/
def owed : List (List BlockHash) → List BlockHash
  | [] => []
  | hs :: out => owed out ++ hs

/-- Give back all batches that are out, the one taken last first: every answer, and
the frontier after it. -/
def returnAll : List (List BlockHash) → Frontier → List (Except StoreError Unit) × Frontier
  | [], f => ([], f)
  | hs :: out, f =>
    ((f.returnBatch hs).answer :: (returnAll out (f.returnBatch hs).next).1,
      (returnAll out (f.returnBatch hs).next).2)

/-! ## §2. Room before the head. -/

/-- There are as many positions before the head. -/
def HasRoom : Frontier → Nat → Prop
  | .volatile _, _ => True
  | .stored f, n => n ≤ f.span.head.toNat

/-- A drain starts the range in the middle again, or it leaves the tail alone. -/
theorem span_drainFront (f : StoredFrontier) (n : Nat) :
    (f.drainFront n).next.span = .fresh ∨ (f.drainFront n).next.span.tail = f.span.tail := by
  -- a refused drain and an empty one leave the range, a drain that empties the tree starts over
  simp only [StoredFrontier.drainFront]
  cases (f.tree.entries.take n).mapM StoredFrontier.decodeEntry with
  | error e => exact Or.inr rfl
  | ok decoded =>
    dsimp only
    cases decoded.getLast? with
    | none => exact Or.inr rfl
    | some last =>
      show f.span.popFront last.2 = .fresh ∨ (f.span.popFront last.2).tail = f.span.tail
      unfold Span.popFront
      split
      · exact Or.inl rfl
      · exact Or.inr rfl

variable {f : Frontier} {l : List BlockHash} {n owing : Nat}

/-- **A drain leaves room for what it takes**: the positions it frees, or all those
before the middle. -/
theorem hasRoom_drainFront (h : f.Holds l) (hroom : f.HasRoom owing)
    (hfew : owing + l.length < UInt64.size / 2) :
    (f.drainFront n).next.HasRoom (owing + (l.take n).length) := by
  have hnext := (h.drainFront n).2
  have hlen : (l.take n).length + (l.drop n).length = l.length := by
    rw [← List.length_append, List.take_append_drop]
  cases f with
  | volatile hs => trivial
  | stored f =>
    have hfills : f.tree.Fills f.span (l.map BlockHash.bytes) := h
    have hrest : (f.drainFront n).next.tree.Fills (f.drainFront n).next.span
        ((l.drop n).map BlockHash.bytes) := hnext
    have htail := hfills.tail
    have htail' := hrest.tail
    rw [List.length_map] at htail htail'
    show owing + (l.take n).length ≤ (f.drainFront n).next.span.head.toNat
    have hroom' : owing ≤ f.span.head.toNat := hroom
    rcases span_drainFront f n with hspan | hspan
    · -- the middle is far enough behind the first position for all there is
      have hmiddle : Span.fresh.head.toNat = UInt64.size / 2 - 1 := rfl
      rw [hspan, hmiddle]
      omega
    · -- the tail stays, so the head moves by what is taken
      rw [hspan] at htail'
      omega

theorem hasRoom_pushBack (k : BlockHash) (hroom : f.HasRoom owing) :
    (f.pushBack k).next.HasRoom owing := by
  cases f with
  | volatile hs => trivial
  | stored f =>
    show owing ≤ (StoredFrontier.pushBack f k).next.span.head.toNat
    unfold StoredFrontier.pushBack
    cases f.span.backEnd 1 with
    | error e => exact hroom
    | ok tail => exact hroom

/-- **Where there is room a batch can be given back**, and there is room for the
others after it. -/
theorem hasRoom_returnBatch {hs : List BlockHash} (hroom : f.HasRoom (owing + hs.length)) :
    (f.returnBatch hs).answer = .ok () ∧ (f.returnBatch hs).next.HasRoom owing := by
  cases f with
  | volatile old => exact ⟨rfl, trivial⟩
  | stored f =>
    have hle : owing + hs.length ≤ f.span.head.toNat := hroom
    show (StoredFrontier.pushFrontBatch f hs).answer = .ok ()
      ∧ owing ≤ (StoredFrontier.pushFrontBatch f hs).next.span.head.toNat
    unfold StoredFrontier.pushFrontBatch
    split
    · -- an empty batch is not written at all
      exact ⟨rfl, by show owing ≤ f.span.head.toNat; omega⟩
    · have hstart : f.span.frontStart hs.length = .ok (f.span.head - UInt64.ofNat hs.length) := by
        unfold Span.frontStart
        rw [if_pos (by omega)]
      rw [hstart]
      refine ⟨rfl, ?_⟩
      show owing ≤ (f.span.head - UInt64.ofNat hs.length).toNat
      rw [Position.toNat_sub_ofNat (by omega)]
      omega

/-! ## §3. What is owed and what is held. -/

/-- A frontier holds what followed the batches that are out, and has room for them. -/
structure Balanced (l : List BlockHash) (f : Frontier) (out : List (List BlockHash))
    (xs : List BlockHash) (held : List BlockHash) : Prop where
  holds : f.Holds held
  whole : owed out ++ held = l ++ xs
  room : f.HasRoom (owed out).length

namespace Balanced

variable {out : List (List BlockHash)} {xs held hs : List BlockHash}

theorem length_eq (h : Balanced l f out xs held) :
    (owed out).length + held.length = l.length + xs.length := by
  rw [← List.length_append, h.whole, List.length_append]

theorem taken (h : Balanced l f out xs held) (hfew : l.length + xs.length < UInt64.size / 2)
    (hanswer : (f.drainFront n).answer = .ok hs) :
    Balanced l (f.drainFront n).next (hs :: out) xs (held.drop n) := by
  obtain ⟨hdrained, hnext⟩ := h.holds.drainFront n
  obtain rfl : held.take n = hs := Except.ok.inj (hdrained.symm.trans hanswer)
  refine ⟨hnext, ?_, ?_⟩
  · show (owed out ++ held.take n) ++ held.drop n = l ++ xs
    rw [List.append_assoc, List.take_append_drop, h.whole]
  · show (f.drainFront n).next.HasRoom (owed out ++ held.take n).length
    rw [List.length_append]
    exact hasRoom_drainFront h.holds h.room (by rw [h.length_eq]; exact hfew)

theorem appended {k : BlockHash} (h : Balanced l f out xs held)
    (hanswer : (f.pushBack k).answer = .ok ()) :
    Balanced l (f.pushBack k).next out (xs ++ [k]) (held ++ [k]) := by
  rcases h.holds.pushBack k with ⟨-, hnext⟩ | ⟨hrefused, -⟩
  · refine ⟨hnext, ?_, hasRoom_pushBack k h.room⟩
    rw [← List.append_assoc, h.whole, List.append_assoc]
  · cases hanswer.symm.trans hrefused

theorem returned (h : Balanced l f (hs :: out) xs held) :
    (f.returnBatch hs).answer = .ok ()
      ∧ Balanced l (f.returnBatch hs).next out xs (hs ++ held) := by
  have hroom : f.HasRoom ((owed out).length + hs.length) := by
    rw [← List.length_append]
    exact h.room
  obtain ⟨hanswer, hrest⟩ := hasRoom_returnBatch hroom
  refine ⟨hanswer, ?_, ?_, hrest⟩
  · rcases h.holds.pushFrontBatch hs with ⟨-, hnext⟩ | ⟨hrefused, -⟩
    · exact hnext
    · cases hanswer.symm.trans hrefused
  · rw [← List.append_assoc]
    exact h.whole

/-- All that is owed can be given back. -/
theorem returnAll {f : Frontier} {held : List BlockHash} (h : Balanced l f out xs held) :
    (∀ answer ∈ (Frontier.returnAll out f).1, answer = .ok ())
      ∧ (Frontier.returnAll out f).2.Holds (l ++ xs) := by
  -- each batch lands before what is held, and is owed no more
  induction out generalizing f held with
  | nil =>
    refine ⟨nofun, ?_⟩
    rw [← h.whole]
    exact h.holds
  | cons hs out ih =>
    obtain ⟨hanswer, hnext⟩ := h.returned
    obtain ⟨hanswers, hholds⟩ := ih hnext
    refine ⟨?_, hholds⟩
    intro answer hmem
    rcases List.mem_cons.mp hmem with rfl | hmem
    · exact hanswer
    · exact hanswers answer hmem

end Balanced

/-- **Nothing is lost or out of order while batches are out.**  Fewer hashes were
appended before than in the end, so half the key space was enough at every drain. -/
theorem Lent.balanced {start : Frontier} {out : List (List BlockHash)} {xs : List BlockHash}
    (hstart : start.Holds l) (h : Lent start f out xs)
    (hfew : l.length + xs.length < UInt64.size / 2) :
    ∃ held, Balanced l f out xs held := by
  induction h with
  | begun =>
    -- nothing is owed, so no room is needed
    refine ⟨l, hstart, (List.append_nil l).symm, ?_⟩
    cases start with
    | volatile hs => trivial
    | stored f => exact Nat.zero_le _
  | taken _ n hanswer ih =>
    obtain ⟨held, hheld⟩ := ih hfew
    exact ⟨_, hheld.taken hfew hanswer⟩
  | appended _ k hanswer ih =>
    -- before the append there was one hash less to do with
    rw [List.length_append] at hfew
    obtain ⟨held, hheld⟩ := ih (by omega)
    exact ⟨_, hheld.appended hanswer⟩
  | returned _ ih =>
    obtain ⟨held, hheld⟩ := ih hfew
    exact ⟨_, hheld.returned.2⟩

/-! ## §4. Giving everything back. -/

/-- **BATCHES THAT ARE GIVEN BACK, THE LAST FIRST, STAND WHERE THEY WERE TAKEN.**
Whatever was drained from a frontier, appended to it and given back before, wherever
it lives and wherever its range is: as long as it has to do with fewer than 2^63
hashes, which is half the key space, a drain is answered, every batch that is out is
taken back, and then the frontier holds what it held at first, followed by what was
appended. -/
theorem returned_in_order {start : Frontier} {out : List (List BlockHash)} {xs : List BlockHash}
    (hstart : start.Holds l) (h : Lent start f out xs)
    (hfew : l.length + xs.length < UInt64.size / 2) :
    (∀ n, ∃ hs, (f.drainFront n).answer = .ok hs)
      ∧ (∀ answer ∈ (returnAll out f).1, answer = .ok ())
      ∧ (returnAll out f).2.Holds (l ++ xs) := by
  obtain ⟨held, hheld⟩ := h.balanced hstart hfew
  refine ⟨?_, hheld.returnAll⟩
  intro n
  exact ⟨_, (hheld.holds.drainFront n).1⟩

/-- A frontier that has no position left before its two hashes. -/
def lowest : Frontier :=
  let hashes := [BlockHash.replicate 1, .replicate 2]
  .stored ⟨⟨Position.entriesFrom 0 (hashes.map BlockHash.bytes),
    Position.sorted_entriesFrom _ 0 (by decide +kernel)⟩, ⟨0, 2⟩⟩

/-- The second drain takes all there is, so the range starts in the middle again. -/
theorem returned_in_order_lowest :
    let drained := (((lowest.pushBack (.replicate 3)).next.drainFront 2).next.drainFront 5).next
    let last := (drained.pushBack (.replicate 4)).next
    let out : List (List BlockHash) := [[.replicate 3], [.replicate 1, .replicate 2]]
    lowest.Holds [.replicate 1, .replicate 2]
      ∧ Lent lowest last out [.replicate 3, .replicate 4]
      ∧ (returnAll out last).1 = [.ok (), .ok ()]
      ∧ (returnAll out last).2.Holds
          [.replicate 1, .replicate 2, .replicate 3, .replicate 4] := by
  intro drained last out
  have hholds : lowest.Holds [.replicate 1, .replicate 2] :=
    ⟨rfl, by decide +kernel, by decide +kernel⟩
  have hlent : Lent lowest last out [.replicate 3, .replicate 4] := by
    refine .appended (.taken (.taken (.appended .begun _ ?_) 2 ?_) 5 ?_) _ ?_
    all_goals rfl
  obtain ⟨-, -, hreturned⟩ := returned_in_order hholds hlent (by decide +kernel)
  exact ⟨hholds, hlent, rfl, hreturned⟩

end Frontier
end BlockSync
