/-
  BlockSync.Proofs.Chain.Linked
  ─────────────────────────────
  **BLOCKS IN ANY ORDER, HANDED TO A CHAIN THAT LOOKS AT LINKS.**

  A linked chain knows some hashes.  It answers an attempt by looking the block up,
  and then its parent; a block that it connects it knows from then on:

      the hash is known          exist
      else the parent is known   success
      else                       noParent

  Some blocks wait in a line.  The first one is attempted, and goes behind the
  others if it has no parent (`afterAttempt`).  If every block reaches a known hash
  through parents in the line (`Rooted`), then some block in the line is ready, and
  it waits for the ones before it only.  `patience` counts how many attempts that
  can take until the line is empty:

      patience_le         n (n + 1) / 2 at most, for n blocks
      patience_attempt    each attempt uses one up

  `Resolved` collects what holds of the line, of the hashes known and of the attempts
  so far; one attempt keeps it (`Resolved.attempt`).
-/
import BlockSync.Chain.Scripted
import Mathlib.Data.Nat.Choose.Basic

namespace BlockSync

/-! ## §1. Linked chains. -/

namespace Chain

/-- The outcome of an attempt on a chain that knows some hashes. -/
def linkedOutcome (known : List BlockHash) (b : Block) : Outcome :=
  if b.hash ∈ known then .exist
  else if b.parent ∈ known then .success
  else .noParent

/-- The hashes that are known after the attempt. -/
def learned (known : List BlockHash) (b : Block) : List BlockHash :=
  if linkedOutcome known b = .success then known ++ [b.hash] else known

/-- A chain that answers every attempt by the links of the block alone.  In some of
its states it knows just these hashes. -/
structure Linked {σ : Type} (C : Chain σ) (Knows : σ → List BlockHash → Prop) : Prop where
  receive : ∀ {c known}, Knows c known → ∀ b, Knows (C.receive c b) known
  conclude : ∀ {c known}, Knows c known → ∀ b, ∃ next,
    C.conclude c b = some (.outcome (linkedOutcome known b), next) ∧ Knows next (learned known b)

theorem linkedOutcome_eq_success {known : List BlockHash} {b : Block} :
    linkedOutcome known b = .success ↔ b.hash ∉ known ∧ b.parent ∈ known := by
  unfold linkedOutcome
  split
  next h => exact iff_of_false (fun heq => by cases heq) fun hb => hb.1 h
  next h =>
    split
    next hp => exact iff_of_true rfl ⟨h, hp⟩
    next hp => exact iff_of_false (fun heq => by cases heq) fun hb => hp hb.2

theorem linkedOutcome_eq_noParent {known : List BlockHash} {b : Block} :
    linkedOutcome known b = .noParent ↔ b.hash ∉ known ∧ b.parent ∉ known := by
  unfold linkedOutcome
  split
  next h => exact iff_of_false (fun heq => by cases heq) fun hb => hb.1 h
  next h =>
    split
    next hp => exact iff_of_false (fun heq => by cases heq) fun hb => hb.2 hp
    next hp => exact iff_of_true rfl ⟨h, hp⟩

theorem mem_learned_of_mem {known : List BlockHash} (b : Block) {h : BlockHash} (hh : h ∈ known) :
    h ∈ learned known b := by
  unfold learned
  split
  · exact List.mem_append_left _ hh
  · exact hh

/-- A block that does not go back has a known hash from then on. -/
theorem hash_mem_learned {known : List BlockHash} {b : Block}
    (h : linkedOutcome known b ≠ .noParent) : b.hash ∈ learned known b := by
  by_cases hb : b.hash ∈ known
  · exact mem_learned_of_mem b hb
  · have hsuccess : linkedOutcome known b = .success := by
      refine linkedOutcome_eq_success.mpr ⟨hb, Decidable.by_contra fun hp => ?_⟩
      exact h (linkedOutcome_eq_noParent.mpr ⟨hb, hp⟩)
    unfold learned
    rw [if_pos hsuccess]
    exact List.mem_append_right _ (List.mem_singleton_self _)

end Chain

/-- A scripted chain without scripts and without a gate, if it is linked. -/
def ScriptedChain.KnowsLinked (c : ScriptedChain) (known : List BlockHash) : Prop :=
  c.linked = true ∧ c.gated = false ∧ c.scripts = [] ∧ c.known = known

theorem ScriptedChain.linked_chain : chain.Linked KnowsLinked where
  receive h _ := h
  conclude := by
    rintro c known ⟨hlinked, hgated, hscripts, rfl⟩ b
    have hanswers : c.answersFor b.hash = [] := by
      unfold answersFor
      rw [hscripts]
      rfl
    have hnext : c.next b = (.outcome (Chain.linkedOutcome c.known b), c) := by
      unfold next unscripted Chain.linkedOutcome
      rw [hanswers, hlinked]
      rfl
    refine ⟨c.record b (.outcome (Chain.linkedOutcome c.known b)), ?_, ?_⟩
    · show c.conclude b = _
      unfold conclude
      rw [hgated]
      simp only [Bool.false_and, Bool.false_eq_true, if_false, hnext]
    · unfold Chain.learned
      cases Chain.linkedOutcome c.known b with
      | success => exact ⟨hlinked, hgated, hscripts, rfl⟩
      | _ => exact ⟨hlinked, hgated, hscripts, rfl⟩

open Chain (linkedOutcome learned mem_learned_of_mem hash_mem_learned)

/-! ## §2. Blocks that can be connected in some order. -/

/-- A block reaches a known hash through parents among some blocks. -/
inductive Rooted (known : List BlockHash) (bs : List Block) : Block → Prop where
  | known {b : Block} (h : b.hash ∈ known) : Rooted known bs b
  | child {b : Block} (h : b.parent ∈ known) : Rooted known bs b
  | heir {b d : Block} (hd : d ∈ bs) (hlink : d.hash = b.parent) (h : Rooted known bs d) :
      Rooted known bs b

/-- Whether an attempt would be the last one of a block. -/
def settles (known : List BlockHash) (b : Block) : Bool := linkedOutcome known b ≠ .noParent

namespace Rooted

variable {known more : List BlockHash} {bs rest : List Block}

/-- On the way from a block to a known hash one of the blocks is ready. -/
theorem exists_settles {b : Block} (h : Rooted known bs b) (hb : b ∈ bs) :
    ∃ d ∈ bs, settles known d = true := by
  induction h with
  | known hk =>
    refine ⟨_, hb, decide_eq_true fun hno => ?_⟩
    exact (Chain.linkedOutcome_eq_noParent.mp hno).1 hk
  | child hp =>
    refine ⟨_, hb, decide_eq_true fun hno => ?_⟩
    exact (Chain.linkedOutcome_eq_noParent.mp hno).2 hp
  | heir hd _ _ ih => exact ih hd

/-- Blocks may leave as soon as their hashes are known. -/
theorem mono {b : Block} (hknown : ∀ h ∈ known, h ∈ more)
    (hleft : ∀ d ∈ bs, d ∈ rest ∨ d.hash ∈ more) (h : Rooted known bs b) : Rooted more rest b := by
  induction h with
  | known hk => exact .known (hknown _ hk)
  | child hp => exact .child (hknown _ hp)
  | heir hd hlink _ ih =>
    rcases hleft _ hd with hd | hd
    · exact .heir hd hlink ih
    · exact .child (hlink ▸ hd)

end Rooted

/-! ## §3. One attempt after the other. -/

/-- The blocks that wait after the first of them was attempted: it is done with, or
it goes behind the others. -/
def afterAttempt (known : List BlockHash) (b : Block) (rest : List Block) : List Block :=
  if linkedOutcome known b = .noParent then rest ++ [b] else rest

theorem mem_of_mem_afterAttempt {known : List BlockHash} {b d : Block} {rest : List Block}
    (h : d ∈ afterAttempt known b rest) : d ∈ b :: rest := by
  unfold afterAttempt at h
  split at h
  · rcases List.mem_append.mp h with h | h
    · exact List.mem_cons_of_mem b h
    · rw [List.mem_singleton.mp h]
      exact List.mem_cons_self
  · exact List.mem_cons_of_mem b h

/-- A block that waited waits on, or its hash is known now. -/
theorem mem_afterAttempt_or {known : List BlockHash} {b d : Block} {rest : List Block}
    (h : d ∈ b :: rest) : d ∈ afterAttempt known b rest ∨ d.hash ∈ learned known b := by
  unfold afterAttempt
  split
  next =>
    left
    rcases List.mem_cons.mp h with rfl | h
    · exact List.mem_append_right _ (List.mem_singleton_self d)
    · exact List.mem_append_left _ h
  next hdone =>
    rcases List.mem_cons.mp h with rfl | h
    · exact Or.inr (hash_mem_learned hdone)
    · exact Or.inl h

/-- How many attempts it takes at most until no block waits: those up to the first
block that is ready, and then those for one block less. -/
def patience (known : List BlockHash) (bs : List Block) : Nat :=
  if bs = [] then 0
  else bs.findIdx (settles known) + 1 + bs.length * (bs.length - 1) / 2

theorem patience_of_ne_nil {known : List BlockHash} {bs : List Block} (h : bs ≠ []) :
    patience known bs = bs.findIdx (settles known) + 1 + bs.length * (bs.length - 1) / 2 :=
  if_neg h

theorem patience_le {known : List BlockHash} {bs : List Block}
    (h : ∀ b ∈ bs, Rooted known bs b) : patience known bs ≤ bs.length * (bs.length + 1) / 2 := by
  cases bs with
  | nil => exact Nat.zero_le _
  | cons b rest =>
    obtain ⟨d, hd, hsettles⟩ := (h b List.mem_cons_self).exists_settles List.mem_cons_self
    have hidx := List.findIdx_lt_length_of_exists ⟨d, hd, hsettles⟩
    have htriangle := Nat.triangle_succ (b :: rest).length
    rw [Nat.add_sub_cancel, Nat.mul_comm] at htriangle
    rw [patience_of_ne_nil (List.cons_ne_nil b rest), htriangle]
    omega

theorem rooted_afterAttempt {known : List BlockHash} {b : Block} {rest : List Block}
    (h : ∀ d ∈ b :: rest, Rooted known (b :: rest) d) :
    ∀ d ∈ afterAttempt known b rest,
      Rooted (learned known b) (afterAttempt known b rest) d := by
  intro d hd
  exact (h d (mem_of_mem_afterAttempt hd)).mono (fun _ => mem_learned_of_mem b)
    fun _ => mem_afterAttempt_or

/-- **Each attempt uses up some patience.**  A block that goes back was one that a
ready block had to wait for; a block that is done with leaves one less. -/
theorem patience_attempt {known : List BlockHash} {b : Block} {rest : List Block}
    (h : ∀ d ∈ b :: rest, Rooted known (b :: rest) d) :
    patience (learned known b) (afterAttempt known b rest) + 1 ≤ patience known (b :: rest) := by
  have hrooted := rooted_afterAttempt h
  rw [patience_of_ne_nil (List.cons_ne_nil b rest)]
  unfold afterAttempt at hrooted ⊢
  by_cases hout : linkedOutcome known b = .noParent
  · -- what is ready lies in the rest, one place further to the front
    have hlearned : learned known b = known := by
      unfold learned
      rw [if_neg (by rw [hout]; exact fun heq => by cases heq)]
    have hback : settles known b = false := decide_eq_false (not_not_intro hout)
    obtain ⟨d, hd, hsettles⟩ := (h b List.mem_cons_self).exists_settles List.mem_cons_self
    have hrest : d ∈ rest := by
      rcases List.mem_cons.mp hd with rfl | hd
      · rw [hback] at hsettles
        cases hsettles
      · exact hd
    have hidx : rest.findIdx (settles known) < rest.length :=
      List.findIdx_lt_length_of_exists ⟨d, hrest, hsettles⟩
    have hlen : (rest ++ [b]).length = (b :: rest).length := by simp
    rw [if_pos hout, hlearned, patience_of_ne_nil (List.append_ne_nil_of_right_ne_nil rest (by simp)),
      hlen, List.findIdx_append, if_pos hidx, List.findIdx_cons, hback, cond_false]
    omega
  · -- one block less waits, and at worst all of them have to be looked at
    rw [if_neg hout] at hrooted ⊢
    have hle := patience_le hrooted
    rw [Nat.mul_comm] at hle
    rw [List.length_cons, Nat.add_sub_cancel]
    omega

/-! ## §4. What a number of attempts leaves. -/

/-- The blocks whose attempts ended in success, in order. -/
def connected (concluded : List (Block × Verdict)) : List Block :=
  (concluded.filter fun e => e.2 = .outcome .success).map Prod.fst

theorem connected_append (es fs : List (Block × Verdict)) :
    connected (es ++ fs) = connected es ++ connected fs := by
  unfold connected
  rw [List.filter_append, List.map_append]

/-- An attempt that broke down connects nothing. -/
theorem connected_of_outcome?_eq_none {b : Block} {v : Verdict} (h : v.outcome? = none) :
    connected [(b, v)] = [] := by
  cases v with
  | outcome o => cases h
  | failed message => rfl
  | crashed payload => rfl

theorem connected_concat (es : List (Block × Verdict)) (b : Block) (o : Outcome) :
    connected (es ++ [(b, .outcome o)])
      = if o = .success then connected es ++ [b] else connected es := by
  unfold connected
  rw [List.filter_append, List.map_append]
  cases o with
  | success => rfl
  | _ => exact List.append_nil _

/-- How it stands with some blocks that were to be attempted on a chain that knew
some hashes: what it knows now, which blocks wait, and which attempts have ended. -/
structure Resolved (known₀ : List BlockHash) (bs : List Block) (known : List BlockHash)
    (waiting : List Block) (concluded : List (Block × Verdict)) : Prop where
  rooted : ∀ b ∈ waiting, Rooted known waiting b
  mem_of_waiting : ∀ b ∈ waiting, b ∈ bs
  mem_known_iff : ∀ h, h ∈ known ↔ h ∈ known₀ ∨ h ∈ (connected concluded).map Block.hash
  /-- Of each block either an entry waits or the hash is known. -/
  covered : ∀ b ∈ bs, b ∈ waiting ∨ b.hash ∈ known
  wanted : ∀ b ∈ connected concluded, b ∈ bs ∧ b.hash ∉ known₀
  nodup : ((connected concluded).map Block.hash).Nodup
  /-- A block was connected only after its parent. -/
  parents : ∀ before b after, concluded = before ++ (b, .outcome .success) :: after →
    b.parent ∈ known₀ ∨ b.parent ∈ (connected before).map Block.hash
  attempts : concluded.length + patience known waiting ≤ bs.length * (bs.length + 1) / 2

namespace Resolved

variable {known₀ known : List BlockHash} {bs waiting rest : List Block}
  {concluded : List (Block × Verdict)} {b : Block}

theorem start (h : ∀ b ∈ bs, Rooted known₀ bs b) : Resolved known₀ bs known₀ bs [] where
  rooted := h
  mem_of_waiting _ hb := hb
  mem_known_iff _ := ⟨Or.inl, fun hh => hh.resolve_right List.not_mem_nil⟩
  covered _ hb := Or.inl hb
  wanted _ hb := by cases hb
  nodup := List.nodup_nil
  parents before b after heq := by cases before <;> cases heq
  attempts := by
    rw [List.length_nil, Nat.zero_add]
    exact patience_le h

/-- **One attempt** connects the block, finds it known, or puts it back. -/
theorem attempt (h : Resolved known₀ bs known (b :: rest) concluded) :
    Resolved known₀ bs (learned known b) (afterAttempt known b rest)
      (concluded ++ [(b, .outcome (linkedOutcome known b))]) where
  rooted := rooted_afterAttempt h.rooted
  mem_of_waiting d hd := h.mem_of_waiting d (mem_of_mem_afterAttempt hd)
  mem_known_iff k := by
    rw [connected_concat]
    unfold learned
    split
    · rw [List.mem_append, h.mem_known_iff, List.map_append, List.mem_append, or_assoc]
      rfl
    · exact h.mem_known_iff k
  covered d hd := by
    rcases h.covered d hd with hd | hd
    · exact mem_afterAttempt_or hd
    · exact Or.inr (mem_learned_of_mem b hd)
  wanted d hd := by
    rw [connected_concat] at hd
    split at hd
    next hsuccess =>
      rcases List.mem_append.mp hd with hd | hd
      · exact h.wanted d hd
      · -- the block itself was not known before
        obtain rfl := List.mem_singleton.mp hd
        have hnew := (Chain.linkedOutcome_eq_success.mp hsuccess).1
        exact ⟨h.mem_of_waiting d List.mem_cons_self,
          fun hk => hnew ((h.mem_known_iff _).mpr (Or.inl hk))⟩
    next => exact h.wanted d hd
  nodup := by
    rw [connected_concat]
    split
    next hsuccess =>
      have hnew := (Chain.linkedOutcome_eq_success.mp hsuccess).1
      rw [List.map_append, List.nodup_append]
      refine ⟨h.nodup, List.pairwise_singleton _ _, ?_⟩
      rintro k hk _ hb rfl
      rw [List.mem_singleton.mp hb] at hk
      exact hnew ((h.mem_known_iff _).mpr (Or.inr hk))
    next => exact h.nodup
  parents before d after heq := by
    rcases List.eq_nil_or_concat after with rfl | ⟨after', e, rfl⟩
    · -- the attempt that ended last
      obtain ⟨rfl, hlast⟩ := List.append_inj' heq rfl
      obtain ⟨rfl, hverdict⟩ := Prod.mk.inj (List.singleton_inj.mp hlast)
      have hsuccess := Verdict.outcome.inj hverdict
      exact (h.mem_known_iff _).mp (Chain.linkedOutcome_eq_success.mp hsuccess).2
    · rw [List.concat_eq_append, ← List.cons_append, ← List.append_assoc] at heq
      exact h.parents before d after' (List.append_inj' heq rfl).1
  attempts := by
    have hall := h.attempts
    have hone := patience_attempt h.rooted
    rw [List.length_append, List.length_singleton]
    omega

/-- When no block waits any more, all that were not known have been connected. -/
theorem mem_connected_iff (h : Resolved known₀ bs known [] concluded) (k : BlockHash) :
    k ∈ (connected concluded).map Block.hash ↔ k ∈ bs.map Block.hash ∧ k ∉ known₀ := by
  constructor
  · intro hk
    obtain ⟨b, hb, rfl⟩ := List.mem_map.mp hk
    obtain ⟨hbs, hnew⟩ := h.wanted b hb
    exact ⟨List.mem_map_of_mem hbs, hnew⟩
  · rintro ⟨hk, hnew⟩
    obtain ⟨b, hb, rfl⟩ := List.mem_map.mp hk
    have hknown := (h.covered b hb).resolve_left List.not_mem_nil
    exact ((h.mem_known_iff _).mp hknown).resolve_left hnew

end Resolved
end BlockSync
