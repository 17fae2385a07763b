/-
  BlockSync.Proofs.Chain.Scripts
  ──────────────────────────────
  **VERDICTS BY THE COUNT OF ATTEMPTS.**

  A script has one answer for each attempt on a hash.  So the verdict on a block is
  settled by the block and by how often its hash was attempted before; what else was
  attempted has no part in it (`answersBy_scripted`).  Only a chain that is linked looks
  further.

  For such a chain blocks that always break down can be left out (`blind_byCount`):
  they have hashes of their own, and the counts of the others do not change.
-/
import BlockSync.Proofs.Chain.Replay
import BlockSync.Proofs.Chain.Rotation

namespace BlockSync

/-! ## §1. Counts of attempts. -/

namespace Chain

variable {verdict : Block → Nat → Verdict} {bs : List Block} {h : BlockHash}

/-- How many of some blocks have a hash. -/
def copies (h : BlockHash) (bs : List Block) : Nat := bs.countP fun b => b.hash = h

theorem copies_concat (h : BlockHash) (bs : List Block) (b : Block) :
    copies h (bs ++ [b]) = copies h bs + if b.hash = h then 1 else 0 := by
  unfold copies
  rw [List.countP_append, List.countP_singleton]
  simp only [decide_eq_true_eq]

/-- Blocks with other hashes do not count. -/
theorem copies_filter {keep : Block → Bool} (hkeep : ∀ b : Block, b.hash = h → keep b = true) :
    copies h (bs.filter keep) = copies h bs := by
  unfold copies
  rw [List.countP_filter]
  refine List.countP_congr fun b _ => ?_
  rw [Bool.and_eq_true, decide_eq_true_eq]
  exact ⟨And.left, fun hb => ⟨hb, hkeep b hb⟩⟩

/-- The verdicts of a chain that looks at the block, and at how often its hash was
attempted before. -/
def byCount (verdict : Block → Nat → Verdict) (ended : List Block) (b : Block) : Verdict :=
  verdict b (copies b.hash ended)

/-- **Hashes whose every attempt breaks down can be left out**: each of their blocks
needs as many such verdicts as it has copies. -/
theorem blind_byCount {fails : BlockHash → Bool}
    (hfails : ∀ b ∈ bs, fails b.hash = true →
      ∀ n < copies b.hash bs, (verdict b n).outcome? = none) :
    Blind (byCount verdict) (fun b => !fails b.hash) bs where
  kept ended b hb := by
    unfold byCount
    rw [copies_filter fun d hd => by rw [hd]; exact hb]
  dropped := by
    intro ended rest b hb horder
    have hb : fails b.hash = true := by simpa using hb
    unfold InOrder at horder
    simp only [Bool.not_not] at horder
    -- it is one of the blocks, and not all of its copies have been attempted
    have hmem : b ∈ bs.filter fun d => fails d.hash := by
      rw [← horder]
      exact List.mem_filter.mpr ⟨List.mem_append_right _ List.mem_cons_self, hb⟩
    have hcopies : copies b.hash bs = copies b.hash (ended ++ b :: rest) := by
      have hkeep : ∀ d : Block, d.hash = b.hash → fails d.hash = true := fun d hd => hd ▸ hb
      rw [← copies_filter hkeep, ← horder, copies_filter hkeep]
    have hlt : copies b.hash ended < copies b.hash bs := by
      rw [hcopies]
      unfold copies
      rw [List.countP_append, List.countP_cons, if_pos (decide_eq_true rfl)]
      omega
    exact hfails b (List.mem_filter.mp hmem).1 hb _ hlt

end Chain

/-! ## §2. Scripted chains that are not linked. -/

namespace ScriptedChain

open Chain (copies copies_concat byCount)

variable {start c d : ScriptedChain} {b : Block} {v : Verdict} {ended pending : List Block}

theorem answersFor_script (c : ScriptedChain) (h k : BlockHash) (answers : List Answer) :
    (c.script h answers).answersFor k = if k = h then answers else c.answersFor k := by
  unfold answersFor script
  rw [List.find?_cons]
  by_cases hk : k = h
  · rw [if_pos hk, decide_eq_true hk.symm]
    rfl
  · -- no other script has been touched
    have hother : ∀ s : BlockHash × List Answer,
        decide (s.1 ≠ h) = true ∧ decide (s.1 = k) = true ↔ s.1 = k := by
      intro s
      rw [decide_eq_true_eq, decide_eq_true_eq]
      exact ⟨And.right, fun hs => ⟨hs ▸ hk, hs⟩⟩
    rw [if_neg hk, decide_eq_false (Ne.symm hk)]
    dsimp only
    rw [List.find?_filter]
    simp only [hother]

/-- What the script has for an attempt that comes after a number of others. -/
def scripted (start : ScriptedChain) (b : Block) (n : Nat) : Verdict :=
  ((start.answersFor b.hash)[n]?).elim (.outcome .success) (Answer.verdict b)

/-- A chain that is not linked, when some attempts have ended: of each script as many
answers are used up as the hash was attempted. -/
def Spent (start c : ScriptedChain) (ended _pending : List Block) : Prop :=
  c.linked = false ∧ ∀ h, c.answersFor h = (start.answersFor h).drop (copies h ended)

/-- Neither a permit nor what is on record has to do with the scripts. -/
theorem Spent.of_scripts (h : start.Spent c ended pending) (hlinked : d.linked = c.linked)
    (hscripts : d.scripts = c.scripts) (pending' : List Block) :
    start.Spent d ended pending' := by
  refine ⟨hlinked.trans h.1, fun k => ?_⟩
  have hsame : d.answersFor k = c.answersFor k := by
    unfold answersFor
    rw [hscripts]
  rw [hsame]
  exact h.2 k

theorem record_eq (c : ScriptedChain) (b : Block) (v : Verdict) :
    (c.record b v).linked = c.linked ∧ (c.record b v).scripts = c.scripts := by
  unfold record
  split
  · exact ⟨rfl, rfl⟩
  · exact ⟨rfl, rfl⟩

/-- An attempt ends as the script says, once the gate is passed. -/
theorem exists_next_of_conclude (h : c.conclude b = some (v, d)) :
    ∃ c' : ScriptedChain, c'.linked = c.linked ∧ c'.scripts = c.scripts
      ∧ v = (c'.next b).1 ∧ d = (c'.next b).2.record b v := by
  unfold conclude at h
  split at h
  next => cases h
  next =>
    cases h
    refine ⟨if c.gated then { c with permits := c.permits - 1 } else c, ?_, ?_, rfl, rfl⟩
    · split
      · rfl
      · rfl
    · split
      · rfl
      · rfl

/-- One attempt takes the next answer of its script. -/
theorem Spent.next (h : start.Spent c ended pending) (b : Block) :
    (c.next b).1 = byCount start.scripted ended b
      ∧ start.Spent (c.next b).2 (ended ++ [b]) [] := by
  obtain ⟨hlinked, hanswers⟩ := h
  have hb := hanswers b.hash
  unfold ScriptedChain.next byCount scripted
  cases hleft : c.answersFor b.hash with
  | nil =>
    -- the script is used up, and stays so
    rw [hleft] at hb
    have hle := List.drop_eq_nil_iff.mp hb.symm
    constructor
    · rw [List.getElem?_eq_none hle]
      dsimp only
      unfold unscripted
      rw [hlinked]
      rfl
    · refine ⟨hlinked, fun k => ?_⟩
      rw [copies_concat]
      by_cases hk : b.hash = k
      · subst hk
        rw [if_pos rfl, hleft, List.drop_eq_nil_of_le (by omega)]
      · rw [if_neg hk, Nat.add_zero]
        exact hanswers k
  | cons a rest =>
    rw [hleft] at hb
    constructor
    · rw [← List.head?_drop, ← hb]
      rfl
    · refine ⟨hlinked, fun k => ?_⟩
      dsimp only
      rw [answersFor_script, copies_concat]
      by_cases hk : b.hash = k
      · subst hk
        rw [if_pos rfl, if_pos rfl, ← List.drop_drop, ← hb]
        rfl
      · rw [if_neg (Ne.symm hk), if_neg hk, Nat.add_zero]
        exact hanswers k

/-- **A scripted chain that is not linked answers by the count of attempts**, and it
changes nothing by itself but its permits. -/
theorem answersBy_scripted (start : ScriptedChain) :
    chain.AnswersBy (byCount start.scripted) start.Spent where
  receive h b := h.of_scripts rfl rfl [b]
  conclude := by
    intro c ended b v next h hconclude
    obtain ⟨c', hlinked, hscripts, hv, hnext⟩ := exists_next_of_conclude hconclude
    obtain ⟨hverdict, hspent⟩ := (h.of_scripts hlinked hscripts []).next b
    refine ⟨hv.trans hverdict, ?_⟩
    obtain ⟨hlinked', hscripts'⟩ := record_eq (c'.next b).2 b v
    rw [hnext]
    exact hspent.of_scripts hlinked' hscripts' []

/-- With one more permit it can end any attempt. -/
theorem Spent.release (h : start.Spent c ended [b]) :
    start.Spent (c.release 1) ended [b] ∧ (chain.conclude (c.release 1) b).isSome := by
  refine ⟨h.of_scripts rfl rfl [b], ?_⟩
  have hpermits : ((c.release 1).gated && decide ((c.release 1).permits = 0)) = false := by
    have hpermit : (c.release 1).permits ≠ 0 := Nat.succ_ne_zero c.permits
    rw [decide_eq_false hpermit, Bool.and_false]
  show (conclude (c.release 1) b).isSome
  unfold conclude
  rw [hpermits]
  rfl

end ScriptedChain
end BlockSync
