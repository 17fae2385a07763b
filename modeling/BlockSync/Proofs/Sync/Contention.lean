/-
  BlockSync.Proofs.Sync.Contention
  ────────────────────────────────
  **SEVERAL CALLS TO CLOSE AT ONCE.**

  A call to close looks at the state of life under one lock and moves it under another one,
  and so on: it goes through its places step by step (`closeStep`), and between any two steps
  the importer, the producers and further calls to close may have their turns.  A call that
  waits for the importer may be given up there.

      look          a call begins, and has looked at the state
      proceed i     the call number i goes on by one step
      abandon i     the call number i is given up where it waits

  With nobody else in between, a call is what `close` says, and if it waits it goes on as
  `resumeClose` says (`after_wholeClose`, `after_wholeResume`).

  What can go wrong is one thing.  A call that saw the importer running may get to its move
  when another call and the importer have made the state stopped (`Late`): its move is
  refused then (`turn_of_late`), and no other turn writes a refusal (`refusals_turn`).

  A call that proceeds while another one stands between its look and its move interrupts that
  one (`Interrupts`).  Without interruptions a call that saw the importer running is right
  about it until it moves (`Steady`), so nobody is late.
-/
import BlockSync.Proofs.Sync.Vitals

namespace BlockSync.Synchronizer

variable {σ : Type} {C : Chain σ}

/-! ## §1. Turns. -/

/-- A synchronizer with the calls to close that have begun, and whether it was given up. -/
structure Contended (σ : Type) extends Synchronizer σ where
  closers : List Closer
  givenUp : Bool

namespace Contended

/-- Nobody has begun to close it. -/
def fresh (s : Synchronizer σ) : Contended σ := ⟨s, [], false⟩

/-- Who may have a turn. -/
inductive Turn (σ : Type) where
  /-- A call of a producer or of the fetcher; it does not touch the state of life. -/
  | call (c : Call)
  /-- A call to close begins, and looks whether the importer is running. -/
  | look
  /-- A call to close goes on by one step, if it can. -/
  | proceed (i : Nat)
  /-- A call to close is given up where it waits. -/
  | abandon (i : Nat)
  /-- The synchronizer is given up; nobody does that who has a call on it. -/
  | giveUp
  | work
  | wait (ms : Nat)
  /-- The chain changes by itself. -/
  | stir (f : σ → σ)

/-- The synchronizer after a turn. -/
def turn (C : Chain σ) (s : Contended σ) : Turn σ → Contended σ
  | .call c => if s.givenUp then s else { s with toSynchronizer := s.call c }
  | .look =>
    if s.givenUp then s
    else { s with closers := s.closers ++ [.looked s.lifecycle.isRunning] }
  | .proceed i =>
    match s.closers[i]?.bind s.closeStep with
    | some (t, k) => { s with toSynchronizer := t, closers := s.closers.set i k }
    | none => s
  | .abandon i =>
    if s.closers[i]? = some .waiting
    then { s with closing := false, closers := s.closers.set i .gone } else s
  | .giveUp =>
    if ∀ k ∈ s.closers, k = .gone then { s with toSite := s.drop, givenUp := true } else s
  | .work => { s with toSynchronizer := s.work C }
  | .wait ms => { s with pipeline := s.pipeline.wait ms }
  | .stir f => { s with pipeline := { s.pipeline with chain := f s.pipeline.chain } }

/-- The synchronizer after some turns. -/
def after (C : Chain σ) (turns : List (Turn σ)) (s : Contended σ) : Contended σ :=
  turns.foldl (turn C) s

/-- A call to close that nobody interrupts, up to where it waits or is gone. -/
def wholeClose (s : Contended σ) : List (Turn σ) :=
  .look :: .replicate (if s.joinable then 3 else 4) (.proceed s.closers.length)

/-- The call that began last goes on. -/
theorem turn_proceed_last {s t : Synchronizer σ} {k k' : Closer}
    (h : s.closeStep k = some (t, k')) (closers : List Closer) (givenUp : Bool) :
    turn C ⟨s, closers ++ [k], givenUp⟩ (.proceed closers.length)
      = ⟨t, closers ++ [k'], givenUp⟩ := by
  unfold turn
  dsimp only
  rw [List.getElem?_concat_length]
  simp only [Option.bind_some, h, List.set_append_right _ _ (Nat.le_refl _), Nat.sub_self,
    List.set_cons_zero]

/-- **With nobody else in between, a call is what `close` says.** -/
theorem after_wholeClose {s : Contended σ} (h : s.givenUp = false) :
    (s.after C s.wholeClose).toSynchronizer = s.close := by
  obtain ⟨s, closers, givenUp⟩ := s
  -- up to the signal a call does the same, whether there is a handle to take or not
  let begun := (s.leaveRunning s.lifecycle.isRunning).signalStop
  have hlook : turn C ⟨s, closers, givenUp⟩ .look
      = ⟨s, closers ++ [.looked s.lifecycle.isRunning], givenUp⟩ :=
    if_neg (Bool.eq_false_iff.mp h)
  have hbegun : turn C (turn C ⟨s, closers ++ [.looked s.lifecycle.isRunning], givenUp⟩
      (.proceed closers.length)) (.proceed closers.length)
        = ⟨begun, closers ++ [.signalled], givenUp⟩ := by
    rw [turn_proceed_last rfl, turn_proceed_last rfl]
  have hjoin : begun.joinable = s.joinable := by
    show (s.leaveRunning _).joinable = _
    unfold leaveRunning
    split <;> rfl
  -- the first call takes the handle and waits, a later one goes on to its end
  unfold after wholeClose close
  cases hs : s.joinable with
  | true =>
    have hstep : begun.closeStep .signalled = some (begun.takeHandle, .waiting) := by
      unfold closeStep
      rw [if_pos (hjoin.trans hs)]
    simp only [if_true, List.replicate, List.foldl_cons, List.foldl_nil]
    rw [hlook, hbegun, turn_proceed_last hstep, if_pos (hjoin.trans hs)]
  | false =>
    have hnone : ¬ begun.joinable = true := by rw [hjoin, hs]; exact Bool.false_ne_true
    have hstep : begun.closeStep .signalled = some (begun, .free) := by
      unfold closeStep
      rw [if_neg hnone]
    simp only [Bool.false_eq_true, if_false, List.replicate, List.foldl_cons, List.foldl_nil]
    rw [hlook, hbegun, turn_proceed_last hstep, turn_proceed_last rfl, if_neg hnone]

/-- A call that waited goes on as `resumeClose` says. -/
theorem after_wholeResume {s : Contended σ} {i : Nat} (hat : s.closers[i]? = some .waiting)
    (hclosing : s.closing = true) (hended : s.pipeline.hasEnded = true) :
    (s.after C [.proceed i, .proceed i]).toSynchronizer = s.onSite Site.resumeClose := by
  have hawait : s.closeStep .waiting
      = some ({ s.toSynchronizer with closing := false }, .free) := if_pos hended
  have hfirst : s.turn C (.proceed i) = { s with
      closing := false
      closers := s.closers.set i .free } := by
    unfold turn
    dsimp only
    rw [hat, Option.bind_some, hawait]
  have hnext : (s.closers.set i .free)[i]? = some .free :=
    List.getElem?_set_self (List.getElem?_eq_some_iff.mp hat).1
  unfold after onSite Site.resumeClose
  rw [List.foldl_cons, List.foldl_cons, List.foldl_nil, hfirst, hclosing, hended]
  unfold turn
  dsimp only
  rw [hnext]
  rfl

/-! ## §2. What a turn does. -/

/-- What a turn does to life and to the calls to close. -/
inductive Turned (s : Contended σ) : Turn σ → Contended σ → Prop where
  | looked (hopen : s.givenUp = false) :
      Turned s .look { s with closers := s.closers ++ [.looked s.lifecycle.isRunning] }
  | proceeded {i : Nat} {t : Synchronizer σ} {k k' : Closer} (hat : s.closers[i]? = some k)
      (hmove : CloseMove s.toSynchronizer k t k') :
      Turned s (.proceed i) { s with toSynchronizer := t, closers := s.closers.set i k' }
  | abandoned {i : Nat} (hat : s.closers[i]? = some .waiting) :
      Turned s (.abandon i) { s with closing := false, closers := s.closers.set i .gone }
  | gaveUp (hgone : ∀ k ∈ s.closers, k = .gone) :
      Turned s .giveUp { s with toSite := s.drop, givenUp := true }
  /-- The importer leaves its loop. -/
  | left {p : Pipeline σ} (hvitals : p.vitals = s.pipeline.vitals.left)
      (hsignal : s.pipeline.importer.stopSignalled = true) :
      Turned s .work { s with pipeline := p }
  /-- Neither life nor a call to close gets any further. -/
  | passed {t : Turn σ} {u : Synchronizer σ} (hvitals : u.pipeline.vitals = s.pipeline.vitals)
      (hsignal : u.pipeline.importer.stopSignalled = s.pipeline.importer.stopSignalled) :
      Turned s t { s with toSynchronizer := u }

theorem turned (C : Chain σ) (s : Contended σ) (t : Turn σ) : Turned s t (s.turn C t) := by
  have hidle : ∀ t : Turn σ, Turned s t s := fun t => .passed rfl rfl
  cases t with
  | call c =>
    unfold turn
    dsimp only
    split
    · exact hidle _
    · have hserved := Served.call s.toSynchronizer c
      exact .passed (hserved.pipeline.vitals (refusals_call _ c)) hserved.pipeline.stopSignalled
  | look =>
    unfold turn
    dsimp only
    split
    · exact hidle _
    next hopen => exact .looked (Bool.eq_false_iff.mpr hopen)
  | proceed i =>
    unfold turn
    dsimp only
    split
    next hstep =>
      obtain ⟨k, hat, hclose⟩ := Option.bind_eq_some_iff.mp hstep
      exact .proceeded hat (closeMove_of_step hclose)
    · exact hidle _
  | abandon i =>
    unfold turn
    dsimp only
    split
    next hat => exact .abandoned hat
    · exact hidle _
  | giveUp =>
    unfold turn
    dsimp only
    split
    next hgone => exact .gaveUp hgone
    · exact hidle _
  | work =>
    unfold turn
    cases hstep : s.pipeline.step C with
    | none =>
      rw [work_of_rest hstep]
      exact hidle _
    | some p =>
      rw [work_of_step hstep]
      rcases Pipeline.vitals_of_step hstep with ⟨hvitals, hsignal⟩ | ⟨hvitals, hsignal⟩
      · exact .passed hvitals hsignal
      · exact .left hvitals hsignal
  | wait ms => exact .passed rfl rfl
  | stir f => exact .passed rfl rfl

namespace Turned

variable {s u : Contended σ} {t : Turn σ}

/-- **Every turn leads onward.** -/
theorem onward (h : Turned s t u) : s.pipeline.vitals.Onward u.pipeline.vitals := by
  cases h with
  | proceeded hat hmove => exact hmove.onward
  | left hvitals hsignal =>
    show s.pipeline.vitals.Onward (Pipeline.vitals _)
    rw [hvitals]
    exact (Vitals.Alone.left _).toOnward
  | passed hvitals hsignal => exact .of_eq hvitals
  | _ => exact .refl _

/-- As long as no call to close begins there is none that could move anything. -/
theorem alone (h : Turned s t u) (ht : t ≠ .look) (hnone : s.closers = []) :
    s.pipeline.vitals.Alone u.pipeline.vitals ∧ u.closers = [] := by
  cases h with
  | looked hopen => exact absurd rfl ht
  | proceeded hat hmove =>
    rw [hnone] at hat
    cases hat
  | abandoned hat =>
    rw [hnone] at hat
    cases hat
  | gaveUp hgone => exact ⟨.refl _, hnone⟩
  | left hvitals hsignal =>
    refine ⟨?_, hnone⟩
    show s.pipeline.vitals.Alone (Pipeline.vitals _)
    rw [hvitals]
    exact .left _
  | passed hvitals hsignal => exact ⟨.of_eq hvitals, hnone⟩

end Turned

theorem onward_after (turns : List (Turn σ)) :
    ∀ s : Contended σ, s.pipeline.vitals.Onward (s.after C turns).pipeline.vitals := by
  induction turns with
  | nil => intro s; exact .refl _
  | cons t turns ih => intro s; exact (turned C s t).onward.trans (ih _)

theorem alone_after {turns : List (Turn σ)} (hopen : .look ∉ turns) :
    ∀ {s : Contended σ}, s.closers = [] →
      s.pipeline.vitals.Alone (s.after C turns).pipeline.vitals := by
  induction turns with
  | nil => intro s _; exact .refl _
  | cons t turns ih =>
    intro s hnone
    obtain ⟨ht, hrest⟩ := not_or.mp (mt List.mem_cons.mpr hopen)
    obtain ⟨halone, hnone'⟩ := (turned C s t).alone (fun h => ht h.symm) hnone
    exact halone.trans (ih hrest hnone')

/-! ## §3. Moves that come too late. -/

/-- A call to close gets to its move that saw the importer running, and the state is stopped
by now. -/
def Late (s : Contended σ) (t : Turn σ) : Prop :=
  ∃ i, t = .proceed i ∧ s.closers[i]? = some (.looked true) ∧ s.lifecycle = .stopped

/-- **A move that comes too late is refused**, and that is all that happens. -/
theorem turn_of_late {s : Contended σ} {t : Turn σ} (h : s.Late t) :
    (s.turn C t).pipeline = s.pipeline.log [.transitionRefused .stopped .stopping] := by
  obtain ⟨i, rfl, hat, hstopped⟩ := h
  unfold turn
  dsimp only
  rw [hat]
  exact congrArg (fun t : Synchronizer σ => t.pipeline) (leaveRunning_of_stopped hstopped)

/-- **No other turn writes a refusal.** -/
theorem refusals_turn (C : Chain σ) {s : Contended σ} {t : Turn σ} (h : ¬ s.Late t) :
    (s.turn C t).pipeline.refusals = s.pipeline.refusals := by
  have hturned := turned C s t
  generalize s.turn C t = u at hturned
  cases hturned with
  | proceeded hat hmove =>
    -- the move of a call that finds the state stopped would be late
    refine hmove.refusals fun hk hstopped => h ⟨_, rfl, ?_, hstopped⟩
    rw [hat, hk]
  | left hvitals hsignal => exact congrArg Vitals.refusals hvitals
  | passed hvitals hsignal => exact congrArg Vitals.refusals hvitals
  | _ => rfl

/-! ## §4. Calls that are not interrupted. -/

/-- A call to close goes on while another one, that saw the importer running, stands before
its move. -/
def Interrupts (s : Contended σ) : Turn σ → Prop
  | .proceed i => .looked true ∈ s.closers.eraseIdx i
  | _ => False

instance (s : Contended σ) : DecidablePred s.Interrupts := fun t =>
  match t with
  | .proceed i => inferInstanceAs (Decidable (.looked true ∈ s.closers.eraseIdx i))
  | .call _ | .look | .abandon _ | .giveUp | .work | .wait _ | .stir _ =>
    inferInstanceAs (Decidable False)

/-- No turn interrupts a call to close. -/
def Unbroken (C : Chain σ) : List (Turn σ) → Contended σ → Prop
  | [], _ => True
  | t :: turns, s => ¬ s.Interrupts t ∧ Unbroken C turns (s.turn C t)

instance decidableUnbroken (C : Chain σ) :
    ∀ (turns : List (Turn σ)) (s : Contended σ), Decidable (Unbroken C turns s)
  | [], _ => inferInstanceAs (Decidable True)
  | t :: turns, s =>
    have := decidableUnbroken C turns (s.turn C t)
    inferInstanceAs (Decidable (¬ s.Interrupts t ∧ Unbroken C turns (s.turn C t)))

/-- What the calls to close saw is so, and nobody tells a running importer to stop. -/
structure Steady (s : Contended σ) : Prop where
  seen : .looked true ∈ s.closers → s.lifecycle = .running
  unseen : .looked false ∈ s.closers → s.lifecycle ≠ .running
  moved : .moved ∈ s.closers → s.lifecycle ≠ .running
  signalled : s.pipeline.importer.stopSignalled = true →
    s.givenUp = true ∨ s.lifecycle ≠ .running
  retired : s.givenUp = true → ∀ k ∈ s.closers, k = .gone

/-- What stands in a list after one entry was replaced, and is not the new entry, stood there
beside the old one. -/
theorem mem_eraseIdx_of_mem_set {l : List Closer} {i : Nat} {k k' : Closer} (h : k ∈ l.set i k')
    (hne : k ≠ k') : k ∈ l.eraseIdx i := by
  -- it stands at some place, and that is not the place of the new entry
  obtain ⟨j, hj⟩ := List.mem_iff_getElem?.mp h
  have hij : i ≠ j := by
    rintro rfl
    obtain ⟨hlt, heq⟩ := List.getElem?_eq_some_iff.mp hj
    rw [List.getElem_set_self] at heq
    exact hne heq.symm
  rw [List.getElem?_set_ne hij] at hj
  exact List.mem_eraseIdx_iff_getElem?.mpr ⟨j, hij.symm, hj⟩

namespace Steady

variable {s u : Contended σ} {t : Turn σ}

theorem of_start {settings : Settings} {canRun : Bool} {site : Site σ} {s : Synchronizer σ}
    (h : start settings canRun site = .ok s) : Steady (fresh s) := by
  obtain ⟨events, hpipeline⟩ := exists_pipeline_start h
  have hfresh : s.pipeline.importer.stopSignalled = false := by rw [hpipeline]; rfl
  exact ⟨fun hin => (nomatch hin), fun hin => (nomatch hin), fun hin => (nomatch hin),
    fun hsignal => (nomatch hfresh.symm.trans hsignal), fun hgiven => (nomatch hgiven)⟩

/-- A call to close begins. -/
theorem look (h : Steady s) (hopen : s.givenUp = false) :
    Steady { s with closers := s.closers ++ [.looked s.lifecycle.isRunning] } := by
  have hold : ∀ k, k ∈ s.closers ++ [.looked s.lifecycle.isRunning] →
      k ∈ s.closers ∨ k = .looked s.lifecycle.isRunning := fun k hin =>
    (List.mem_append.mp hin).imp id List.mem_singleton.mp
  refine ⟨fun hin => ?_, fun hin => ?_, fun hin => ?_, h.signalled, fun hgiven => ?_⟩
  · rcases hold _ hin with hin | hnew
    · exact h.seen hin
    · injection hnew with hrunning
      exact Lifecycle.isRunning_iff.mp hrunning.symm
  · rcases hold _ hin with hin | hnew
    · exact h.unseen hin
    · injection hnew with hfalse
      exact fun hrunning => nomatch hfalse.trans (Lifecycle.isRunning_iff.mpr hrunning)
  · exact h.moved ((hold _ hin).resolve_right (by simp))
  · rw [hopen] at hgiven
    cases hgiven

/-- A call to close goes on that interrupts no other one. -/
theorem proceed {i : Nat} {t : Synchronizer σ} {k k' : Closer} (h : Steady s)
    (hat : s.closers[i]? = some k) (hmove : CloseMove s.toSynchronizer k t k')
    (hquiet : .looked true ∉ s.closers.eraseIdx i) :
    Steady { s with toSynchronizer := t, closers := s.closers.set i k' } := by
  have hmem : k ∈ s.closers := List.mem_of_getElem? hat
  -- a call that is not gone is on a synchronizer that is in use
  have hopen : ¬ s.givenUp = true := fun hgiven => by
    cases h.retired hgiven k hmem
    cases hmove
  have hforward : s.lifecycle ≠ .running → t.lifecycle ≠ .running := hmove.onward.ne_running
  -- no step of a call leads back to its look
  have hlooked : ∀ running, k' ≠ .looked running := by cases hmove <;> simp
  refine ⟨fun hin => ?_, fun hin => ?_, fun hin => ?_, fun hsignal => Or.inr ?_,
    fun hgiven => absurd hgiven hopen⟩
  · exact absurd (mem_eraseIdx_of_mem_set hin (hlooked true).symm) hquiet
  · exact hforward (h.unseen ((List.mem_or_eq_of_mem_set hin).resolve_right (hlooked false).symm))
  · rcases List.mem_or_eq_of_mem_set hin with hin | hnew
    · exact hforward (h.moved hin)
    · -- this very call has made its move
      cases hnew
      cases hmove with
      | moved running =>
        exact s.leaveRunning_ne_running fun hfalse => h.unseen (hfalse ▸ hmem)
  · -- who signals has moved before
    rcases hmove.stopSignalled hsignal with hbefore | hnow
    · exact hforward ((h.signalled hbefore).resolve_left hopen)
    · exact hforward (h.moved (hnow ▸ hmem))

/-- A call to close is given up where it waits. -/
theorem abandon {i : Nat} (h : Steady s) (hat : s.closers[i]? = some .waiting) :
    Steady { s with closing := false, closers := s.closers.set i .gone } := by
  have hold : ∀ k, k ∈ s.closers.set i .gone → k ≠ .gone → k ∈ s.closers := fun k hin =>
    (List.mem_or_eq_of_mem_set hin).resolve_right
  refine ⟨fun hin => h.seen (hold _ hin (by simp)), fun hin => h.unseen (hold _ hin (by simp)),
    fun hin => h.moved (hold _ hin (by simp)), h.signalled, fun hgiven => ?_⟩
  cases h.retired hgiven _ (List.mem_of_getElem? hat)

/-- **Every turn that interrupts nobody keeps the calls to close right.** -/
theorem turned (h : Steady s) (hturn : Turned s t u) (hquiet : ¬ s.Interrupts t) : Steady u := by
  cases hturn with
  | looked hopen => exact h.look hopen
  | proceeded hat hmove => exact h.proceed hat hmove hquiet
  | abandoned hat => exact h.abandon hat
  | gaveUp hgone =>
    exact ⟨fun hin => (nomatch hgone _ hin), fun hin => (nomatch hgone _ hin),
      fun hin => (nomatch hgone _ hin), fun _ => Or.inl rfl, fun _ => hgone⟩
  | @left p hvitals hsignal =>
    have hstopped : p.lifecycle = .stopped := congrArg Vitals.lifecycle hvitals
    have hne : p.lifecycle ≠ .running := by rw [hstopped]; decide
    refine ⟨fun hin => ?_, fun _ => hne, fun _ => hne, fun _ => Or.inr hne, h.retired⟩
    -- who is told to stop is not running any more, or nobody is there to see it
    rcases h.signalled hsignal with hgiven | hleft
    · cases h.retired hgiven _ hin
    · exact absurd (h.seen hin) hleft
  | @passed t u hvitals hsignal =>
    have hlife : u.lifecycle = s.lifecycle := congrArg Vitals.lifecycle hvitals
    have hforward : s.lifecycle ≠ .running → u.lifecycle ≠ .running := by rw [hlife]; exact id
    exact ⟨fun hin => hlife.trans (h.seen hin), fun hin => hforward (h.unseen hin),
      fun hin => hforward (h.moved hin),
      fun hnow => (h.signalled (hsignal.symm.trans hnow)).imp id hforward, h.retired⟩

theorem not_late (h : Steady s) (t : Turn σ) : ¬ s.Late t := by
  rintro ⟨i, -, hat, hstopped⟩
  -- the call saw the importer running, so it is
  have hrunning := h.seen (List.mem_of_getElem? hat)
  rw [hstopped] at hrunning
  cases hrunning

/-- **Calls to close that are not interrupted are never refused**, one beside another or one
after the other. -/
theorem refusals_after (turns : List (Turn σ)) :
    ∀ {s : Contended σ}, Steady s → Unbroken C turns s →
      (s.after C turns).pipeline.refusals = s.pipeline.refusals := by
  induction turns with
  | nil => intro s _ _; rfl
  | cons t turns ih =>
    intro s h hunbroken
    obtain ⟨hquiet, hrest⟩ := hunbroken
    have hsteady : Steady (s.turn C t) := h.turned (Contended.turned C s t) hquiet
    exact (ih hsteady hrest).trans (refusals_turn C (h.not_late t))

end Steady

end Contended
end BlockSync.Synchronizer
