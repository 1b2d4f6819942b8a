import Circle.Protocol.Settling
import Circle.Protocol.Unanimity

/-!
# Aborted trees

With a tree, an abort does not trap the ranks.  Once `ABORT_FLAG` is up
everywhere, whatever the ranks do then, the run can be continued until all of
them write their checkpoint files: if no rank could leave the barrier, they
would come to a standstill, and there is none.
-/

namespace Circle

open FifoNet (Log inFlight)

variable {n : Nat} {cfg : Config n} {rank : Fin n} {input : Input n} {s s' : State n}
  {out : Option (Packet n)} {g g' : World n} {r : Fin n}

/-! ## The barrier at a standstill -/

/-- With a tree no token is sent. -/
theorem Execution.sendPending_of_tree {ok : World n → Fin n → Event n → Prop}
    (h : Execution cfg ok g) (hTree : cfg.termTree = true) (r : Fin n) :
    (g r).state.token.sendPending = false := by
  refine h.forall_rank (L := fun _ node => node.state.token.sendPending = false) ?_ ?_ r
  · intro rank start
    rfl
  · intro g rank input s' out hReach hAll _ hStep
    have hFits := (hReach.control rank).fits
    have hOld := hAll rank
    rw [FifoNet.Node.after_state]
    cases hStep
    case checkForTerm hPc _ =>
      rw [State.Fits, hPc, hTree] at hFits
      cases hFits.2.1
    case tokenCheck hPc _ | tokenTest hPc _ =>
      rw [State.Fits, hPc, hTree] at hFits
      cases hFits.2
    all_goals exact hOld

/-- At a standstill all ranks have started the barrier. -/
theorem Standstill.started (h : Standstill cfg g) (r : Fin n) :
    (g r).state.barrier.barrierStarted = true := by
  have hLoop : (g r).state.inLoop cfg .barrierStart = true := by
    simp [State.inLoop, Pc.inLoop, h.cleanup_eq r]
  obtain ⟨g', hDrift, hPc, -⟩ := h.comes_to hLoop
  have hStill := hDrift.still
  -- nothing that the barrier has to wait for is outstanding
  have hReady : (g' r).state.readyForBarrier = true := by
    simp [State.readyForBarrier, hStill.requested_eq r, hStill.reduceOutstanding_eq r,
      hStill.abortOutstanding_eq r, hStill.reach.sendPending_of_tree hStill.tree r]
  have hActs : mainLoop cfg r (.tick .go) (g' r).state = some ({ (g' r).state with
      barrier := (g' r).state.barrier.barrierStart, pc := .barrierTest }, none) := by
    simp [mainLoop, hPc, hReady]
  obtain ⟨next, hNext, hState⟩ := hStill.tick hActs rfl
  refine (hDrift.trans hNext).settles'.started ?_
  rw [hState]
  rfl

/-- At a standstill no rank has the result of the barrier. -/
theorem Standstill.not_barrierDown (h : Standstill cfg g) (r : Fin n) :
    (g r).state.barrier.phase ≠ .down := by
  intro hPhase
  have hPc := (h.reach.control r).phases.barrier (by simp [hPhase])
  cases hTodo : (g r).state.barrier.wave.todo with
  | cons child rest =>
      apply h.silent r
      simp [mainLoop, hPc, Barrier.barrierTest, hPhase, hTodo, Turn.sends]
  | nil =>
      obtain ⟨s', hClose, hLeft⟩ : ∃ s', mainLoop cfg r (.tick .go) (g r).state = some (s', none) ∧
          s'.pc.leftBarrier = true := mainLoop_barrierTest_close hPc hPhase hTodo
      obtain ⟨g', hDrift, rfl⟩ := h.tick hClose rfl
      rw [hDrift.still.left_eq r] at hLeft
      cases hLeft

/-- At a standstill the root does not complete the barrier. -/
theorem Standstill.not_root (h : Standstill cfg g) (hPc : (g r).state.pc = .barrierTest)
    (hPhase : (g r).state.barrier.phase = .up)
    (hReady : (g r).state.barrier.barrierUp = true ∨
      (g r).state.barrier.wave.replies = (cfg.tree.children r).length) :
    cfg.tree.parent r ≠ none := by
  intro hRoot
  -- in two turns the root would have the result
  have hUp : ∃ barrier : Barrier n, barrier.phase = .parent ∧ barrier.barrierUp = true ∧
      mainLoop cfg r (.tick .go) (g r).state =
        some ({ (g r).state with barrier := barrier }, none) := by
    cases hContributed : (g r).state.barrier.barrierUp with
    | true =>
        exact ⟨{ (g r).state.barrier with phase := .parent }, rfl, hContributed,
          mainLoop_barrierTest_skip hPc hPhase (Or.inl hContributed)⟩
    | false =>
        have hFull := hReady.resolve_left (by simp [hContributed])
        exact ⟨_, rfl, rfl, by
          simp [mainLoop, hPc, Barrier.barrierTest, hPhase, hContributed, Barrier.barrierReplies,
            hFull, hRoot, Turn.stays]; rfl⟩
  obtain ⟨barrier, hParent, hUp, hActs⟩ := hUp
  obtain ⟨next, hNext, hState⟩ := h.tick hActs rfl
  have hDecide : mainLoop cfg r (.tick .go) (next r).state =
      some ((next r).state.completes cfg r, none) := by
    rw [hState]
    exact mainLoop_barrierTest_decide hPc hParent hUp hRoot
  obtain ⟨last, hLast, hEnd⟩ := hNext.still.tick hDecide rfl
  exact hLast.still.not_barrierDown r (by rw [hEnd]; rfl)

/-- At a standstill a rank whose children have contributed to the barrier has
contributed too, and is not the root. -/
theorem Standstill.entered (h : Standstill cfg g)
    (hChildren : ∀ c ∈ cfg.tree.children r, 1 ≤ (g c).state.barrier.wave.up) :
    cfg.tree.parent r ≠ none ∧ 1 ≤ (g r).state.barrier.wave.up := by
  have hLoop : (g r).state.inLoop cfg .barrierTest = true := by
    simp [State.inLoop, Pc.inLoop, h.cleanup_eq r]
  obtain ⟨g', hDrift, hPc, hFresh⟩ := h.comes_to hLoop
  have hStill := hDrift.still
  have hReach := hStill.reach
  have hStarted := hStill.started r
  have hInv := hReach.barrierInv r
  have hClosed : (g' r).state.barrier.wave.closed = 0 := by
    rw [hReach.closed_eq r, hStill.left_eq r]
    rfl
  have hSent (c : Fin n) (hMem : c ∈ cfg.tree.children r) : 1 ≤ ((g c).sent r .barrier).length := by
    have hUp := (h.reach.barrierInv c).wave.sent_parent r (cfg.tree.parent_of_mem hMem)
    exact (hChildren c hMem).trans_eq hUp.symm
  have hFull : (g' r).state.barrier.wave.replies = (cfg.tree.children r).length := by
    refine hDrift.replies_eq hInv.wave hClosed hSent fun hOpen c msg _ => ?_
    rw [mainLoop_barrierTest_collect hPc hFresh.barrier hStarted hOpen c msg]
    rfl
  obtain ⟨next, hNext, hState⟩ :=
    hStill.tick (mainLoop_barrierTest_look hPc hFresh.barrier hStarted) rfl
  have hPcNext : (next r).state.pc = .barrierTest := by
    rw [hState]
    exact hPc
  have hPhase : (next r).state.barrier.phase = .up := by rw [hState]
  have hFullNext : (next r).state.barrier.wave.replies = (cfg.tree.children r).length := by
    rw [hState]
    exact hFull
  have hNotRoot := hNext.still.not_root hPcNext hPhase (Or.inr hFullNext)
  refine ⟨hNotRoot, ?_⟩
  obtain ⟨p, hParent⟩ := Option.ne_none_iff_exists'.mp hNotRoot
  cases hUp : (next r).state.barrier.barrierUp with
  | false =>
      apply absurd _ (hNext.still.silent r)
      simp [mainLoop, hPcNext, Barrier.barrierTest, hPhase, hUp, Barrier.barrierReplies, hFullNext,
        hParent, Turn.sends]
  | true =>
      -- what the rank has sent to its parent is what it had sent before
      have hBefore := (h.reach.barrierInv r).wave.sent_parent p hParent
      have hNow := (hNext.still.reach.barrierInv r).wave.sent_parent p hParent
      have hEq := (hNext.still.reach.barrierInv r).up_eq
      rw [(hDrift.trans hNext).sent] at hNow
      rw [hUp, if_pos rfl] at hEq
      omega

/-- There is no standstill. -/
theorem not_standstill : ¬ Standstill cfg g := by
  intro h
  -- from the leaves up, all ranks have contributed, and then the root goes on
  have hAll : ∀ i, 1 ≤ (g i).state.barrier.wave.up :=
    cfg.tree.up_induction fun i hChildren => (h.entered hChildren).2
  exact (h.entered (r := cfg.tree.root) fun c _ => hAll c).1 cfg.tree.parent_root

/-! ## The end of an aborted execution -/

/-- What holds from the abort on. -/
structure Flagged (cfg : Config n) (g : World n) : Prop where
  reach : Execution cfg FifoNet.always g
  flag : ∀ r, (g r).state.pc.early = true → (g r).state.abort.abortFlag = true
  unanimous : ∀ r, Unanimous true (g r).state (g r).sent

theorem Flagged.fires (h : Flagged cfg g)
    (hFires : FifoNet.Fires (mainLoop cfg) g rank input s' out) :
    Flagged cfg (FifoNet.set g rank ((g rank).after input s' out)) where
  reach := h.reach.fires hFires
  flag := by
    apply FifoNet.forall_set
      (P := fun _ (node : Rank n) => node.state.pc.early = true → node.state.abort.abortFlag = true)
    · intro hEarly
      have hStep := mainStep_of_mainLoop hFires.acts
      have hBefore := early_of_step hStep hEarly
      exact hStep.abortFlag hBefore (h.flag rank hBefore)
    · exact fun r _ => h.flag r
  unanimous := unanimous_fires h.unanimous hFires (h.flag rank)

theorem Flagged.leads (h : Flagged cfg g) (hLeads : FifoNet.Leads (mainLoop cfg) g g') :
    Flagged cfg g' := by
  have hKeeps : FifoNet.Keeps (mainLoop cfg) (Flagged cfg) (Flagged cfg) :=
    fun g rank input s' out hOld _ hFires => hOld.fires hFires
  exact (hKeeps.leads hKeeps h h hLeads).1

/-- An abort with room for the replies that are still to come. -/
structure Aborting (cfg : Config n) (g : World n) : Prop extends Flagged cfg g where
  room : Room g

theorem Aborting.fires (h : Aborting cfg g)
    (hFires : FifoNet.Fires (mainLoop cfg) g rank input s' out) :
    Aborting cfg (FifoNet.set g rank ((g rank).after input s' out)) where
  toFlagged := h.toFlagged.fires hFires
  room := h.room.step h.reach (h.flag rank) hFires

theorem Aborting.leads (h : Aborting cfg g) (hLeads : FifoNet.Leads (mainLoop cfg) g g') :
    Aborting cfg g' := by
  have hKeeps : FifoNet.Keeps (mainLoop cfg) (Aborting cfg) (Aborting cfg) :=
    fun g rank input s' out hOld _ hFires => hOld.fires hFires
  exact (hKeeps.leads hKeeps h h hLeads).1

/-- Some run takes a rank out of the barrier. -/
theorem Aborting.exists_left (h : Aborting cfg g) (hTree : cfg.termTree = true) :
    ∃ g', FifoNet.Leads (mainLoop cfg) g g' ∧ ∃ r, (g' r).state.pc.leftBarrier = true := by
  by_contra hNone
  push Not at hNone
  have hStays (g' : World n) (hLeads : FifoNet.Leads (mainLoop cfg) g g') (r : Fin n) :
      (g' r).state.pc.leftBarrier = false := by
    rw [← Bool.not_eq_true]
    exact hNone g' hLeads r
  have hCaught : Caught cfg g := {
    tree := hTree
    reach := h.reach
    flag := fun r => h.flag r (early_of_stays (hStays g (FifoNet.Leads.refl _ g) r))
    room := h.room
    stays := hStays }
  obtain ⟨g', -, hStill⟩ := hCaught.exists_standstill
  exact not_standstill hStill

/-- In tree mode an abort can always be brought to its end. -/
theorem Aborting.canCheckpoint (h : Aborting cfg g) (hTree : cfg.termTree = true) :
    FifoNet.CanReach (mainLoop cfg) g fun last => ∀ r, (last r).state.pc = .checkpoint := by
  -- a first rank leaves the barrier, all finish, and none has denied the abort
  obtain ⟨next, hNext, r, hLeft⟩ := h.exists_left hTree
  obtain ⟨last, hLast, hFinished⟩ := (h.leads hNext).reach.exists_finished hLeft
  refine ⟨last, hNext.trans hLast, fun q => ?_⟩
  exact (hFinished q).resolve_right ((h.leads (hNext.trans hLast)).unanimous q).result

end Circle
