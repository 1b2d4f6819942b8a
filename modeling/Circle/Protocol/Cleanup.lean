import Circle.Protocol.Barrier
import Circle.Protocol.Stealing

/-!
# The cleanup loop and its barrier

A rank starts the barrier when it is in cleanup and nothing is outstanding for
it.  What holds then and is kept by all turns holds of every rank that has
started the barrier (`Execution.of_started`), and so of all ranks once one of
them has left it (`Execution.all_started`).
-/

namespace Circle

open FifoNet (Log inFlight)

variable {n : Nat} {cfg : Config n} {rank : Fin n} {input : Input n} {s s' : State n}
  {out : Option (Packet n)}

/-- A turn leaves the barrier alone, starts it, or is one of `barrierTest`. -/
inductive BarrierMainStep (cfg : Config n) (rank : Fin n) (s : State n) :
    Input n → State n → Option (Packet n) → Prop where
  | other {input : Input n} {s' : State n} {out : Option (Packet n)}
      (hBarrier : s'.barrier = s.barrier) (hSilent : Silent .barrier input out) :
      BarrierMainStep cfg rank s input s' out
  | start {s' : State n} (hPc : s.pc = .barrierStart) (hReady : s.readyForBarrier = true)
      (hBarrier : s'.barrier = s.barrier.barrierStart) :
      BarrierMainStep cfg rank s (.tick .go) s' none
  | turn {input : Input n} {s' : State n} {turn : Turn n (Barrier n) Bool}
      (hPc : s.pc = .barrierTest) (hTurn : BarrierTurn cfg rank s.barrier input turn)
      (hBarrier : s'.barrier = turn.record) : BarrierMainStep cfg rank s input s' turn.out

theorem barrierMainStep_of_mainStep (hStep : MainStep cfg rank input s s' out) :
    BarrierMainStep cfg rank s input s' out := by
  have hSilent {pc : Pc} (hPc : s.pc = pc) (hTag : Tag.barrier ∉ pc.tags) :
      Silent .barrier input out := hStep.silent (hPc ▸ hTag)
  cases hStep
  case raise hInput =>
    subst hInput
    exact .other rfl (silent_tick _ _)
  case barrierStart hPc hInput =>
    subst hInput
    by_cases hReady : s.readyForBarrier = true
    · exact .start hPc hReady (by simp [hReady])
    · exact .other (by simp [hReady]) (silent_tick _ _)
  case barrierTest hPc hTurn _ | leaveBarrier hPc hTurn _ =>
    exact .turn hPc (barrierTurn_of_eq hTurn) rfl
  case workreqCheck hPc _ _ | workreceiptCheck hPc _ _ | abortCheck hPc _ _ | reduceCheck hPc _ _ |
      requestWork hPc _ _ | callback hPc _ _ _ _ | idle hPc _ _ | checkForTerm hPc _ |
      checkForTermAllReduce hPc _ | tokenCheck hPc _ | tokenTest hPc _ | reduceSync hPc _ |
      abortReduce hPc _ _ | leaveAbortReduce hPc _ _ =>
    exact .other rfl (hSilent hPc (by decide))

/-! ## The barrier of the main loop -/

theorem cleanup_step (hCleanup : s.cleanup = true) (hStep : MainStep cfg rank input s s' out) :
    s'.cleanup = true := by
  cases hStep
  case checkForTerm | checkForTermAllReduce => simp [hCleanup]
  all_goals exact hCleanup

theorem barrierInv_step {g : World n} (hFifo : FifoNet.Fifo g)
    (hAll : ∀ r, BarrierInv cfg r (g r).state.barrier (g r).sent (g r).rcvd)
    (hAdmits : FifoNet.Admits g rank input) (hStep : MainStep cfg rank input (g rank).state s' out) :
    BarrierInv cfg rank s'.barrier ((g rank).sent.send out) ((g rank).rcvd.receive input) := by
  have h := hAll rank
  have hBarrierStep := barrierMainStep_of_mainStep hStep
  cases hBarrierStep
  case other hBarrier hSilent =>
    rw [hBarrier]
    exact h.frame (hSilent.sent _) (hSilent.rcvd _)
  case start hPc hReady hBarrier =>
    rw [hBarrier]
    exact h.barrierStart
  case turn turn hPc hTurn hBarrier =>
    rw [hBarrier]
    refine h.turn ?_ hTurn
    rintro src msg rfl hOpen
    exact child_of_admits hFifo (fun r => (hAll r).wave) hAdmits hOpen

/-- The rank has started the barrier. -/
def Barrier.Entered (b : Barrier n) : Prop := b.barrierStarted = true ∨ 1 ≤ b.wave.up

/-- No turn of `barrierTest` starts the barrier. -/
theorem BarrierTurn.entered {b : Barrier n} {turn : Turn n (Barrier n) Bool}
    (h : BarrierTurn cfg rank b input turn) {sent rcvd : Log (Fin n) Tag Msg}
    (hInv : BarrierInv cfg rank b sent rcvd) (hEntered : turn.record.Entered) : b.Entered := by
  unfold Barrier.Entered at hEntered ⊢
  cases h
  case contribute hPhase _ _ _ | gather hPhase _ _ _ =>
    exact Or.inl (hInv.started (Or.inr (by simp [hPhase])))
  case close =>
    rcases hEntered with hStarted | hUp
    · cases hStarted
    · exact Or.inr hUp
  all_goals exact hEntered

/-- The functions of a rank that has left the barrier. -/
def Pc.leftBarrier : Pc → Bool
  | .reduceSync | .abortReduce | .checkpoint | .done => true
  | _ => false

section Executions

variable {ok : World n → Fin n → Event n → Prop} {g : World n}

theorem Execution.barrierInv (h : Execution cfg ok g) (rank : Fin n) :
    BarrierInv cfg rank (g rank).state.barrier (g rank).sent (g rank).rcvd := by
  refine h.forall_rank
    (L := fun rank node => BarrierInv cfg rank node.state.barrier node.sent node.rcvd) ?_ ?_ rank
  · intro rank start
    exact barrierInv_initial
  · intro g rank input state out hReach hAll hAdmits hStep
    exact barrierInv_step hReach.fifo hAll hAdmits hStep

/-- The rule for what holds of a rank that has started the barrier: it holds
when the barrier may start, and turns in cleanup keep it. -/
theorem Execution.of_started {P : State n → Prop}
    (hReady : ∀ s : State n, s.cleanup = true → s.readyForBarrier = true → P s)
    (hKeep : ∀ g rank input s' out, Execution cfg ok g → FifoNet.Admits g rank input →
      MainStep cfg rank input (g rank).state s' out → (g rank).state.cleanup = true →
      P (g rank).state → P s')
    (h : Execution cfg ok g) (rank : Fin n) (hEntered : (g rank).state.barrier.Entered) :
    (g rank).state.cleanup = true ∧ P (g rank).state := by
  revert hEntered
  refine h.forall_rank
    (L := fun _ node => node.state.barrier.Entered → node.state.cleanup = true ∧ P node.state)
    ?_ ?_ rank
  · intro rank start hEntered
    rcases hEntered with hStarted | hUp
    · cases hStarted
    · simp [Start.state, Wave.Counters.zero] at hUp
  · intro g rank input s' out hReach hAll hAdmits hStep hEntered
    suffices hOld : (g rank).state.cleanup = true ∧ P (g rank).state from
      ⟨cleanup_step hOld.1 hStep, hKeep g rank input s' out hReach hAdmits hStep hOld.1 hOld.2⟩
    have hBarrierStep := barrierMainStep_of_mainStep hStep
    rw [FifoNet.Node.after_state] at hEntered
    cases hBarrierStep
    case other hBarrier hSilent =>
      rw [hBarrier] at hEntered
      exact hAll rank hEntered
    case start hPc hIsReady hBarrier =>
      have hCleanup := (hReach.control rank).fits
      simp only [State.Fits, hPc] at hCleanup
      exact ⟨hCleanup, hReady _ hCleanup hIsReady⟩
    case turn hPc hTurn hBarrier =>
      rw [hBarrier] at hEntered
      exact hAll rank (hTurn.entered (hReach.barrierInv rank) hEntered)

/-- A rank that has left the barrier has closed it. -/
theorem Execution.closed_of_left (h : Execution cfg ok g) (rank : Fin n)
    (hLeft : (g rank).state.pc.leftBarrier = true) : 1 ≤ (g rank).state.barrier.wave.closed := by
  revert hLeft
  refine h.forall_rank (L := fun _ node => node.state.pc.leftBarrier = true →
    1 ≤ node.state.barrier.wave.closed) ?_ ?_ rank
  · intro rank start hLeft
    cases hLeft
  · intro g rank input s' out hReach hAll _ hStep hLeft
    have hOld := hAll rank
    rw [FifoNet.Node.after_state] at hLeft ⊢
    cases hStep
    case leaveBarrier turn hPc hTurn hResult =>
      rw [(barrierTurn_of_eq hTurn).closed_eq, if_pos hResult]
      exact Nat.le_add_left _ _
    case raise => exact hOld hLeft
    case reduceSync turn hPc hTurn => exact hOld (by simp [hPc, Pc.leftBarrier])
    case abortReduce turn hPc hTurn hResult | leaveAbortReduce turn flag hPc hTurn hResult =>
      exact hOld (by simp [hPc, Pc.leftBarrier])
    case workreqCheck hNext =>
      subst hNext
      unfold State.afterWorkreq at hLeft
      repeat' split at hLeft
      all_goals cases hLeft
    case workreceiptCheck hNext =>
      subst hNext
      split at hLeft <;> cases hLeft
    case abortCheck hNext =>
      subst hNext
      unfold State.afterAbort State.afterReduce at hLeft
      repeat' split at hLeft
      all_goals cases hLeft
    case reduceCheck hNext =>
      subst hNext
      unfold State.afterReduce at hLeft
      repeat' split at hLeft
      all_goals cases hLeft
    case requestWork hNext =>
      subst hNext
      repeat' split at hLeft
      all_goals cases hLeft
    case callback | barrierStart | tokenTest => cases hLeft
    case idle | barrierTest | tokenCheck => split at hLeft <;> cases hLeft
    case checkForTerm | checkForTermAllReduce =>
      split at hLeft
      all_goals cases hLeft

/-- Once a rank has left the barrier, all ranks have started it. -/
theorem Execution.all_started (h : Execution cfg ok g) {rank : Fin n}
    (hLeft : (g rank).state.pc.leftBarrier = true) (other : Fin n) :
    (g other).state.barrier.Entered := by
  have hWave := fun r => (h.barrierInv r).wave
  have hFifo := fun s d => h.fifo.length_le s d .barrier
  have hDone := Nat.le_trans (h.closed_of_left rank hLeft) (hWave rank).closed_le_done
  exact Or.inr (Wave.up_of_done hWave hFifo hDone other)

/-- A rank that has started the barrier waits for no reply. -/
theorem Execution.workRequested_of_started (h : Execution cfg ok g) (rank : Fin n)
    (hEntered : (g rank).state.barrier.Entered) : (g rank).state.work.workRequested = false := by
  refine (h.of_started (P := fun s => s.work.workRequested = false) ?_ ?_ rank hEntered).2
  · intro s _ hReady
    simp only [State.readyForBarrier, Bool.and_eq_true, Bool.not_eq_true'] at hReady
    exact hReady.1.1.1
  · intro g rank input s' out hReach hAdmits hStep hCleanup hNone
    have hWork := workStep_of_mainStep hStep
    generalize s'.work = next at hWork ⊢
    cases hWork
    case other => exact hNone
    case workreq hTurn => cases hTurn <;> exact hNone
    case receipt hTurn => cases hTurn <;> exact hNone
    case request hTurn =>
      rw [hCleanup] at hTurn
      cases hTurn
      case request hOpen _ _ _ => cases hOpen
      all_goals first | exact hNone | rfl
    case callback hWork =>
      obtain ⟨result, -, rfl⟩ := Option.map_eq_some_iff.mp hWork
      exact hNone

end Executions

end Circle
