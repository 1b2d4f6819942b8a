import Circle.Base.Leads
import Circle.Protocol.Flood
import Circle.Protocol.LastReduction

/-!
# Leaving the cleanup loop

Once a rank has left the barrier of the cleanup loop, all ranks can: a rank in
the cleanup loop comes round to `barrierTest` by itself, and there is always one
that can go on with the barrier.
-/

namespace Circle

open FifoNet (Log inFlight)

variable {n : Nat} {cfg : Config n} {rank : Fin n} {s : State n}

/-! ## Turns of the cleanup loop -/

section Turns

theorem mainLoop_workreqCheck (hPc : s.pc = .workreqCheck) (hNone : s.work.requestors = []) :
    ∃ work, mainLoop cfg rank (.tick .go) s =
      some ({ s with work := work, pc := s.afterWorkreq cfg }, none) := by
  cases hReplying : s.work.replying with
  | true =>
      refine ⟨{ s.work with replying := false, requestors := [], shares := [] }, ?_⟩
      simp [mainLoop, hPc, Work.workreqCheck, hReplying, hNone, Turn.returns, State.afterWorkreq]
  | false =>
      refine ⟨s.work, ?_⟩
      simp [mainLoop, hPc, Work.workreqCheck, hReplying, hNone, Turn.returns, State.afterWorkreq]

theorem mainLoop_reduceCheck (hPc : s.pc = .reduceCheck) (hPhase : s.reduce.phase = .start)
    (hClosed : s.reduce.reduceOutstanding = false) :
    mainLoop cfg rank (.tick (.time false)) s =
      some ({ s with pc := if s.cleanup then .requestWork else s.afterReduce }, none) := by
  cases hParent : cfg.tree.parent rank <;> cases hCleanup : s.cleanup <;>
    simp [mainLoop, hPc, Reduce.reduceCheck, hPhase, hClosed, hCleanup, hParent, Turn.returns,
      Reduce.startReduce, State.afterReduce]

/-- A rank that has asked, is in cleanup, or sees the flag does not ask for work. -/
theorem mainLoop_requestWork (hPc : s.pc = .requestWork) (hReceiving : s.work.receiving = none)
    (hPassive : s.work.workRequested = true ∨ s.cleanup = true ∨ s.abort.abortFlag = true) :
    mainLoop cfg rank (.tick .go) s =
      some ({ s with pc := if s.cleanup then .abortCheck else .process }, none) := by
  cases hRequested : s.work.workRequested
  · have hOff : ¬ (s.cleanup = false ∧ s.abort.abortFlag = false) := by
      rintro ⟨hCleanup, hFlag⟩
      simp [hRequested, hCleanup, hFlag] at hPassive
    simp [mainLoop, hPc, Work.requestWork, hReceiving, hRequested, hOff, Turn.returns]
  · simp [mainLoop, hPc, Work.requestWork, hReceiving, hRequested, Turn.returns]

theorem mainLoop_abortCheck_start (hPc : s.pc = .abortCheck) (hNone : s.abort.toSend = [])
    (hPhase : s.abort.phase = .start) :
    ∃ abort : Abort n, abort.phase = .probe ∧
      mainLoop cfg rank (.tick .go) s = some ({ s with abort := abort }, none) := by
  refine ⟨_, ?_, by simp [mainLoop, hPc, Abort.abortCheck, hNone, hPhase, Turn.stays]; rfl⟩
  unfold Abort.abortStart
  dsimp only
  repeat' split
  all_goals rfl

theorem mainLoop_abortCheck_probe (hPc : s.pc = .abortCheck) (hNone : s.abort.toSend = [])
    (hPhase : s.abort.phase = .probe) :
    mainLoop cfg rank (.tick .go) s =
      some ({ s with abort := { s.abort with phase := .test } }, none) := by
  simp [mainLoop, hPc, Abort.abortCheck, hNone, hPhase, Turn.stays]

theorem mainLoop_abortCheck_test (hPc : s.pc = .abortCheck) (hNone : s.abort.toSend = [])
    (hPhase : s.abort.phase = .test) :
    mainLoop cfg rank (.tick (.tested false)) s =
      some ({ s with abort := { s.abort with phase := .start }, pc := s.afterAbort cfg }, none) := by
  simp [mainLoop, hPc, Abort.abortCheck, hNone, hPhase, Turn.returns, State.afterAbort,
    State.afterReduce]

theorem mainLoop_tokenCheck_none (hPc : s.pc = .tokenCheck) (hNone : s.token.incoming = none) :
    mainLoop cfg rank (.tick .go) s = some ({ s with pc := .tokenTest }, none) := by
  simp [mainLoop, hPc, Token.tokenCheck, hNone, Turn.returns]

theorem mainLoop_tokenCheck_wait (hPc : s.pc = .tokenCheck) {token : Color}
    (hSome : s.token.incoming = some token) (hPending : s.token.sendPending = true) :
    mainLoop cfg rank (.synced (tokenDest rank) .token) s =
      some ({ s with token := { s.token with sendPending := false } }, none) := by
  simp [mainLoop, hPc, Token.tokenCheck, hSome, hPending, Turn.stays]

theorem mainLoop_tokenCheck_accept (hPc : s.pc = .tokenCheck) {token : Color}
    (hSome : s.token.incoming = some token) (hPending : s.token.sendPending = false) :
    ∃ token out, mainLoop cfg rank (.tick .go) s =
      some ({ s with token := token, pc := .tokenTest }, out) := by
  exact ⟨_, _, by simp [mainLoop, hPc, Token.tokenCheck, hSome, hPending]; exact ⟨rfl, rfl⟩⟩

theorem mainLoop_tokenTest (hPc : s.pc = .tokenTest) :
    mainLoop cfg rank (.tick .go) s = some ({ s with pc := .barrierStart }, none) := by
  simp [mainLoop, hPc, Token.tokenTest, Turn.returns]

theorem mainLoop_barrierStart (hPc : s.pc = .barrierStart) :
    ∃ started, mainLoop cfg rank (.tick .go) s = some ({ s with
      barrier := { s.barrier with barrierStarted := started }, pc := .barrierTest }, none) := by
  by_cases hReady : s.readyForBarrier = true
  · exact ⟨true, by simp [mainLoop, hPc, hReady, Barrier.barrierStart]⟩
  · exact ⟨s.barrier.barrierStarted, by simp [mainLoop, hPc, hReady]⟩

end Turns

/-! ## Turns of the barrier -/

section Barrier

theorem mainLoop_barrierTest_look (hPc : s.pc = .barrierTest) (hPhase : s.barrier.phase = .children)
    (hStarted : s.barrier.barrierStarted = true) :
    mainLoop cfg rank (.tick .go) s =
      some ({ s with barrier := { s.barrier with phase := .up } }, none) := by
  simp [mainLoop, hPc, Barrier.barrierTest, hPhase, hStarted, Turn.stays]

theorem mainLoop_barrierTest_collect (hPc : s.pc = .barrierTest)
    (hPhase : s.barrier.phase = .children) (hStarted : s.barrier.barrierStarted = true)
    (hOpen : s.barrier.wave.replies < (cfg.tree.children rank).length) (src : Fin n) (msg : Msg) :
    mainLoop cfg rank (.recv src .barrier msg) s = some ({ s with
      barrier := { s.barrier with
        wave := { s.barrier.wave with replies := s.barrier.wave.replies + 1 }
        phase := .up } }, none) := by
  simp [mainLoop, hPc, Barrier.barrierTest, hPhase, hStarted, Barrier.barrierReplies, hOpen,
    Turn.stays]

theorem mainLoop_barrierTest_contribute (hPc : s.pc = .barrierTest) (hPhase : s.barrier.phase = .up)
    (hUp : s.barrier.barrierUp = false)
    (hFull : s.barrier.wave.replies = (cfg.tree.children rank).length) :
    ∃ out, mainLoop cfg rank (.tick .go) s = some ({ s with
      barrier := { s.barrier with
        barrierUp := true
        wave := { s.barrier.wave with up := s.barrier.wave.up + 1 }
        phase := .parent } }, out) := by
  cases hParent : cfg.tree.parent rank <;>
    exact ⟨_, by simp [mainLoop, hPc, Barrier.barrierTest, hPhase, hUp, Barrier.barrierReplies,
      hFull, hParent, Turn.stays, Turn.sends]; rfl⟩

theorem mainLoop_barrierTest_skip (hPc : s.pc = .barrierTest) (hPhase : s.barrier.phase = .up)
    (hSkip : s.barrier.barrierUp = true ∨
      s.barrier.wave.replies ≠ (cfg.tree.children rank).length) :
    mainLoop cfg rank (.tick .go) s =
      some ({ s with barrier := { s.barrier with phase := .parent } }, none) := by
  rcases hSkip with hUp | hOpen
  · simp [mainLoop, hPc, Barrier.barrierTest, hPhase, hUp, Turn.stays]
  · simp [mainLoop, hPc, Barrier.barrierTest, hPhase, hOpen, Barrier.barrierReplies, Turn.stays]

theorem mainLoop_barrierTest_wait (hPc : s.pc = .barrierTest) (hPhase : s.barrier.phase = .parent)
    (hWait : s.barrier.barrierUp = false ∨ cfg.tree.parent rank ≠ none) :
    mainLoop cfg rank (.tick .go) s = some ({ s with
      barrier := { s.barrier with phase := .children }, pc := .workreqCheck }, none) := by
  cases hUp : s.barrier.barrierUp with
  | false => simp [mainLoop, hPc, Barrier.barrierTest, hPhase, hUp, Turn.returns]
  | true =>
      obtain ⟨p, hParent⟩ := Option.ne_none_iff_exists'.mp (hWait.resolve_left (by simp [hUp]))
      simp [mainLoop, hPc, Barrier.barrierTest, hPhase, hUp, hParent, Turn.returns]

/-- What a rank does when it has the result of the barrier. -/
def State.completes (cfg : Config n) (rank : Fin n) (s : State n) : State n :=
  { s with
    barrier := { s.barrier with
      wave := { s.barrier.wave with
        done := s.barrier.wave.done + 1
        todo := cfg.tree.children rank }
      phase := .down } }

theorem mainLoop_barrierTest_decide (hPc : s.pc = .barrierTest) (hPhase : s.barrier.phase = .parent)
    (hUp : s.barrier.barrierUp = true) (hRoot : cfg.tree.parent rank = none) :
    mainLoop cfg rank (.tick .go) s = some (s.completes cfg rank, none) := by
  simp [mainLoop, hPc, Barrier.barrierTest, hPhase, hUp, hRoot, Turn.stays, State.completes]

theorem mainLoop_barrierTest_learn (hPc : s.pc = .barrierTest) (hPhase : s.barrier.phase = .parent)
    (hUp : s.barrier.barrierUp = true) {p : Fin n} (hParent : cfg.tree.parent rank = some p)
    (msg : Msg) :
    mainLoop cfg rank (.recv p .barrier msg) s = some (s.completes cfg rank, none) := by
  simp [mainLoop, hPc, Barrier.barrierTest, hPhase, hUp, hParent, Turn.stays, State.completes]

theorem mainLoop_barrierTest_tell (hPc : s.pc = .barrierTest) (hPhase : s.barrier.phase = .down)
    {child : Fin n} {rest : List (Fin n)} (hTodo : s.barrier.wave.todo = child :: rest) :
    ∃ out, mainLoop cfg rank (.tick .go) s = some ({ s with
      barrier := { s.barrier with wave := { s.barrier.wave with todo := rest } } }, out) := by
  exact ⟨_, by simp [mainLoop, hPc, Barrier.barrierTest, hPhase, hTodo, Turn.sends]; rfl⟩

theorem mainLoop_barrierTest_close (hPc : s.pc = .barrierTest) (hPhase : s.barrier.phase = .down)
    (hTodo : s.barrier.wave.todo = []) :
    ∃ s', mainLoop cfg rank (.tick .go) s = some (s', none) ∧ s'.pc.leftBarrier = true := by
  cases hReduce : cfg.reduceEnabled
  · exact ⟨_, by
      simp [mainLoop, hPc, Barrier.barrierTest, hPhase, hTodo, hReduce, Turn.returns]; rfl, rfl⟩
  · exact ⟨_, by
      simp [mainLoop, hPc, Barrier.barrierTest, hPhase, hTodo, hReduce, Turn.returns]; rfl, rfl⟩

end Barrier

/-! ## A rank in the cleanup loop -/

variable {g g' : World n}

/-- What holds of every rank once a rank has left the barrier. -/
structure AtRest (g : World n) (r : Fin n) : Prop where
  cleanup : (g r).state.cleanup = true
  requestors : (g r).state.work.requestors = []
  requested : (g r).state.work.workRequested = false
  receiving : (g r).state.work.receiving = none
  closed : (g r).state.reduce.reduceOutstanding = false
  toSend : (g r).state.abort.toSend = []
  token : (g r).state.token.incoming ≠ none → inFlight g r (tokenDest r) .token = []
  entered : (g r).state.barrier.Entered

theorem Execution.atRest (h : Execution cfg FifoNet.always g) {q : Fin n}
    (hLeft : (g q).state.pc.leftBarrier = true) (r : Fin n) : AtRest g r := by
  have hNone (other : Fin n) : (g other).state.work.workRequested = false :=
    h.workRequested_of_started other (h.all_started hLeft other)
  have hAsked (other : Fin n) : (g other).state.work.asked r = 0 := by
    simp [Work.asked, hNone other]
  obtain ⟨hCleanup, hClosed⟩ := noRound_of_left h h.reductions.1 hLeft r
  constructor
  case cleanup => exact hCleanup
  case requestors =>
    rw [List.eq_nil_iff_forall_not_mem]
    exact fun other => (noRequest_of_asked h.fifo h.workInv (hAsked other)).requestors
  case requested => exact hNone r
  case receiving =>
    by_contra hSome
    have hRequested := (h.workInv r).stock.receiving hSome
    rw [hNone r] at hRequested
    cases hRequested
  case closed => exact hClosed
  case toSend =>
    by_contra hSome
    have hOutside := h.cleanup_of_toSend r hSome
    rw [hCleanup] at hOutside
    cases hOutside
  case token => exact h.received_of_incoming r
  case entered => exact h.all_started hLeft r

/-- Whether a function comes after the barrier does not change elsewhere. -/
theorem Pc.leftBarrier_of_mem_next {pc pc' : Pc} (h : pc' ∈ pc.next) (hOther : pc ≠ .barrierTest)
    (hRunning : pc' ≠ .failed) : pc'.leftBarrier = pc.leftBarrier := by
  revert h hOther hRunning
  cases pc <;> cases pc' <;> decide

/-- A rank closes the barrier when it leaves it. -/
theorem Execution.closed_eq (h : Execution cfg FifoNet.always g) (r : Fin n) :
    (g r).state.barrier.wave.closed = if (g r).state.pc.leftBarrier then 1 else 0 := by
  refine h.forall_rank (L := fun _ node =>
    node.state.barrier.wave.closed = if node.state.pc.leftBarrier then 1 else 0) ?_ ?_ r
  · intro rank start
    rfl
  · intro g rank input s' out hReach hAll hAdmits hStep
    have hOld := hAll rank
    have hRunning := hReach.running_step hAdmits hStep
    rw [FifoNet.Node.after_state]
    by_cases hPc : (g rank).state.pc = .barrierTest
    · rw [hPc] at hOld
      cases hStep
      case raise => simpa [hPc] using hOld
      case barrierTest turn _ hTurn hResult =>
        rw [(barrierTurn_of_eq hTurn).closed_eq, if_neg hResult]
        dsimp only
        split <;> exact hOld
      case leaveBarrier turn _ hTurn hResult =>
        rw [(barrierTurn_of_eq hTurn).closed_eq, if_pos hResult, hOld]
        cases cfg.reduceEnabled <;> rfl
      all_goals simp_all
    · rw [Pc.leftBarrier_of_mem_next hStep.next hPc hRunning]
      have hBarrierStep := barrierMainStep_of_mainStep hStep
      cases hBarrierStep
      case other hBarrier _ =>
        rw [hBarrier]
        exact hOld
      case start hBarrier =>
        rw [hBarrier]
        exact hOld
      case turn hTest _ _ => exact (hPc hTest).elim

/-- A rank that has not left the barrier is in it. -/
theorem Execution.started_of_entered (h : Execution cfg FifoNet.always g) {r : Fin n}
    (hEntered : (g r).state.barrier.Entered) (hStays : (g r).state.pc.leftBarrier = false) :
    (g r).state.barrier.barrierStarted = true := by
  rcases hEntered with hStarted | hUp
  · exact hStarted
  · have hInv := h.barrierInv r
    refine hInv.started (Or.inl ?_)
    have hOpen := hInv.up_eq
    rw [h.closed_eq r, hStays] at hOpen
    by_contra hNot
    simp [hNot] at hOpen
    omega

/-! ## Coming round to the barrier -/

/-- What a rank has still to do in the barrier. -/
def State.remaining (cfg : Config n) (rank : Fin n) (s : State n) : Nat :=
  if s.pc.leftBarrier then 0
  else (cfg.tree.children rank).length - s.barrier.wave.replies +
    (if s.barrier.barrierUp then 0 else 1) +
    if s.barrier.phase = .down then s.barrier.wave.todo.length + 1
    else (cfg.tree.children rank).length + 2

/-- How far a rank in the cleanup loop is from the start of `barrierTest`. -/
def State.distance (s : State n) : Nat :=
  match s.pc with
  | .workreqCheck => 10
  | .reduceCheck => 9
  | .requestWork => 8
  | .abortCheck =>
      match s.abort.phase with
      | .start => 7
      | .probe => 6
      | .test => 5
  | .tokenCheck => if s.token.incoming.isSome && s.token.sendPending then 4 else 3
  | .tokenTest => 2
  | .barrierStart => 1
  | .barrierTest =>
      match s.barrier.phase with
      | .children | .down => 0
      | .parent => 11
      | .up => 12
  | _ => 0

/-- A turn that takes a rank closer to `barrierTest`, and leaves the barrier as
it is. -/
structure Nearer (cfg : Config n) (rank : Fin n) (s s' : State n) : Prop where
  stays : s'.pc.leftBarrier = false
  remaining : s'.remaining cfg rank = s.remaining cfg rank
  barrierUp : s'.barrier.barrierUp = s.barrier.barrierUp
  distance : s'.distance < s.distance

/-- Turns of other functions. -/
theorem nearer_of_barrier_eq {s' : State n} (hBarrier : s'.barrier = s.barrier)
    (hStays : s.pc.leftBarrier = false) (hStays' : s'.pc.leftBarrier = false)
    (hDistance : s'.distance < s.distance) : Nearer cfg rank s s' where
  stays := hStays'
  remaining := by simp [State.remaining, hStays, hStays', hBarrier]
  barrierUp := by rw [hBarrier]
  distance := hDistance

theorem ReduceShape.start_of_closed (h : ReduceShape cfg rank s) (hCleanup : s.cleanup = true)
    (hClosed : s.reduce.reduceOutstanding = false) (hPlace : s.pc ≠ .reduceSync) :
    s.reduce.phase = .start := by
  have hFits := h.fits
  have hNotSync : s.reduce.phase.isSync ≠ true := fun hSync => hPlace (h.syncPlace hSync)
  unfold Reduce.Fits at hFits
  cases hPhase : s.reduce.phase <;> rw [hPhase] at hFits hNotSync
  case init => simp [hCleanup] at hFits
  case kick | children | data | sendData => simp [hClosed] at hFits
  case syncChildren | syncData | syncSendData => exact (hNotSync rfl).elim

/-- A rank takes a turn by itself that brings it on with the barrier, or closer to
`barrierTest`. -/
def State.GoesOn (cfg : Config n) (rank : Fin n) (s : State n) : Prop :=
  ∃ choice s' out, mainLoop cfg rank (.tick choice) s = some (s', out) ∧
    (s'.remaining cfg rank < s.remaining cfg rank ∨ Nearer cfg rank s s')

section GoesOn

theorem goesOn_workreqCheck (hPc : s.pc = .workreqCheck) (hCleanup : s.cleanup = true)
    (hNone : s.work.requestors = []) : s.GoesOn cfg rank := by
  have hStays : s.pc.leftBarrier = false := by rw [hPc]; rfl
  obtain ⟨work, hActs⟩ : ∃ work, mainLoop cfg rank (.tick .go) s =
      some ({ s with work := work, pc := s.afterWorkreq cfg }, none) :=
    mainLoop_workreqCheck hPc hNone
  refine ⟨_, _, _, hActs, Or.inr (nearer_of_barrier_eq rfl hStays ?_ ?_)⟩ <;>
    cases hEnabled : cfg.reduceEnabled <;>
    simp [State.afterWorkreq, State.distance, Pc.leftBarrier, hCleanup, hEnabled, hPc]

theorem goesOn_reduceCheck (hPc : s.pc = .reduceCheck) (hCleanup : s.cleanup = true)
    (hPhase : s.reduce.phase = .start) (hClosed : s.reduce.reduceOutstanding = false) :
    s.GoesOn cfg rank := by
  have hStays : s.pc.leftBarrier = false := by rw [hPc]; rfl
  refine ⟨_, _, _, mainLoop_reduceCheck hPc hPhase hClosed,
    Or.inr (nearer_of_barrier_eq rfl hStays ?_ ?_)⟩ <;>
    simp [State.distance, Pc.leftBarrier, hCleanup, hPc]

theorem goesOn_requestWork (hPc : s.pc = .requestWork) (hCleanup : s.cleanup = true)
    (hReceiving : s.work.receiving = none) : s.GoesOn cfg rank := by
  have hStays : s.pc.leftBarrier = false := by rw [hPc]; rfl
  refine ⟨_, _, _, mainLoop_requestWork hPc hReceiving (Or.inr (Or.inl hCleanup)),
    Or.inr (nearer_of_barrier_eq rfl hStays ?_ ?_)⟩ <;>
    cases hPhase : s.abort.phase <;>
    simp [State.distance, Pc.leftBarrier, hCleanup, hPc, hPhase]

theorem goesOn_abortCheck (hPc : s.pc = .abortCheck) (hCleanup : s.cleanup = true)
    (hNone : s.abort.toSend = []) : s.GoesOn cfg rank := by
  have hStays : s.pc.leftBarrier = false := by rw [hPc]; rfl
  cases hPhase : s.abort.phase with
  | start =>
      obtain ⟨abort, hProbe, hActs⟩ : ∃ abort : Abort n, abort.phase = .probe ∧
          mainLoop cfg rank (.tick .go) s = some ({ s with abort := abort }, none) :=
        mainLoop_abortCheck_start hPc hNone hPhase
      refine ⟨_, _, _, hActs, Or.inr (nearer_of_barrier_eq rfl hStays hStays ?_)⟩
      simp [State.distance, hPc, hPhase, hProbe]
  | probe =>
      refine ⟨_, _, _, mainLoop_abortCheck_probe hPc hNone hPhase,
        Or.inr (nearer_of_barrier_eq rfl hStays hStays ?_)⟩
      simp [State.distance, hPc, hPhase]
  | test =>
      refine ⟨_, _, _, mainLoop_abortCheck_test hPc hNone hPhase,
        Or.inr (nearer_of_barrier_eq rfl hStays ?_ ?_)⟩ <;>
        cases hTree : cfg.termTree <;>
        simp [State.afterAbort, State.distance, Pc.leftBarrier, hCleanup, hTree, hPc, hPhase]
      split <;> decide

/-- A rank without a token, or with one and no send pending, does not wait. -/
theorem goesOn_tokenCheck (hPc : s.pc = .tokenCheck)
    (hFree : s.token.incoming = none ∨ s.token.sendPending = false) : s.GoesOn cfg rank := by
  have hStays : s.pc.leftBarrier = false := by rw [hPc]; rfl
  cases hIncoming : s.token.incoming with
  | none =>
      refine ⟨_, _, _, mainLoop_tokenCheck_none hPc hIncoming,
        Or.inr (nearer_of_barrier_eq rfl hStays rfl ?_)⟩
      simp [State.distance, hPc, hIncoming]
  | some token =>
      have hPending : s.token.sendPending = false := hFree.resolve_left (by simp [hIncoming])
      obtain ⟨token, out, hActs⟩ : ∃ token out, mainLoop cfg rank (.tick .go) s =
          some ({ s with token := token, pc := .tokenTest }, out) :=
        mainLoop_tokenCheck_accept hPc hIncoming hPending
      refine ⟨_, _, _, hActs, Or.inr (nearer_of_barrier_eq rfl hStays rfl ?_)⟩
      simp [State.distance, hPc, hIncoming, hPending]

theorem goesOn_tokenTest (hPc : s.pc = .tokenTest) : s.GoesOn cfg rank := by
  have hStays : s.pc.leftBarrier = false := by rw [hPc]; rfl
  refine ⟨_, _, _, mainLoop_tokenTest hPc, Or.inr (nearer_of_barrier_eq rfl hStays rfl ?_)⟩
  simp [State.distance, hPc]

theorem goesOn_barrierStart (hPc : s.pc = .barrierStart) (hPhase : s.barrier.phase = .children) :
    s.GoesOn cfg rank := by
  obtain ⟨started, hActs⟩ : ∃ started, mainLoop cfg rank (.tick .go) s = some ({ s with
      barrier := { s.barrier with barrierStarted := started }, pc := .barrierTest }, none) :=
    mainLoop_barrierStart hPc
  refine ⟨_, _, _, hActs, Or.inr ⟨rfl, ?_, rfl, ?_⟩⟩
  · simp [State.remaining, Pc.leftBarrier, hPc]
  · simp [State.distance, hPc, hPhase]

theorem goesOn_barrierTest_up (hPc : s.pc = .barrierTest) (hPhase : s.barrier.phase = .up) :
    s.GoesOn cfg rank := by
  by_cases hReady : s.barrier.barrierUp = false ∧
      s.barrier.wave.replies = (cfg.tree.children rank).length
  · obtain ⟨out, hActs⟩ : ∃ out, mainLoop cfg rank (.tick .go) s = some ({ s with
        barrier := { s.barrier with
          barrierUp := true
          wave := { s.barrier.wave with up := s.barrier.wave.up + 1 }
          phase := .parent } }, out) :=
      mainLoop_barrierTest_contribute hPc hPhase hReady.1 hReady.2
    refine ⟨_, _, _, hActs, Or.inl ?_⟩
    simp [State.remaining, Pc.leftBarrier, hPc, hPhase, hReady.1]
  · have hSkip : s.barrier.barrierUp = true ∨
        s.barrier.wave.replies ≠ (cfg.tree.children rank).length := by
      simpa [or_iff_not_imp_left] using hReady
    refine ⟨_, _, _, mainLoop_barrierTest_skip hPc hPhase hSkip,
      Or.inr ⟨by rw [hPc]; rfl, ?_, rfl, ?_⟩⟩
    · simp [State.remaining, Pc.leftBarrier, hPc, hPhase]
    · simp [State.distance, hPc, hPhase]

theorem goesOn_barrierTest_parent (hPc : s.pc = .barrierTest) (hPhase : s.barrier.phase = .parent) :
    s.GoesOn cfg rank := by
  by_cases hDecides : s.barrier.barrierUp = true ∧ cfg.tree.parent rank = none
  · refine ⟨_, _, _, mainLoop_barrierTest_decide hPc hPhase hDecides.1 hDecides.2, Or.inl ?_⟩
    simp [State.remaining, State.completes, Pc.leftBarrier, hPc, hPhase]
  · have hWait : s.barrier.barrierUp = false ∨ cfg.tree.parent rank ≠ none := by
      rw [← Bool.not_eq_true]
      exact not_and_or.mp hDecides
    refine ⟨_, _, _, mainLoop_barrierTest_wait hPc hPhase hWait, Or.inr ⟨rfl, ?_, rfl, ?_⟩⟩
    · simp [State.remaining, Pc.leftBarrier, hPc, hPhase]
    · simp [State.distance, hPc, hPhase]

theorem goesOn_barrierTest_down (hPc : s.pc = .barrierTest) (hPhase : s.barrier.phase = .down) :
    s.GoesOn cfg rank := by
  have hStays : s.pc.leftBarrier = false := by rw [hPc]; rfl
  cases hTodo : s.barrier.wave.todo with
  | nil =>
      obtain ⟨s', hActs, hLeft⟩ : ∃ s', mainLoop cfg rank (.tick .go) s = some (s', none) ∧
          s'.pc.leftBarrier = true :=
        mainLoop_barrierTest_close hPc hPhase hTodo
      refine ⟨_, _, _, hActs, Or.inl ?_⟩
      simp [State.remaining, hLeft, hStays, hPhase]
  | cons child rest =>
      obtain ⟨out, hActs⟩ : ∃ out, mainLoop cfg rank (.tick .go) s = some ({ s with
          barrier := { s.barrier with
            wave := { s.barrier.wave with todo := rest } } }, out) :=
        mainLoop_barrierTest_tell hPc hPhase hTodo
      refine ⟨_, _, _, hActs, Or.inl ?_⟩
      simp [State.remaining, Pc.leftBarrier, hPc, hPhase, hTodo]

end GoesOn

/-- A token that a rank passes on while the last one is not received has been
received by now. -/
theorem AtRest.exists_synced {r : Fin n} (hRest : AtRest g r) (hPc : (g r).state.pc = .tokenCheck)
    {token : Color} (hIncoming : (g r).state.token.incoming = some token)
    (hPending : (g r).state.token.sendPending = true) :
    ∃ input s' out, FifoNet.Fires (mainLoop cfg) g r input s' out ∧
      Nearer cfg r (g r).state s' := by
  have hStays : (g r).state.pc.leftBarrier = false := by rw [hPc]; rfl
  have hReceived : FifoNet.Admits g r (.synced (tokenDest r) .token : Input n) :=
    hRest.token (by simp [hIncoming])
  refine ⟨_, _, _, ⟨hReceived, mainLoop_tokenCheck_wait hPc hIncoming hPending⟩,
    nearer_of_barrier_eq rfl hStays hStays ?_⟩
  simp [State.distance, hPc, hIncoming, hPending]

/-- A rank in the cleanup loop goes on by itself. -/
theorem AtRest.exists_turn {r : Fin n} (hRest : AtRest g r)
    (h : Execution cfg FifoNet.always g) (hStays : (g r).state.pc.leftBarrier = false)
    (hAway : (g r).state.pc = .barrierTest → (g r).state.barrier.phase ≠ .children) :
    ∃ input s' out, FifoNet.Fires (mainLoop cfg) g r input s' out ∧
      (s'.remaining cfg r < (g r).state.remaining cfg r ∨ Nearer cfg r (g r).state s') := by
  have hControl := h.control r
  have hFits := hControl.fits
  have hRunning := h.running r
  have hCleanup := hRest.cleanup
  have hFire (hGoesOn : (g r).state.GoesOn cfg r) :
      ∃ input s' out, FifoNet.Fires (mainLoop cfg) g r input s' out ∧
        (s'.remaining cfg r < (g r).state.remaining cfg r ∨ Nearer cfg r (g r).state s') := by
    obtain ⟨choice, s', out, hActs, hEnd⟩ := hGoesOn
    have hAdmits : FifoNet.Admits g r (.tick choice : Input n) := True.intro
    exact ⟨_, s', out, ⟨hAdmits, hActs⟩, hEnd⟩
  unfold State.Fits at hFits
  cases hPc : (g r).state.pc <;> simp only [hPc] at hFits
  case workreceiptCheck | process => simp [hCleanup] at hFits
  case checkForTerm | checkForTermAllReduce => simp [hCleanup] at hFits
  case reduceSync | abortReduce | checkpoint | done =>
    rw [hPc] at hStays
    cases hStays
  case failed => exact (hRunning hPc).elim
  case workreqCheck => exact hFire (goesOn_workreqCheck hPc hCleanup hRest.requestors)
  case reduceCheck =>
    have hShape := h.reduceShape r hRunning
    have hPhase := hShape.start_of_closed hCleanup hRest.closed (by simp [hPc])
    exact hFire (goesOn_reduceCheck hPc hCleanup hPhase hRest.closed)
  case requestWork => exact hFire (goesOn_requestWork hPc hCleanup hRest.receiving)
  case abortCheck => exact hFire (goesOn_abortCheck hPc hCleanup hRest.toSend)
  case tokenCheck =>
    by_cases hFree : (g r).state.token.incoming = none ∨ (g r).state.token.sendPending = false
    · exact hFire (goesOn_tokenCheck hPc hFree)
    · push Not at hFree
      obtain ⟨token, hIncoming⟩ := Option.ne_none_iff_exists'.mp hFree.1
      obtain ⟨input, s', out, hFires, hNearer⟩ :=
        hRest.exists_synced hPc hIncoming (by simpa using hFree.2)
      exact ⟨input, s', out, hFires, Or.inr hNearer⟩
  case tokenTest => exact hFire (goesOn_tokenTest hPc)
  case barrierStart =>
    have hPhase : (g r).state.barrier.phase = .children := by
      by_contra hOther
      have hTest := hControl.phases.barrier hOther
      rw [hPc] at hTest
      cases hTest
    exact hFire (goesOn_barrierStart hPc hPhase)
  case barrierTest =>
    cases hPhase : (g r).state.barrier.phase with
    | children => exact (hAway hPc hPhase).elim
    | up => exact hFire (goesOn_barrierTest_up hPc hPhase)
    | parent => exact hFire (goesOn_barrierTest_parent hPc hPhase)
    | down => exact hFire (goesOn_barrierTest_down hPc hPhase)

/-! ## Going on with the barrier -/

/-- Rank `r` alone takes the system from `g` to `g'`. -/
structure Alone (cfg : Config n) (r : Fin n) (g g' : World n) : Prop where
  leads : FifoNet.Leads (mainLoop cfg) g g'
  others : ∀ q, q ≠ r → g' q = g q

section Alone

variable {r : Fin n}

theorem Alone.refl (cfg : Config n) (r : Fin n) (g : World n) : Alone cfg r g g where
  leads := FifoNet.Leads.refl _ _
  others := fun _ _ => rfl

theorem Alone.trans {g'' : World n} (h : Alone cfg r g g') (h' : Alone cfg r g' g'') :
    Alone cfg r g g'' where
  leads := h.leads.trans h'.leads
  others := fun q hNe => (h'.others q hNe).trans (h.others q hNe)

theorem alone_of_fires {input : Input n} {s' : State n} {out : Option (Packet n)}
    (h : FifoNet.Fires (mainLoop cfg) g r input s' out) :
    Alone cfg r g (FifoNet.set g r ((g r).after input s' out)) where
  leads := h.leads
  others := fun _ hNe => FifoNet.set_of_ne g _ hNe

/-- One turn more, and the state it leads to. -/
theorem Alone.tick (h : Alone cfg r g g') (hState : (g' r).state = s) {choice : Choice n}
    {s' : State n} {out : Option (Packet n)}
    (hActs : mainLoop cfg r (.tick choice) s = some (s', out)) :
    ∃ g'', Alone cfg r g g'' ∧ (g'' r).state = s' := by
  have hAdmits : FifoNet.Admits g' r (.tick choice : Input n) := trivial
  exact ⟨_, h.trans (alone_of_fires ⟨hAdmits, hState ▸ hActs⟩),
    by rw [FifoNet.set_self, FifoNet.Node.after_state]⟩

theorem Alone.recv (h : Alone cfg r g g') (hState : (g' r).state = s) {src : Fin n} {tag : Tag}
    {msg : Msg} (hAdmits : FifoNet.Admits g' r (.recv src tag msg : Input n)) {s' : State n}
    {out : Option (Packet n)} (hActs : mainLoop cfg r (.recv src tag msg) s = some (s', out)) :
    ∃ g'', Alone cfg r g g'' ∧ (g'' r).state = s' :=
  ⟨_, h.trans (alone_of_fires ⟨hAdmits, hState ▸ hActs⟩),
    by rw [FifoNet.set_self, FifoNet.Node.after_state]⟩

/-- Another rank has left the barrier, and still has. -/
theorem Alone.left (h : Alone cfg r g g') (hStays : (g r).state.pc.leftBarrier = false) {q : Fin n}
    (hLeft : (g q).state.pc.leftBarrier = true) : (g' q).state.pc.leftBarrier = true := by
  rw [h.others q]
  · exact hLeft
  · rintro rfl
    rw [hStays] at hLeft
    cases hLeft

/-- A rank comes round to the start of `barrierTest`, unless it goes on with the
barrier before. -/
theorem exists_alone (h : Execution cfg FifoNet.always g) {q : Fin n}
    (hLeft : (g q).state.pc.leftBarrier = true) (hStays : (g r).state.pc.leftBarrier = false) :
    ∃ g', Alone cfg r g g' ∧
      ((g' r).state.remaining cfg r < (g r).state.remaining cfg r ∨
        (g' r).state.pc = .barrierTest ∧ (g' r).state.barrier.phase = .children ∧
          (g' r).state.remaining cfg r = (g r).state.remaining cfg r ∧
          (g' r).state.barrier.barrierUp = (g r).state.barrier.barrierUp) := by
  generalize hDistance : (g r).state.distance = k
  induction k using Nat.strong_induction_on generalizing g with
  | _ k ih =>
      by_cases hThere : (g r).state.pc = .barrierTest ∧ (g r).state.barrier.phase = .children
      · exact ⟨g, Alone.refl cfg r g, Or.inr ⟨hThere.1, hThere.2, rfl, rfl⟩⟩
      · obtain ⟨input, s', out, hFires, hTurn⟩ :=
          (h.atRest hLeft r).exists_turn h hStays fun hPc hPhase => hThere ⟨hPc, hPhase⟩
        have hAlone := alone_of_fires hFires
        have hReach := h.fires hFires
        have hState : (FifoNet.set g r ((g r).after input s' out) r).state = s' := by
          rw [FifoNet.set_self, FifoNet.Node.after_state]
        generalize FifoNet.set g r ((g r).after input s' out) = next at *
        subst hState
        rcases hTurn with hLess | hNearer
        · exact ⟨next, hAlone, Or.inl hLess⟩
        · obtain ⟨g', hAlone', hEnd⟩ := ih _ (hDistance ▸ hNearer.distance) hReach
            (hAlone.left hStays hLeft) hNearer.stays rfl
          rw [hNearer.remaining, hNearer.barrierUp] at hEnd
          exact ⟨g', hAlone.trans hAlone', hEnd⟩

/-- At `barrierTest`, a rank whose children have all contributed goes on. -/
theorem exists_alone_up (h : Execution cfg FifoNet.always g)
    (hEntered : (g r).state.barrier.Entered) (hStays : (g r).state.pc.leftBarrier = false)
    (hUp : (g r).state.barrier.barrierUp = false)
    (hChildren : ∀ c ∈ cfg.tree.children r, 1 ≤ (g c).state.barrier.wave.up)
    (hPc : (g r).state.pc = .barrierTest) (hPhase : (g r).state.barrier.phase = .children) :
    ∃ g', Alone cfg r g g' ∧ (g' r).state.remaining cfg r < (g r).state.remaining cfg r := by
  have hStarted := h.started_of_entered hEntered hStays
  have hWave := (h.barrierInv r).wave
  by_cases hFull : (g r).state.barrier.wave.replies = (cfg.tree.children r).length
  · obtain ⟨next, hLook, hNext⟩ :=
      (Alone.refl cfg r g).tick rfl (mainLoop_barrierTest_look hPc hPhase hStarted)
    obtain ⟨out, hActs⟩ := mainLoop_barrierTest_contribute (s := { (g r).state with
      barrier := { (g r).state.barrier with phase := .up } }) hPc rfl hUp hFull
    obtain ⟨g', hAlone, hState⟩ := hLook.tick hNext hActs
    refine ⟨g', hAlone, ?_⟩
    rw [hState]
    simp [State.remaining, Pc.leftBarrier, hPc, hPhase, hUp]
  · -- the reply of some child is under way
    have hOpen := Nat.lt_of_le_of_ne hWave.replies_le hFull
    obtain ⟨c, hMem, hMissing⟩ := hWave.exists_missing hOpen
    have hSent := (h.barrierInv c).wave.sent_parent r (cfg.tree.parent_of_mem hMem)
    have hLess : ((g r).rcvd c .barrier).length < ((g c).sent r .barrier).length := by
      have hRcvd : ((g r).rcvd c .barrier).length = 0 := by
        rw [h.closed_eq r, hStays] at hMissing
        exact hMissing
      have hUpChild := hChildren c hMem
      have hSent : ((g c).sent r .barrier).length = (g c).state.barrier.wave.up := hSent
      omega
    obtain ⟨msg, hAdmits⟩ := FifoNet.exists_admits hLess
    obtain ⟨g', hAlone, hState⟩ := (Alone.refl cfg r g).recv rfl hAdmits
      (mainLoop_barrierTest_collect hPc hPhase hStarted hOpen c msg)
    refine ⟨g', hAlone, ?_⟩
    rw [hState]
    simp [State.remaining, Pc.leftBarrier, hPc, hPhase]
    omega

/-- At `barrierTest`, a rank that has contributed goes on when its parent has
left. -/
theorem exists_alone_down (h : Execution cfg FifoNet.always g)
    (hStays : (g r).state.pc.leftBarrier = false) (hUp : (g r).state.barrier.barrierUp = true)
    (hParent : ∀ p, cfg.tree.parent r = some p → (g p).state.pc.leftBarrier = true)
    (hPc : (g r).state.pc = .barrierTest) (hPhase : (g r).state.barrier.phase = .children) :
    ∃ g', Alone cfg r g g' ∧ (g' r).state.remaining cfg r < (g r).state.remaining cfg r := by
  have hStarted := (h.barrierInv r).started (Or.inl hUp)
  obtain ⟨look, hLook, hUpState⟩ :=
    (Alone.refl cfg r g).tick rfl (mainLoop_barrierTest_look hPc hPhase hStarted)
  obtain ⟨next, hSkip, hNext⟩ := hLook.tick hUpState
    (mainLoop_barrierTest_skip (s := { (g r).state with
      barrier := { (g r).state.barrier with phase := .up } }) hPc rfl (Or.inl hUp))
  have hDecrease : ((g r).state.completes cfg r).remaining cfg r <
      (g r).state.remaining cfg r := by
    simp [State.remaining, State.completes, Pc.leftBarrier, hPc, hPhase]
  cases hRoot : cfg.tree.parent r with
  | none =>
      obtain ⟨g', hAlone, hState⟩ := hSkip.tick hNext
        (mainLoop_barrierTest_decide (s := { (g r).state with
          barrier := { (g r).state.barrier with phase := .parent } }) hPc rfl hUp hRoot)
      exact ⟨g', hAlone, hState ▸ hDecrease⟩
  | some p =>
      -- the parent has told its children before it left
      have hReach : Execution cfg FifoNet.always next := FifoNet.Reachable.leads h hSkip.leads
      have hLeft : (next p).state.pc.leftBarrier = true := hSkip.left hStays (hParent p hRoot)
      have hInv := hReach.barrierInv r
      have hDone := hInv.done_eq
      have hSent := ((hReach.barrierInv p).wave.closed_le_sent
        (Or.inr (cfg.tree.mem_children hRoot))).1
      have hRcvd := hInv.wave.rcvd_parent p hRoot
      rw [hRcvd.symm, hReach.closed_eq r, hNext] at hDone
      rw [hReach.closed_eq p, if_pos hLeft] at hSent
      have hLess : ((next r).rcvd p .barrier).length < ((next p).sent r .barrier).length := by
        simp only [hStays] at hDone
        exact Nat.lt_of_le_of_lt (Nat.le_of_eq hDone) hSent
      obtain ⟨msg, hAdmits⟩ := FifoNet.exists_admits hLess
      obtain ⟨g', hAlone, hState⟩ := hSkip.recv hNext hAdmits
        (mainLoop_barrierTest_learn (s := { (g r).state with
          barrier := { (g r).state.barrier with phase := .parent } }) hPc rfl hUp hRoot msg)
      exact ⟨g', hAlone, hState ▸ hDecrease⟩

end Alone

/-! ## All ranks leave -/

/-- One of the ranks that have not left can go on with the barrier. -/
theorem exists_progress (h : Execution cfg FifoNet.always g) {q : Fin n}
    (hLeft : (g q).state.pc.leftBarrier = true)
    (hStays : ∃ r, (g r).state.pc.leftBarrier = false) :
    ∃ r g', Alone cfg r g g' ∧ (g' r).state.remaining cfg r < (g r).state.remaining cfg r := by
  by_cases hOpen : ∃ r, (g r).state.pc.leftBarrier = false ∧
      (g r).state.barrier.barrierUp = false
  · -- the lowest rank that has not contributed has the contributions of its children
    obtain ⟨i, hi⟩ := hOpen
    obtain ⟨r, ⟨hr, hUp⟩, hLowest⟩ := cfg.tree.exists_lowest (P := fun r =>
      (g r).state.pc.leftBarrier = false ∧ (g r).state.barrier.barrierUp = false) hi
    have hChildren (c : Fin n) (hMem : c ∈ cfg.tree.children r) :
        1 ≤ (g c).state.barrier.wave.up := by
      have hUpEq := (h.barrierInv c).up_eq
      have hClosed := h.closed_eq c
      cases hLeftChild : (g c).state.pc.leftBarrier with
      | true =>
          rw [hLeftChild] at hClosed
          simp only [if_true] at hClosed
          omega
      | false =>
          cases hUpChild : (g c).state.barrier.barrierUp with
          | true =>
              rw [hUpChild] at hUpEq
              simp only [if_true] at hUpEq
              omega
          | false => exact (hLowest c hMem ⟨hLeftChild, hUpChild⟩).elim
    obtain ⟨next, hAlone, hLess | ⟨hPc, hPhase, hSame, hUpSame⟩⟩ := exists_alone h hLeft hr
    · exact ⟨r, next, hAlone, hLess⟩
    · have hReach : Execution cfg FifoNet.always next := FifoNet.Reachable.leads h hAlone.leads
      obtain ⟨g', hAlone', hLess⟩ := exists_alone_up hReach
        (hReach.all_started (hAlone.left hr hLeft) r) (by rw [hPc]; rfl) (hUpSame.trans hUp)
        (fun c hMem => by
          rw [hAlone.others c (cfg.tree.ne_of_parent (cfg.tree.parent_of_mem hMem)).symm]
          exact hChildren c hMem)
        hPc hPhase
      exact ⟨r, g', hAlone.trans hAlone', hSame ▸ hLess⟩
  · -- all others have contributed, and the topmost has the word of its parent
    obtain ⟨i, hi⟩ := hStays
    obtain ⟨r, hr, hTopmost⟩ :=
      cfg.tree.exists_topmost (P := fun r => (g r).state.pc.leftBarrier = false) hi
    have hUp : (g r).state.barrier.barrierUp = true := by
      rw [← Bool.not_eq_false]
      exact fun hDown => hOpen ⟨r, hr, hDown⟩
    obtain ⟨next, hAlone, hLess | ⟨hPc, hPhase, hSame, hUpSame⟩⟩ := exists_alone h hLeft hr
    · exact ⟨r, next, hAlone, hLess⟩
    · have hReach : Execution cfg FifoNet.always next := FifoNet.Reachable.leads h hAlone.leads
      obtain ⟨g', hAlone', hLess⟩ := exists_alone_down hReach (by rw [hPc]; rfl)
        (hUpSame.trans hUp)
        (fun p hParent => hAlone.left hr (by
          rw [← Bool.not_eq_false]
          exact hTopmost p hParent))
        hPc hPhase
      exact ⟨r, g', hAlone.trans hAlone', hSame ▸ hLess⟩

/-- One rank has left, so all can. -/
theorem Execution.all_leave (h : Execution cfg FifoNet.always g) {q : Fin n}
    (hLeft : (g q).state.pc.leftBarrier = true) :
    ∃ g', FifoNet.Leads (mainLoop cfg) g g' ∧ ∀ r, (g' r).state.pc.leftBarrier = true := by
  have hStep (g : World n)
      (hg : Execution cfg FifoNet.always g ∧ ∃ q, (g q).state.pc.leftBarrier = true)
      (hNot : ¬ ∀ r, (g r).state.pc.leftBarrier = true) :
      ∃ g', FifoNet.Leads (mainLoop cfg) g g' ∧
        (Execution cfg FifoNet.always g' ∧ ∃ q, (g' q).state.pc.leftBarrier = true) ∧
        ∑ r, (g' r).state.remaining cfg r < ∑ r, (g r).state.remaining cfg r := by
    obtain ⟨hReach, q, hLeft⟩ := hg
    push Not at hNot
    simp only [Bool.not_eq_true] at hNot
    obtain ⟨r, g', hAlone, hLess⟩ := exists_progress hReach hLeft hNot
    refine ⟨g', hAlone.leads, ⟨FifoNet.Reachable.leads hReach hAlone.leads, q, ?_⟩, ?_⟩
    · by_cases hSelf : q = r
      · subst hSelf
        simp [State.remaining, hLeft] at hLess
      · rw [hAlone.others q hSelf]
        exact hLeft
    · exact FifoNet.sum_lt_of_others (f := fun r node => node.state.remaining cfg r)
        hAlone.others hLess
  obtain ⟨g', hLeads, -, hEnd⟩ := FifoNet.exists_leads
    (fun g : World n => ∑ r, (g r).state.remaining cfg r) hStep ⟨h, q, hLeft⟩
  exact ⟨g', hLeads, hEnd⟩

end Circle
