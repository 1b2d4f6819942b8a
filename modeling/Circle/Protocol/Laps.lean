import Circle.Protocol.Drifting

/-!
# Laps

The turns of a rank at a standstill, function by function.  None of them can
keep the rank: it goes on with the next function of its loop, and so comes to
every function of the loop again.
-/

namespace Circle

open FifoNet (Log inFlight)

variable {n : Nat} {cfg : Config n} {rank : Fin n} {input : Input n} {s s' : State n}
  {out : Option (Packet n)} {g g' g'' : World n} {r : Fin n}

/-! ## The loops -/

/-- The function that comes next, in tree mode with `ABORT_FLAG` up. -/
def Pc.onward (cleanup enabled empty : Bool) : Pc → Pc
  | .workreqCheck =>
      if cleanup then (if enabled then .reduceCheck else .requestWork) else .workreceiptCheck
  | .workreceiptCheck => .abortCheck
  | .abortCheck =>
      if cleanup then .barrierStart
      else if enabled then .reduceCheck
      else if empty then .requestWork else .process
  | .reduceCheck => if cleanup || empty then .requestWork else .process
  | .requestWork => if cleanup then .abortCheck else .process
  | .process => .checkForTermAllReduce
  | .checkForTermAllReduce => .workreqCheck
  | .barrierStart => .barrierTest
  | .barrierTest => .workreqCheck
  | pc => pc

/-- The functions of the loop. -/
def Pc.inLoop (cleanup enabled empty : Bool) : Pc → Bool
  | .workreqCheck | .abortCheck => true
  | .workreceiptCheck | .process | .checkForTermAllReduce => !cleanup
  | .reduceCheck => enabled
  | .requestWork => cleanup || empty
  | .barrierStart | .barrierTest => cleanup
  | _ => false

theorem Pc.onward_ne (cleanup enabled empty : Bool) {pc : Pc}
    (h : pc.inLoop cleanup enabled empty = true) : pc.onward cleanup enabled empty ≠ pc := by
  revert h
  cases cleanup <;> cases enabled <;> cases empty <;> cases pc <;> decide

/-- From every function of the loop the rank comes to its top, -/
theorem Pc.onward_top (cleanup enabled empty : Bool) {pc : Pc}
    (h : pc.inLoop cleanup enabled empty = true) :
    ∃ k < 8, (Pc.onward cleanup enabled empty)^[k] pc = .workreqCheck := by
  revert h
  cases cleanup <;> cases enabled <;> cases empty <;> cases pc <;> decide

/-- and from there to every function of the loop. -/
theorem Pc.onward_all (cleanup enabled empty : Bool) {pc : Pc}
    (h : pc.inLoop cleanup enabled empty = true) :
    ∃ k < 8, (Pc.onward cleanup enabled empty)^[k + 1] .workreqCheck = pc := by
  revert h
  cases cleanup <;> cases enabled <;> cases empty <;> cases pc <;> decide

/-- Where a rank goes from a function. -/
def State.onward (cfg : Config n) (s : State n) : Pc → Pc :=
  Pc.onward s.cleanup cfg.reduceEnabled (decide (s.work.queue.count = 0))

/-- Whether a function belongs to the loop of a rank. -/
def State.inLoop (cfg : Config n) (s : State n) (pc : Pc) : Bool :=
  pc.inLoop s.cleanup cfg.reduceEnabled (decide (s.work.queue.count = 0))

/-- A rank at a standstill is in its loop. -/
theorem Caught.inLoop (h : Caught cfg g) (r : Fin n) :
    (g r).state.inLoop cfg (g r).state.pc = true := by
  have hFits := (h.reach.control r).fits
  have hRunning := h.reach.running r
  have hLeft := h.left_eq r
  have hTree := h.tree
  unfold State.Fits at hFits
  unfold State.inLoop
  cases hPc : (g r).state.pc <;> simp_all [Pc.inLoop, Pc.leftBarrier]
  case requestWork =>
    cases hCleanup : (g r).state.cleanup with
    | true => exact Or.inl rfl
    | false => exact Or.inr (hFits hCleanup)

/-! ## Turns of the loop -/

/-- How far a rank is from the end of the function that it is in. -/
def State.inner (cfg : Config n) (rank : Fin n) (s : State n) : Nat :=
  match s.pc with
  | .abortCheck =>
      match s.abort.phase with
      | .start => 2
      | .probe => 1
      | .test => 0
  | .reduceCheck =>
      match s.reduce.phase with
      | .start => (cfg.tree.children rank).length + 1
      | .init => 1
      | .children rest => rest.length
      | _ => 0
  | .checkForTermAllReduce =>
      match s.term.phase with
      | .children => 2
      | .parent _ => 1
      | .down _ => 0
  | .barrierTest =>
      match s.barrier.phase with
      | .children => 3
      | .up => 2
      | .parent => 1
      | .down => 0
  | _ => 0

/-- A rank comes closer to the end of its function, or goes on with the next one. -/
def GoesOn (cfg : Config n) (rank : Fin n) (s s' : State n) : Prop :=
  s'.pc = s.pc ∧ s'.inner cfg rank < s.inner cfg rank ∨
    s'.pc = s.onward cfg s.pc ∧ Fresh s'

/-- What is needed of a turn: it sends nothing. -/
theorem Standstill.goesOn (h : Standstill cfg g) {choice : Choice n}
    (hActs : mainLoop cfg r (.tick choice) (g r).state = some (s', none))
    (hCalm : calm (.tick choice : Input n) = true)
    (hOn : s'.pc = (g r).state.pc ∧ s'.inner cfg r < (g r).state.inner cfg r ∨
      s'.pc = (g r).state.onward cfg (g r).state.pc) :
    ∃ g', Drifts cfg r g g' ∧ GoesOn cfg r (g r).state (g' r).state := by
  obtain ⟨g', hDrift, rfl⟩ := h.tick hActs hCalm
  refine ⟨g', hDrift, hOn.imp_right fun hNext => ⟨hNext, ?_⟩⟩
  refine fresh_of_step (h.reach.control r).phases (mainStep_of_mainLoop hActs) ?_
    ⟨h.left_eq r, hDrift.still.left_eq r⟩ ⟨h.reach.running r, hDrift.still.reach.running r⟩
  rw [hNext]
  exact Pc.onward_ne _ _ _ (h.inLoop r)

/-- At a standstill nobody waits for a reply at the top of the loop. -/
theorem Standstill.requestors_eq (h : Standstill cfg g) (hPc : (g r).state.pc = .workreqCheck) :
    (g r).state.work.requestors = [] := by
  by_contra hSome
  have hFlag := h.flag r
  cases hReplying : (g r).state.work.replying with
  | true => exact hSome (h.requestors_of_replying hReplying)
  | false =>
      -- the rank begins to reply
      have hActs : mainLoop cfg r (.tick .go) (g r).state = some ({ (g r).state with
          work := { (g r).state.work with
            replying := true
            shares := List.replicate (g r).state.work.requestors.length 0 } }, none) := by
        simp [mainLoop, hPc, Work.workreqCheck, hReplying, hSome, hFlag, Turn.stays]
      obtain ⟨g', hDrift, hState⟩ := h.tick hActs rfl
      have hNone := hDrift.still.requestors_of_replying (r := r) (by rw [hState])
      rw [hState] at hNone
      exact hSome hNone

theorem Standstill.turn_workreqCheck (h : Standstill cfg g) (hPc : (g r).state.pc = .workreqCheck) :
    ∃ g', Drifts cfg r g g' ∧ GoesOn cfg r (g r).state (g' r).state := by
  obtain ⟨work, hActs⟩ : ∃ work, mainLoop cfg r (.tick .go) (g r).state =
      some ({ (g r).state with work := work, pc := (g r).state.afterWorkreq cfg }, none) :=
    mainLoop_workreqCheck hPc (h.requestors_eq hPc)
  refine h.goesOn hActs rfl (Or.inr ?_)
  simp only [State.afterWorkreq, State.onward, hPc, Pc.onward]

theorem Standstill.turn_workreceiptCheck (h : Standstill cfg g)
    (hPc : (g r).state.pc = .workreceiptCheck) :
    ∃ g', Drifts cfg r g g' ∧ GoesOn cfg r (g r).state (g' r).state := by
  have hActs : mainLoop cfg r (.tick .go) (g r).state =
      some ({ (g r).state with pc := .abortCheck }, none) := by
    simp [mainLoop, hPc, Work.workreceiptCheck, Turn.returns]
  refine h.goesOn hActs rfl (Or.inr ?_)
  simp only [State.onward, hPc, Pc.onward]

/-- At a standstill no rank is about to send abort requests. -/
theorem Standstill.toSend_eq (h : Standstill cfg g) (r : Fin n) : (g r).state.abort.toSend = [] := by
  cases hToSend : (g r).state.abort.toSend with
  | nil => rfl
  | cons neighbour rest =>
      have hPc := (h.reach.control r).phases.abort (Or.inr (by simp [hToSend]))
      apply absurd _ (h.silent r)
      simp [mainLoop, hPc, Abort.abortCheck, hToSend, Turn.sends]

theorem Standstill.turn_abortCheck (h : Standstill cfg g) (hPc : (g r).state.pc = .abortCheck) :
    ∃ g', Drifts cfg r g g' ∧ GoesOn cfg r (g r).state (g' r).state := by
  have hNone := h.toSend_eq r
  cases hPhase : (g r).state.abort.phase with
  | start =>
      obtain ⟨abort, hProbe, hActs⟩ : ∃ abort : Abort n, abort.phase = .probe ∧
          mainLoop cfg r (.tick .go) (g r).state =
            some ({ (g r).state with abort := abort }, none) :=
        mainLoop_abortCheck_start hPc hNone hPhase
      refine h.goesOn hActs rfl (Or.inl ⟨rfl, ?_⟩)
      simp [State.inner, hPc, hPhase, hProbe]
  | probe =>
      refine h.goesOn (mainLoop_abortCheck_probe hPc hNone hPhase) rfl (Or.inl ⟨rfl, ?_⟩)
      simp [State.inner, hPc, hPhase]
  | test =>
      refine h.goesOn (mainLoop_abortCheck_test hPc hNone hPhase) rfl (Or.inr ?_)
      simp [State.afterAbort, State.afterReduce, State.onward, hPc, Pc.onward, h.tree]

/-- At a standstill no rank is about to start its children. -/
theorem Standstill.not_kick (h : Standstill cfg g) (r : Fin n) {child : Fin n}
    {rest : List (Fin n)} : (g r).state.reduce.phase ≠ .kick (child :: rest) := by
  intro hPhase
  have hPc := h.reducing (r := r) (by simp [hPhase])
  apply h.silent r
  simp [mainLoop, hPc, Reduce.reduceCheck, hPhase, Turn.sends]

theorem mainLoop_of_reduceTurn (hPc : s.pc = .reduceCheck) {turn : Turn n (Reduce n) Outcome}
    (hTurn : s.reduce.reduceCheck cfg rank s.localObjectsProcessed s.cleanup (.tick .go) =
      some turn) : ∃ s', mainLoop cfg rank (.tick .go) s = some (s', turn.out) := by
  simp only [mainLoop, hPc, hTurn, Option.map_some]
  split <;> exact ⟨_, rfl⟩

theorem Reduce.reduceCheck_finish {x : Reduce n} {sample : Int} {cleanup : Bool}
    (hPhase : x.phase = .children [])
    (hFull : x.reduceReplies = (cfg.tree.children rank).length) :
    x.reduceCheck cfg rank sample cleanup (.tick .go) = some (x.finish cfg rank sample) := by
  simp [Reduce.reduceCheck, hPhase, hFull]

/-- A rank with a parent sends it its report. -/
theorem Reduce.out_finish {x : Reduce n} {sample : Int} {p : Fin n}
    (hParent : cfg.tree.parent rank = some p) : (x.finish cfg rank sample).out.isSome := by
  unfold Reduce.finish
  simp only [hParent]
  split <;> rfl

/-- At a standstill no rank but the root has the replies of all its children. -/
theorem Standstill.root_of_finish (h : Standstill cfg g) (hPc : (g r).state.pc = .reduceCheck)
    (hPhase : (g r).state.reduce.phase = .children [])
    (hFull : (g r).state.reduce.reduceReplies = (cfg.tree.children r).length) :
    ∃ reduce : Reduce n, reduce.reduceOutstanding = false ∧
      mainLoop cfg r (.tick .go) (g r).state = some ({ (g r).state with
        reduce := reduce
        pc := if (g r).state.cleanup then .requestWork else (g r).state.afterReduce }, none) := by
  cases hParent : cfg.tree.parent r with
  | some p =>
      obtain ⟨s', hActs⟩ := mainLoop_of_reduceTurn hPc (Reduce.reduceCheck_finish hPhase hFull)
      obtain ⟨packet, hOut⟩ := Option.isSome_iff_exists.mp (Reduce.out_finish hParent)
      rw [hOut] at hActs
      exact (h.no_send hActs rfl).elim
  | none =>
      cases hValid : (g r).state.reduce.valid <;>
        exact ⟨_, by simp [mainLoop, hPc, Reduce.reduceCheck, hPhase, hFull, Reduce.finish, hParent,
          hValid, Turn.returns, State.afterReduce]; exact ⟨rfl, rfl⟩⟩

theorem Standstill.turn_reduceCheck (h : Standstill cfg g) (hPc : (g r).state.pc = .reduceCheck) :
    ∃ g', Drifts cfg r g g' ∧ GoesOn cfg r (g r).state (g' r).state := by
  have hShape := h.reach.reduceShape r (h.reach.running r)
  have hLoop : (if (g r).state.cleanup then Pc.requestWork else (g r).state.afterReduce) =
      (g r).state.onward cfg (g r).state.pc := by
    simp only [State.afterReduce, State.onward, hPc, Pc.onward]
    cases (g r).state.cleanup <;> simp
  have hNotSync : (g r).state.reduce.phase.isSync ≠ true := by
    intro hSync
    have hPlace := hShape.syncPlace hSync
    rw [hPc] at hPlace
    cases hPlace
  cases hPhase : (g r).state.reduce.phase with
  | start =>
      cases hOutstanding : (g r).state.reduce.reduceOutstanding with
      | false =>
          exact h.goesOn (mainLoop_reduceCheck hPc hPhase hOutstanding) rfl (Or.inr hLoop)
      | true =>
          -- a round is open: the rank looks for the reports of its children
          have hActs : mainLoop cfg r (.tick .go) (g r).state = some ({ (g r).state with
              reduce := { (g r).state.reduce with
                phase := .children (cfg.tree.children r) } }, none) := by
            simp [mainLoop, hPc, Reduce.reduceCheck, hPhase, hOutstanding, Turn.stays]
          refine h.goesOn hActs rfl (Or.inl ⟨rfl, ?_⟩)
          simp [State.inner, hPc, hPhase]
  | init =>
      -- any buffer of the callback will do
      have hActs : ∃ reduce : Reduce n, reduce.phase = .kick (cfg.tree.children r) ∧
          mainLoop cfg r (.tick (.init (byteBuf 0))) (g r).state =
            some ({ (g r).state with reduce := reduce }, none) := by
        exact ⟨_, rfl, by simp [mainLoop, hPc, Reduce.reduceCheck, hPhase, Turn.stays]; rfl⟩
      obtain ⟨reduce, hKick, hActs⟩ := hActs
      refine h.goesOn hActs rfl (Or.inl ⟨rfl, ?_⟩)
      simp [State.inner, hPc, hPhase, hKick]
  | kick rest =>
      cases rest with
      | cons child rest => exact (h.not_kick r hPhase).elim
      | nil =>
          have hActs : mainLoop cfg r (.tick .go) (g r).state = some ({ (g r).state with
              reduce := { (g r).state.reduce with phase := .start }
              pc := if (g r).state.cleanup then .requestWork else (g r).state.afterReduce },
              none) := by
            simp [mainLoop, hPc, Reduce.reduceCheck, hPhase, Turn.returns, State.afterReduce]
          exact h.goesOn hActs rfl (Or.inr hLoop)
  | children rest =>
      cases rest with
      | cons child rest =>
          have hActs : mainLoop cfg r (.tick .go) (g r).state = some ({ (g r).state with
              reduce := { (g r).state.reduce with phase := .children rest } }, none) := by
            simp [mainLoop, hPc, Reduce.reduceCheck, hPhase, Turn.stays]
          refine h.goesOn hActs rfl (Or.inl ⟨rfl, ?_⟩)
          simp [State.inner, hPc, hPhase]
      | nil =>
          -- with all reports only the root goes on without a message
          by_cases hFull : (g r).state.reduce.reduceReplies = (cfg.tree.children r).length
          · obtain ⟨reduce, -, hActs⟩ := h.root_of_finish hPc hPhase hFull
            exact h.goesOn hActs rfl (Or.inr hLoop)
          · have hActs : mainLoop cfg r (.tick .go) (g r).state = some ({ (g r).state with
                reduce := { (g r).state.reduce with phase := .start }
                pc := if (g r).state.cleanup then .requestWork else (g r).state.afterReduce },
                none) := by
              simp [mainLoop, hPc, Reduce.reduceCheck, hPhase, hFull, Turn.returns,
                State.afterReduce]
            exact h.goesOn hActs rfl (Or.inr hLoop)
  | data child bytes rest => exact (h.not_data r hPhase).elim
  | sendData => exact (h.not_sendData r hPhase).elim
  | syncChildren | syncData | syncSendData =>
      rw [hPhase] at hNotSync
      exact (hNotSync rfl).elim

theorem Standstill.turn_requestWork (h : Standstill cfg g) (hPc : (g r).state.pc = .requestWork) :
    ∃ g', Drifts cfg r g g' ∧ GoesOn cfg r (g r).state (g' r).state := by
  have hPassive : (g r).state.work.workRequested = true ∨ (g r).state.cleanup = true ∨
      (g r).state.abort.abortFlag = true := Or.inr (Or.inr (h.flag r))
  refine h.goesOn (mainLoop_requestWork hPc (h.receiving_eq r) hPassive) rfl (Or.inr ?_)
  simp only [State.onward, hPc, Pc.onward]

theorem Standstill.turn_process (h : Standstill cfg g) (hPc : (g r).state.pc = .process) :
    ∃ g', Drifts cfg r g g' ∧ GoesOn cfg r (g r).state (g' r).state := by
  have hFlag := h.flag r
  have hActs : mainLoop cfg r (.tick .go) (g r).state =
      some ({ (g r).state with pc := .checkForTermAllReduce }, none) := by
    simp [mainLoop, hPc, hFlag, h.tree]
  refine h.goesOn hActs rfl (Or.inr ?_)
  simp only [State.onward, hPc, Pc.onward]

/-- Where it finds no message, `checkForTermAllReduce` goes on. -/
theorem Term.isSome_checkForTermAllReduce (t : Term n) (workOutstanding : Nat) :
    (t.checkForTermAllReduce cfg rank workOutstanding (.tick .go)).isSome := by
  unfold Term.checkForTermAllReduce
  cases t.phase with
  | children =>
      dsimp only
      cases cfg.tree.parent rank <;> repeat' split
      all_goals rfl
  | parent termFlag => cases t.termUp <;> cases cfg.tree.parent rank <;> rfl
  | down termFlag => cases t.wave.todo <;> rfl

/-- Where it finds no message, `barrierTest` goes on. -/
theorem Barrier.isSome_barrierTest (b : Barrier n) :
    (b.barrierTest cfg rank (.tick .go)).isSome := by
  unfold Barrier.barrierTest
  cases b.phase with
  | children => cases b.barrierStarted <;> rfl
  | up =>
      dsimp only
      cases cfg.tree.parent rank <;> split <;> rfl
  | parent => cases b.barrierUp <;> cases cfg.tree.parent rank <;> rfl
  | down => cases b.wave.todo <;> rfl

/-- The loop goes on where `checkForTermAllReduce` did not return. -/
theorem mainLoop_of_termTurn (hPc : s.pc = .checkForTermAllReduce) {turn : Turn n (Term n) Bool}
    (hTurn : s.term.checkForTermAllReduce cfg rank s.work.workOutstanding (.tick .go) = some turn) :
    ∃ next, mainLoop cfg rank (.tick .go) s = some (next, turn.out) ∧
      (turn.result = none → next = { s with term := turn.record }) ∧
      (turn.result = some true → next = ({ s with term := turn.record } : State n).leaveLoop) ∧
      (turn.result = some false → next = { s with term := turn.record, pc := .workreqCheck }) := by
  rcases hResult : turn.result with _ | _ | _
  · refine ⟨{ s with term := turn.record }, ?_, fun _ => rfl, by simp, by simp⟩
    simp only [mainLoop, hPc, hTurn, hResult, Option.map_some]
  · refine ⟨{ s with term := turn.record, pc := .workreqCheck }, ?_, by simp, by simp, fun _ => rfl⟩
    simp only [mainLoop, hPc, hTurn, hResult, Option.map_some]
  · refine ⟨({ s with term := turn.record } : State n).leaveLoop, ?_, by simp, fun _ => rfl, by simp⟩
    simp only [mainLoop, hPc, hTurn, hResult, Option.map_some]

/-- The loop goes on where `barrierTest` did not find the barrier complete. -/
theorem mainLoop_of_barrierTurn (hPc : s.pc = .barrierTest) {turn : Turn n (Barrier n) Bool}
    (hTurn : s.barrier.barrierTest cfg rank (.tick .go) = some turn)
    (hOpen : turn.result ≠ some true) :
    ∃ next, mainLoop cfg rank (.tick .go) s = some (next, turn.out) ∧
      (turn.result = none → next = { s with barrier := turn.record }) ∧
      (turn.result = some false →
        next = { s with barrier := turn.record, pc := .workreqCheck }) := by
  rcases hResult : turn.result with _ | _ | _
  · refine ⟨{ s with barrier := turn.record }, ?_, fun _ => rfl, by simp⟩
    simp only [mainLoop, hPc, hTurn, hResult, Option.map_some]
  · refine ⟨{ s with barrier := turn.record, pc := .workreqCheck }, ?_, by simp, fun _ => rfl⟩
    simp only [mainLoop, hPc, hTurn, hResult, Option.map_some]
  · exact (hOpen hResult).elim

/-- At a standstill a rank outside cleanup does not come to cleanup. -/
theorem Standstill.no_leave (h : Standstill cfg g) (hOutside : (g r).state.cleanup = false)
    (hActs : mainLoop cfg r (.tick .go) (g r).state = some (s', none)) : s'.cleanup = false := by
  obtain ⟨g', hDrift, rfl⟩ := h.tick hActs rfl
  rw [hDrift.cleanup_eq]
  exact hOutside

theorem Standstill.turn_checkForTermAllReduce (h : Standstill cfg g)
    (hPc : (g r).state.pc = .checkForTermAllReduce) :
    ∃ g', Drifts cfg r g g' ∧ GoesOn cfg r (g r).state (g' r).state := by
  have hReturn : Pc.workreqCheck = (g r).state.onward cfg (g r).state.pc := by
    simp only [State.onward, hPc, Pc.onward]
  have hOutside : (g r).state.cleanup = false := by
    have hFits := (h.reach.control r).fits
    rw [State.Fits, hPc] at hFits
    exact hFits.1
  obtain ⟨turn, hTurn⟩ : ∃ turn,
      (g r).state.term.checkForTermAllReduce cfg r (g r).state.work.workOutstanding (.tick .go) =
        some turn := Option.isSome_iff_exists.mp (Term.isSome_checkForTermAllReduce _ _)
  obtain ⟨next, hActs, hGoes, hLeaves, hReturns⟩ := mainLoop_of_termTurn hPc hTurn
  have hTurn := termTurn_of_eq hTurn
  cases hTurn
  case contribute | tell => exact (h.no_send hActs rfl).elim
  case busy | wait =>
    exact h.goesOn hActs rfl (Or.inr ((congrArg State.pc (hReturns rfl)).trans hReturn))
  case gather hPhase _ _ _ _ | look hPhase _ _ | decide hPhase _ _ =>
    obtain rfl := hGoes rfl
    refine h.goesOn hActs rfl (Or.inl ⟨rfl, ?_⟩)
    simp [State.inner, hPc, hPhase, Turn.stays]
  case close termFlag hPhase hTodo =>
    cases termFlag with
    | false => exact h.goesOn hActs rfl (Or.inr ((congrArg State.pc (hReturns rfl)).trans hReturn))
    | true =>
        obtain rfl := hLeaves rfl
        cases h.no_leave hOutside hActs

theorem Standstill.turn_barrierStart (h : Standstill cfg g) (hPc : (g r).state.pc = .barrierStart) :
    ∃ g', Drifts cfg r g g' ∧ GoesOn cfg r (g r).state (g' r).state := by
  obtain ⟨started, hActs⟩ : ∃ started, mainLoop cfg r (.tick .go) (g r).state =
      some ({ (g r).state with
        barrier := { (g r).state.barrier with barrierStarted := started }, pc := .barrierTest },
        none) := mainLoop_barrierStart hPc
  refine h.goesOn hActs rfl (Or.inr ?_)
  simp only [State.onward, hPc, Pc.onward]

theorem Standstill.turn_barrierTest (h : Standstill cfg g) (hPc : (g r).state.pc = .barrierTest) :
    ∃ g', Drifts cfg r g g' ∧ GoesOn cfg r (g r).state (g' r).state := by
  have hReturn : Pc.workreqCheck = (g r).state.onward cfg (g r).state.pc := by
    simp only [State.onward, hPc, Pc.onward]
  obtain ⟨turn, hTurn⟩ : ∃ turn, (g r).state.barrier.barrierTest cfg r (.tick .go) = some turn :=
    Option.isSome_iff_exists.mp (Barrier.isSome_barrierTest _)
  have hTaken := mainLoop_of_barrierTurn hPc hTurn
  have hTurn := barrierTurn_of_eq hTurn
  cases hTurn
  case close hPhase hTodo =>
    obtain ⟨s', hClose, hLeft⟩ : ∃ s', mainLoop cfg r (.tick .go) (g r).state = some (s', none) ∧
        s'.pc.leftBarrier = true := mainLoop_barrierTest_close hPc hPhase hTodo
    obtain ⟨g', hDrift, rfl⟩ := h.tick hClose rfl
    rw [hDrift.still.left_eq r] at hLeft
    cases hLeft
  all_goals obtain ⟨next, hActs, hGoes, hReturns⟩ := hTaken nofun
  case contribute | tell => exact (h.no_send hActs rfl).elim
  case inactive | wait =>
    exact h.goesOn hActs rfl (Or.inr ((congrArg State.pc (hReturns rfl)).trans hReturn))
  case look hPhase _ | gather hPhase _ _ _ | skip hPhase _ | decide hPhase _ _ =>
    obtain rfl := hGoes rfl
    refine h.goesOn hActs rfl (Or.inl ⟨rfl, ?_⟩)
    simp [State.inner, hPc, hPhase, Turn.stays]

/-- A rank at a standstill goes on by itself. -/
theorem Standstill.exists_turn (h : Standstill cfg g) (r : Fin n) :
    ∃ g', Drifts cfg r g g' ∧ GoesOn cfg r (g r).state (g' r).state := by
  have hLoop := h.inLoop r
  cases hPc : (g r).state.pc <;> rw [hPc] at hLoop
  case workreqCheck => exact h.turn_workreqCheck hPc
  case workreceiptCheck => exact h.turn_workreceiptCheck hPc
  case abortCheck => exact h.turn_abortCheck hPc
  case reduceCheck => exact h.turn_reduceCheck hPc
  case requestWork => exact h.turn_requestWork hPc
  case process => exact h.turn_process hPc
  case checkForTermAllReduce => exact h.turn_checkForTermAllReduce hPc
  case barrierStart => exact h.turn_barrierStart hPc
  case barrierTest => exact h.turn_barrierTest hPc
  all_goals cases hLoop

/-! ## Laps -/

theorem Drifts.onward_eq (h : Drifts cfg r g g') :
    (g' r).state.onward cfg = (g r).state.onward cfg := by
  rw [State.onward, h.cleanup_eq, h.queue, State.onward]

/-- A rank comes to the end of the function that it is in. -/
theorem Standstill.leaves (h : Standstill cfg g) (r : Fin n) :
    ∃ g', Drifts cfg r g g' ∧
      (g' r).state.pc = (g r).state.onward cfg (g r).state.pc ∧ Fresh (g' r).state := by
  -- every turn inside the function brings its end closer
  generalize hInner : (g r).state.inner cfg r = k
  induction k using Nat.strong_induction_on generalizing g with
  | _ k ih =>
      obtain ⟨next, hDrift, ⟨hSame, hLess⟩ | hEnd⟩ := h.exists_turn r
      · obtain ⟨g', hDrift', hNext, hFresh⟩ := ih _ (hInner ▸ hLess) hDrift.still rfl
        rw [hDrift.onward_eq, hSame] at hNext
        exact ⟨g', hDrift.trans hDrift', hNext, hFresh⟩
      · exact ⟨next, hDrift, hEnd⟩

/-- A rank goes through as many functions as one likes. -/
theorem Standstill.goes (h : Standstill cfg g) (r : Fin n) (k : Nat) :
    ∃ g', Drifts cfg r g g' ∧
      (g' r).state.pc = ((g r).state.onward cfg)^[k + 1] (g r).state.pc ∧ Fresh (g' r).state := by
  induction k with
  | zero => exact h.leaves r
  | succ k ih =>
      obtain ⟨next, hDrift, hPc, -⟩ := ih
      obtain ⟨g', hDrift', hNext, hFresh⟩ := hDrift.still.leaves r
      refine ⟨g', hDrift.trans hDrift', ?_, hFresh⟩
      rw [hNext, hDrift.onward_eq, hPc]
      exact (Function.iterate_succ_apply' _ (k + 1) _).symm

/-- A rank comes to the start of every function of its loop. -/
theorem Standstill.comes_to (h : Standstill cfg g) {r : Fin n} {pc : Pc}
    (hLoop : (g r).state.inLoop cfg pc = true) :
    ∃ g', Drifts cfg r g g' ∧ (g' r).state.pc = pc ∧ Fresh (g' r).state := by
  -- first to the top of the loop, then on to the function
  obtain ⟨k, -, hTop⟩ := Pc.onward_top _ _ _ (h.inLoop r)
  obtain ⟨l, -, hEnd⟩ := Pc.onward_all _ _ _ hLoop
  obtain ⟨g', hDrift, hPc, hFresh⟩ := h.goes r (l + k)
  refine ⟨g', hDrift, hPc.trans ?_, hFresh⟩
  rw [Nat.add_right_comm, Function.iterate_add_apply]
  exact (congrArg _ hTop).trans hEnd

end Circle
