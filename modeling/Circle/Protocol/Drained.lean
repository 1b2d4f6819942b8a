import Circle.Protocol.Finishing
import Circle.Protocol.RingEnd
import Circle.Protocol.Termination

/-!
# What an execution leaves behind

When all ranks have finished, the messages of nine of the ten tags have been
received.  The receipts have been received where a rank leaves the main loop
with nothing outstanding, as the reduction for termination has it; the token
ring does not wait for them.
-/

namespace Circle

open FifoNet (Log inFlight)

variable {n : Nat} {cfg : Config n} {rank : Fin n} {input : Input n} {s s' : State n}
  {out : Option (Packet n)} {ok : World n → Fin n → Event n → Prop} {g : World n}

/-- Every rank has left `mainLoop`. -/
def Finished (g : World n) : Prop :=
  ∀ r, (g r).state.pc = .checkpoint ∨ (g r).state.pc = .done

/-- Every rank has come to `abortReduce`. -/
def Late (g : World n) : Prop := ∀ r, (g r).state.pc.early = false

section Finished

theorem Late.leftBarrier (h : Late g) (r : Fin n) : (g r).state.pc.leftBarrier = true := by
  have hLate := h r
  revert hLate
  cases (g r).state.pc <;> decide

theorem Late.cleanup (hLate : Late g) (h : Execution cfg ok g) (r : Fin n) :
    (g r).state.cleanup = true := by
  have hFits := (h.control r).fits
  have hEarly := hLate r
  cases hPc : (g r).state.pc <;> simp_all [State.Fits, Pc.early]

theorem Finished.late (h : Finished g) : Late g := by
  intro r
  rcases h r with hPc | hPc <;> rw [hPc] <;> rfl

theorem Finished.cleanup (hDone : Finished g) (h : Execution cfg ok g) (r : Fin n) :
    (g r).state.cleanup = true :=
  hDone.late.cleanup h r

end Finished

theorem Execution.unconstrained (h : Execution cfg ok g) : Execution cfg FifoNet.always g :=
  FifoNet.Reachable.weaken h fun _ _ _ _ => trivial

/-! ## Tags that are not used -/

/-- A tag that no function uses that a rank gets to. -/
theorem Execution.sent_unused (h : Execution cfg ok g) {tag : Tag}
    (hUnused : ∀ s : State n, s.Fits cfg → tag ∉ s.pc.tags) (src dst : Fin n) :
    (g src).sent dst tag = [] := by
  revert dst
  refine h.forall_rank (L := fun _ node => ∀ dst, node.sent dst tag = []) ?_ ?_ src
  · intro r start dst
    rfl
  · intro g r input s' out hReach hAll _ hStep dst
    have hSilent := hStep.silent (hUnused _ (hReach.control r).fits)
    rw [FifoNet.Node.after_sent, hSilent.sent]
    exact hAll r dst

theorem Execution.unused (h : Execution cfg ok g) {tag : Tag}
    (hUnused : ∀ s : State n, s.Fits cfg → tag ∉ s.pc.tags) (src dst : Fin n) :
    inFlight g src dst tag = [] := by
  rw [inFlight, h.sent_unused hUnused, List.drop_nil]

theorem token_unused (hTree : cfg.termTree = true) (s : State n) (h : s.Fits cfg) :
    Tag.token ∉ s.pc.tags := by
  unfold State.Fits at h
  cases hPc : s.pc <;> simp [hPc, Pc.tags, hTree] at h ⊢

theorem term_unused (hRing : cfg.termTree = false) (s : State n) (h : s.Fits cfg) :
    Tag.term ∉ s.pc.tags := by
  unfold State.Fits at h
  cases hPc : s.pc <;> simp [hPc, Pc.tags, hRing] at h ⊢

theorem reduce_unused (hEnabled : cfg.reduceEnabled = false) (s : State n) (h : s.Fits cfg) :
    Tag.reduce ∉ s.pc.tags := by
  unfold State.Fits at h
  cases hPc : s.pc <;> simp [hPc, Pc.tags, hEnabled] at h ⊢

/-! ## Tag by tag -/

section Tags

variable {src dst : Fin n}

/-- The requests for work and the replies. -/
theorem Execution.noRequest (h : Execution cfg ok g) (hLate : Late g) (r d : Fin n) :
    NoRequest g r d := by
  have hRequested := h.workRequested_of_started r (h.all_started (hLate.leftBarrier r) r)
  exact noRequest_of_asked h.fifo h.workInv (by simp [Work.asked, hRequested])

/-- The token, in either mode. -/
theorem Execution.token_drained (h : Execution cfg ok g) (hLate : Late g) :
    inFlight g src dst .token = [] := by
  cases hMode : cfg.termTree with
  | true => exact h.unused (token_unused hMode) src dst
  | false => exact h.token_received hMode (hLate.cleanup h) src dst

/-- The reduction for termination. -/
theorem Execution.term_drained (h : Execution cfg ok g) (hLate : Late g) :
    inFlight g src dst .term = [] := by
  cases hMode : cfg.termTree with
  | true =>
      have hNow : FifoNet.run (mainLoop cfg) g [] = some g := rfl
      rw [h.fifo.inFlight_eq_nil_iff]
      exact (sent_eq_of_terminated hMode h.unconstrained (hLate.cleanup h dst) hNow src).symm
  | false => exact h.unused (term_unused hMode) src dst

/-- The reductions of user data. -/
theorem Execution.reduce_drained (h : Execution cfg ok g) (hLate : Late g) :
    inFlight g src dst .reduce = [] := by
  cases hEnabled : cfg.reduceEnabled with
  | false => exact h.unused (reduce_unused hEnabled) src dst
  | true =>
      by_cases hNear : dst ∈ cfg.neighbours src
      · rcases mem_neighbours_iff.mp hNear with hParent | hChild
        · exact h.reports_received hParent
            (h.last_of_finished hEnabled dst (Or.inl (hLate dst)))
        · exact h.starts_received (hLate.leftBarrier src) (cfg.tree.parent_of_mem hChild)
      · exact h.nothing_far hNear

/-- A rank that has left the barrier does not contribute again. -/
theorem Execution.barrierUp_of_left (h : Execution cfg ok g) (r : Fin n)
    (hLeft : (g r).state.pc.leftBarrier = true) : (g r).state.barrier.barrierUp = false := by
  revert hLeft
  refine h.forall_rank (L := fun _ node =>
    node.state.pc.leftBarrier = true → node.state.barrier.barrierUp = false) ?_ ?_ r
  · intro r start hLeft
    rfl
  · intro g r input s' out hReach hAll hAdmits hStep hLeft
    have hRunning := hReach.running_step hAdmits hStep
    rw [FifoNet.Node.after_state] at hLeft ⊢
    by_cases hPc : (g r).state.pc = .barrierTest
    · cases hStep
      case raise =>
        rw [hPc] at hLeft
        cases hLeft
      case barrierTest =>
        simp only at hLeft
        split at hLeft <;> cases hLeft
      case leaveBarrier turn _ hTurn hResult =>
        have hTurn := barrierTurn_of_eq hTurn
        cases hTurn
        case close => rfl
        all_goals simp [Turn.stays, Turn.returns, Turn.sends] at hResult
      all_goals simp_all
    · rw [Pc.leftBarrier_of_mem_next hStep.next hPc hRunning] at hLeft
      have hBarrierStep := barrierMainStep_of_mainStep hStep
      cases hBarrierStep
      case other hBarrier _ =>
        rw [hBarrier]
        exact hAll r hLeft
      case start hStart _ _ =>
        rw [hStart] at hLeft
        cases hLeft
      case turn hTest _ _ => exact (hPc hTest).elim

/-- The barrier. -/
theorem Execution.barrier_drained (h : Execution cfg ok g) (hLate : Late g) :
    inFlight g src dst .barrier = [] := by
  have hClosed (r : Fin n) :
      (g r).state.barrier.wave.closed = 1 ∧ (g r).state.barrier.wave.up = 1 := by
    have hOnce := h.unconstrained.closed_eq r
    have hUp := (h.barrierInv r).up_eq
    rw [hLate.leftBarrier r, if_pos rfl] at hOnce
    rw [h.barrierUp_of_left r (hLate.leftBarrier r), hOnce] at hUp
    exact ⟨hOnce, hUp⟩
  have hAll := Wave.rcvd_eq_sent (fun r => (h.barrierInv r).wave)
    (fun s d => h.fifo.length_le s d .barrier) hClosed src dst
  rw [h.fifo.inFlight_eq_nil_iff]
  exact (h.fifo src dst .barrier).eq_of_length hAll

theorem todo_of_down {a : AbortReduce n} {rest : List (Fin n)} (hPhase : a.phase = .down rest)
    (children : List (Fin n)) : (AbortStage.inside a).todo children = rest := by
  obtain ⟨flag, phase⟩ := a
  subst hPhase
  rfl

theorem AbortReduceTurn.neighbour {a : AbortReduce n} {turn : Turn n (AbortReduce n) Bool}
    (hTurn : AbortReduceTurn (cfg.links rank) a input turn)
    (hTodo : ∀ c rest, a.phase = .down (c :: rest) → c ∈ cfg.tree.children rank)
    (packet : Packet n) (hOut : turn.out = some packet) : packet.dst ∈ cfg.neighbours rank := by
  rw [mem_neighbours_iff]
  cases hTurn
  case contribute hParent =>
    cases hOut
    exact Or.inl hParent
  case tell hPhase =>
    cases hOut
    exact Or.inr (hTodo _ _ hPhase)
  all_goals cases hOut

/-- In the abort reduction, ranks that are no neighbours exchange nothing. -/
theorem Execution.abortReduce_far (h : Execution cfg ok g) (src : Fin n) :
    ∀ d, d ∉ cfg.neighbours src → (g src).sent d .abortReduce = [] := by
  refine h.forall_rank (L := fun r node =>
    ∀ d, d ∉ cfg.neighbours r → node.sent d .abortReduce = []) ?_ ?_ src
  · intro r start d _
    rfl
  · intro g r input s' out hReach hAll _ hStep d hFar
    obtain ⟨entry, hInv⟩ := hReach.abortMainInv r
    have hMain := abortMainStep_of_mainStep hStep
    rw [FifoNet.Node.after_sent]
    generalize s'.abortStage = stage at hMain
    cases hMain
    case other hSilent | enter hStage flag hSilent =>
      rw [hSilent.sent]
      exact hAll r d hFar
    case turn turn hStage hTurn =>
      rw [hStage] at hInv
      cases hOut : turn.out with
      | none => exact hAll r d hFar
      | some packet =>
          obtain ⟨peer, tag, msg⟩ := packet
          have hTodo (c : Fin n) (rest : List (Fin n))
              (hPhase : (g r).state.abortReduce.phase = .down (c :: rest)) :
              c ∈ cfg.tree.children r := by
            refine hInv.todo_sub c ?_
            rw [todo_of_down hPhase]
            exact List.mem_cons_self
          have hNear := hTurn.neighbour hTodo _ hOut
          rw [FifoNet.Log.send_some, FifoNet.Log.add_of_peer_ne]
          · exact hAll r d hFar
          · rintro rfl
            exact hFar hNear

/-- The abort reduction, to a rank that has left it. -/
theorem Execution.abortReduce_drained (h : Execution cfg ok g) {flag : Bool}
    (hAfter : (g dst).state.abortStage = .after flag) :
    inFlight g src dst .abortReduce = [] := by
  by_cases hNear : dst ∈ cfg.neighbours src
  · obtain ⟨entry, hSource⟩ := h.abortMainInv src
    obtain ⟨entry', hTarget⟩ := h.abortMainInv dst
    have hLow := h.fifo.length_le src dst .abortReduce
    rw [hAfter] at hTarget
    rw [h.fifo.inFlight_eq_nil_iff]
    refine (h.fifo src dst .abortReduce).eq_of_length (Nat.le_antisymm hLow ?_)
    rcases mem_neighbours_iff.mp hNear with hParent | hChild
    · have hSent := hSource.sent_parent dst hParent
      have hRcvd := hTarget.rcvd_child src (cfg.tree.mem_children hParent)
      simp only [AbortStage.waiting, List.not_mem_nil, if_false] at hRcvd
      obtain ⟨said, hSaid⟩ := hRcvd
      rw [hSent, hSaid]
      split <;> simp
    · have hSent := hSource.sent_child dst hChild
      have hRcvd := hTarget.rcvd_parent src (cfg.tree.parent_of_mem hChild)
      simp only [AbortStage.result] at hRcvd
      rw [hSent, hRcvd]
      split
      · simp
      · split <;> simp
  · rw [inFlight, h.abortReduce_far src dst hNear, List.drop_nil]

/-- The requests and the replies of the abort flood. -/
theorem Execution.abort_drained (h : Execution cfg ok g) (hLate : Late g) :
    inFlight g src dst .abortRequest = [] ∧ inFlight g src dst .abortReply = [] := by
  have hReplied (r q : Fin n) := h.abort_replied
    (h.abortOutstanding_of_started r (h.all_started (hLate.leftBarrier r) r)) q
  have hOwn := hReplied src dst
  have hOther := hReplied dst src
  obtain ⟨hReply, hAnswer, hRequest⟩ := h.abort_counts src dst
  obtain ⟨hReply', hAnswer', hRequest'⟩ := h.abort_counts dst src
  constructor
  · rw [h.fifo.inFlight_eq_nil_iff]
    exact (h.fifo src dst .abortRequest).eq_of_length (by omega)
  · rw [h.fifo.inFlight_eq_nil_iff]
    exact (h.fifo src dst .abortReply).eq_of_length (by omega)

/-- The receipts that are under way to a rank are those it has outstanding. -/
theorem Execution.receipts_drained_iff (h : Execution cfg ok g) (hLate : Late g) (r : Fin n) :
    (∀ peer, inFlight g peer r .workReceipt = []) ↔ (g r).state.work.workOutstanding = 0 := by
  constructor
  · intro hReceipts
    have hSum := (h.workInv r).outstanding
    have hEach (peer : Fin n) : ((g r).rcvd peer .workReceipt).length =
        transfers ((g r).sent peer .workReply) := by
      have hReceipt := (h.fifo.inFlight_eq_nil_iff peer r .workReceipt).mp (hReceipts peer)
      have hReply := (h.fifo.inFlight_eq_nil_iff r peer .workReply).mp
        (h.noRequest hLate peer r).reply
      rw [hReceipt, ((h.workInv peer).ledger r).receipts, hReply]
    rw [Finset.sum_congr rfl fun peer _ => hEach peer] at hSum
    omega
  · intro hOutstanding peer
    exact (h.acknowledged hOutstanding (h.sending_of_cleanup (hLate.cleanup h r))).receipts peer

end Tags

/-! ## All tags -/

/-- When all ranks have finished, no message is under way. -/
def LeavesNothing (g : World n) : Prop :=
  Finished g → ∀ src dst tag, inFlight g src dst tag = []

/-- An execution that has finished leaves nothing behind exactly when no rank has
a transfer outstanding. -/
theorem Execution.drained_iff (h : Execution cfg ok g) (hDone : Finished g) :
    LeavesNothing g ↔ ∀ r, (g r).state.work.workOutstanding = 0 := by
  constructor
  · intro hNothing r
    exact (h.receipts_drained_iff hDone.late r).mp fun peer => hNothing hDone peer r .workReceipt
  · intro hOutstanding _ src dst tag
    cases tag with
    | workRequest => exact (h.noRequest hDone.late src dst).request
    | workReply => exact (h.noRequest hDone.late dst src).reply
    | workReceipt => exact (h.receipts_drained_iff hDone.late dst).mpr (hOutstanding dst) src
    | token => exact h.token_drained hDone.late
    | reduce => exact h.reduce_drained hDone.late
    | barrier => exact h.barrier_drained hDone.late
    | term => exact h.term_drained hDone.late
    | abortRequest => exact (h.abort_drained hDone.late).1
    | abortReply => exact (h.abort_drained hDone.late).2
    | abortReduce =>
        rcases hDone dst with hPc | hPc
        · have hAfter : (g dst).state.abortStage = .after true := by simp [State.abortStage, hPc]
          exact h.abortReduce_drained hAfter
        · have hAfter : (g dst).state.abortStage = .after false := by simp [State.abortStage, hPc]
          exact h.abortReduce_drained hAfter

/-! ## Leaving the ring with nothing outstanding -/

/-- A rank in `checkForTerm` that is about to leave the main loop: it has the
colour of termination, or a token that gives it. -/
def State.terminates (rank : Fin n) (s : State n) : Prop :=
  s.pc = .checkForTerm ∧ (s.token.tokenProc = .terminate ∨
    s.token.incoming = some .terminate ∨ rank.val = 0 ∧ s.token.incoming = some .white)

/-- A rank that is about to leave the main loop has the receipts of all its
transfers. -/
def LeavesSettled (g : World n) (rank : Fin n) (_ : Event n) : Prop :=
  (g rank).state.terminates rank → (g rank).state.work.workOutstanding = 0

instance (rank : Fin n) (s : State n) : Decidable (s.terminates rank) :=
  inferInstanceAs (Decidable (_ ∧ (_ ∨ _ ∨ _ ∧ _)))

instance (g : World n) (rank : Fin n) (event : Event n) :
    Decidable (LeavesSettled g rank event) :=
  inferInstanceAs (Decidable (_ → _))

theorem CheckTurn.terminates {t : Token} {abortFlag : Bool} {turn : Turn n Token Bool}
    (h : CheckTurn rank abortFlag t input turn) (hResult : turn.result = some true) :
    t.tokenProc = .terminate ∨ t.incoming = some .terminate ∨
      rank.val = 0 ∧ t.incoming = some .white := by
  cases h
  case terminated hProc => exact Or.inl hProc
  case pass | keep => cases hResult
  case check hBusy hTurn =>
    cases hTurn
    case arrive | sent => cases hResult
    case nothing hIncoming =>
      simp [Turn.returns, (hBusy hIncoming).1] at hResult
    case accept token hIncoming _ _ _ =>
      simp only [Turn.returns, Option.map_some, Option.some.injEq] at hResult
      have hProc := of_decide_eq_true hResult
      split at hProc
      · cases hProc
      · exact Or.inl hProc
    case forward hIncoming _ hToken _ _ | stop hIncoming _ hToken _ =>
      rcases hToken with rfl | ⟨hZero, rfl⟩
      · exact Or.inr (Or.inl hIncoming)
      · exact Or.inr (Or.inr ⟨hZero, hIncoming⟩)

/-- In the cleanup loop the number of outstanding transfers stays the same. -/
theorem outstanding_of_cleanup_step (hStock : Stock s.work) (hFits : s.Fits cfg)
    (hRetired : Retired cfg s) (hCleanup : s.cleanup = true)
    (hStep : MainStep cfg rank input s s' out) :
    s'.work.workOutstanding = s.work.workOutstanding := by
  cases hStep
  case workreqCheck turn pc hPc hTurn hNext =>
    have hTurn := workreqTurn_of_eq hTurn
    rw [hCleanup] at hTurn
    exact (hTurn.refuses (hRetired.shares hCleanup) hStock.sending_none).1
  case requestWork hTurn hNext => exact (requestTurn_of_eq hTurn).outstanding_eq
  case workreceiptCheck hPc _ _ | callback hPc _ _ _ _ =>
    simp only [State.Fits, hPc, hCleanup] at hFits
    cases hFits
  all_goals rfl

/-- A rank that has left the main loop with its transfers settled has nothing
outstanding. -/
theorem Execution.outstanding_of_settled (h : Execution cfg LeavesSettled g) (r : Fin n)
    (hCleanup : (g r).state.cleanup = true) : (g r).state.work.workOutstanding = 0 := by
  revert r
  refine FifoNet.Reachable.invariant (I := fun g => ∀ r, (g r).state.cleanup = true →
    (g r).state.work.workOutstanding = 0) ?_ ?_ h
  · rintro states ⟨start, hStates⟩ r hCleanup
    simp [FifoNet.fresh, hStates, Start.state] at hCleanup
  · intro g rank event input s' out hReach hAll hSettled _ hFires r hCleanup
    have hReach : Execution cfg LeavesSettled g := hReach
    by_cases hSelf : r = rank
    · subst hSelf
      rw [FifoNet.set_self, FifoNet.Node.after_state] at hCleanup ⊢
      have hStep := mainStep_of_mainLoop hFires.acts
      have hControl := hReach.control r
      have hStock := (hReach.workInv r).stock
      have hRetired := hReach.retired r
      cases hBefore : (g r).state.cleanup with
      | true =>
          rw [outstanding_of_cleanup_step hStock hControl.fits hRetired hBefore hStep]
          exact hAll r hBefore
      | false =>
          cases hMode : cfg.termTree with
          | true =>
              exact hRetired.step_outstanding hStock hControl hStep (Or.inr ⟨hMode, hCleanup⟩)
          | false =>
              -- only `checkForTerm` leaves the main loop
              have hFits := hControl.fits
              cases hStep
              case checkForTerm turn hPc hTurn =>
                rw [hBefore, Bool.or_false, decide_eq_true_eq] at hCleanup
                exact hSettled ⟨hPc, (checkTurn_of_eq hTurn).terminates hCleanup⟩
              case checkForTermAllReduce hPc hTurn =>
                simp only [State.Fits, hPc, hMode] at hFits
                cases hFits.2.1
              all_goals simp_all
    · rw [FifoNet.set_of_ne _ _ hSelf] at hCleanup ⊢
      exact hAll r hCleanup

/-- Where ranks leave the token ring with their transfers settled, an execution
leaves no message behind. -/
theorem Execution.leavesNothing (h : Execution cfg LeavesSettled g) : LeavesNothing g := by
  intro hDone
  exact (h.drained_iff hDone).mpr (fun r => h.outstanding_of_settled r (hDone.cleanup h r)) hDone

/-! ## Two ranks -/

/-- Rank 0 gives rank 1 an item in a ring, and both process what they have. -/
def sharingTurns : List (Fin 2 × Event 2) :=
  List.flatten [
    idleTurns 1, [(1, .tick (.next (some 0)))], goOn 1 2,
    [(0, .recv 1 .workRequest), (0, .tick (.draw 0))], goOn 0 6,
    [(0, .tick (.tested false)), (0, .tick (.callback [.pop []]))],
    idleTurns 1, [(1, .recv 0 .workReply), (1, .recv 0 .workReply),
      (1, .tick (.callback [.pop []]))],
    goOn 0 1]

/-- They ask each other in vain, and the token goes round. -/
def circlingTurns : List (Fin 2 × Event 2) :=
  List.flatten [
    goOn 0 3, [(0, .tick (.tested false)), (0, .tick (.next (some 1)))], goOn 0 2,
    [(1, .recv 0 .workRequest)], goOn 1 6,
    [(1, .tick (.tested false)), (1, .tick (.next (some 0)))], goOn 1 1,
    [(1, .recv 0 .token)], goOn 1 1,
    [(0, .recv 1 .workRequest)], goOn 0 6,
    [(0, .tick (.tested false)), (0, .recv 1 .workReply)], goOn 0 2,
    idleTurns 1, [(1, .recv 0 .workReply)], goOn 1 2]

/-- The token comes back to rank 0, which terminates, and so does rank 1. -/
def endingTurns : List (Fin 2 × Event 2) :=
  List.flatten [
    idleTurns 0, [(0, .tick (.next (some 1)))], goOn 0 1,
    [(0, .recv 1 .token), (0, .synced 1 .token)], goOn 0 3,
    [(1, .recv 0 .workRequest)], goOn 1 6,
    [(1, .tick (.tested false)), (1, .tick (.next (some 0)))], goOn 1 1,
    [(1, .recv 0 .token), (1, .synced 0 .token)], goOn 1 3]

/-- Both leave the cleanup loop and `abortReduce`. -/
def departingTurns : List (Fin 2 × Event 2) :=
  List.flatten [
    [(0, .recv 1 .workRequest)], goOn 0 3, [(0, .recv 1 .workReply)], goOn 0 2,
    [(0, .tick (.tested false))], goOn 0 1, [(0, .synced 1 .token)], goOn 0 4,
    goOn 1 1, [(1, .recv 0 .workReply)], goOn 1 2, [(1, .tick (.tested false))], goOn 1 6,
    idleTurns 0, goOn 0 3, [(0, .recv 1 .barrier)], goOn 0 4,
    idleTurns 1, goOn 1 5, [(1, .recv 0 .barrier)], goOn 1 2,
    [(0, .recv 1 .abortReduce)], goOn 0 3, [(1, .recv 0 .abortReduce)], goOn 1 1]

/-- Rank 0 receives the receipt of rank 1 before it terminates. -/
def settledTurns : List (Fin 2 × Event 2) :=
  sharingTurns ++ [(0, .recv 1 .workReceipt)] ++ circlingTurns ++ endingTurns ++ departingTurns

theorem leavesNothing_pairWorld : ∃ g,
    FifoNet.runWhile (mainLoop (pairConfig false false)) LeavesSettled pairWorld settledTurns =
      some g ∧ Finished g ∧ LeavesNothing g := by
  have hEnd : (FifoNet.runWhile (mainLoop (pairConfig false false)) LeavesSettled pairWorld
      settledTurns).map (fun g => ((g 0).state.pc, (g 1).state.pc)) = some (.done, .done) := by
    decide +kernel
  obtain ⟨g, hRun, hAll⟩ := Option.map_eq_some_iff.mp hEnd
  rw [Prod.mk.injEq] at hAll
  refine ⟨g, hRun, ?_, Execution.leavesNothing
    (FifoNet.Reachable.runWhile (execution_pairWorld _ _) hRun)⟩
  rw [Finished, Fin.forall_fin_two]
  exact ⟨Or.inr hAll.1, Or.inr hAll.2⟩

/-- Where the receipt of rank 1 is late, it is left behind. -/
theorem not_leavesNothing_pairWorld : ∃ g,
    Execution (pairConfig false false) FifoNet.always g ∧ Finished g ∧
    inFlight g 1 0 .workReceipt = [.empty] ∧ ¬ LeavesNothing g := by
  have hEnd : (FifoNet.run (mainLoop (pairConfig false false)) pairWorld
      (sharingTurns ++ circlingTurns ++ endingTurns ++ departingTurns)).map (fun g =>
        ((g 0).state.pc, (g 1).state.pc, inFlight g 1 0 .workReceipt)) =
      some (.done, .done, [.empty]) := by
    decide +kernel
  obtain ⟨g, hRun, hAll⟩ := Option.map_eq_some_iff.mp hEnd
  simp only [Prod.mk.injEq] at hAll
  obtain ⟨hFirst, hSecond, hReceipt⟩ := hAll
  have hDone : Finished g := by
    rw [Finished, Fin.forall_fin_two]
    exact ⟨Or.inr hFirst, Or.inr hSecond⟩
  refine ⟨g, FifoNet.Reachable.run (execution_pairWorld _ _) hRun, hDone, hReceipt, ?_⟩
  intro hNothing
  rw [hNothing hDone] at hReceipt
  cases hReceipt

end Circle
