import Circle.Base.Standstill
import Circle.Protocol.Background
import Circle.Protocol.Completion
import Circle.Protocol.MessageCount
import Circle.Protocol.Room

/-!
# A standstill

In tree mode, once `ABORT_FLAG` is up everywhere, a rank neither processes items
nor asks for work.  If no reduction is begun either, the messages are bounded:
some run comes to a standstill, from which ranks go round their loops without a
message.
-/

namespace Circle

open FifoNet (Log inFlight)

variable {n : Nat} {cfg : Config n} {rank : Fin n} {input : Input n} {s s' : State n}
  {out : Option (Packet n)} {ok : World n → Fin n → Event n → Prop} {g g' : World n}

/-! ## The messages of a run -/

instance : Fintype Tag where
  elems := {.workRequest, .workReply, .workReceipt, .token, .reduce, .barrier, .term,
    .abortRequest, .abortReply, .abortReduce}
  complete := by
    intro tag
    cases tag <;> decide

/-- A report is at most two messages. -/
theorem length_reports_le {k : Option (Int × Int)} {log : List Msg}
    (hAccepts : reports.Accepts k log) :
    log.length + k.toList.length ≤
      2 * (reports.read k log).length + (reports.after k log).toList.length := by
  induction log generalizing k with
  | nil => simp
  | cons msg rest ih =>
      obtain ⟨hOk, hRest⟩ := hAccepts
      have hNext := ih hRest
      show rest.length + 1 + k.toList.length ≤
        2 * (reports.out k msg ++ reports.read (reports.next k msg) rest).length +
          (reports.after (reports.next k msg) rest).toList.length
      rw [List.length_append]
      cases k with
      | none =>
          obtain ⟨valid, count, bytes, rfl, -⟩ := reports_ok_none hOk
          rw [show (none : Option (Int × Int)).toList.length = 0 from rfl]
          by_cases hData : valid = true ∧ bytes ≠ 0
          · obtain ⟨rfl, hBytes⟩ := hData
            have hState : reports.next none (.longs true count bytes) = some (count, bytes) :=
              if_neg hBytes
            rw [hState] at hNext ⊢
            rw [show (some (count, bytes)).toList.length = 1 from rfl] at hNext
            omega
          -- there is no user data to come
          · obtain ⟨report, hBare⟩ : ∃ report, (Msg.longs valid count bytes).IsBare report := by
              cases valid with
              | false => exact ⟨_, .invalid count bytes⟩
              | true =>
                  obtain rfl : bytes = 0 := by simpa using hData
                  exact ⟨_, .valid count⟩
            rw [hBare.out_eq, List.length_singleton]
            omega
      | some header =>
          obtain ⟨value, rfl, -⟩ := reports_ok_some hOk
          have hOut : (reports.out (some header) (.data value)).length = 1 := rfl
          rw [hOut]
          rw [show (some header).toList.length = 1 from rfl]
          omega

/-- What a rank has sent in the reductions is bounded by the rounds that the root has
begun. -/
theorem Execution.reduce_le (h : Execution cfg ok g) (r d : Fin n) :
    ((g r).sent d .reduce).length ≤ 2 * (g cfg.tree.root).state.reduce.begun + 3 := by
  obtain ⟨hInv, -⟩ := h.reductions
  have hStarts (p c : Fin n) : (g p).state.reduce.startsTo c ≤
      (g cfg.tree.root).state.reduce.begun := by
    refine Nat.le_trans ?_ (h.begun_le p)
    unfold Reduce.startsTo Reduce.begun Reduce.isTaken
    cases (g p).state.reduce.isOpen <;> simp
    split <;> omega
  by_cases hNear : d ∈ cfg.neighbours r
  · rcases List.mem_append.mp hNear with hParent | hChild
    · rw [Option.mem_toList] at hParent
      have hUpward := (hInv r).upward d hParent
      have hLength := length_reports_le hUpward.accepts
      have hSaid := congrArg List.length hUpward.said
      have hResponses := responses_le h hInv hParent
      have hBegun := hStarts d r
      have hAfter : (reports.after none ((g r).sent d .reduce)).toList.length ≤ 1 :=
        Option.length_toList_le
      have hLast : ((g r).state.reduce.last.map Round.report).toList.length ≤ 1 :=
        Option.length_toList_le
      rw [List.length_append, Reduce.spoken, List.length_append] at hSaid
      omega
    -- a child is sent one start for each round
    · rw [(hInv r).downward d hChild, List.length_replicate]
      have hBegun := hStarts r d
      omega
  · rw [(hInv r).nowhere d hNear]
    exact Nat.zero_le _

theorem TermInv.sent_le {t : Term n} {ended : Bool} {sent rcvd : Log (Fin n) Tag Msg}
    (h : TermInv cfg rank t ended sent rcvd) (d : Fin n) : (sent d .term).length ≤ 2 := by
  have hInv := h.tracks.inv
  have hClosed : t.wave.closed ≤ 1 := by
    rw [h.closed_eq]
    split <;> omega
  have hUp := hInv.up_le
  by_cases hNear : cfg.tree.parent rank = some d ∨ d ∈ cfg.tree.children rank
  · have hSent : (sent d .term).length ≤ t.wave.up := (hInv.closed_le_sent hNear).2
    omega
  · push Not at hNear
    have hNone : (sent d .term).length = 0 := hInv.sent_other d hNear.1 hNear.2
    omega

theorem Execution.barrier_le (h : Execution cfg ok g) (r d : Fin n) :
    ((g r).sent d .barrier).length ≤ 2 := by
  have hInv := (h.barrierInv r).wave
  have hClosed : (g r).state.barrier.wave.closed ≤ 1 := by
    rw [h.unconstrained.closed_eq r]
    split <;> omega
  have hUp := hInv.up_le
  by_cases hNear : cfg.tree.parent r = some d ∨ d ∈ cfg.tree.children r
  · have hSent : ((g r).sent d .barrier).length ≤ (g r).state.barrier.wave.up :=
      (hInv.closed_le_sent hNear).2
    omega
  · push Not at hNear
    have hNone : ((g r).sent d .barrier).length = 0 := hInv.sent_other d hNear.1 hNear.2
    omega

theorem Execution.abortReduce_le (h : Execution cfg ok g) (r d : Fin n) :
    ((g r).sent d .abortReduce).length ≤ 1 := by
  obtain ⟨entry, hInv⟩ := h.abortMainInv r
  by_cases hNear : d ∈ cfg.neighbours r
  · rcases mem_neighbours_iff.mp hNear with hParent | hChild
    · rw [show (g r).sent d .abortReduce = _ from hInv.sent_parent d hParent]
      split <;> simp
    · rw [show (g r).sent d .abortReduce = _ from hInv.sent_child d hChild]
      split
      · exact Nat.zero_le _
      · split <;> simp
  · rw [h.abortReduce_far r d hNear]
    exact Nat.zero_le _

/-- The replies and receipts are bounded by the requests. -/
theorem Execution.work_le (h : Execution cfg ok g) {bound : Nat}
    (hRequests : ∀ r d, ((g r).sent d .workRequest).length ≤ bound) (r d : Fin n) :
    ((g r).sent d .workReply).length ≤ 2 * bound + 1 ∧
      ((g r).sent d .workReceipt).length ≤ bound := by
  have hLedger := (h.workInv r).ledger d
  constructor
  · have hLength := length_replies hLedger.accepts
    have hAnswers := hLedger.answers
    have hRcvd := h.fifo.length_le d r .workRequest
    have hBound := hRequests d r
    have hCount := List.countP_le_length
      (p := fun items => !items.isEmpty) (l := replies.read none ((g r).sent d .workReply))
    have hAfter : (replies.after none ((g r).sent d .workReply)).toList.length ≤ 1 :=
      Option.length_toList_le
    omega
  · have hReceipts := hLedger.receipts
    have hAsked := hLedger.requests
    have hBound := hRequests r d
    have hCount : transfers ((g r).rcvd d .workReply) ≤
        (replies.read none ((g r).rcvd d .workReply)).length := List.countP_le_length
    omega

/-- In tree mode the messages are bounded by the requests for work and the rounds of
the root. -/
theorem Execution.sent_le (h : Execution cfg ok g) (hTree : cfg.termTree = true) {bound : Nat}
    (hRequests : ∀ r d, ((g r).sent d .workRequest).length ≤ bound)
    (hRounds : (g cfg.tree.root).state.reduce.begun ≤ bound) (r d : Fin n) (tag : Tag) :
    ((g r).sent d tag).length ≤ 2 * bound + 3 := by
  have hRequest : ((g r).sent d .abortRequest).length ≤ 1 :=
    Nat.le_trans ((h.abortLedger r).requests_le d) (by split <;> omega)
  cases tag with
  | workRequest => exact Nat.le_trans (hRequests r d) (by omega)
  | workReply => exact Nat.le_trans (h.work_le hRequests r d).1 (by omega)
  | workReceipt => exact Nat.le_trans (h.work_le hRequests r d).2 (by omega)
  | token =>
      rw [h.sent_unused (token_unused hTree)]
      exact Nat.zero_le _
  | reduce => exact Nat.le_trans (h.reduce_le r d) (by omega)
  | barrier => exact Nat.le_trans (h.barrier_le r d) (by omega)
  | term => exact Nat.le_trans ((h.termInv r).sent_le d) (by omega)
  | abortRequest => omega
  | abortReply =>
      obtain ⟨-, hAnswer, hOther⟩ := h.abort_counts d r
      have hAsked : ((g d).sent r .abortRequest).length ≤ 1 :=
        Nat.le_trans ((h.abortLedger d).requests_le r) (by split <;> omega)
      omega
  | abortReduce => exact Nat.le_trans (h.abortReduce_le r d) (by omega)

/-! ## Calm turns -/

/-- An input that neither raises a flag nor begins a reduction. -/
def calm : Input n → Bool
  | .tick .raiseAbort | .tick (.time true) => false
  | _ => true

/-- `mainLoop` with calm inputs only. -/
def calmLoop (cfg : Config n) : FifoNet.Program (Fin n) Tag Msg (State n) (Choice n) :=
  FifoNet.only (mainLoop cfg) calm

/-- Nothing goes back to what it was before cleanup: the rank is in cleanup, waits
for no reply to an abort request, is in no round, and has started the barrier. -/
structure Settles (s s' : State n) : Prop where
  cleanup : s.cleanup = true → s'.cleanup = true
  abort : s.cleanup = true → s.abort.abortOutstanding = false →
    s'.cleanup = true ∧ s'.abort.abortOutstanding = false
  reduce : s.cleanup = true → s.reduce.reduceOutstanding = false →
    s'.cleanup = true ∧ s'.reduce.reduceOutstanding = false
  started : s.barrier.barrierStarted = true → s'.barrier.barrierStarted = true

/-- How much of this has come. -/
def State.settled (s : State n) : Nat :=
  s.cleanup.toNat + (s.cleanup && !s.abort.abortOutstanding).toNat +
    (s.cleanup && !s.reduce.reduceOutstanding).toNat + s.barrier.barrierStarted.toNat

theorem State.settled_le (s : State n) : s.settled ≤ 4 := by
  have hBit (b : Bool) : b.toNat ≤ 1 := Bool.toNat_le b
  have hCleanup := hBit s.cleanup
  have hAbort := hBit (s.cleanup && !s.abort.abortOutstanding)
  have hReduce := hBit (s.cleanup && !s.reduce.reduceOutstanding)
  have hStarted := hBit s.barrier.barrierStarted
  unfold State.settled
  omega

theorem toNat_le_of_imp {a b : Bool} (h : a = true → b = true) : a.toNat ≤ b.toNat := by
  cases a with
  | false => exact Nat.zero_le _
  | true => rw [h rfl]

theorem imp_of_toNat_le {a b : Bool} (h : a.toNat ≤ b.toNat) (ha : a = true) : b = true := by
  cases b with
  | true => rfl
  | false =>
      subst ha
      exact absurd h (by decide)

theorem Settles.toNat_le (h : Settles s s') :
    s.cleanup.toNat ≤ s'.cleanup.toNat ∧
      (s.cleanup && !s.abort.abortOutstanding).toNat ≤
        (s'.cleanup && !s'.abort.abortOutstanding).toNat ∧
      (s.cleanup && !s.reduce.reduceOutstanding).toNat ≤
        (s'.cleanup && !s'.reduce.reduceOutstanding).toNat ∧
      s.barrier.barrierStarted.toNat ≤ s'.barrier.barrierStarted.toNat := by
  refine ⟨toNat_le_of_imp h.cleanup, toNat_le_of_imp fun hBoth => ?_,
    toNat_le_of_imp fun hBoth => ?_, toNat_le_of_imp h.started⟩
  all_goals simp only [Bool.and_eq_true, Bool.not_eq_true'] at hBoth ⊢
  · exact h.abort hBoth.1 hBoth.2
  · exact h.reduce hBoth.1 hBoth.2

theorem Settles.le (h : Settles s s') : s.settled ≤ s'.settled := by
  obtain ⟨hCleanup, hAbort, hReduce, hStarted⟩ := h.toNat_le
  unfold State.settled
  omega

/-- Where no more has come, nothing has changed. -/
theorem Settles.symm (h : Settles s s') (hLe : s'.settled ≤ s.settled) : Settles s' s := by
  obtain ⟨hCleanup, hAbort, hReduce, hStarted⟩ := h.toNat_le
  unfold State.settled at hLe
  refine ⟨imp_of_toNat_le (by omega), fun hc ha => ?_, fun hc hr => ?_,
    imp_of_toNat_le (by omega)⟩
  · have hBack := imp_of_toNat_le
      (a := s'.cleanup && !s'.abort.abortOutstanding)
      (b := s.cleanup && !s.abort.abortOutstanding) (by omega) (by simp [hc, ha])
    simpa using hBack
  · have hBack := imp_of_toNat_le
      (a := s'.cleanup && !s'.reduce.reduceOutstanding)
      (b := s.cleanup && !s.reduce.reduceOutstanding) (by omega) (by simp [hc, hr])
    simpa using hBack

/-- The abort requests of a rank in cleanup. -/
theorem abortOutstanding_step (hStep : MainStep cfg rank input s s' out)
    (hCleanup : s.cleanup = true) (hNone : s.abort.abortOutstanding = false) :
    s'.abort.abortOutstanding = false := by
  have hFlood := floodStep_of_mainStep hStep
  generalize s'.abort = a' at hFlood ⊢
  have hStart (a : Abort n) : (a.abortStart cfg rank true).abortOutstanding =
      a.abortOutstanding := by
    unfold Abort.abortStart
    by_cases hState : a.abortState = true <;> simp [hState]
  cases hFlood
  case turn hPc hTurn =>
    rw [hCleanup] at hTurn
    cases hTurn
    case enter | answer => exact (hStart _).trans hNone
    case complete => rfl
    all_goals exact hNone
  all_goals exact hNone

/-- The rounds of a rank in cleanup. -/
theorem Execution.reduceOutstanding_fires (h : Execution cfg FifoNet.always g)
    (hFires : FifoNet.Fires (mainLoop cfg) g rank input s' out)
    (hCleanup : (g rank).state.cleanup = true)
    (hClosed : (g rank).state.reduce.reduceOutstanding = false) :
    s'.reduce.reduceOutstanding = false := by
  have hStep := mainStep_of_mainLoop hFires.acts
  have hRunning := h.running_step hFires.admits hStep
  have hFits := (h.reduceShape rank (h.running rank)).fits
  have hReduceStep := reduceStep_of_mainStep hStep
  cases hReduceStep
  case other hReduce _ _ _ =>
    rw [hReduce]
    exact hClosed
  case check turn hPc hTurn hReduce _ _ _ hFailed =>
    rw [hCleanup] at hTurn hFits
    rw [hReduce]
    exact hTurn.closed_of_cleanup hFits hClosed fun hEq => hRunning (hFailed.mp hEq)
  case sync turn hPc hTurn hReduce _ _ hSync =>
    have hResult : turn.result ≠ some .failed := by
      intro hEq
      rw [hEq] at hSync
      exact hRunning hSync
    rw [hReduce, (hTurn.refused_eq hResult).2.1]
    exact hClosed

/-- A rank that stays in the barrier has started it. -/
theorem barrierStarted_step (hStep : MainStep cfg rank input s s' out)
    (hStays : s'.pc.leftBarrier = false) (hStarted : s.barrier.barrierStarted = true) :
    s'.barrier.barrierStarted = true := by
  cases hStep
  case barrierStart =>
    dsimp only
    split
    · rfl
    · exact hStarted
  case barrierTest turn hPc hTurn hResult =>
    have hTurn := barrierTurn_of_eq hTurn
    cases hTurn
    case close => exact (hResult rfl).elim
    all_goals exact hStarted
  case leaveBarrier =>
    exfalso
    revert hStays
    dsimp only
    split <;> simp [Pc.leftBarrier]
  all_goals exact hStarted

theorem Execution.settles (h : Execution cfg FifoNet.always g)
    (hFires : FifoNet.Fires (mainLoop cfg) g rank input s' out)
    (hStays : s'.pc.leftBarrier = false) : Settles (g rank).state s' := by
  have hStep := mainStep_of_mainLoop hFires.acts
  exact {
    cleanup := fun hCleanup => cleanup_step hCleanup hStep
    abort := fun hCleanup hNone =>
      ⟨cleanup_step hCleanup hStep, abortOutstanding_step hStep hCleanup hNone⟩
    reduce := fun hCleanup hClosed =>
      ⟨cleanup_step hCleanup hStep, h.reduceOutstanding_fires hFires hCleanup hClosed⟩
    started := barrierStarted_step hStep hStays }

/-! ## Executions that do not end -/

/-- In tree mode, an aborted execution in which no run takes a rank out of the
barrier. -/
structure Caught (cfg : Config n) (g : World n) : Prop where
  tree : cfg.termTree = true
  reach : Execution cfg FifoNet.always g
  flag : ∀ r, (g r).state.abort.abortFlag = true
  room : Room g
  stays : ∀ g', FifoNet.Leads (mainLoop cfg) g g' → ∀ r, (g' r).state.pc.leftBarrier = false

theorem Caught.left_eq (h : Caught cfg g) (r : Fin n) : (g r).state.pc.leftBarrier = false :=
  h.stays g (FifoNet.Leads.refl _ g) r

theorem Caught.early (h : Caught cfg g) (r : Fin n) : (g r).state.pc.early = true :=
  early_of_stays (h.left_eq r)

theorem Caught.fires (h : Caught cfg g) (hFires : FifoNet.Fires (mainLoop cfg) g rank input s' out) :
    Caught cfg (FifoNet.set g rank ((g rank).after input s' out)) where
  tree := h.tree
  reach := h.reach.fires hFires
  flag := by
    apply FifoNet.forall_set (P := fun _ (node : Rank n) => node.state.abort.abortFlag = true)
    · rw [FifoNet.Node.after_state]
      exact (mainStep_of_mainLoop hFires.acts).abortFlag (h.early rank) (h.flag rank)
    · exact fun r _ => h.flag r
  room := h.room.step h.reach (fun _ => h.flag rank) hFires
  stays := fun g' hLeads => h.stays g' (hFires.leads.trans hLeads)

/-- No rank asks for work, and the root begins no round. -/
structure Bounded (cfg : Config n) (bound : Nat) (g : World n) : Prop where
  requests : ∀ r d, ((g r).sent d .workRequest).length ≤ bound
  rounds : (g cfg.tree.root).state.reduce.begun ≤ bound

/-- With the flag up, `requestWork` sends no request. -/
theorem silent_request (hStep : MainStep cfg rank input s s' out)
    (hFlag : s.abort.abortFlag = true) (packet : Packet n) (hOut : out = some packet) :
    packet.tag ≠ .workRequest := by
  by_cases hPc : s.pc = .requestWork
  · cases hStep
    case requestWork turn _ _ hTurn _ =>
      have hTurn := requestTurn_of_eq hTurn
      cases hTurn
      case items =>
        cases hOut
        exact nofun
      case request hAbort _ _ _ =>
        rw [hFlag] at hAbort
        cases hAbort
      all_goals cases hOut
    all_goals simp_all
  · by_cases hReq : s.pc = .workreqCheck
    · cases hStep
      case workreqCheck turn _ _ hTurn _ =>
        have hTurn := workreqTurn_of_eq hTurn
        cases hTurn
        case noWork | header | payload =>
          cases hOut
          exact nofun
        all_goals cases hOut
      all_goals simp_all
    · refine (hStep.silent ?_).out packet hOut
      cases hEq : s.pc <;> simp_all [Pc.tags]

/-- A calm turn of the root begins no round. -/
theorem ReduceTurn.begun_le {sample : Int} {cleanup : Bool} {r : Reduce n}
    {turn : Turn n (Reduce n) Outcome} (hTurn : ReduceTurn cfg rank sample cleanup r input turn)
    (hFits : r.Fits cfg rank cleanup) (hRoot : cfg.tree.parent rank = none)
    (hCalm : calm input = true) (hResult : turn.result ≠ some .failed) :
    turn.record.begun ≤ r.begun := by
  have hRound (x : Reduce n) : (x.endRound sample).rounds.length ≤ x.rounds.length + 1 := by
    rw [Reduce.endRound, List.length_append]
    exact Nat.add_le_add_left Option.length_toList_le _
  have hTaken (hOutstanding : r.reduceOutstanding = true) (hPhase : r.phase = .children []) :
      r.begun = r.rounds.length + 1 := by
    simp [Reduce.begun, Reduce.isTaken, Reduce.isOpen, hOutstanding, hPhase]
  unfold Reduce.Fits at hFits
  cases hTurn
  case fire => cases hCalm
  case begin hParent _ | refuse hParent _ | report hParent _ | reportBare hParent _ |
      sendData hParent _ =>
    rw [hRoot] at hParent
    cases hParent
  case badStart | badHeader | badData => exact (hResult rfl).elim
  case deliver hPhase _ _ _ =>
    rw [hPhase] at hFits
    have hEnd := hRound ({ r with count := r.count + sample } : Reduce n).finalize
    have hSame : ({ r with count := r.count + sample } : Reduce n).finalize.rounds = r.rounds := by
      unfold Reduce.finalize
      split <;> rfl
    rw [hSame] at hEnd
    rw [hTaken hFits.1 hPhase]
    exact hEnd
  case discard hPhase _ _ _ =>
    rw [hPhase] at hFits
    have hEnd := hRound { r with count := r.count + sample }
    rw [hTaken hFits.1 hPhase]
    exact hEnd
  all_goals
    simp_all [Turn.stays, Turn.returns, Turn.sends, Reduce.begun, Reduce.isTaken, Reduce.isOpen,
      Reduce.combineIfValid]

theorem Bounded.fires {bound : Nat} (h : Bounded cfg bound g) (hCaught : Caught cfg g)
    (hFires : FifoNet.Fires (mainLoop cfg) g rank input s' out) (hCalm : calm input = true) :
    Bounded cfg bound (FifoNet.set g rank ((g rank).after input s' out)) where
  requests := by
    apply FifoNet.forall_set (P := fun _ (node : Rank n) => ∀ d, (node.sent d .workRequest).length ≤ bound)
    · intro d
      have hStep := mainStep_of_mainLoop hFires.acts
      rw [FifoNet.Node.after_sent, Log.send_of_tag_ne _ (silent_request hStep (hCaught.flag rank))]
      exact h.requests rank d
    · exact fun r _ => h.requests r
  rounds := by
    by_cases hSelf : cfg.tree.root = rank
    · subst hSelf
      rw [FifoNet.set_self, FifoNet.Node.after_state]
      refine Nat.le_trans ?_ h.rounds
      have hReach := hCaught.reach
      have hStep := mainStep_of_mainLoop hFires.acts
      have hRunning := hReach.running_step hFires.admits hStep
      have hFits := (hReach.reduceShape _ (hReach.running cfg.tree.root)).fits
      have hRoot := (cfg.tree.parent_eq_none_iff cfg.tree.root).mpr rfl
      have hReduceStep := reduceStep_of_mainStep hStep
      cases hReduceStep
      case other hReduce _ _ _ => rw [hReduce]
      case check turn hPc hTurn hReduce _ _ _ hFailed =>
        rw [hReduce]
        exact hTurn.begun_le hFits hRoot hCalm fun hEq => hRunning (hFailed.mp hEq)
      case sync hPc _ _ _ _ _ =>
        have hLeft := hCaught.left_eq cfg.tree.root
        rw [hPc] at hLeft
        cases hLeft
    · rw [FifoNet.set_of_ne _ _ hSelf]
      exact h.rounds

/-! ## The standstill -/

/-- How far the ranks have come: the messages sent and received, and what has
settled. -/
def progress (g : World n) : Nat := ∑ r, ((g r).traffic + (g r).state.settled)

/-- No run from here comes any further. -/
structure Standstill (cfg : Config n) (g : World n) : Prop extends Caught cfg g where
  most : ∀ g', FifoNet.Leads (calmLoop cfg) g g' → progress g' ≤ progress g

theorem Caught.leads (h : Caught cfg g) (hLeads : FifoNet.Leads (mainLoop cfg) g g') :
    Caught cfg g' := by
  have hKeeps : FifoNet.Keeps (mainLoop cfg) (Caught cfg) (Caught cfg) :=
    fun g rank input s' out hCaught _ hFires => hCaught.fires hFires
  exact (hKeeps.leads hKeeps h h hLeads).1

/-- A run that raises no flag and begins no reduction comes to a standstill. -/
theorem Caught.exists_standstill (h : Caught cfg g) :
    ∃ g', FifoNet.Leads (mainLoop cfg) g g' ∧ Standstill cfg g' := by
  let bound := (∑ r, ∑ d, ((g r).sent d .workRequest).length) +
    (g cfg.tree.root).state.reduce.begun
  have hBounded : Bounded cfg bound g := by
    refine ⟨fun r d => ?_, Nat.le_add_left _ _⟩
    refine Nat.le_trans ?_ (Nat.le_add_right _ _)
    refine Nat.le_trans ?_
      (Finset.single_le_sum (fun _ _ => Nat.zero_le _) (Finset.mem_univ r))
    exact Finset.single_le_sum (f := fun d => ((g r).sent d .workRequest).length)
      (fun _ _ => Nat.zero_le _) (Finset.mem_univ d)
  have hCaughtKeeps : FifoNet.Keeps (calmLoop cfg) (Caught cfg) (Caught cfg) :=
    fun g rank input s' out hCaught _ hFires => hCaught.fires hFires.of_only.2
  have hBoundedKeeps : FifoNet.Keeps (calmLoop cfg) (Caught cfg) (Bounded cfg bound) :=
    fun g rank input s' out hCaught hBounded hFires =>
      hBounded.fires hCaught hFires.of_only.2 hFires.of_only.1
  -- calm runs ask for no work and begin no round, which bounds all other messages
  have hBound (g' : World n) (hLeads : FifoNet.Leads (calmLoop cfg) g g') :
      progress g' ≤ ∑ _r : Fin n,
        ((∑ _d : Fin n, ∑ _t : Tag, 2 * (2 * bound + 3)) + 4) := by
    obtain ⟨hCaught, hLess⟩ := hCaughtKeeps.leads hBoundedKeeps h hBounded hLeads
    refine Finset.sum_le_sum fun r _ => Nat.add_le_add ?_ (State.settled_le _)
    exact hCaught.reach.fifo.traffic_le
      (hCaught.reach.sent_le hCaught.tree hLess.requests hLess.rounds) r
  obtain ⟨g', hLeads, hMost⟩ := FifoNet.exists_maximal progress hBound
  exact ⟨g', hLeads.of_only, h.leads hLeads.of_only, hMost⟩

/-- A calm turn at a standstill sends and receives nothing, and settles nothing. -/
theorem Standstill.fires (h : Standstill cfg g)
    (hFires : FifoNet.Fires (mainLoop cfg) g rank input s' out) (hCalm : calm input = true) :
    out = none ∧ (∀ src tag msg, input ≠ .recv src tag msg) ∧ Settles s' (g rank).state ∧
      Standstill cfg (FifoNet.set g rank ((g rank).after input s' out)) := by
  have hCaught := h.toCaught.fires hFires
  have hLeads := (hFires.only hCalm : FifoNet.Fires (calmLoop cfg) g rank input s' out).leads
  have hLe := h.most _ hLeads
  have hSettles : Settles (g rank).state s' := by
    refine h.reach.settles hFires ?_
    have hStays := hCaught.left_eq rank
    rwa [FifoNet.set_self, FifoNet.Node.after_state] at hStays
  -- otherwise this turn would have come further than any run can
  have hOwn : ((g rank).after input s' out).traffic + s'.settled ≤
      (g rank).traffic + (g rank).state.settled := by
    by_contra hMore
    rw [Nat.not_le] at hMore
    refine Nat.not_lt.mpr hLe ?_
    refine FifoNet.sum_lt_of_others (f := fun _ (node : Rank n) => node.traffic + node.state.settled)
      (i := rank) (fun r hNe => (FifoNet.set_of_ne _ _ hNe).symm) ?_
    rw [FifoNet.set_self]
    exact hMore
  have hTraffic := (g rank).traffic_le_after input s' out
  have hSame := hSettles.le
  have hQuiet : ((g rank).after input s' out).traffic ≤ (g rank).traffic := by omega
  obtain ⟨hOut, hInput⟩ := (g rank).silent_of_traffic_le hQuiet
  refine ⟨hOut, hInput, hSettles.symm (by omega), hCaught, fun g' hNext => ?_⟩
  · refine Nat.le_trans (h.most g' (hLeads.trans hNext)) ?_
    refine Finset.sum_le_sum fun r _ => ?_
    by_cases hSelf : r = rank
    · subst hSelf
      rw [FifoNet.set_self]
      exact Nat.add_le_add hTraffic hSame
    · rw [FifoNet.set_of_ne _ _ hSelf]

end Circle
