import Circle.Protocol.Standstill

/-!
# Ranks that go round

At a standstill every rank goes round its loop, the work loop or the cleanup
loop, without a message.  It comes to every function of the loop, at the start of
that function.
-/

namespace Circle

open FifoNet (Log inFlight)

variable {n : Nat} {cfg : Config n} {rank : Fin n} {input : Input n} {s s' : State n}
  {out : Option (Packet n)} {g g' g'' : World n} {r : Fin n}

/-! ## Starts of functions -/

/-- No function is under way. -/
structure Fresh (s : State n) : Prop where
  replying : s.work.replying = false
  receiving : s.work.receiving = none
  term : s.term.phase = .children
  barrier : s.barrier.phase = .children
  abort : s.abort.phase = .start ∧ s.abort.toSend = []
  reduce : s.reduce.phase = .start

/-- What a turn leaves alone, as it belongs to other functions. -/
structure Framed (s s' : State n) : Prop where
  replying : s.pc ≠ .workreqCheck → s'.work.replying = s.work.replying
  receiving : s.pc ≠ .requestWork → s'.work.receiving = s.work.receiving
  term : s.pc ≠ .checkForTermAllReduce → s'.term.phase = s.term.phase
  barrier : s.pc ≠ .barrierTest → s'.barrier.phase = s.barrier.phase
  abort : s.pc ≠ .abortCheck →
    s'.abort.phase = s.abort.phase ∧ s'.abort.toSend = s.abort.toSend
  reduce : s.pc ≠ .reduceCheck → s.pc ≠ .reduceSync → s'.reduce.phase = s.reduce.phase

theorem framed_of_step (hStep : MainStep cfg rank input s s' out) : Framed s s' := by
  cases hStep
  case workreqCheck hPc hTurn _ =>
    have hSame := (workreqTurn_of_eq hTurn).receiving_eq
    constructor <;> simp [hPc, hSame]
  case workreceiptCheck hPc hTurn _ =>
    obtain ⟨outstanding, hWork⟩ := (receiptTurn_of_eq hTurn).work_eq
    constructor <;> simp [hWork]
  case requestWork hPc hTurn _ =>
    have hSame := (requestTurn_of_eq hTurn).replying_eq
    constructor <;> simp [hPc, hSame]
  case callback hWork =>
    obtain ⟨result, -, rfl⟩ := Option.map_eq_some_iff.mp hWork
    constructor <;> simp
  case barrierStart =>
    constructor <;> simp only [ne_eq, implies_true, and_self]
    split <;> simp [Barrier.barrierStart]
  all_goals constructor <;> simp [*]

/-- A rank that is taken out of a function, or into it, is not inside it: what is under
way belongs to the function where the rank is. -/
theorem rests_of_moved {B : State n → Prop} {pc : Pc} (hMoved : s'.pc ≠ s.pc)
    (hNext : B s' → s'.pc = pc) (hFramed : s.pc ≠ pc → B s' → B s) (hOld : B s → s.pc = pc) :
    ¬ B s' := by
  intro hBusy
  have hAt := hNext hBusy
  have hOff : s.pc ≠ pc := fun hPc => hMoved (hAt.trans hPc.symm)
  exact hOff (hOld (hFramed hOff hBusy))

/-- A turn that takes a rank to another function takes it to its start. -/
theorem fresh_of_step (hPhases : Phases s) (hStep : MainStep cfg rank input s s' out)
    (hMoved : s'.pc ≠ s.pc) (hStays : s.pc.leftBarrier = false ∧ s'.pc.leftBarrier = false)
    (hRunning : s.pc ≠ .failed ∧ s'.pc ≠ .failed) : Fresh s' := by
  have hNext := phases_step hPhases hStep
  have hFramed := framed_of_step hStep
  have hSync (pc : Pc) (hLeft : pc.leftBarrier = false) : pc ≠ .reduceSync := by
    rintro rfl
    cases hLeft
  constructor
  case replying =>
    by_contra hBusy
    rw [Bool.not_eq_false] at hBusy
    exact rests_of_moved (B := fun s : State n => s.work.replying = true) hMoved hNext.replying
      (fun hOff hTrue => hFramed.replying hOff ▸ hTrue) hPhases.replying hBusy
  case receiving =>
    by_contra hBusy
    have hAt (hSome : s'.work.receiving ≠ none) := (hNext.receiving hSome).resolve_right hRunning.2
    have hBefore (hSome : s.work.receiving ≠ none) :=
      (hPhases.receiving hSome).resolve_right hRunning.1
    exact rests_of_moved (B := fun s : State n => s.work.receiving ≠ none) hMoved hAt
      (fun hOff hSome => hFramed.receiving hOff ▸ hSome) hBefore hBusy
  case term =>
    by_contra hBusy
    exact rests_of_moved (B := fun s : State n => s.term.phase ≠ .children) hMoved hNext.term
      (fun hOff hPhase => hFramed.term hOff ▸ hPhase) hPhases.term hBusy
  case barrier =>
    by_contra hBusy
    exact rests_of_moved (B := fun s : State n => s.barrier.phase ≠ .children) hMoved hNext.barrier
      (fun hOff hPhase => hFramed.barrier hOff ▸ hPhase) hPhases.barrier hBusy
  case abort =>
    by_contra hBusy
    rw [Decidable.not_and_iff_not_or_not] at hBusy
    refine rests_of_moved (B := fun s : State n => s.abort.phase ≠ .start ∨ s.abort.toSend ≠ [])
      hMoved hNext.abort (fun hOff hEither => ?_) hPhases.abort hBusy
    rwa [(hFramed.abort hOff).1, (hFramed.abort hOff).2] at hEither
  case reduce =>
    by_contra hBusy
    have hAt (hPhase : s'.reduce.phase ≠ .start) := (hNext.reduce hPhase).resolve_right
      (not_or.mpr ⟨hSync _ hStays.2, hRunning.2⟩)
    have hBefore (hPhase : s.reduce.phase ≠ .start) := (hPhases.reduce hPhase).resolve_right
      (not_or.mpr ⟨hSync _ hStays.1, hRunning.1⟩)
    exact rests_of_moved (B := fun s : State n => s.reduce.phase ≠ .start) hMoved hAt
      (fun hOff hPhase => hFramed.reduce hOff (hSync _ hStays.1) ▸ hPhase) hBefore hBusy

/-! ## Turns at a standstill -/

/-- With the flag up, a rank that neither sends nor receives keeps its queue. -/
theorem queue_of_silent (hStep : MainStep cfg rank input s s' none)
    (hInput : ∀ src tag msg, input ≠ .recv src tag msg) (hFlag : s.abort.abortFlag = true) :
    s'.work.queue = s.work.queue := by
  by_cases hPc : s.pc = .process
  · rw [(work_of_process hStep hPc hFlag).1]
  · have hWork := workStep_of_mainStep hStep
    generalize hOut : (none : Option (Packet n)) = out at hWork
    generalize s'.work = w' at hWork ⊢
    cases hWork
    case other => rfl
    case workreq hTurn =>
      cases hTurn
      case payload => cases hOut
      all_goals rfl
    case receipt hTurn => cases hTurn <;> rfl
    case request hTurn =>
      cases hTurn
      case items => cases hOut
      all_goals rfl
    case callback hProcess _ _ => exact (hPc hProcess).elim

/-- Rank `r` alone takes the system from `g` to `g'`, without a message and without
settling anything. -/
structure Drifts (cfg : Config n) (r : Fin n) (g g' : World n) : Prop where
  still : Standstill cfg g'
  leads : FifoNet.Leads (mainLoop cfg) g g'
  others : ∀ q, q ≠ r → g' q = g q
  sent : (g' r).sent = (g r).sent
  rcvd : (g' r).rcvd = (g r).rcvd
  queue : (g' r).state.work.queue = (g r).state.work.queue
  settles : Settles (g r).state (g' r).state
  settles' : Settles (g' r).state (g r).state

theorem Settles.refl (s : State n) : Settles s s where
  cleanup := id
  abort := fun hCleanup hNone => ⟨hCleanup, hNone⟩
  reduce := fun hCleanup hClosed => ⟨hCleanup, hClosed⟩
  started := id

theorem Drifts.refl (h : Standstill cfg g) (r : Fin n) : Drifts cfg r g g where
  still := h
  leads := FifoNet.Leads.refl _ g
  others := fun _ _ => rfl
  sent := rfl
  rcvd := rfl
  queue := rfl
  settles := .refl _
  settles' := .refl _

theorem Settles.trans {s'' : State n} (h : Settles s s') (h' : Settles s' s'') :
    Settles s s'' where
  cleanup := fun hCleanup => h'.cleanup (h.cleanup hCleanup)
  abort := fun hCleanup hNone => h'.abort (h.abort hCleanup hNone).1 (h.abort hCleanup hNone).2
  reduce := fun hCleanup hClosed =>
    h'.reduce (h.reduce hCleanup hClosed).1 (h.reduce hCleanup hClosed).2
  started := fun hStarted => h'.started (h.started hStarted)

theorem Drifts.trans (h : Drifts cfg r g g') (h' : Drifts cfg r g' g'') : Drifts cfg r g g'' where
  still := h'.still
  leads := h.leads.trans h'.leads
  others := fun q hNe => (h'.others q hNe).trans (h.others q hNe)
  sent := h'.sent.trans h.sent
  rcvd := h'.rcvd.trans h.rcvd
  queue := h'.queue.trans h.queue
  settles := h.settles.trans h'.settles
  settles' := h'.settles'.trans h.settles'

theorem Drifts.cleanup_eq (h : Drifts cfg r g g') :
    (g' r).state.cleanup = (g r).state.cleanup :=
  Bool.eq_iff_iff.mpr ⟨h.settles'.cleanup, h.settles.cleanup⟩

/-- What all ranks have sent and received is the same. -/
theorem Drifts.logs_eq (h : Drifts cfg r g g') (q : Fin n) :
    (g' q).sent = (g q).sent ∧ (g' q).rcvd = (g q).rcvd := by
  by_cases hSelf : q = r
  · subst hSelf
    exact ⟨h.sent, h.rcvd⟩
  · rw [h.others q hSelf]
    exact ⟨rfl, rfl⟩

theorem Drifts.inFlight_eq (h : Drifts cfg r g g') (src dst : Fin n) (tag : Tag) :
    inFlight g' src dst tag = inFlight g src dst tag := by
  unfold inFlight
  rw [(h.logs_eq src).1, (h.logs_eq dst).2]

/-- A rank can go on by itself, if it sends nothing. -/
theorem Standstill.tick (h : Standstill cfg g) {choice : Choice n}
    (hActs : mainLoop cfg r (.tick choice) (g r).state = some (s', none))
    (hCalm : calm (.tick choice : Input n) = true) :
    ∃ g', Drifts cfg r g g' ∧ (g' r).state = s' := by
  have hFires : FifoNet.Fires (mainLoop cfg) g r (.tick choice) s' none := ⟨True.intro, hActs⟩
  obtain ⟨-, hInput, hBack, hStill⟩ := h.fires hFires hCalm
  have hStays := hStill.left_eq r
  rw [FifoNet.set_self, FifoNet.Node.after_state] at hStays
  refine ⟨FifoNet.set g r ((g r).after (.tick choice) s' none), ?_, by
    rw [FifoNet.set_self, FifoNet.Node.after_state]⟩
  exact {
    still := hStill
    leads := hFires.leads
    others := fun q hNe => FifoNet.set_of_ne _ _ hNe
    sent := by rw [FifoNet.set_self, FifoNet.Node.after_sent, Log.send_none]
    rcvd := by rw [FifoNet.set_self, FifoNet.Node.after_rcvd, Log.receive_tick]
    queue := by
      rw [FifoNet.set_self, FifoNet.Node.after_state]
      exact queue_of_silent (mainStep_of_mainLoop hActs) hInput (h.flag r)
    settles := by
      rw [FifoNet.set_self, FifoNet.Node.after_state]
      exact h.reach.settles hFires hStays
    settles' := by
      rw [FifoNet.set_self, FifoNet.Node.after_state]
      exact hBack }

/-- No rank can send. -/
theorem Standstill.no_send (h : Standstill cfg g) {choice : Choice n} {packet : Packet n}
    (hActs : mainLoop cfg r (.tick choice) (g r).state = some (s', some packet))
    (hCalm : calm (.tick choice : Input n) = true) : False := by
  have hFires : FifoNet.Fires (mainLoop cfg) g r (.tick choice) s' (some packet) :=
    ⟨True.intro, hActs⟩
  cases (h.fires hFires hCalm).1

/-- No rank sends by itself. -/
theorem Standstill.silent (h : Standstill cfg g) (r : Fin n) :
    ¬ ∃ s' packet, mainLoop cfg r (.tick .go) (g r).state = some (s', some packet) := by
  rintro ⟨s', packet, hActs⟩
  exact h.no_send hActs rfl

/-- No rank can receive. -/
theorem Standstill.no_recv (h : Standstill cfg g) {src : Fin n} {tag : Tag} {msg : Msg}
    (hAdmits : FifoNet.Admits g r (.recv src tag msg : Input n)) :
    mainLoop cfg r (.recv src tag msg) (g r).state = none := by
  by_contra hActs
  obtain ⟨⟨s', out⟩, hActs⟩ := Option.ne_none_iff_exists'.mp hActs
  exact (h.fires ⟨hAdmits, hActs⟩ rfl).2.1 src tag msg rfl

/-! ## Replies -/

/-- The last items of a queue with room can be sent. -/
theorem Stock.exists_sendWork {w : Work n} (h : Stock w) (hItems : w.queue.count + 4097 ≤ intMax)
    (hBytes : w.queue.head ≤ intMax) (hOffsets : w.offsetsCount ≤ intMax) {count : Nat}
    (hCount : count ≠ 0) (hLe : count ≤ w.queue.count) :
    w.queue.segmentBytes count ≤ intMax ∧
      ∃ sent, sendWork w.offsetsCount w.queue count = some sent := by
  have hHolds := h.inv.holds
  have hLength := hHolds.count_eq
  obtain ⟨front, back, hSplit, hBack, hNe, hDrop, -⟩ :=
    exists_back hCount (show count ≤ w.queue.items.length from hLength ▸ hLe)
  rw [hSplit] at hHolds
  have hHead := hHolds.head_eq
  rw [List.flatten_append, List.length_append] at hHead
  have hSegment : back.flatten.length ≤ intMax := by omega
  have hGrows : (extendOffsets w.offsetsCount (2 + count)).isSome :=
    (extendOffsets_isSome_iff hOffsets (by omega)).mpr (growthFits_of_room hOffsets (by omega))
  obtain ⟨capacity, hCapacity⟩ := Option.isSome_iff_exists.mp hGrows
  refine ⟨?_, ?_⟩
  · rwa [Queue.segmentBytes, hLength, hDrop]
  · have hSend := hHolds.sendWork hNe hSegment w.offsetsCount
    rw [hBack, intAdd_eq_some (show 2 + count ≤ intMax by omega), Option.bind_some, hCapacity] at hSend
    exact ⟨_, hSend⟩

theorem mainLoop_of_sends (hPc : s.pc = .workreqCheck) {record : Work n × Color} {dst : Fin n}
    {tag : Tag} {msg : Msg}
    (hTurn : s.work.workreqCheck cfg rank s.cleanup s.abort.abortFlag s.token.tokenProc (.tick .go) =
      some (.sends record dst tag msg)) :
    ∃ s' packet, mainLoop cfg rank (.tick .go) s = some (s', some packet) := by
  simp [mainLoop, hPc, hTurn, Turn.sends]

/-- A rank that is replying sends the next message. -/
theorem Caught.exists_reply (h : Caught cfg g) (hPc : (g r).state.pc = .workreqCheck)
    (hReplying : (g r).state.work.replying = true) {dest : Fin n} {requestors : List (Fin n)}
    (hRequestors : (g r).state.work.requestors = dest :: requestors) :
    ∃ s' packet, mainLoop cfg r (.tick .go) (g r).state = some (s', some packet) := by
  have hStock := (h.reach.workInv r).stock
  have hLength := hStock.shares_length hReplying
  have hSum := hStock.shares_sum hReplying
  rw [hRequestors, List.length_cons] at hLength
  obtain ⟨count, shares, hShares⟩ := List.exists_cons_of_length_eq_add_one hLength
  rw [hShares, List.sum_cons] at hSum
  cases hSending : (g r).state.work.sending with
  | some sent =>
      exact mainLoop_of_sends hPc (workreqCheck_payload _ _ _ _ _ hReplying hSending hRequestors hShares)
  | none =>
      by_cases hCount : count = 0
      · subst hCount
        exact mainLoop_of_sends hPc (workreqCheck_noWork _ _ _ _ _ hReplying hSending hRequestors hShares)
      · obtain ⟨hSegment, sent, hSend⟩ := hStock.exists_sendWork (h.room.items r) (h.room.bytes r)
          (h.reach.offsets_le r) hCount (by omega)
        exact mainLoop_of_sends hPc
          (workreqCheck_header _ _ _ _ _ hReplying hSending hRequestors hShares hCount hSegment hSend)

/-- At a standstill no rank is replying to anybody. -/
theorem Standstill.requestors_of_replying (h : Standstill cfg g)
    (hReplying : (g r).state.work.replying = true) : (g r).state.work.requestors = [] := by
  have hPc := (h.reach.control r).phases.replying hReplying
  cases hRequestors : (g r).state.work.requestors with
  | nil => rfl
  | cons dest requestors =>
      exact (h.silent r (h.exists_reply hPc hReplying hRequestors)).elim

theorem mainLoop_of_requestWork (hPc : s.pc = .requestWork) {src : Fin n} {msg : Msg}
    (hTurn : (s.work.requestWork cfg rank s.cleanup s.abort.abortFlag
      (.recv src .workReply msg)).isSome) :
    (mainLoop cfg rank (.recv src .workReply msg) s).isSome := by
  simpa [mainLoop, hPc] using hTurn

/-- A rank in `requestWork` can receive the next message of the rank it has asked. -/
theorem Caught.can_receive (h : Caught cfg g) (hPc : (g r).state.pc = .requestWork)
    (hRequested : (g r).state.work.workRequested = true) {src : Fin n}
    (hTarget : (g r).state.work.workRequestedRank = some src) {msg : Msg}
    (hAdmits : FifoNet.Admits g r (.recv src .workReply msg : Input n)) :
    (mainLoop cfg r (.recv src .workReply msg) (g r).state).isSome := by
  refine mainLoop_of_requestWork hPc ?_
  have hInv := h.reach.workInv r
  have hOk := replies_ok_of_admits h.reach.fifo h.reach.workInv hAdmits src msg rfl
  cases hReceiving : (g r).state.work.receiving with
  | some header =>
      obtain ⟨items, hItems, rfl, rfl⟩ := hInv.payload_of_ok hReceiving hTarget hOk
      obtain ⟨queue, hReceive, -⟩ := hInv.items cfg.page hItems hReceiving hTarget
      simp only [Work.requestWork, hReceiving, hTarget, if_true, Work.receiveItems, hReceive,
        Option.map_some, Option.isSome_some]
  | none =>
      have hWaiting : (g r).state.work.waiting src = none := by
        simp [Work.waiting, hReceiving]
      rw [(hInv.ledger src).waiting_eq, hWaiting] at hOk
      obtain ⟨items, rest, rfl⟩ := replies_ok_none hOk
      have hFits := h.room.flight src r _ (FifoNet.mem_inFlight_of_admits hAdmits)
      have hGrows := (extendOffsets_isSome_iff (h.reach.offsets_le r) (by omega)).mpr
        (growthFits_of_room (h.reach.offsets_le r) hFits)
      simpa only [Work.requestWork, hReceiving, hRequested, hTarget, if_true, Work.receiveHeader,
        Option.isSome_map] using hGrows

/-- At a standstill no rank waits for the bytes of a reply. -/
theorem Standstill.receiving_eq (h : Standstill cfg g) (r : Fin n) :
    (g r).state.work.receiving = none := by
  cases hReceiving : (g r).state.work.receiving with
  | none => rfl
  | some header =>
      have hReach := h.reach
      have hPc := ((hReach.control r).phases.receiving (by simp [hReceiving])).resolve_right
        (hReach.running r)
      have hRequested := (hReach.workInv r).stock.receiving (by simp [hReceiving])
      rcases requested_or_unrequested hReach.fifo hReach.workInv r with hNone | ⟨d, hAsked⟩
      · rw [hNone.requested] at hRequested
        cases hRequested
      · have hWaiting : (g r).state.work.waiting d = some header := by
          simp [Work.waiting, hAsked.target, hReceiving]
        obtain ⟨place, hAt, -⟩ := hAsked.place
        by_cases hReply : place = .reply
        · have hFlight := hAt.reply hReply
          rw [hWaiting] at hFlight
          generalize hOpened : (g d).state.work.opened r = opened at hFlight
          generalize hLog : inFlight g d r .workReply = log at hFlight
          cases hFlight
          case pause =>
            -- the rank that was asked sends the bytes
            have hSending : (g d).state.work.sending ≠ none := by
              intro hNone
              rw [Work.opened_of_none hNone] at hOpened
              cases hOpened
            obtain ⟨sent, hSent⟩ := Option.ne_none_iff_exists'.mp hSending
            have hReplying := ((hReach.workInv d).stock.sending sent hSent).1
            have hNobody := h.requestors_of_replying hReplying
            simp [Work.opened, hNobody] at hOpened
          case bytes items hItems =>
            have hAdmits : FifoNet.Admits g r (.recv d .workReply (.chars items.flatten) : Input n) :=
              ⟨[], hLog⟩
            have hCan := h.toCaught.can_receive hPc hRequested hAsked.target hAdmits
            rw [h.no_recv hAdmits] at hCan
            cases hCan
        · rw [(hAt.noReply hReply).2.1] at hWaiting
          cases hWaiting

/-! ## Reports -/

theorem ReduceTurn.parent_of_sendData {sample : Int} {cleanup : Bool} {x : Reduce n}
    {turn : Turn n (Reduce n) Outcome} (hTurn : ReduceTurn cfg rank sample cleanup x input turn)
    (h : x.phase = .sendData → cfg.tree.parent rank ≠ none) (hResult : turn.result ≠ some .failed)
    (hPhase : turn.record.phase = .sendData) : cfg.tree.parent rank ≠ none := by
  cases hTurn
  case report hParent _ => simp [hParent]
  case badStart | badHeader | badData => exact (hResult rfl).elim
  all_goals first | exact h hPhase | cases hPhase

/-- A rank that sends a report has a parent. -/
theorem Execution.parent_of_sendData {ok : World n → Fin n → Event n → Prop}
    (h : Execution cfg ok g) (r : Fin n) :
    (g r).state.reduce.phase = .sendData → cfg.tree.parent r ≠ none := by
  refine h.forall_rank (L := fun r node => node.state.reduce.phase = .sendData →
    cfg.tree.parent r ≠ none) ?_ ?_ r
  · intro rank start hPhase
    cases hPhase
  · intro g rank input s' out hReach hAll hAdmits hStep hPhase
    have hRunning := hReach.running_step hAdmits hStep
    have hReduceStep := reduceStep_of_mainStep hStep
    rw [FifoNet.Node.after_state] at hPhase
    cases hReduceStep
    case other hReduce _ _ _ =>
      rw [hReduce] at hPhase
      exact hAll rank hPhase
    case check turn hPc hTurn hReduce _ _ _ hFailed =>
      rw [hReduce] at hPhase
      exact hTurn.parent_of_sendData (hAll rank) (fun hEq => hRunning (hFailed.mp hEq)) hPhase
    case sync turn hPc hTurn hReduce _ _ hNext =>
      rw [hReduce] at hPhase
      have hFits := (hReach.reduceShape rank (hReach.running rank)).checkPlace hPc
      cases hTurn <;> simp_all [Turn.stays, Turn.returns, Turn.sends, Turn.sendsAndReturns]

/-- A rank in the middle of a reduction is in `reduceCheck`. -/
theorem Caught.reducing (h : Caught cfg g) (hBusy : (g r).state.reduce.phase ≠ .start) :
    (g r).state.pc = .reduceCheck := by
  have hLeft := h.left_eq r
  rcases (h.reach.control r).phases.reduce hBusy with hPc | hPc | hPc
  · exact hPc
  · rw [hPc] at hLeft
    cases hLeft
  · exact (h.reach.running r hPc).elim

/-- At a standstill no rank is about to send the user data of a report. -/
theorem Standstill.not_sendData (h : Standstill cfg g) (r : Fin n) :
    (g r).state.reduce.phase ≠ .sendData := by
  intro hPhase
  have hReach := h.reach
  have hShape := hReach.reduceShape r (hReach.running r)
  have hPc := h.reducing (r := r) (by simp [hPhase])
  have hFits := hShape.fits
  rw [Reduce.Fits, hPhase] at hFits
  obtain ⟨-, buf, hBuf⟩ := hShape.buffers (Or.inl hFits.1)
  obtain ⟨p, hParent⟩ := Option.ne_none_iff_exists'.mp (hReach.parent_of_sendData r hPhase)
  apply h.silent r
  simp [mainLoop, hPc, Reduce.reduceCheck, hPhase, hParent, hBuf, Turn.sendsAndReturns]

/-- A rank that waits for the user data of a report takes whatever the child sends. -/
theorem Reduce.isSome_reduceCheck_data {x : Reduce n} {child : Fin n} {bytes : Int}
    {rest : List (Fin n)} (hPhase : x.phase = .data child bytes rest) (sample : Int)
    (cleanup : Bool) (msg : Msg) :
    (x.reduceCheck cfg rank sample cleanup (.recv child .reduce msg)).isSome := by
  cases msg with
  | data inbuf =>
      by_cases hLength : (inbuf.bytes.length : Int) = bytes <;>
        simp [Reduce.reduceCheck, hPhase, hLength]
  | empty | ints | chars | color | flag | longs => simp [Reduce.reduceCheck, hPhase]

/-- At a standstill no rank waits for the user data of a report. -/
theorem Standstill.not_data (h : Standstill cfg g) (r : Fin n) {child : Fin n} {bytes : Int}
    {rest : List (Fin n)} : (g r).state.reduce.phase ≠ .data child bytes rest := by
  intro hPhase
  have hReach := h.reach
  have hShape := hReach.reduceShape r (hReach.running r)
  have hPc := h.reducing (r := r) (by simp [hPhase])
  have hFits := hShape.fits
  rw [Reduce.Fits, hPhase] at hFits
  have hChild := hFits.2.subset List.mem_cons_self
  obtain ⟨hInv, -⟩ := hReach.reductions
  obtain ⟨order, hGathers⟩ := (hInv r).gathers
  obtain ⟨-, count, hAfter⟩ := hGathers.current child bytes (by simp [Reduce.current, hPhase])
  have hUpward := (hInv child).upward r (cfg.tree.parent_of_mem hChild)
  -- the child has sent the user data
  have hUnsent : (g child).state.reduce.sendsReport = false := by
    have hSync : (g child).state.reduce.phase ≠ .syncSendData := by
      intro hSync
      have hPlace := (hReach.reduceShape child (hReach.running child)).syncPlace
        (by rw [hSync]; rfl)
      have hLeft := h.left_eq child
      rw [hPlace] at hLeft
      cases hLeft
    simp [Reduce.sendsReport, h.not_sendData child, hSync]
  have hDiffer : inFlight g child r .reduce ≠ [] := by
    intro hNone
    rw [hReach.fifo.inFlight_eq_nil_iff] at hNone
    have hEnd := hUpward.after_eq
    rw [← hNone, hAfter, Reduce.unsent, hUnsent] at hEnd
    cases hEnd
  obtain ⟨msg, log, hLog⟩ := List.exists_cons_of_ne_nil hDiffer
  have hNone := h.no_recv (show FifoNet.Admits g r (.recv child .reduce msg : Input n) from
    ⟨log, hLog⟩)
  simp only [mainLoop, hPc, Option.map_eq_none_iff] at hNone
  exact Option.isSome_iff_ne_none.mp (Reduce.isSome_reduceCheck_data hPhase _ _ msg) hNone

end Circle
