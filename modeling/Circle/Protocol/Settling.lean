import Circle.Protocol.Laps

/-!
# What is settled at a standstill

A rank that goes round comes to every receive of its loop, so that nothing it
would take is under way to it.  Hence no rank waits for work or for a receipt,
and all ranks have terminated.
-/

namespace Circle

open FifoNet (Log inFlight)

variable {n : Nat} {cfg : Config n} {rank : Fin n} {input : Input n} {s s' : State n}
  {out : Option (Packet n)} {g g' : World n} {r : Fin n}

/-! ## Messages that would be taken -/

/-- The rule for what is under way at a standstill: nothing that the receiver
takes somewhere in its loop, -/
theorem Drifts.flight_eq (h : Drifts cfg r g g') {src : Fin n} {tag : Tag}
    (hTakes : ∀ msg, FifoNet.Admits g' r (.recv src tag msg : Input n) →
      (mainLoop cfg r (.recv src tag msg) (g' r).state).isSome) : inFlight g src r tag = [] := by
  by_contra hSome
  rw [← h.inFlight_eq] at hSome
  obtain ⟨msg, log, hLog⟩ := List.exists_cons_of_ne_nil hSome
  have hAdmits : FifoNet.Admits g' r (.recv src tag msg : Input n) := ⟨log, hLog⟩
  have hTaken := hTakes msg hAdmits
  rw [h.still.no_recv hAdmits] at hTaken
  cases hTaken

/-- in particular at the start of some function of it. -/
theorem Standstill.flight_eq (h : Standstill cfg g) {src : Fin n} {tag : Tag} {pc : Pc}
    (hLoop : (g r).state.inLoop cfg pc = true)
    (hTakes : ∀ g' msg, Drifts cfg r g g' → (g' r).state.pc = pc → Fresh (g' r).state →
      FifoNet.Admits g' r (.recv src tag msg : Input n) →
        (mainLoop cfg r (.recv src tag msg) (g' r).state).isSome) : inFlight g src r tag = [] := by
  obtain ⟨g', hDrift, hPc, hFresh⟩ := h.comes_to hLoop
  exact hDrift.flight_eq fun msg hAdmits => hTakes g' msg hDrift hPc hFresh hAdmits

/-- A rank that takes the replies of its children has them all, if all of them
have sent theirs. -/
theorem Drifts.replies_eq (h : Drifts cfg r g g') {tag : Tag} {w : Wave.Counters (Fin n)}
    (hInv : Wave.Inv cfg.tree r w (counts (g' r).sent tag) (counts (g' r).rcvd tag))
    (hClosed : w.closed = 0) (hSent : ∀ c ∈ cfg.tree.children r, 1 ≤ ((g c).sent r tag).length)
    (hTakes : w.replies < (cfg.tree.children r).length → ∀ c msg,
      FifoNet.Admits g' r (.recv c tag msg : Input n) →
        (mainLoop cfg r (.recv c tag msg) (g' r).state).isSome) :
    w.replies = (cfg.tree.children r).length := by
  by_contra hNot
  have hOpen := Nat.lt_of_le_of_ne hInv.replies_le hNot
  obtain ⟨c, hMem, hMissing⟩ := hInv.exists_missing hOpen
  -- the message of this child is under way
  have hNone : ((g' r).rcvd c tag).length = 0 := hMissing.trans hClosed
  have hOne : 1 ≤ ((g' c).sent r tag).length := by
    rw [h.others c (cfg.tree.ne_of_parent (cfg.tree.parent_of_mem hMem)).symm]
    exact hSent c hMem
  have hLess : ((g' r).rcvd c tag).length < ((g' c).sent r tag).length := by omega
  obtain ⟨msg, hAdmits⟩ := FifoNet.exists_admits hLess
  have hTaken := hTakes hOpen c msg hAdmits
  rw [h.still.no_recv hAdmits] at hTaken
  cases hTaken

/-! ## Work -/

theorem Standstill.request_eq (h : Standstill cfg g) (src dst : Fin n) :
    inFlight g src dst .workRequest = [] := by
  apply h.flight_eq (show (g dst).state.inLoop cfg .workreqCheck = true from rfl)
  intro g' msg _ hPc hFresh _
  simp [mainLoop, hPc, Work.workreqCheck, hFresh.replying, Turn.stays]

/-- A reply goes to a rank that waits for it. -/
theorem Execution.requested_of_reply {ok : World n → Fin n → Event n → Prop}
    (h : Execution cfg ok g) {src : Fin n} (hSome : inFlight g src r .workReply ≠ []) :
    (g r).state.work.workRequested = true ∧ (g r).state.work.workRequestedRank = some src := by
  rcases requested_or_unrequested h.fifo h.workInv r with hNone | ⟨d, hAsked⟩
  · exact (hSome (hNone.nothing src).reply).elim
  · by_cases hTarget : src = d
    · subst hTarget
      exact ⟨hAsked.requested, hAsked.target⟩
    · exact (hSome (hAsked.nothing src hTarget).reply).elim

theorem Standstill.reply_eq (h : Standstill cfg g) (src dst : Fin n) :
    inFlight g src dst .workReply = [] := by
  by_contra hSome
  obtain ⟨hRequested, -⟩ := h.reach.requested_of_reply hSome
  have hEmpty := (h.reach.workInv dst).stock.empty hRequested
  have hLoop : (g dst).state.inLoop cfg .requestWork = true := by
    simp [State.inLoop, Pc.inLoop, hEmpty]
  refine hSome (h.flight_eq hLoop fun g' msg hDrift hPc _ hAdmits => ?_)
  obtain ⟨hWaits, hTarget⟩ := hDrift.still.reach.requested_of_reply
    (List.ne_nil_of_mem (FifoNet.mem_inFlight_of_admits hAdmits))
  exact hDrift.still.can_receive hPc hWaits hTarget hAdmits

/-- At a standstill no rank waits for work. -/
theorem Standstill.requested_eq (h : Standstill cfg g) (r : Fin n) :
    (g r).state.work.workRequested = false := by
  by_contra hRequested
  rw [Bool.not_eq_false] at hRequested
  obtain ⟨d, hTarget⟩ := (h.reach.workInv r).stock.target hRequested
  -- the rank that was asked looks for requests, and finds none
  obtain ⟨g', hDrift, hPc, hFresh⟩ :=
    h.comes_to (show (g d).state.inLoop cfg .workreqCheck = true from rfl)
  have hStill := hDrift.still
  have hReach := hStill.reach
  have hRequestors := hStill.requestors_eq hPc
  obtain ⟨hAccepts, hAfter⟩ := accepts_inFlight hReach.fifo hReach.workInv r d
  have hWaiting : (g' r).state.work.waiting d = none := by
    simp [Work.waiting, hStill.receiving_eq r]
  have hNone : (g' r).state.work.asked d = 0 := by
    rw [asked_eq hReach.fifo hReach.workInv, hStill.request_eq, hStill.reply_eq, hWaiting]
    simp [Work.unanswered, hRequestors, begun]
  -- how often it was asked is in the logs
  have hBefore := ((h.reach.workInv r).ledger d).requests
  have hNow := ((hReach.workInv r).ledger d).requests
  rw [(hDrift.logs_eq r).1, (hDrift.logs_eq r).2, hNone] at hNow
  have hAsked : (g r).state.work.asked d = 1 := by simp [Work.asked, hRequested, hTarget]
  omega

theorem Standstill.receipt_eq (h : Standstill cfg g) (src dst : Fin n) :
    inFlight g src dst .workReceipt = [] := by
  cases hCleanup : (g dst).state.cleanup with
  | true => exact (h.reach.acknowledged_of_cleanup h.tree hCleanup).receipts src
  | false =>
      have hLoop : (g dst).state.inLoop cfg .workreceiptCheck = true := by
        simp [State.inLoop, Pc.inLoop, hCleanup]
      refine h.flight_eq hLoop fun g' msg hDrift hPc hFresh hAdmits => ?_
      have hReach := hDrift.still.reach
      have hOutstanding : 0 < (g' dst).state.work.workOutstanding := by
        rw [Nat.pos_iff_ne_zero]
        intro hZero
        have hSending := (hReach.workInv dst).stock.sending_none hFresh.replying
        have hMem := FifoNet.mem_inFlight_of_admits hAdmits
        rw [(hReach.acknowledged hZero hSending).receipts src] at hMem
        cases hMem
      simp [mainLoop, hPc, Work.workreceiptCheck, hOutstanding, Turn.stays]

/-- At a standstill all transfers are acknowledged. -/
theorem Standstill.outstanding_eq (h : Standstill cfg g) (r : Fin n) :
    (g r).state.work.workOutstanding = 0 := by
  have hInv := h.reach.workInv
  have hEach (peer : Fin n) :
      ((g r).rcvd peer .workReceipt).length = transfers ((g r).sent peer .workReply) := by
    rw [(h.reach.fifo.inFlight_eq_nil_iff peer r .workReceipt).mp (h.receipt_eq peer r),
      ((hInv peer).ledger r).receipts,
      (h.reach.fifo.inFlight_eq_nil_iff r peer .workReply).mp (h.reply_eq r peer)]
  have hSum := (hInv r).outstanding
  rw [Finset.sum_congr rfl fun peer _ => hEach peer] at hSum
  omega

/-! ## Termination -/

theorem TermTurn.sends_flag {workOutstanding : Nat} {t : Term n} {turn : Turn n (Term n) Bool}
    (h : TermTurn cfg rank workOutstanding t input turn) (packet : Packet n)
    (hOut : turn.out = some packet) : ∃ flag, packet.msg = .flag flag := by
  cases h
  case contribute | tell =>
    cases hOut
    exact ⟨_, rfl⟩
  all_goals cases hOut

/-- The messages of the termination reduction are flags. -/
theorem Execution.term_flags {ok : World n → Fin n → Event n → Prop} (h : Execution cfg ok g)
    (r d : Fin n) : ∀ msg ∈ (g r).sent d .term, ∃ flag, msg = .flag flag := by
  refine h.forall_rank (L := fun _ node =>
    ∀ d, ∀ msg ∈ node.sent d .term, ∃ flag, msg = .flag flag) ?_ ?_ r d
  · intro rank start d msg hMem
    cases hMem
  · intro g rank input s' out hReach hAll hAdmits hStep d msg hMem
    have hTermStep := termStep_of_mainStep (hReach.control rank).fits hStep
    rw [FifoNet.Node.after_sent] at hMem
    cases hTermStep
    case other hSilent =>
      rw [hSilent.sent] at hMem
      exact hAll rank d msg hMem
    case turn turn _ _ hTurn _ _ =>
      rcases Log.mem_send hMem with hOld | ⟨packet, hOut, rfl⟩
      · exact hAll rank d msg hOld
      · exact hTurn.sends_flag packet hOut

/-- At a standstill no rank has the result of the termination reduction. -/
theorem Standstill.not_down (h : Standstill cfg g) (r : Fin n) {flag : Bool} :
    (g r).state.term.phase ≠ .down flag := by
  intro hPhase
  have hPc := (h.reach.control r).phases.term (by simp [hPhase])
  have hFits := (h.reach.control r).fits
  rw [State.Fits, hPc] at hFits
  obtain rfl := (h.reach.termInv r).down_flag flag hPhase
  cases hTodo : (g r).state.term.wave.todo with
  | cons child rest =>
      apply h.silent r
      simp [mainLoop, hPc, Term.checkForTermAllReduce, hPhase, hTodo, Turn.sends]
  | nil =>
      -- the rank terminates
      have hActs : ∃ s', s'.cleanup = true ∧
          mainLoop cfg r (.tick .go) (g r).state = some (s', none) := by
        exact ⟨_, rfl, by
          simp [mainLoop, hPc, Term.checkForTermAllReduce, hPhase, hTodo, Turn.returns]; rfl⟩
      obtain ⟨s', hEnds, hActs⟩ := hActs
      rw [h.no_leave hFits.1 hActs] at hEnds
      cases hEnds

/-- At a standstill a rank outside cleanup whose children have contributed has
contributed too, and is not the root. -/
theorem Standstill.contributed (h : Standstill cfg g) (hOutside : (g r).state.cleanup = false)
    (hChildren : ∀ c ∈ cfg.tree.children r, 1 ≤ (g c).state.term.wave.up) :
    ∃ p, cfg.tree.parent r = some p ∧ 1 ≤ (g r).state.term.wave.up := by
  have hLoop : (g r).state.inLoop cfg .checkForTermAllReduce = true := by
    simp [State.inLoop, Pc.inLoop, hOutside]
  obtain ⟨g', hDrift, hPc, hFresh⟩ := h.comes_to hLoop
  have hStill := hDrift.still
  have hReach := hStill.reach
  have hInv := hReach.termInv r
  have hWork := hStill.outstanding_eq r
  have hClosed : (g' r).state.term.wave.closed = 0 := by
    rw [hInv.closed_eq, hDrift.cleanup_eq, hOutside, Bool.and_false]
    rfl
  have hSent (c : Fin n) (hMem : c ∈ cfg.tree.children r) : 1 ≤ ((g c).sent r .term).length := by
    have hUp := (h.reach.termInv c).tracks.inv.sent_parent r (cfg.tree.parent_of_mem hMem)
    exact (hChildren c hMem).trans_eq hUp.symm
  -- every child has reported, and none of the reports is still in flight
  have hFull : (g' r).state.term.wave.replies = (cfg.tree.children r).length := by
    refine hDrift.replies_eq hInv.tracks.inv hClosed hSent fun hOpen c msg hAdmits => ?_
    obtain ⟨flag, rfl⟩ := hReach.term_flags c r msg (FifoNet.mem_sent_of_admits hAdmits)
    simp [mainLoop, hPc, Term.checkForTermAllReduce, Term.termReplies, hFresh.term, hOpen]
  cases hUp : (g' r).state.term.termUp with
  | true =>
      cases hParent : cfg.tree.parent r with
      | none =>
          rw [hInv.root_rests hParent hFresh.term] at hUp
          cases hUp
      | some p =>
          refine ⟨p, rfl, ?_⟩
          have hBefore := (h.reach.termInv r).tracks.inv.sent_parent p hParent
          have hNow := hInv.tracks.inv.sent_parent p hParent
          have hEq := hInv.tracks.up_eq
          rw [hDrift.sent] at hNow
          rw [hUp, if_pos rfl] at hEq
          omega
  | false =>
      cases hParent : cfg.tree.parent r with
      | some p =>
          -- a rank with all reports would send its own, but here nobody sends
          apply absurd _ (hStill.silent r)
          simp [mainLoop, hPc, Term.checkForTermAllReduce, Term.termReplies, hFresh.term, hWork,
            hUp, hFull, hParent, Turn.sends]
      | none =>
          -- the root gathers the result, and decides
          have hGather : ∃ term : Term n, term.phase = .parent true ∧ term.termUp = true ∧
              mainLoop cfg r (.tick .go) (g' r).state =
                some ({ (g' r).state with term := term }, none) := by
            exact ⟨_, rfl, rfl, by
              simp [mainLoop, hPc, Term.checkForTermAllReduce, Term.termReplies, hFresh.term, hWork,
                hUp, hFull, hParent, Turn.stays]; rfl⟩
          obtain ⟨term, hPhase, hUp, hGather⟩ := hGather
          obtain ⟨next, hNext, hState⟩ := hStill.tick hGather rfl
          have hDecide : ∃ term' : Term n, term'.phase = .down true ∧
              mainLoop cfg r (.tick .go) (next r).state =
                some ({ (next r).state with term := term' }, none) := by
            rw [hState]
            exact ⟨_, rfl, by
              simp [mainLoop, hPc, Term.checkForTermAllReduce, hPhase, hUp, hParent, Turn.stays]
              rfl⟩
          obtain ⟨term', hDown, hDecide⟩ := hDecide
          obtain ⟨last, hLast, hState'⟩ := hNext.still.tick hDecide rfl
          exact (hLast.still.not_down r (by rw [hState']; exact hDown)).elim

/-- At a standstill all ranks have terminated. -/
theorem Standstill.cleanup_eq (h : Standstill cfg g) (r : Fin n) :
    (g r).state.cleanup = true := by
  have hInv := h.reach.termInv
  have hClosed (i : Fin n) : (g i).state.term.wave.closed =
      if (g i).state.cleanup then 1 else 0 := by
    have hEq := (hInv i).closed_eq
    rwa [h.tree, Bool.true_and] at hEq
  -- up the tree, every rank has contributed
  have hUp : ∀ i, 1 ≤ (g i).state.term.wave.up := by
    refine cfg.tree.up_induction fun i hChildren => ?_
    cases hCleanup : (g i).state.cleanup with
    | false =>
        obtain ⟨p, -, hOne⟩ := h.contributed hCleanup hChildren
        exact hOne
    | true =>
        have hLess := (hInv i).tracks.inv.closed_le_done
        have hMore := (hInv i).tracks.inv.done_le_up
        have hEq := hClosed i
        rw [hCleanup, if_pos rfl] at hEq
        omega
  -- down the tree, take the topmost rank that has not terminated
  by_contra hNot
  obtain ⟨j, hj, hTopmost⟩ :=
    cfg.tree.exists_topmost (P := fun i => (g i).state.cleanup ≠ true) hNot
  have hOutside : (g j).state.cleanup = false := by rwa [ne_eq, Bool.not_eq_true] at hj
  obtain ⟨p, hParent, -⟩ := h.contributed hOutside fun c _ => hUp c
  have hEnded : (g p).state.cleanup = true := of_not_not (hTopmost p hParent)
  -- the parent has told its children the result
  have hLoop : (g j).state.inLoop cfg .checkForTermAllReduce = true := by
    simp [State.inLoop, Pc.inLoop, hOutside]
  obtain ⟨g', hDrift, hPc, hFresh⟩ := h.comes_to hLoop
  have hWork := hDrift.still.outstanding_eq j
  have hInvNow := hDrift.still.reach.termInv j
  have hClosedNow : (g' j).state.term.wave.closed = 0 := by
    rw [hInvNow.closed_eq, hDrift.cleanup_eq, hOutside, Bool.and_false]
    rfl
  have hTermUp : (g' j).state.term.termUp = true := by
    have hBefore := (hInv j).tracks.inv.sent_parent p hParent
    have hNow := hInvNow.tracks.inv.sent_parent p hParent
    have hEq := hInvNow.tracks.up_eq
    have hOne := hUp j
    rw [hDrift.sent] at hNow
    by_contra hDown
    rw [if_neg hDown] at hEq
    omega
  have hLook : mainLoop cfg j (.tick .go) (g' j).state = some ({ (g' j).state with
      term := { (g' j).state.term with phase := .parent false } }, none) := by
    simp [mainLoop, hPc, Term.checkForTermAllReduce, hFresh.term, hWork, hTermUp, Turn.stays]
  obtain ⟨next, hNext, hState⟩ := hDrift.still.tick hLook rfl
  have hReach := hNext.still.reach
  have hLess : ((next j).rcvd p .term).length < ((next p).sent j .term).length := by
    have hSent := ((hInv p).tracks.inv.closed_le_sent (Or.inr (cfg.tree.mem_children hParent))).1
    have hRcvd := hInvNow.tracks.inv.rcvd_parent p hParent
    have hDone := hInvNow.tracks.done_eq
    have hOne := hClosed p
    rw [hEnded, if_pos rfl] at hOne
    rw [hFresh.term, hClosedNow] at hDone
    rw [(hNext.logs_eq p).1, (hDrift.logs_eq p).1, hNext.rcvd]
    have hNone : ((g' j).rcvd p .term).length = 0 := hRcvd.trans hDone
    have hSome : 1 ≤ ((g p).sent j .term).length := hOne ▸ hSent
    omega
  obtain ⟨msg, hAdmits⟩ := FifoNet.exists_admits hLess
  obtain rfl := flag_of_admits hReach.fifo hReach.termInv hAdmits hParent
  have hNone := hNext.still.no_recv hAdmits
  rw [hState] at hNone
  simp [mainLoop, hPc, Term.checkForTermAllReduce, hTermUp, hParent] at hNone

/-! ## The abort flood -/

/-- A rank comes to the probe for abort requests, -/
theorem Standstill.comes_to_probe (h : Standstill cfg g) (r : Fin n) :
    ∃ g', Drifts cfg r g g' ∧ (g' r).state.pc = .abortCheck ∧ (g' r).state.abort.phase = .probe := by
  obtain ⟨g', hDrift, hPc, hFresh⟩ :=
    h.comes_to (show (g r).state.inLoop cfg .abortCheck = true from rfl)
  obtain ⟨abort, hProbe, hActs⟩ : ∃ abort : Abort n, abort.phase = .probe ∧
      mainLoop cfg r (.tick .go) (g' r).state = some ({ (g' r).state with abort := abort }, none) :=
    mainLoop_abortCheck_start hPc hFresh.abort.2 hFresh.abort.1
  obtain ⟨next, hNext, hState⟩ := hDrift.still.tick hActs rfl
  exact ⟨next, hDrift.trans hNext, by rw [hState]; exact hPc, by rw [hState]; exact hProbe⟩

/-- and to the test for the replies. -/
theorem Standstill.comes_to_test (h : Standstill cfg g) (r : Fin n) :
    ∃ g', Drifts cfg r g g' ∧ (g' r).state.pc = .abortCheck ∧ (g' r).state.abort.phase = .test := by
  obtain ⟨g', hDrift, hPc, hPhase⟩ := h.comes_to_probe r
  obtain ⟨next, hNext, hState⟩ :=
    hDrift.still.tick (mainLoop_abortCheck_probe hPc (hDrift.still.toSend_eq r) hPhase) rfl
  exact ⟨next, hDrift.trans hNext, by rw [hState]; exact hPc, by rw [hState]⟩

theorem Standstill.abortRequest_eq (h : Standstill cfg g) (src dst : Fin n) :
    inFlight g src dst .abortRequest = [] := by
  obtain ⟨g', hDrift, hPc, hPhase⟩ := h.comes_to_probe dst
  apply hDrift.flight_eq
  intro msg _
  simp [mainLoop, hPc, Abort.abortCheck, hDrift.still.toSend_eq dst, hPhase]

theorem Standstill.abortReply_eq (h : Standstill cfg g) (src dst : Fin n) :
    inFlight g src dst .abortReply = [] := by
  obtain ⟨g', hDrift, hPc, hPhase⟩ := h.comes_to_test dst
  apply hDrift.flight_eq
  intro msg hAdmits
  have hReach := hDrift.still.reach
  have hAwaited : src ∈ (g' dst).state.abort.awaited := by
    have hLess := hReach.fifo.length_lt_of_admits hAdmits
    have hLedger := (hReach.abortLedger dst).awaited src
    obtain ⟨-, hAnswers, hAsked⟩ := hReach.abort_counts dst src
    rw [← List.count_pos_iff]
    omega
  simp [mainLoop, hPc, Abort.abortCheck, hDrift.still.toSend_eq dst, hPhase, hAwaited]

/-- At a standstill no rank waits for the reply to an abort request. -/
theorem Standstill.abortOutstanding_eq (h : Standstill cfg g) (r : Fin n) :
    (g r).state.abort.abortOutstanding = false := by
  obtain ⟨g', hDrift, hPc, hPhase⟩ := h.comes_to_test r
  have hStill := hDrift.still
  have hReach := hStill.reach
  have hCleanup := hStill.cleanup_eq r
  have hAwaited : (g' r).state.abort.awaited = [] := by
    rw [List.eq_nil_iff_forall_not_mem]
    intro q
    have hRequests := (hReach.fifo.inFlight_eq_nil_iff r q .abortRequest).mp
      (hStill.abortRequest_eq r q)
    have hReplies := (hReach.fifo.inFlight_eq_nil_iff q r .abortReply).mp (hStill.abortReply_eq q r)
    have hLedger := (hReach.abortLedger r).awaited q
    obtain ⟨-, hAnswers, -⟩ := hReach.abort_counts r q
    rw [← List.count_eq_zero]
    rw [hRequests] at hAnswers
    rw [hReplies] at hLedger
    omega
  by_contra hOutstanding
  rw [Bool.not_eq_false] at hOutstanding
  have hNow : (g' r).state.abort.abortOutstanding = true := by
    by_contra hNot
    rw [Bool.not_eq_true] at hNot
    rw [(hDrift.settles'.abort hCleanup hNot).2] at hOutstanding
    cases hOutstanding
  -- the test finds all replies, which would settle the wait
  have hActs : mainLoop cfg r (.tick (.tested true)) (g' r).state = some ({ (g' r).state with
      abort := { (g' r).state.abort with abortOutstanding := false, phase := .start }
      pc := (g' r).state.afterAbort cfg }, none) := by
    simp [mainLoop, hPc, Abort.abortCheck, hStill.toSend_eq r, hPhase, hAwaited, hNow, Turn.returns,
      State.afterAbort, State.afterReduce]
  obtain ⟨last, hLast, hState⟩ := hStill.tick hActs rfl
  have hBack := (hLast.settles'.abort (hLast.still.cleanup_eq r) (by rw [hState])).2
  rw [hNow] at hBack
  cases hBack

/-! ## Reductions -/

/-- A rank without reductions is in no round. -/
theorem Execution.enabled_of_outstanding {ok : World n → Fin n → Event n → Prop}
    (h : Execution cfg ok g) (r : Fin n) :
    (g r).state.reduce.reduceOutstanding = true → cfg.reduceEnabled = true := by
  refine h.forall_rank (L := fun _ node => node.state.reduce.reduceOutstanding = true →
    cfg.reduceEnabled = true) ?_ ?_ r
  · intro rank start hOutstanding
    cases hOutstanding
  · intro g rank input s' out hReach hAll hAdmits hStep hOutstanding
    have hFits := (hReach.control rank).fits
    rw [FifoNet.Node.after_state] at hOutstanding
    have hReduceStep := reduceStep_of_mainStep hStep
    cases hReduceStep
    case other hReduce _ _ _ =>
      rw [hReduce] at hOutstanding
      exact hAll rank hOutstanding
    case check hPc _ _ _ _ _ _ =>
      rw [State.Fits, hPc] at hFits
      exact hFits
    case sync hPc _ _ _ _ _ =>
      rw [State.Fits, hPc] at hFits
      exact hFits.2

/-- The start of a parent is refused by a rank in cleanup. -/
theorem Standstill.start_eq (h : Standstill cfg g) {p : Fin n}
    (hEnabled : cfg.reduceEnabled = true) (hParent : cfg.tree.parent r = some p)
    (hClosed : (g r).state.reduce.reduceOutstanding = false) : inFlight g p r .reduce = [] := by
  have hLoop : (g r).state.inLoop cfg .reduceCheck = true := hEnabled
  refine h.flight_eq hLoop fun g' msg hDrift hPc hFresh hAdmits => ?_
  have hStill := hDrift.settles.reduce (h.cleanup_eq r) hClosed
  obtain rfl := start_of_admits hDrift.still.reach.reductions.1 hAdmits hParent
  simp [mainLoop, hPc, Reduce.reduceCheck, hFresh.reduce, hStill.2, hParent]

/-- A rank can look for the reports of later children first. -/
theorem Standstill.skips (h : Standstill cfg g) (hPc : (g r).state.pc = .reduceCheck)
    {front rest : List (Fin n)} (hPhase : (g r).state.reduce.phase = .children (front ++ rest)) :
    ∃ g', Drifts cfg r g g' ∧ (g' r).state =
      { (g r).state with reduce := { (g r).state.reduce with phase := .children rest } } := by
  induction front generalizing g with
  | nil =>
      refine ⟨g, Drifts.refl h r, ?_⟩
      rw [List.nil_append] at hPhase
      rw [← hPhase]
  | cons child front ih =>
      have hActs : mainLoop cfg r (.tick .go) (g r).state = some ({ (g r).state with
          reduce := { (g r).state.reduce with phase := .children (front ++ rest) } }, none) := by
        simp [mainLoop, hPc, Reduce.reduceCheck, hPhase, Turn.stays]
      obtain ⟨next, hNext, hState⟩ := h.tick hActs rfl
      obtain ⟨g', hDrift, hEnd⟩ := ih hNext.still (by rw [hState]; exact hPc) (by rw [hState])
      rw [hState] at hEnd
      exact ⟨g', hNext.trans hDrift, hEnd⟩

/-- A child that is in no round has sent a report for each start. -/
theorem Standstill.reported (h : Standstill cfg g) (hEnabled : cfg.reduceEnabled = true)
    {p c : Fin n} (hParent : cfg.tree.parent c = some p)
    (hClosed : (g c).state.reduce.reduceOutstanding = false) :
    (g p).state.reduce.startsTo c ≤ (reports.read none ((g c).sent p .reduce)).length := by
  obtain ⟨hInv, -⟩ := h.reach.reductions
  have hUpward := (hInv c).upward p hParent
  have hSent := (hInv p).downward c (cfg.tree.mem_children hParent)
  have hRcvd := (h.reach.fifo.inFlight_eq_nil_iff p c .reduce).mp
    (h.start_eq hEnabled hParent hClosed)
  have hPhase : (g c).state.reduce.phase = .start := by
    refine (h.reach.reduceShape c (h.reach.running c)).start_of_closed (h.cleanup_eq c) hClosed ?_
    intro hPc
    have hLeft := h.left_eq c
    rw [hPc] at hLeft
    cases hLeft
  have hTaken : (g c).state.reduce.isTaken = false := by
    simp [Reduce.isTaken, isOpen_eq_false hClosed, hPhase]
  have hStarts := congrArg List.length hUpward.starts
  rw [hTaken, if_neg Bool.false_ne_true, hRcvd, hSent, List.length_replicate,
    List.length_replicate] at hStarts
  rw [(hUpward.read_eq (by simp [Reduce.sendsReport, hPhase])).2, Reduce.spoken,
    List.length_append]
  omega

/-- A rank in a round stays in it. -/
theorem Drifts.outstanding (h : Drifts cfg r g g')
    (hOutstanding : (g r).state.reduce.reduceOutstanding = true) :
    (g' r).state.reduce.reduceOutstanding = true := by
  by_contra hNot
  rw [Bool.not_eq_true] at hNot
  have hBack := (h.settles'.reduce (h.still.cleanup_eq r) hNot).2
  exact Bool.false_ne_true (hBack.symm.trans hOutstanding)

/-- A rank in a round comes to where it looks for the reports of its children. -/
theorem Standstill.comes_to_children (h : Standstill cfg g)
    (hOutstanding : (g r).state.reduce.reduceOutstanding = true) :
    ∃ g', Drifts cfg r g g' ∧ (g' r).state.pc = .reduceCheck ∧
      (g' r).state.reduce.phase = .children (cfg.tree.children r) := by
  have hLoop : (g r).state.inLoop cfg .reduceCheck = true :=
    h.reach.enabled_of_outstanding r hOutstanding
  obtain ⟨g', hDrift, hPc, hFresh⟩ := h.comes_to hLoop
  have hNow := hDrift.outstanding hOutstanding
  have hActs : mainLoop cfg r (.tick .go) (g' r).state = some ({ (g' r).state with
      reduce := { (g' r).state.reduce with phase := .children (cfg.tree.children r) } }, none) := by
    simp [mainLoop, hPc, Reduce.reduceCheck, hFresh.reduce, hNow, Turn.stays]
  obtain ⟨next, hNext, hState⟩ := hDrift.still.tick hActs rfl
  exact ⟨next, hDrift.trans hNext, by rw [hState]; exact hPc, by rw [hState]⟩

/-- At a standstill a rank in a round does not have all reports. -/
theorem Standstill.not_full (h : Standstill cfg g) (hPc : (g r).state.pc = .reduceCheck)
    (hPhase : (g r).state.reduce.phase = .children (cfg.tree.children r))
    (hOutstanding : (g r).state.reduce.reduceOutstanding = true) :
    (g r).state.reduce.reduceReplies ≠ (cfg.tree.children r).length := by
  intro hFull
  rw [← List.append_nil (cfg.tree.children r)] at hPhase
  obtain ⟨g', hDrift, hEnd⟩ := h.skips hPc hPhase
  obtain ⟨reduce, hClosed, hFinish⟩ := hDrift.still.root_of_finish (by rw [hEnd]; exact hPc)
    (by rw [hEnd]) (by rw [hEnd]; exact hFull)
  obtain ⟨last, hLast, hState⟩ := hDrift.still.tick hFinish rfl
  have hStill := (hDrift.trans hLast).outstanding hOutstanding
  rw [hState] at hStill
  exact Bool.false_ne_true (hClosed.symm.trans hStill)

/-- At a standstill nothing is under way from a child whose report is awaited. -/
theorem Standstill.report_eq (h : Standstill cfg g) (hPc : (g r).state.pc = .reduceCheck)
    (hPhase : (g r).state.reduce.phase = .children (cfg.tree.children r)) {c : Fin n}
    (hMem : c ∈ cfg.tree.children r) : inFlight g c r .reduce = [] := by
  obtain ⟨front, rest, hSplit⟩ := List.append_of_mem hMem
  rw [hSplit] at hPhase
  obtain ⟨g', hDrift, hEnd⟩ := h.skips hPc hPhase
  apply hDrift.flight_eq
  intro msg _
  rw [hEnd]
  simp [mainLoop, hPc, Reduce.reduceCheck]

/-- At a standstill no rank is in a round: it would have the reports of its children. -/
theorem Standstill.reduceOutstanding_eq (h : Standstill cfg g) (r : Fin n) :
    (g r).state.reduce.reduceOutstanding = false := by
  revert r
  refine cfg.tree.up_induction fun r hChildren => ?_
  by_contra hOutstanding
  rw [Bool.not_eq_false] at hOutstanding
  obtain ⟨g', hDrift, hPc, hPhase⟩ := h.comes_to_children hOutstanding
  have hStill := hDrift.still
  have hNow := hDrift.outstanding hOutstanding
  obtain ⟨hInv, -⟩ := hStill.reach.reductions
  obtain ⟨order, hGathers⟩ := (hInv r).gathers
  have hIsOpen : (g' r).state.reduce.isOpen = true := by simp [Reduce.isOpen, hNow, hPhase]
  have hAll : ∀ c ∈ cfg.tree.children r, c ∈ order := by
    intro c hMem
    by_contra hMissing
    have hParent := cfg.tree.parent_of_mem hMem
    have hSaid := hStill.reported (hStill.reach.enabled_of_outstanding r hNow) hParent (by
      rw [hDrift.others c (cfg.tree.ne_of_parent hParent).symm]
      exact hChildren c hMem)
    -- the child has reported for every start, and nothing is under way from it
    have hStarts : (g' r).state.reduce.startsTo c = (g' r).state.reduce.rounds.length + 1 := by
      simp [Reduce.startsTo, hIsOpen, Reduce.unstarted, hPhase]
    have hHeard := hGathers.length_eq c hMem
    rw [if_neg hMissing, heard, (hStill.reach.fifo.inFlight_eq_nil_iff c r .reduce).mp
      (hStill.report_eq hPc hPhase hMem)] at hHeard
    omega
  -- so the reports of all children have been counted
  have hPerm : order.Perm (cfg.tree.children r) :=
    (List.perm_ext_iff_of_nodup hGathers.nodup (cfg.tree.nodup_children r)).mpr fun c =>
      ⟨hGathers.sub c, hAll c⟩
  refine hStill.not_full hPc hPhase hNow ?_
  rw [(hGathers.opened hIsOpen).1, hPerm.length_eq]
  simp [Reduce.current, hPhase]

end Circle
