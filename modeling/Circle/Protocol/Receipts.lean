import Circle.Protocol.Stealing

/-!
# Acknowledged transfers

A rank with nothing outstanding has a receipt for every reply with items that
it ever sent, so that only replies without items can still be under way from it
(`Acknowledged`).  A rank that has terminated sends no items any more; in tree
mode it has nothing outstanding (`Retired`).
-/

namespace Circle

open FifoNet (Log inFlight)

variable {n : Nat} {cfg : Config n} {rank : Fin n} {input : Input n} {s s' : State n}
  {out : Option (Packet n)}

/-! ## Streams without items -/

/-- A reply without items. -/
def Msg.Refuses (msg : Msg) : Prop := ∃ items rest, msg = .ints (items :: rest) ∧ items ≤ 0

instance (msg : Msg) : Decidable msg.Refuses :=
  match msg with
  | .ints (items :: _) => decidable_of_iff (items ≤ 0) (by simp [Msg.Refuses])
  | .ints [] | .empty | .chars _ | .color _ | .flag _ | .longs _ _ _ | .data _ =>
      isFalse (by simp [Msg.Refuses])

/-- A stream that ends between two replies and completes none with items
consists of replies without items. -/
theorem refuses_of_read {flight : List Msg} {header : Option (List Int)}
    (hAccepts : replies.Accepts header flight) (hEnd : replies.after header flight = none)
    (hNone : ((replies.read header flight).countP fun items => !items.isEmpty) = 0) :
    header = none ∧ ∀ msg ∈ flight, msg.Refuses := by
  induction flight generalizing header with
  | nil => exact ⟨hEnd, by simp⟩
  | cons msg rest ih =>
      obtain ⟨hOk, hRest⟩ := hAccepts
      simp only [Reader.read, List.countP_append, Nat.add_eq_zero_iff] at hNone
      obtain ⟨hNow, hLater⟩ := hNone
      obtain ⟨hNext, hAll⟩ := ih hRest hEnd hLater
      cases header with
      | none =>
          obtain ⟨items, tail, rfl⟩ := replies_ok_none hOk
          have hItems : items ≤ 0 := by
            by_contra hPos
            rw [replies_next_none, if_pos (by omega)] at hNext
            cases hNext
          refine ⟨rfl, fun m hMem => ?_⟩
          rcases List.mem_cons.mp hMem with rfl | hMem
          · exact ⟨items, tail, rfl, hItems⟩
          · exact hAll m hMem
      | some header =>
          -- the bytes of a transfer complete it
          obtain ⟨items, hItems, rfl, rfl⟩ := replies_ok_some hOk
          rw [replies_out_payload hItems] at hNow
          simp [hItems.ne_nil] at hNow

theorem transfers_le_of_prefix {front log : List Msg} (h : front <+: log) :
    transfers front ≤ transfers log :=
  (Reader.read_prefix none h).sublist.countP_le

/-! ## Nothing outstanding -/

/-- Every transfer of a rank has been received and acknowledged. -/
structure Acknowledged (g : World n) (r : Fin n) : Prop where
  /-- All replies with items have been received. -/
  received : ∀ peer,
    transfers ((g peer).rcvd r .workReply) = transfers ((g r).sent peer .workReply)
  /-- The rank has consumed the receipt of each. -/
  consumed : ∀ peer,
    ((g r).rcvd peer .workReceipt).length = transfers ((g r).sent peer .workReply)
  /-- What is under way from the rank are replies without items. -/
  refusals : ∀ peer, ∀ msg ∈ inFlight g r peer .workReply, msg.Refuses
  /-- No receipt is under way to it. -/
  receipts : ∀ peer, inFlight g peer r .workReceipt = []

theorem Execution.acknowledged {ok : World n → Fin n → Event n → Prop} {g : World n}
    (h : Execution cfg ok g) {r : Fin n} (hOutstanding : (g r).state.work.workOutstanding = 0)
    (hSending : (g r).state.work.sending = none) : Acknowledged g r := by
  have hInv := h.workInv
  have hReceived (peer : Fin n) :
      ((g r).rcvd peer .workReceipt).length ≤ transfers ((g peer).rcvd r .workReply) := by
    rw [← ((hInv peer).ledger r).receipts]
    exact h.fifo.length_le peer r .workReceipt
  have hSent (peer : Fin n) :
      transfers ((g peer).rcvd r .workReply) ≤ transfers ((g r).sent peer .workReply) :=
    transfers_le_of_prefix (h.fifo r peer .workReply)
  have hConsumed : ∀ peer,
      ((g r).rcvd peer .workReceipt).length = transfers ((g r).sent peer .workReply) := by
    have hSum := (hInv r).outstanding
    rw [hOutstanding, Nat.zero_add] at hSum
    have hEach := (Finset.sum_eq_sum_iff_of_le fun peer _ =>
      (hReceived peer).trans (hSent peer)).mp hSum
    exact fun peer => hEach peer (Finset.mem_univ peer)
  have hArrived (peer : Fin n) :
      transfers ((g peer).rcvd r .workReply) = transfers ((g r).sent peer .workReply) :=
    Nat.le_antisymm (hSent peer) (hConsumed peer ▸ hReceived peer)
  exact {
    received := hArrived
    consumed := hConsumed
    refusals := by
      intro peer
      have hLedger := (hInv r).ledger peer
      have hAccepts := hLedger.accepts
      have hEnd := hLedger.opened_eq
      have hCount := hArrived peer
      rw [Work.opened_of_none hSending] at hEnd
      unfold transfers at hCount
      rw [← h.fifo.append_inFlight r peer .workReply] at hAccepts hEnd hCount
      rw [replies.accepts_append] at hAccepts
      rw [replies.after_append] at hEnd
      rw [replies.read_append, List.countP_append] at hCount
      exact (refuses_of_read hAccepts.2 hEnd (by omega)).2
    receipts := by
      intro peer
      rw [h.fifo.inFlight_eq_nil_iff]
      apply (h.fifo peer r .workReceipt).eq_of_length
      rw [((hInv peer).ledger r).receipts, hConsumed, hArrived] }

/-! ## Ranks that have terminated -/

/-- What a rank that has terminated does not do any more, and what it has done
before. -/
structure Retired (cfg : Config n) (s : State n) : Prop where
  /-- It answers without items. -/
  shares : s.cleanup = true → s.work.replying = true →
    s.work.sending = none ∧ ∀ count ∈ s.work.shares, count = 0
  /-- In tree mode, past the test for outstanding transfers nothing is
  outstanding. -/
  outstanding : s.term.phase ≠ .children ∨ cfg.termTree = true ∧ s.cleanup = true →
    s.work.workOutstanding = 0

theorem retired_start (start : Start rank) : Retired cfg start.state := by
  constructor <;> simp [Start.state]

/-- A rank that terminates goes to the barrier. -/
theorem cleanup_of_step (hStep : MainStep cfg rank input s s' out) (hCleanup : s'.cleanup = true) :
    s.cleanup = true ∨ s'.pc = .barrierStart := by
  cases hStep
  case checkForTerm turn hPc hTurn | checkForTermAllReduce turn hPc hTurn =>
    rcases hResult : turn.result with _ | _ | _
    · simp [hResult] at hCleanup
      exact Or.inl hCleanup
    · simp [hResult] at hCleanup
      exact Or.inl hCleanup
    · exact Or.inr rfl
  all_goals exact Or.inl hCleanup

/-- The answers of a rank that has terminated. -/
theorem WorkreqTurn.refuses {abortFlag : Bool} {w : Work n} {proc : Color}
    {turn : Turn n (Work n × Color) Unit}
    (hShares : w.replying = true → w.sending = none ∧ ∀ count ∈ w.shares, count = 0)
    (hTurn : WorkreqTurn cfg rank true abortFlag w proc input turn)
    (hNone : w.replying = false → w.sending = none) :
    turn.record.1.workOutstanding = w.workOutstanding ∧
      (turn.record.1.replying = true →
        turn.record.1.sending = none ∧ ∀ count ∈ turn.record.1.shares, count = 0) := by
  cases hTurn
  case collect hReplying | nothing hReplying _ => exact ⟨rfl, hShares⟩
  case refuse hReplying _ =>
    refine ⟨rfl, fun _ => ⟨hNone hReplying, ?_⟩⟩
    intro count hMem
    exact List.eq_of_mem_replicate hMem
  case share hCleanup _ => cases hCleanup
  case noWork dest requestors shares hReplying hRequestors hEq hSending =>
    refine ⟨rfl, fun _ => ⟨hSending, fun count hMem => ?_⟩⟩
    apply (hShares hReplying).2
    rw [hEq]
    exact List.mem_cons_of_mem _ hMem
  case header dest requestors count shares sent hReplying hRequestors hEq hSending hCount _ _ =>
    exact (hCount ((hShares hReplying).2 count (by simp [hEq]))).elim
  case payload hReplying hRequestors hEq hSending =>
    rw [(hShares hReplying).1] at hSending
    cases hSending
  case finished => exact ⟨rfl, by simp [Turn.returns]⟩

theorem RequestTurn.outstanding_eq {cleanup abortFlag : Bool} {w : Work n}
    {turn : Turn n (Work n × Bool) Outcome}
    (h : RequestTurn cfg rank cleanup w abortFlag input turn) :
    turn.record.1.workOutstanding = w.workOutstanding := by
  cases h <;> rfl

theorem RequestTurn.replies_eq {cleanup abortFlag : Bool} {w : Work n}
    {turn : Turn n (Work n × Bool) Outcome}
    (h : RequestTurn cfg rank cleanup w abortFlag input turn) :
    turn.record.1.sending = w.sending ∧ turn.record.1.shares = w.shares := by
  cases h <;> exact ⟨rfl, rfl⟩

theorem Retired.step_shares (h : Retired cfg s) (hStock : Stock s.work) (hControl : Control cfg s)
    (hStep : MainStep cfg rank input s s' out) :
    s'.cleanup = true → s'.work.replying = true →
      s'.work.sending = none ∧ ∀ count ∈ s'.work.shares, count = 0 := by
  intro hCleanup hReplying
  have hPc' := (control_step hControl hStep).phases.replying hReplying
  have hBefore : s.cleanup = true := by
    rcases cleanup_of_step hStep hCleanup with hOld | hPc
    · exact hOld
    · rw [hPc'] at hPc
      cases hPc
  have hOld := h.shares hBefore
  have hFits := hControl.fits
  have hWork := workStep_of_mainStep hStep
  generalize s'.work = next at hWork hReplying ⊢
  cases hWork
  case other => exact hOld hReplying
  case workreq hTurn =>
    rw [hBefore] at hTurn
    exact (hTurn.refuses hOld hStock.sending_none).2 hReplying
  case receipt hTurn =>
    obtain ⟨outstanding, hSame⟩ := hTurn.work_eq
    rw [hSame] at hReplying ⊢
    exact hOld hReplying
  case request hTurn =>
    rw [hTurn.replying_eq] at hReplying
    rw [hTurn.replies_eq.1, hTurn.replies_eq.2]
    exact hOld hReplying
  case callback hPc _ _ =>
    simp only [State.Fits, hPc] at hFits
    rw [hBefore] at hFits
    cases hFits

theorem Retired.step_outstanding (h : Retired cfg s) (hStock : Stock s.work)
    (hControl : Control cfg s) (hStep : MainStep cfg rank input s s' out) :
    s'.term.phase ≠ .children ∨ cfg.termTree = true ∧ s'.cleanup = true →
      s'.work.workOutstanding = 0 := by
  have hOld := h.outstanding
  have hFits := hControl.fits
  have hTerm := hControl.phases.term
  cases hStep
  case workreqCheck turn pc hPc hTurn hNext =>
    rintro (hPhase | ⟨hTree, hCleanup⟩)
    · rw [hPc] at hTerm
      cases hTerm hPhase
    · have hCleanup : s.cleanup = true := hCleanup
      have hTurn := workreqTurn_of_eq hTurn
      rw [hCleanup] at hTurn
      rw [(hTurn.refuses (h.shares hCleanup) hStock.sending_none).1]
      exact hOld (Or.inr ⟨hTree, hCleanup⟩)
  case workreceiptCheck turn pc hPc hTurn hNext =>
    intro hOver
    have hZero := hOld hOver
    have hTurn := receiptTurn_of_eq hTurn
    cases hTurn
    case receipt hOutstanding => omega
    case nothing => exact hZero
  case requestWork turn pc hPc hTurn hNext =>
    intro hOver
    rw [(requestTurn_of_eq hTurn).outstanding_eq]
    exact hOld hOver
  case callback ops work hPc hInput hCount hAbort hWork =>
    obtain ⟨result, -, rfl⟩ := Option.map_eq_some_iff.mp hWork
    exact hOld
  case checkForTerm turn hPc hTurn =>
    simp only [State.Fits, hPc] at hFits
    rintro (hPhase | ⟨hTree, -⟩)
    · exact hOld (Or.inl hPhase)
    · rw [hFits.2.1] at hTree
      cases hTree
  case checkForTermAllReduce turn hPc hTurn =>
    simp only [State.Fits, hPc] at hFits
    intro hOver
    have hTurn := termTurn_of_eq hTurn
    cases hTurn
    case collect hPhase _ =>
      rcases hOver with hNe | ⟨-, hCleanup⟩
      · exact (hNe hPhase).elim
      · simp [Turn.stays, hFits.1] at hCleanup
    case busy hPhase _ =>
      rcases hOver with hNe | ⟨-, hCleanup⟩
      · exact (hNe hPhase).elim
      · simp [Turn.returns, hFits.1] at hCleanup
    case contribute hWork _ _ _ | gather hWork _ _ _ | look hWork _ => exact hWork
    case learn hPhase _ _ | decide hPhase _ _ | wait hPhase _ | tell hPhase _ | close hPhase _ =>
      exact hOld (Or.inl (by simp [hPhase]))
  all_goals exact hOld

theorem Execution.retired {ok : World n → Fin n → Event n → Prop} {g : World n}
    (h : Execution cfg ok g) (rank : Fin n) : Retired cfg (g rank).state := by
  refine h.forall_rank (L := fun _ node => Retired cfg node.state) ?_ ?_ rank
  · intro rank start
    exact retired_start start
  · intro g rank input state out hReach hAll _ hStep
    have hStock := (hReach.workInv rank).stock
    have hControl := hReach.control rank
    exact {
      shares := (hAll rank).step_shares hStock hControl hStep
      outstanding := (hAll rank).step_outstanding hStock hControl hStep }

/-- A rank that has terminated sends no items. -/
theorem Execution.sending_of_cleanup {ok : World n → Fin n → Event n → Prop} {g : World n}
    (h : Execution cfg ok g) {r : Fin n} (hCleanup : (g r).state.cleanup = true) :
    (g r).state.work.sending = none := by
  cases hReplying : (g r).state.work.replying with
  | true => exact ((h.retired r).shares hCleanup hReplying).1
  | false => exact (h.workInv r).stock.sending_none hReplying

/-- In tree mode, a rank that has terminated has its transfers acknowledged. -/
theorem Execution.acknowledged_of_cleanup {ok : World n → Fin n → Event n → Prop} {g : World n}
    (h : Execution cfg ok g) (hTree : cfg.termTree = true) {r : Fin n}
    (hCleanup : (g r).state.cleanup = true) : Acknowledged g r :=
  h.acknowledged ((h.retired r).outstanding (Or.inr ⟨hTree, hCleanup⟩))
    (h.sending_of_cleanup hCleanup)

end Circle
