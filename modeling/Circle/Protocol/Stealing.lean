import Circle.Protocol.Control
import Circle.Protocol.Replies
import Circle.State.Splitting

/-!
# Work stealing keeps its books

`WorkInv` is what a rank knows about its queue and about the requests, replies
and receipts it has exchanged: the queue is well formed and empty while a
request is open (`Stock`), every request is answered by one reply (`Ledger`),
and items are neither made nor lost by a transfer.
-/

namespace Circle

open FifoNet (Log)

variable {n : Nat} {cfg : Config n} {rank : Fin n} {input : Input n} {s s' : State n}
  {out : Option (Packet n)}

/-- What a turn does to the part in work stealing. -/
inductive WorkStep (cfg : Config n) (rank : Fin n) (s : State n) :
    Input n → Work n → Option (Packet n) → Prop where
  | other {input : Input n} {out : Option (Packet n)}
      (hRequest : Silent .workRequest input out) (hReply : Silent .workReply input out)
      (hReceipt : Silent .workReceipt input out) : WorkStep cfg rank s input s.work out
  | workreq {input : Input n} {turn : Turn n (Work n × Color) Unit}
      (hTurn : WorkreqTurn cfg rank s.cleanup s.abort.abortFlag s.work s.token.tokenProc input
        turn) :
      WorkStep cfg rank s input turn.record.1 turn.out
  | receipt {input : Input n} {turn : Turn n (Work n × Bool) Unit}
      (hPc : s.pc = .workreceiptCheck) (hTurn : ReceiptTurn s.work s.term.termFlag input turn) :
      WorkStep cfg rank s input turn.record.1 turn.out
  | request {input : Input n} {turn : Turn n (Work n × Bool) Outcome} (hPc : s.pc = .requestWork)
      (hTurn : RequestTurn cfg rank s.cleanup s.work s.abort.abortFlag input turn) :
      WorkStep cfg rank s input turn.record.1 turn.out
  | callback {ops : List QueueOp} {work : Work n} (hPc : s.pc = .process)
      (hCount : s.work.queue.count > 0) (hWork : s.work.process cfg.page ops = some work) :
      WorkStep cfg rank s (.tick (.callback ops)) work none

theorem workStep_of_mainStep (hStep : MainStep cfg rank input s s' out) :
    WorkStep cfg rank s input s'.work out := by
  have hOther {pc : Pc} (hPc : s.pc = pc)
      (hTags : Tag.workRequest ∉ pc.tags ∧ Tag.workReply ∉ pc.tags ∧ Tag.workReceipt ∉ pc.tags) :
      WorkStep cfg rank s input s.work out := by
    subst hPc
    exact .other (hStep.silent hTags.1) (hStep.silent hTags.2.1) (hStep.silent hTags.2.2)
  cases hStep
  case raise hInput =>
    subst hInput
    exact .other (silent_tick _ _) (silent_tick _ _) (silent_tick _ _)
  case workreqCheck hTurn _ => exact .workreq (workreqTurn_of_eq hTurn)
  case workreceiptCheck hPc hTurn _ => exact .receipt hPc (receiptTurn_of_eq hTurn)
  case requestWork hPc hTurn _ => exact .request hPc (requestTurn_of_eq hTurn)
  case callback hPc hInput hCount _ hWork =>
    subst hInput
    exact .callback hPc hCount hWork
  case abortCheck hPc _ _ | reduceCheck hPc _ _ | idle hPc _ _ | checkForTerm hPc _ |
      checkForTermAllReduce hPc _ | barrierStart hPc _ | barrierTest hPc _ _ |
      leaveBarrier hPc _ _ | tokenCheck hPc _ | tokenTest hPc _ | reduceSync hPc _ |
      abortReduce hPc _ _ | leaveAbortReduce hPc _ _ =>
    exact hOther hPc (by decide)

/-! ## The queue -/

namespace Work

variable (w : Work n)

/-- The header that is sent to a peer without the bytes. -/
def opened (peer : Fin n) : Option (List Int) :=
  if w.requestors.head? = some peer then w.sending.map SentWork.header else none

/-- The header that is received from a peer without the bytes. -/
def waiting (peer : Fin n) : Option (List Int) :=
  if w.workRequestedRank = some peer then w.receiving else none

/-- The number of open requests to a peer. -/
def asked (peer : Fin n) : Nat :=
  if w.workRequested = true ∧ w.workRequestedRank = some peer then 1 else 0

end Work

/-- The bytes that `sendWork` has announced are the last items of the queue. -/
structure Announced (w : Work n) (sent : SentWork) (front back : List Item) : Prop where
  holds : w.queue.Holds (front ++ back)
  sendable : Sendable back
  share : w.shares.head? = some back.length
  header : sent.header = encodeHeader back
  payload : sent.payload = back.flatten
  queue : sent.queue = { w.queue with count := front.length, head := front.flatten.length }

/-- What a rank knows about its queue. -/
structure Stock (w : Work n) : Prop where
  inv : w.queue.Inv
  sized : Queue.Sized w.queue.items
  /-- A rank that waits for work has none. -/
  empty : w.workRequested = true → w.queue.count = 0
  receiving : w.receiving ≠ none → w.workRequested = true
  target : w.workRequested = true → ∃ peer, w.workRequestedRank = some peer
  shares_length : w.replying = true → w.shares.length = w.requestors.length
  shares_sum : w.replying = true → w.shares.sum ≤ w.queue.count
  sending : ∀ sent, w.sending = some sent → w.replying = true ∧ ∃ front back, Announced w sent front back

/-- What a rank knows about its part in work stealing. -/
structure WorkInv (w : Work n) (sent rcvd : Log (Fin n) Tag Msg) : Prop where
  stock : Stock w
  ledger : ∀ peer, Ledger (w.opened peer) (w.waiting peer) (w.asked peer)
    (w.requestors.count peer) (sent peer .workReply) (rcvd peer .workReply)
    (sent peer .workRequest).length (rcvd peer .workRequest).length
    (sent peer .workReceipt).length
  /-- Every transfer is acknowledged or outstanding. -/
  outstanding : w.workOutstanding + ∑ peer, (rcvd peer .workReceipt).length =
    ∑ peer, transfers (sent peer .workReply)
  /-- Items are neither made nor lost. -/
  balance : (w.enqueued : Multiset Item) + ∑ peer, (carried (rcvd peer .workReply) : Multiset Item) =
    (w.dequeued : Multiset Item) + (w.queue.items : Multiset Item) +
      ∑ peer, (carried (sent peer .workReply) : Multiset Item)

theorem stock_start (start : Start rank) : Stock start.state.work where
  inv := start.holds.inv
  sized := by
    show Queue.Sized start.queue.items
    rw [start.holds.items_eq]
    exact start.sized
  empty := by simp [Start.state]
  receiving := by simp [Start.state]
  target := by simp [Start.state]
  shares_length := by simp [Start.state]
  shares_sum := by simp [Start.state]
  sending := by simp [Start.state]

theorem workInv_start (start : Start rank) :
    WorkInv start.state.work (fun _ _ => []) (fun _ _ => []) where
  stock := stock_start start
  ledger := by
    intro peer
    simpa [Start.state, Work.opened, Work.waiting, Work.asked] using Ledger.empty
  outstanding := by simp [Start.state, transfers]
  balance := by
    have hBalanced : (start.enqueued : Multiset Item) = (start.dequeued ++ start.items : List Item) :=
      Multiset.coe_eq_coe.mpr start.balanced
    have hItems : start.state.work.queue.items = start.items := start.holds.items_eq
    simp only [carried, Reader.read_nil, List.flatten_nil, Multiset.coe_nil, Finset.sum_const_zero,
      add_zero]
    rw [hItems, Multiset.coe_add]
    exact hBalanced

/-! ## Callbacks -/

/-- One call on a queue, by what it puts in and takes out. -/
theorem Queue.Holds.perform_accounts {q : Queue} {items : List Item} (h : q.Holds items)
    (hSized : Queue.Sized items) {page : PageSize} {op : QueueOp} {result : QueueResult}
    {q' : Queue} (hRun : q.perform page op = some (result, q')) :
    ∃ items', q'.Holds items' ∧ Queue.Sized items' ∧
      (items : Multiset Item) + (enqueuedBy [op] [result] : Multiset Item) =
        (items' : Multiset Item) + (dequeuedBy [result] : Multiset Item) := by
  -- the two ways to push and the two ways to pop account for their item alike
  have hPush (op : QueueOp) {result : QueueResult} (content : Item) (hContent : op.content = content)
      (hRun : (q.push page content).map (fun run => (QueueResult.code run.1, run.2)) =
        some (result, q')) :
      ∃ items', q'.Holds items' ∧ Queue.Sized items' ∧
        (items : Multiset Item) + (enqueuedBy [op] [result] : Multiset Item) =
          (items' : Multiset Item) + (dequeuedBy [result] : Multiset Item) := by
    subst hContent
    obtain ⟨⟨rc, last⟩, hCall, hEq⟩ := Option.map_eq_some_iff.mp hRun
    simp only [Prod.mk.injEq] at hEq
    obtain ⟨rfl, rfl⟩ := hEq
    by_cases hStored : Queue.stored op.content = []
    · -- an item of which no byte is stored does not get into the queue
      rw [Queue.push_of_stored_eq_nil page q hStored, Option.some.injEq, Prod.mk.injEq] at hCall
      obtain ⟨rfl, rfl⟩ := hCall
      exact ⟨items, h, hSized, by simp [enqueuedBy, dequeuedBy]⟩
    · by_cases hRoom : items.length < intMax
      · obtain ⟨q₁, hPush, hHolds⟩ := h.push page hSized hRoom op.content hStored
        rw [hPush, Option.some.injEq, Prod.mk.injEq] at hCall
        obtain ⟨rfl, rfl⟩ := hCall
        refine ⟨_, hHolds, ?_, by simp [enqueuedBy, dequeuedBy, ← Multiset.coe_add]⟩
        exact {
          count_le := by
            rw [List.length_append, List.length_singleton]
            omega
          length_lt := by
            intro item hMem
            rcases List.mem_append.mp hMem with hOld | hNew
            · exact hSized.length_lt item hOld
            · rw [List.mem_singleton.mp hNew]
              exact Queue.length_stored_lt _ }
      · -- the next count does not fit an `int`
        have hNone : intAdd q.count 1 = none := by
          rw [h.count_eq, intAdd, if_neg (by omega)]
        have hLen : ¬ toUInt32 op.content.length ≤ 0 := by
          rw [← Queue.length_stored]
          simpa using hStored
        simp [Queue.push, hLen, hNone] at hCall
  have hPop (buffer : Item) {result : QueueResult}
      (hEq : result = .popped (q.pop buffer).1 (q.pop buffer).2.1) (hLast : q' = (q.pop buffer).2.2)
      (op : QueueOp) :
      ∃ items', q'.Holds items' ∧ Queue.Sized items' ∧
        (items : Multiset Item) + (enqueuedBy [op] [result] : Multiset Item) =
          (items' : Multiset Item) + (dequeuedBy [result] : Multiset Item) := by
    subst hEq hLast
    rcases List.eq_nil_or_concat items with rfl | ⟨front, item, rfl⟩
    · rw [h.pop_nil buffer]
      exact ⟨[], h, hSized, by simp [enqueuedBy, dequeuedBy]⟩
    · rw [List.concat_eq_append] at h hSized ⊢
      obtain ⟨q₁, hCall, hHolds⟩ := h.pop buffer
      rw [hCall]
      refine ⟨front, hHolds, ?_, by simp [enqueuedBy, dequeuedBy, ← Multiset.coe_add]⟩
      exact {
        count_le := by
          have hLe := hSized.count_le
          rw [List.length_append] at hLe
          omega
        length_lt := fun item hMem => hSized.length_lt item (by simp [hMem]) }
  cases op with
  | push content => exact hPush (.push content) content rfl hRun
  | pushString element => exact hPush (.pushString element) element rfl hRun
  | pop buffer =>
      simp only [Queue.perform, Option.some.injEq, Prod.mk.injEq] at hRun
      exact hPop buffer hRun.1.symm hRun.2.symm _
  | popString element =>
      simp only [Queue.perform, Queue.popString, Option.some.injEq, Prod.mk.injEq] at hRun
      exact hPop [] hRun.1.symm hRun.2.symm _
  | lastSize =>
      simp only [Queue.perform, Option.some.injEq, Prod.mk.injEq] at hRun
      obtain ⟨rfl, rfl⟩ := hRun
      exact ⟨items, h, hSized, by simp [enqueuedBy, dequeuedBy]⟩
  | getCount =>
      simp only [Queue.perform, Option.some.injEq, Prod.mk.injEq] at hRun
      obtain ⟨rfl, rfl⟩ := hRun
      exact ⟨items, h, hSized, by simp [enqueuedBy, dequeuedBy]⟩

theorem dequeuedBy_cons (result : QueueResult) (results : List QueueResult) :
    dequeuedBy (result :: results) = dequeuedBy [result] ++ dequeuedBy results := by
  cases result with
  | popped rc content =>
      by_cases hZero : rc = 0
      · subst hZero
        rfl
      · simp [dequeuedBy, hZero]
  | _ => rfl

/-- A sequence of calls, by what it puts in and takes out. -/
theorem Queue.Holds.performAll_accounts {q : Queue} {items : List Item} (h : q.Holds items)
    (hSized : Queue.Sized items) {page : PageSize} {ops : List QueueOp}
    {results : List QueueResult} {q' : Queue}
    (hRun : q.performAll page ops = some (results, q')) :
    ∃ items', q'.Holds items' ∧ Queue.Sized items' ∧
      (items : Multiset Item) + (enqueuedBy ops results : Multiset Item) =
        (items' : Multiset Item) + (dequeuedBy results : Multiset Item) := by
  induction ops generalizing q items results with
  | nil =>
      simp only [Queue.performAll, Option.some.injEq, Prod.mk.injEq] at hRun
      obtain ⟨rfl, rfl⟩ := hRun
      exact ⟨items, h, hSized, by simp [enqueuedBy, dequeuedBy]⟩
  | cons op rest ih =>
      obtain ⟨⟨result, q₁⟩, hFirst, hTail⟩ := Option.bind_eq_some_iff.mp hRun
      obtain ⟨⟨later, q₂⟩, hLater, hEq⟩ := Option.bind_eq_some_iff.mp hTail
      simp only [Option.some.injEq, Prod.mk.injEq] at hEq
      obtain ⟨rfl, rfl⟩ := hEq
      obtain ⟨items₁, h₁, hSized₁, hEq₁⟩ := h.perform_accounts hSized hFirst
      obtain ⟨items₂, h₂, hSized₂, hEq₂⟩ := ih h₁ hSized₁ hLater
      refine ⟨items₂, h₂, hSized₂, ?_⟩
      have hEnqueued : enqueuedBy (op :: rest) (result :: later) =
          enqueuedBy [op] [result] ++ enqueuedBy rest later := by simp [enqueuedBy]
      rw [hEnqueued, dequeuedBy_cons, ← Multiset.coe_add, ← Multiset.coe_add, ← add_assoc, hEq₁,
        add_right_comm, hEq₂]
      abel

/-! ## Turns -/

section Turns

variable {w : Work n} {sent rcvd : Log (Fin n) Tag Msg}

theorem Work.opened_of_none (hSending : w.sending = none) (peer : Fin n) : w.opened peer = none := by
  simp [Work.opened, hSending]

theorem Stock.sending_none (h : Stock w) (hReplying : w.replying = false) : w.sending = none := by
  by_contra hSome
  obtain ⟨sent, hSent⟩ := Option.ne_none_iff_exists'.mp hSome
  have hTrue := (h.sending sent hSent).1
  simp [hReplying] at hTrue

/-- Only the three tags of work stealing matter. -/
theorem WorkInv.frame (h : WorkInv w sent rcvd) {sent' rcvd' : Log (Fin n) Tag Msg}
    (hSent : ∀ peer tag, tag = .workRequest ∨ tag = .workReply ∨ tag = .workReceipt →
      sent' peer tag = sent peer tag)
    (hRcvd : ∀ peer tag, tag = .workRequest ∨ tag = .workReply ∨ tag = .workReceipt →
      rcvd' peer tag = rcvd peer tag) : WorkInv w sent' rcvd' where
  stock := h.stock
  ledger := by
    intro peer
    simpa [hSent, hRcvd] using h.ledger peer
  outstanding := by simpa [hSent, hRcvd] using h.outstanding
  balance := by simpa [hSent, hRcvd] using h.balance

/-- A request arrives. -/
theorem WorkInv.collect (h : WorkInv w sent rcvd) (hReplying : w.replying = false) (src : Fin n)
    (msg : Msg) :
    WorkInv { w with requestors := w.requestors ++ [src] } sent (rcvd.add src .workRequest msg) where
  stock := { h.stock with
    shares_length := by simp [hReplying]
    shares_sum := by simp [hReplying]
    sending := by simp [h.stock.sending_none hReplying] }
  ledger := by
    intro peer
    have hNone := h.stock.sending_none hReplying
    have hOld := h.ledger peer
    simp only [Work.opened, Work.waiting, Work.asked, hNone, Option.map_none, ite_self] at hOld ⊢
    by_cases hPeer : peer = src
    · subst hPeer
      simpa [Log.add, List.count_append] using hOld.request
    · have hCount : List.count peer [src] = 0 := by simp [Ne.symm hPeer]
      simpa [Log.add, hPeer, List.count_append, hCount] using hOld
  outstanding := by simpa [Log.add] using h.outstanding
  balance := by simpa [Log.add] using h.balance

/-- The shares are chosen. -/
theorem WorkInv.choose (h : WorkInv w sent rcvd) (hReplying : w.replying = false)
    {shares : List Nat} (hLength : shares.length = w.requestors.length)
    (hSum : shares.sum ≤ w.queue.count) :
    WorkInv { w with replying := true, shares := shares } sent rcvd where
  stock := { h.stock with
    shares_length := fun _ => hLength
    shares_sum := fun _ => hSum
    sending := by simp [h.stock.sending_none hReplying] }
  ledger := h.ledger
  outstanding := h.outstanding
  balance := h.balance

/-- A reply without items goes out. -/
theorem WorkInv.noWork (h : WorkInv w sent rcvd) (hReplying : w.replying = true) {dest : Fin n}
    {requestors : List (Fin n)} {shares : List Nat} (hRequestors : w.requestors = dest :: requestors)
    (hShares : w.shares = 0 :: shares) (hSending : w.sending = none) {items : Int}
    (hItems : items ≤ 0) :
    WorkInv { w with requestors := requestors, shares := shares }
      (sent.add dest .workReply (.ints [items])) rcvd := by
  have hCarried : ∀ log : List Msg, replies.after none log = none →
      transfers (log ++ [.ints [items]]) = transfers log ∧
        carried (log ++ [.ints [items]]) = carried log := by
    intro log hAfter
    unfold transfers carried
    rw [replies.read_snoc, hAfter, replies_out_none, if_neg (by omega)]
    simp
  have hDest := h.ledger dest
  rw [Work.opened_of_none hSending] at hDest
  obtain ⟨hTransfers, hItemsEq⟩ := hCarried _ hDest.opened_eq
  exact {
    stock := { h.stock with
      shares_length := by
        intro _
        simpa [hRequestors, hShares] using h.stock.shares_length hReplying
      shares_sum := by
        intro _
        simpa [hShares] using h.stock.shares_sum hReplying
      sending := by simp [hSending] }
    ledger := by
      intro peer
      have hOld := h.ledger peer
      simp only [Work.opened, Work.waiting, Work.asked, hSending, Option.map_none, ite_self] at hOld ⊢
      by_cases hPeer : peer = dest
      · subst hPeer
        rw [hRequestors, List.count_cons_self] at hOld
        simpa [Log.add] using hOld.refuse hItems
      · have hNe : dest ≠ peer := Ne.symm hPeer
        simpa [Log.add, hPeer, hRequestors, hNe] using hOld
    outstanding := by
      rw [Log.sum_add transfers sent dest .workReply _ 0 (by simpa using hTransfers), add_zero]
      exact h.outstanding
    balance := by
      rw [Log.sum_add (fun log => (carried log : Multiset Item)) sent dest .workReply _ 0
        (by simp [hItemsEq]), add_zero]
      exact h.balance }

/-- The header of a reply goes out. -/
theorem WorkInv.header (h : WorkInv w sent rcvd) (hReplying : w.replying = true) {dest : Fin n}
    {requestors : List (Fin n)} {shares : List Nat} (hRequestors : w.requestors = dest :: requestors)
    {front back : List Item} (hShares : w.shares = back.length :: shares)
    (hSending : w.sending = none) (hHolds : w.queue.Holds (front ++ back)) (hBack : Sendable back)
    (offsetsCount : Nat) {work : SentWork} (hHeader : work.header = encodeHeader back)
    (hPayload : work.payload = back.flatten)
    (hQueue : work.queue =
      { w.queue with count := front.length, head := front.flatten.length }) :
    WorkInv { w with sending := some work, offsetsCount := offsetsCount }
      (sent.add dest .workReply (.ints work.header)) rcvd := by
  have hDest := h.ledger dest
  rw [Work.opened_of_none hSending] at hDest
  obtain ⟨first, rest, hEncoded, hFirst⟩ := encodeHeader_cons hBack.ne_nil
  have hRead : replies.read none (sent dest .workReply ++ [.ints work.header]) =
      replies.read none (sent dest .workReply) := by
    rw [replies.read_snoc, hDest.opened_eq, hHeader, hEncoded, replies_out_none, if_pos hFirst,
      List.append_nil]
  exact {
    stock := { h.stock with
      sending := by
        intro work' hWork
        simp only [Option.some.injEq] at hWork
        subst hWork
        exact ⟨hReplying, front, back, {
          holds := hHolds
          sendable := hBack
          share := by simp [hShares]
          header := hHeader
          payload := hPayload
          queue := hQueue }⟩ }
    ledger := by
      intro peer
      have hOld := h.ledger peer
      simp only [Work.opened, Work.waiting, Work.asked, hSending, Option.map_none, ite_self] at hOld ⊢
      by_cases hPeer : peer = dest
      · subst hPeer
        simpa [Log.add, hRequestors, hHeader] using hOld.announce hBack.ne_nil
      · have hNe : dest ≠ peer := Ne.symm hPeer
        simpa [Log.add, hPeer, hRequestors, hNe] using hOld
    outstanding := by
      rw [Log.sum_add transfers sent dest .workReply _ 0 (by simp [transfers, hRead]), add_zero]
      exact h.outstanding
    balance := by
      rw [Log.sum_add (fun log => (carried log : Multiset Item)) sent dest .workReply _ 0
        (by simp [carried, hRead]), add_zero]
      exact h.balance }

/-- The bytes of a reply go out, and the items leave the queue. -/
theorem WorkInv.payload (h : WorkInv w sent rcvd) (hReplying : w.replying = true) {dest : Fin n}
    {requestors : List (Fin n)} {count : Nat} {shares : List Nat}
    (hRequestors : w.requestors = dest :: requestors) (hShares : w.shares = count :: shares)
    {work : SentWork} (hSending : w.sending = some work) :
    WorkInv { w with
        queue := work.queue
        sending := none
        workOutstanding := w.workOutstanding + 1
        requestors := requestors
        shares := shares }
      (sent.add dest .workReply (.chars work.payload)) rcvd := by
  obtain ⟨-, front, back, hSend⟩ := h.stock.sending work hSending
  have hCount : count = back.length := by
    have hShare := hSend.share
    rw [hShares, List.head?_cons, Option.some.injEq] at hShare
    exact hShare
  have hBefore : w.queue.items = front ++ back := hSend.holds.items_eq
  have hAfter : work.queue.Holds front := by
    rw [hSend.queue]
    exact hSend.holds.truncate
  have hDest := h.ledger dest
  have hOpened : w.opened dest = some (encodeHeader back) := by
    simp [Work.opened, hRequestors, hSending, hSend.header]
  rw [hOpened] at hDest
  -- with the payload, the reader of the log has one more reply: the items of the share
  have hRead : replies.read none (sent dest .workReply ++ [.chars work.payload]) =
      replies.read none (sent dest .workReply) ++ [back] := by
    rw [replies.read_snoc, hDest.opened_eq, hSend.payload, replies_out_payload hSend.sendable]
  have hSum := h.stock.shares_sum hReplying
  have hQueueCount := hSend.holds.count_eq
  rw [hShares, List.sum_cons] at hSum
  rw [List.length_append] at hQueueCount
  exact {
    stock := { h.stock with
      inv := hAfter.inv
      sized := by
        rw [hAfter.items_eq]
        have hSized := h.stock.sized
        rw [hBefore] at hSized
        exact {
          count_le := by
            have hLe := hSized.count_le
            rw [List.length_append] at hLe
            omega
          length_lt := fun item hMem => hSized.length_lt item (by simp [hMem]) }
      empty := by
        intro hRequested
        have hZero := h.stock.empty hRequested
        rw [hAfter.count_eq]
        omega
      shares_length := by
        intro _
        simpa [hRequestors, hShares] using h.stock.shares_length hReplying
      shares_sum := by
        intro _
        show shares.sum ≤ work.queue.count
        rw [hAfter.count_eq]
        omega
      sending := by simp }
    ledger := by
      intro peer
      have hOld := h.ledger peer
      simp only [Work.opened, Work.waiting, Work.asked, Option.map_none, ite_self] at hOld ⊢
      by_cases hPeer : peer = dest
      · subst hPeer
        simp only [hRequestors, List.head?_cons, if_true, hSending, Option.map_some, hSend.header,
          List.count_cons_self] at hOld
        simpa [Log.add, hSend.payload] using hOld.deliver hSend.sendable
      · have hNe : dest ≠ peer := Ne.symm hPeer
        simpa [Log.add, hPeer, hRequestors, hNe] using hOld
    outstanding := by
      rw [Log.sum_add transfers sent dest .workReply _ 1 (by
        simp [transfers, hRead, hSend.sendable.ne_nil]), ← h.outstanding]
      exact Nat.add_right_comm _ _ _
    balance := by
      -- what leaves the queue is what the payload carries
      rw [Log.sum_add (fun log => (carried log : Multiset Item)) sent dest .workReply _ (back : Multiset Item)
        (by simp [carried, hRead])]
      rw [h.balance, hBefore, hAfter.items_eq, ← Multiset.coe_add]
      abel }

/-- All requestors have their replies. -/
theorem WorkInv.finished (h : WorkInv w sent rcvd) (hReplying : w.replying = true)
    (hDone : w.requestors = [] ∨ w.shares = []) :
    WorkInv { w with replying := false, requestors := [], shares := [] } sent rcvd := by
  have hLength := h.stock.shares_length hReplying
  have hRequestors : w.requestors = [] := by
    rcases hDone with hNil | hNil
    · exact hNil
    · simpa [hNil] using hLength.symm
  have hSending : w.sending = none := by
    by_contra hSome
    obtain ⟨work, hWork⟩ := Option.ne_none_iff_exists'.mp hSome
    obtain ⟨-, front, back, hSend⟩ := h.stock.sending work hWork
    have hShare := hSend.share
    rw [hRequestors, List.length_nil, List.length_eq_zero_iff] at hLength
    simp [hLength] at hShare
  exact {
    stock := { h.stock with
      shares_length := by simp
      shares_sum := by simp
      sending := by simp [hSending] }
    ledger := by
      intro peer
      have hOld := h.ledger peer
      simp only [Work.opened, Work.waiting, Work.asked, hSending, Option.map_none, ite_self,
        hRequestors] at hOld ⊢
      exact hOld
    outstanding := h.outstanding
    balance := h.balance }

/-- A receipt arrives. -/
theorem WorkInv.receipt (h : WorkInv w sent rcvd) (hOutstanding : 0 < w.workOutstanding)
    (src : Fin n) (msg : Msg) :
    WorkInv { w with workOutstanding := w.workOutstanding - 1 } sent
      (rcvd.add src .workReceipt msg) where
  stock := { h.stock with
    sending := fun work hWork => by
      obtain ⟨hReplying, front, back, hSend⟩ := h.stock.sending work hWork
      exact ⟨hReplying, front, back, { hSend with }⟩ }
  ledger := by
    intro peer
    simpa [Log.add, Work.opened, Work.waiting, Work.asked] using h.ledger peer
  outstanding := by
    rw [Log.sum_add List.length rcvd src .workReceipt msg 1 (by simp), ← h.outstanding]
    show w.workOutstanding - 1 + _ = _
    omega
  balance := by simpa [Log.add] using h.balance

/-- A reply without items arrives. -/
theorem WorkInv.noItems (h : WorkInv w sent rcvd) (hReceiving : w.receiving = none)
    (hRequested : w.workRequested = true) {source : Fin n}
    (hSource : w.workRequestedRank = some source) {items : Int} (rest : List Int)
    (hItems : items ≤ 0) (offsetsCount : Nat) :
    WorkInv { w with offsetsCount := offsetsCount, workRequested := false } sent
      (rcvd.add source .workReply (.ints (items :: rest))) := by
  have hSourceLedger := h.ledger source
  have hWaiting : w.waiting source = none := by simp [Work.waiting, hReceiving]
  have hRead : replies.read none (rcvd source .workReply ++ [.ints (items :: rest)]) =
      replies.read none (rcvd source .workReply) ++ [[]] := by
    rw [replies.read_snoc, hSourceLedger.waiting_eq, hWaiting, replies_out_none, if_neg (by omega)]
  exact {
    stock := { h.stock with
      empty := by simp
      receiving := by simp [hReceiving]
      target := by simp
      sending := fun work hWork => by
        obtain ⟨hReplying, front, back, hSend⟩ := h.stock.sending work hWork
        exact ⟨hReplying, front, back, { hSend with }⟩ }
    ledger := by
      intro peer
      have hOld := h.ledger peer
      simp only [Work.opened, Work.waiting, Work.asked, hReceiving, ite_self, hRequested,
        true_and, Bool.false_eq_true, false_and, if_false] at hOld ⊢
      by_cases hPeer : peer = source
      · subst hPeer
        rw [if_pos hSource] at hOld
        have hNew : Ledger _ none 0 _ _ _ _ _ _ := Ledger.refused (by simpa using hOld) rest hItems
        simpa [Log.add] using hNew
      · have hNe : w.workRequestedRank ≠ some peer := by
          rw [hSource]
          exact fun hEq => hPeer (Option.some.inj hEq).symm
        rw [if_neg hNe] at hOld
        simpa [Log.add, hPeer] using hOld
    outstanding := by simpa [Log.add] using h.outstanding
    balance := by
      rw [Log.sum_add (fun log => (carried log : Multiset Item)) rcvd source .workReply _ 0
        (by simp [carried, hRead]), add_zero]
      exact h.balance }

/-- The header of a reply arrives. -/
theorem WorkInv.announced (h : WorkInv w sent rcvd) (hReceiving : w.receiving = none)
    (hRequested : w.workRequested = true) {source : Fin n}
    (hSource : w.workRequestedRank = some source) {items : Int} (rest : List Int)
    (hItems : 0 < items) (offsetsCount : Nat) :
    WorkInv { w with offsetsCount := offsetsCount, receiving := some (items :: rest) } sent
      (rcvd.add source .workReply (.ints (items :: rest))) := by
  have hSourceLedger := h.ledger source
  have hWaiting : w.waiting source = none := by simp [Work.waiting, hReceiving]
  have hRead : replies.read none (rcvd source .workReply ++ [.ints (items :: rest)]) =
      replies.read none (rcvd source .workReply) := by
    rw [replies.read_snoc, hSourceLedger.waiting_eq, hWaiting, replies_out_none, if_pos hItems,
      List.append_nil]
  exact {
    stock := { h.stock with
      receiving := fun _ => hRequested
      sending := fun work hWork => by
        obtain ⟨hReplying, front, back, hSend⟩ := h.stock.sending work hWork
        exact ⟨hReplying, front, back, { hSend with }⟩ }
    ledger := by
      intro peer
      have hOld := h.ledger peer
      simp only [Work.opened, Work.waiting, Work.asked, hReceiving, ite_self] at hOld ⊢
      by_cases hPeer : peer = source
      · subst hPeer
        rw [if_pos hSource]
        simpa [Log.add] using hOld.announced rest hItems
      · have hNe : w.workRequestedRank ≠ some peer := by
          rw [hSource]
          exact fun hEq => hPeer (Option.some.inj hEq).symm
        rw [if_neg hNe]
        simpa [Log.add, hPeer] using hOld
    outstanding := by simpa [Log.add] using h.outstanding
    balance := by
      rw [Log.sum_add (fun log => (carried log : Multiset Item)) rcvd source .workReply _ 0
        (by simp [carried, hRead]), add_zero]
      exact h.balance }

/-- The message that follows a header is the bytes of the same reply. -/
theorem WorkInv.payload_of_ok (h : WorkInv w sent rcvd) {header : List Int}
    (hReceiving : w.receiving = some header) {source : Fin n}
    (hSource : w.workRequestedRank = some source) {msg : Msg}
    (hOk : replies.Ok (replies.after none (rcvd source .workReply)) msg) :
    ∃ items, Sendable items ∧ header = encodeHeader items ∧ msg = .chars items.flatten := by
  have hWaiting : w.waiting source = some header := by simp [Work.waiting, hSource, hReceiving]
  rw [(h.ledger source).waiting_eq, hWaiting] at hOk
  exact replies_ok_some hOk

/-- The bytes of a reply arrive, and the items enter the queue. -/
theorem WorkInv.items (h : WorkInv w sent rcvd) (page : PageSize) {items : List Item}
    (hItems : Sendable items) (hReceiving : w.receiving = some (encodeHeader items))
    {source : Fin n} (hSource : w.workRequestedRank = some source) :
    ∃ queue, receivePayload page w.queue ((encodeHeader items).headD 0)
        ((encodeHeader items).tail.headD 0) (encodeHeader items).tail.tail items.flatten =
          some (.work queue) ∧
      WorkInv { w with queue := queue, receiving := none, workRequested := false }
        (sent.add source .workReceipt .empty)
        (rcvd.add source .workReply (.chars items.flatten)) := by
  have hRequested := h.stock.receiving (by simp [hReceiving])
  have hCount := h.stock.empty hRequested
  have hEmpty : w.queue.items = [] := by
    rw [← List.length_eq_zero_iff, h.stock.inv.length_items, hCount]
  have hHolds : w.queue.Holds [] := hEmpty ▸ h.stock.inv.holds
  obtain ⟨queue, hReceive, hNew⟩ := hHolds.receivePayload page hItems.ne_nil hItems.nonempty
    hItems.count_le hItems.bytes_le
  have hSourceLedger := h.ledger source
  have hWaiting : w.waiting source = some (encodeHeader items) := by
    simp [Work.waiting, hSource, hReceiving]
  rw [hWaiting] at hSourceLedger
  have hRead : replies.read none (rcvd source .workReply ++ [.chars items.flatten]) =
      replies.read none (rcvd source .workReply) ++ [items] := by
    rw [replies.read_snoc, hSourceLedger.waiting_eq, replies_out_payload hItems]
  -- a rank with an open request has nothing to send
  have hSending : w.sending = none := by
    by_contra hSome
    obtain ⟨work, hWork⟩ := Option.ne_none_iff_exists'.mp hSome
    obtain ⟨-, front, back, hSend⟩ := h.stock.sending work hWork
    have hBack := List.length_pos_iff.mpr hSend.sendable.ne_nil
    have hTotal := hSend.holds.count_eq
    rw [hCount, List.length_append] at hTotal
    omega
  refine ⟨queue, hReceive, {
    stock := { h.stock with
      inv := hNew.inv
      sized := by
        show Queue.Sized queue.items
        rw [hNew.items_eq]
        exact hItems.sized
      empty := by simp
      receiving := by simp
      target := by simp
      shares_sum := fun hReplying => by
        have hSum := h.stock.shares_sum hReplying
        rw [hCount] at hSum
        exact Nat.le_trans hSum (Nat.zero_le _)
      sending := by simp [hSending] }
    ledger := ?_
    outstanding := by simpa [Log.add] using h.outstanding
    balance := ?_ }⟩
  · intro peer
    have hOld := h.ledger peer
    simp only [Work.opened, Work.waiting, Work.asked, hReceiving, hRequested, true_and,
      Bool.false_eq_true, false_and, if_false, ite_self] at hOld ⊢
    by_cases hPeer : peer = source
    · subst hPeer
      rw [if_pos hSource, if_pos hSource] at hOld
      have hLater : Ledger _ none 0 _ _ _ _ _ _ := Ledger.delivered (by simpa using hOld) hItems
      simpa [Log.add] using hLater
    · have hNe : w.workRequestedRank ≠ some peer := by
        rw [hSource]
        exact fun hEq => hPeer (Option.some.inj hEq).symm
      rw [if_neg hNe, if_neg hNe] at hOld
      simpa [Log.add, hPeer] using hOld
  · have hSent : ∀ peer, sent.add source .workReceipt .empty peer .workReply = sent peer .workReply :=
      fun peer => Log.add_of_tag_ne _ _ _ _ (by decide)
    rw [Log.sum_add (fun log => (carried log : Multiset Item)) rcvd source .workReply _
      (items : Multiset Item) (by simp [carried, hRead])]
    have hBalance := h.balance
    simp only [hEmpty, Multiset.coe_nil, add_zero] at hBalance
    simp only [hSent, hNew.items_eq]
    rw [← add_assoc, hBalance]
    abel

/-- A request goes out. -/
theorem WorkInv.request (h : WorkInv w sent rcvd) (hReceiving : w.receiving = none)
    (hRequested : w.workRequested = false) (hCount : w.queue.count = 0) (source : Fin n)
    (nextProcessor : Option (Fin n)) :
    WorkInv { w with
        workRequested := true
        workRequestedRank := some source
        nextProcessor := nextProcessor }
      (sent.add source .workRequest .empty) rcvd where
  stock := { h.stock with
    empty := fun _ => hCount
    receiving := fun _ => rfl
    target := fun _ => ⟨source, rfl⟩
    sending := fun work hWork => by
      obtain ⟨hReplying, front, back, hSend⟩ := h.stock.sending work hWork
      exact ⟨hReplying, front, back, { hSend with }⟩ }
  ledger := by
    intro peer
    have hOld := h.ledger peer
    simp only [Work.opened, Work.waiting, Work.asked, hReceiving, hRequested, ite_self, true_and,
      Bool.false_eq_true, false_and, if_false, Option.some.injEq] at hOld ⊢
    by_cases hPeer : peer = source
    · subst hPeer
      simpa [Log.add] using hOld.ask
    · have hNe : ¬ source = peer := Ne.symm hPeer
      simpa [Log.add, hPeer, hNe] using hOld
  outstanding := by simpa [Log.add] using h.outstanding
  balance := by simpa [Log.add] using h.balance

/-- A callback changes the queue by what it enqueues and dequeues. -/
theorem WorkInv.callback (h : WorkInv w sent rcvd) (hRequested : w.workRequested = false)
    (hReplying : w.replying = false) {page : PageSize} {ops : List QueueOp} {work : Work n}
    (hWork : w.process page ops = some work) : WorkInv work sent rcvd := by
  obtain ⟨⟨results, queue⟩, hRun, rfl⟩ := Option.map_eq_some_iff.mp hWork
  obtain ⟨items, hHolds, hSized, hItems⟩ := h.stock.inv.holds.performAll_accounts h.stock.sized hRun
  exact {
    stock := { h.stock with
      inv := hHolds.inv
      sized := by
        show Queue.Sized queue.items
        rw [hHolds.items_eq]
        exact hSized
      empty := by simp [hRequested]
      shares_sum := by simp [hReplying]
      sending := by simp [h.stock.sending_none hReplying] }
    ledger := h.ledger
    outstanding := h.outstanding
    balance := by
      show ((w.enqueued ++ enqueuedBy ops results : List Item) : Multiset Item) + _ =
        ((w.dequeued ++ dequeuedBy results : List Item) : Multiset Item) +
          (queue.items : Multiset Item) + _
      rw [hHolds.items_eq, ← Multiset.coe_add, ← Multiset.coe_add, add_right_comm, h.balance,
        add_assoc _ _ (items : Multiset Item), add_comm (dequeuedBy results : Multiset Item),
        ← hItems]
      abel }

/-- The answers to requests. -/
theorem WorkInv.workreq (h : WorkInv w sent rcvd) {cleanup abortFlag : Bool} {proc : Color}
    {turn : Turn n (Work n × Color) Unit}
    (hTurn : WorkreqTurn cfg rank cleanup abortFlag w proc input turn) :
    WorkInv turn.record.1 (sent.send turn.out) (rcvd.receive input) := by
  cases hTurn
  case collect src msg hReplying => exact h.collect hReplying src msg
  case nothing => exact h
  case refuse hReplying _ =>
    apply h.choose hReplying
    · simp
    · simp
  case share value hReplying hSome hCount _ _ =>
    obtain ⟨kept, shares, hSizes, hFair⟩ := fairSizes_splitSizes cfg.splitEqual value
      (List.length_pos_iff.mpr hSome) (Nat.pos_of_ne_zero hCount)
    have hShares : splitShares cfg.splitEqual w.requestors.length w.queue.count value = shares := by
      rw [splitShares_eq_tail, hSizes, List.tail_cons]
    have hSum := hFair.sum_eq
    rw [hShares]
    exact h.choose hReplying hFair.length_eq (by omega)
  case noWork dest requestors shares hReplying hRequestors hShares hSending =>
    refine h.noWork hReplying hRequestors hShares hSending ?_
    unfold payloadAbort
    split <;> omega
  case header dest requestors count shares work hReplying hRequestors hShares hSending hCount
      hBytes hSend =>
    have hSum := h.stock.shares_sum hReplying
    have hLe : count ≤ w.queue.count := by
      rw [hShares, List.sum_cons] at hSum
      omega
    obtain ⟨front, back, hHolds, rfl, hBack, -, hDrop⟩ :=
      h.stock.inv.exists_split (Nat.pos_of_ne_zero hCount) hLe
    have hFlat : back.flatten.length ≤ intMax := by
      rw [← hDrop]
      exact hBytes
    have hSendable : Sendable back := {
      ne_nil := hBack
      nonempty := fun item hMem => hHolds.nonempty item (by simp [hMem])
      count_le := by
        have hCountLe := h.stock.sized.count_le
        rw [h.stock.inv.length_items] at hCountLe
        omega
      bytes_le := hFlat }
    rw [hHolds.sendWork hBack hFlat] at hSend
    obtain ⟨offsetsCount, -, rfl⟩ := Option.map_eq_some_iff.mp hSend
    exact h.header hReplying hRequestors hShares hSending hHolds hSendable _ rfl rfl rfl
  case payload dest requestors count shares work hReplying hRequestors hShares hSending =>
    exact h.payload hReplying hRequestors hShares hSending
  case finished hReplying hDone => exact h.finished hReplying hDone

/-- The turns of `requestWork`: nothing goes wrong, and a message that is
received is the next of its reply. -/
theorem WorkInv.requestWork (h : WorkInv w sent rcvd) {cleanup abortFlag : Bool}
    (hEmpty : cleanup = false → w.queue.count = 0)
    (hOk : ∀ src msg, input = .recv src .workReply msg →
      replies.Ok (replies.after none (rcvd src .workReply)) msg)
    {turn : Turn n (Work n × Bool) Outcome}
    (hTurn : RequestTurn cfg rank cleanup w abortFlag input turn) :
    turn.result ≠ some .failed ∧
      WorkInv turn.record.1 (sent.send turn.out) (rcvd.receive input) := by
  cases hTurn
  case items source header payload queue hReceiving hSource hReceive =>
    obtain ⟨items, hItems, rfl, hPayload⟩ := h.payload_of_ok hReceiving hSource (hOk _ _ rfl)
    cases hPayload
    obtain ⟨queue', hReceive', hNew⟩ := h.items cfg.page hItems hReceiving hSource
    rw [hReceive, Option.some.injEq] at hReceive'
    cases hReceive'
    exact ⟨by simp [Turn.sendsAndReturns], hNew⟩
  case badItems source header msg hReceiving hSource hBad =>
    obtain ⟨items, hItems, rfl, rfl⟩ := h.payload_of_ok hReceiving hSource (hOk _ _ rfl)
    obtain ⟨queue, hReceive, -⟩ := h.items cfg.page hItems hReceiving hSource
    exact (hBad _ queue rfl hReceive).elim
  case noItems source items rest offsetsCount hReceiving hRequested hSource _ hItems =>
    exact ⟨by simp [Turn.returns],
      h.noItems hReceiving hRequested hSource rest hItems offsetsCount⟩
  case header source items rest offsetsCount hReceiving hRequested hSource _ hItems =>
    exact ⟨by simp [Turn.stays],
      h.announced hReceiving hRequested hSource rest hItems offsetsCount⟩
  case badHeader source msg hReceiving hRequested hSource hBad =>
    have hWaiting : w.waiting source = none := by simp [Work.waiting, hReceiving]
    have hNext := hOk _ _ rfl
    rw [(h.ledger source).waiting_eq, hWaiting] at hNext
    obtain ⟨items, rest, rfl⟩ := replies_ok_none hNext
    exact (hBad items rest rfl).elim
  case nothing => exact ⟨by simp [Turn.returns], h⟩
  case request source following hReceiving hRequested hCleanup _ _ _ =>
    exact ⟨by simp [Turn.sendsAndReturns],
      h.request hReceiving hRequested (hEmpty hCleanup) source (some following)⟩

end Turns

/-- What a rank knows is kept by its turns. -/
theorem WorkInv.step {node : Rank n} (h : WorkInv node.state.work node.sent node.rcvd)
    (hControl : Control cfg node.state)
    (hOk : ∀ src msg, input = .recv src .workReply msg →
      replies.Ok (replies.after none (node.rcvd src .workReply)) msg)
    (hStep : MainStep cfg rank input node.state s' out) :
    WorkInv s'.work (node.sent.send out) (node.rcvd.receive input) := by
  have hFits := hControl.fits
  have hWork := workStep_of_mainStep hStep
  generalize s'.work = next at hWork ⊢
  cases hWork
  case other hRequest hReply hReceipt =>
    refine h.frame ?_ ?_
    · rintro peer tag (rfl | rfl | rfl)
      · exact hRequest.sent _ peer
      · exact hReply.sent _ peer
      · exact hReceipt.sent _ peer
    · rintro peer tag (rfl | rfl | rfl)
      · exact hRequest.rcvd _ peer
      · exact hReply.rcvd _ peer
      · exact hReceipt.rcvd _ peer
  case workreq hTurn => exact h.workreq hTurn
  case receipt hPc hTurn =>
    cases hTurn
    case receipt src msg hOutstanding => exact h.receipt hOutstanding src msg
    case nothing => exact h
  case request hPc hTurn =>
    simp only [State.Fits, hPc] at hFits
    exact (h.requestWork hFits hOk hTurn).2
  case callback ops hPc hCount hWork =>
    have hReplying : node.state.work.replying = false := by
      rw [← Bool.not_eq_true]
      intro hTrue
      have hOther := hControl.phases.replying hTrue
      simp [hPc] at hOther
    have hRequested : node.state.work.workRequested = false := by
      rw [← Bool.not_eq_true]
      intro hTrue
      have hZero := h.stock.empty hTrue
      omega
    exact h.callback hRequested hReplying hWork

section Executions

variable {ok : World n → Fin n → Event n → Prop} {g : World n}

/-- The next message of a reply, by what its sender knows. -/
theorem replies_ok_of_admits (hFifo : FifoNet.Fifo g)
    (hInv : ∀ other, WorkInv (g other).state.work (g other).sent (g other).rcvd) {rank : Fin n}
    {input : Input n} (hAdmits : FifoNet.Admits g rank input) (src : Fin n) (msg : Msg)
    (hInput : input = .recv src .workReply msg) :
    replies.Ok (replies.after none ((g rank).rcvd src .workReply)) msg := by
  subst hInput
  exact ((hInv src).ledger rank).accepts.next_ok (hFifo.of_admits_recv hAdmits)

/-- In every execution, every rank keeps its books. -/
theorem Execution.workInv (h : Execution cfg ok g) (rank : Fin n) :
    WorkInv (g rank).state.work (g rank).sent (g rank).rcvd := by
  refine h.forall_rank (L := fun _ node => WorkInv node.state.work node.sent node.rcvd) ?_ ?_ rank
  · intro rank start
    exact workInv_start start
  · intro g rank input state out hReach hAll hAdmits hStep
    exact (hAll rank).step (hReach.control rank)
      (replies_ok_of_admits hReach.fifo hAll hAdmits) hStep

end Executions

end Circle
