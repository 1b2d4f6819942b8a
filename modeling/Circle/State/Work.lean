import Circle.State.Basic

/-!
# Work stealing

`workreqCheck`, `workreceiptCheck`, `requestWork` and the call of the process
callback.  The list `requestors` of a rank holds the ranks whose request it has
received and not yet answered, and `shares` how many items each of them gets.

`enqueued` and `dequeued` record the items that callbacks have put into the
queue and taken out of it; no function reads them.
-/

namespace Circle

/-- The queue of a rank and its part in work stealing. -/
structure Work (n : Nat) where
  queue : Queue
  requestors : List (Fin n)
  shares : List Nat
  /-- All requests are collected, and the replies are being sent. -/
  replying : Bool
  /-- The header of a reply is sent, its bytes are not. -/
  sending : Option SentWork
  workRequested : Bool
  workRequestedRank : Option (Fin n)
  nextProcessor : Option (Fin n)
  /-- The header of a reply is received, its bytes are not. -/
  receiving : Option (List Int)
  workOutstanding : Nat
  offsetsCount : Nat
  enqueued : List Item
  dequeued : List Item
  deriving DecidableEq

/-- `spread_counts`. -/
def spreadCounts (ranks count : Nat) : List Nat :=
  let base := count / ranks
  let extra := count - base * ranks
  List.replicate extra (base + 1) ++ List.replicate (ranks - extra) base

/-- The number of items that `sendWorkToMany` sends to each requestor. -/
def splitShares (splitEqual : Bool) (rcount count draw : Nat) : List Nat :=
  if splitEqual then
    (spreadCounts (rcount + 1) count).tail
  else
    let sendCount := draw % count + 1
    let sendCount := if sendCount = count then sendCount - 1 else sendCount
    spreadCounts rcount sendCount

/-- The items that `push` stored in a sequence of calls. -/
def enqueuedBy : List QueueOp → List QueueResult → List Item
  | op :: ops, result :: results =>
      (if result = .code 0 then [Queue.stored op.content] else []) ++ enqueuedBy ops results
  | _, _ => []

/-- The items that `pop` returned in a sequence of calls. -/
def dequeuedBy : List QueueResult → List Item
  | .popped 0 content :: results => content :: dequeuedBy results
  | _ :: results => dequeuedBy results
  | [] => []

namespace Work

variable {n : Nat}

/-- The first requestor has its reply. -/
def answered (w : Work n) : Work n :=
  { w with requestors := w.requestors.tail, shares := w.shares.tail }

/-- The colour of a rank that sends items to `dest`. -/
def colorAfterSend (rank dest : Fin n) (tokenProc : Color) : Color :=
  if dest < rank ∨ dest = tokenSrc rank then .black else tokenProc

/-- `sendNoWork`. -/
def sendNoWork (abortFlag : Bool) (w : Work n) (tokenProc : Color) (dest : Fin n) :
    Turn n (Work n × Color) Unit :=
  .sends (w.answered, tokenProc) dest .workReply (.ints [if abortFlag then payloadAbort else 0])

/-- `sendWork`: the header goes out in one turn, the bytes in the next.  The
byte count of a transfer has to fit an `int`. -/
def sendWork (rank : Fin n) (abortFlag : Bool) (w : Work n) (tokenProc : Color) (dest : Fin n)
    (count : Nat) : Option (Turn n (Work n × Color) Unit) :=
  match w.sending with
  | some sent =>
      some (.sends ({ w.answered with
        queue := sent.queue
        sending := none
        workOutstanding := w.workOutstanding + 1 }, tokenProc) dest .workReply (.chars sent.payload))
  | none =>
      if count = 0 then
        some (w.sendNoWork abortFlag tokenProc dest)
      else if w.queue.segmentBytes count ≤ intMax then
        (Circle.sendWork w.offsetsCount w.queue count).map fun sent =>
          .sends ({ w with sending := some sent, offsetsCount := sent.offsetsCount },
            colorAfterSend rank dest tokenProc) dest .workReply (.ints sent.header)
      else
        none

/-- `workreqCheck`: collect the requests that are there, then answer them. -/
def workreqCheck (cfg : Config n) (rank : Fin n) (cleanup abortFlag : Bool) (w : Work n)
    (tokenProc : Color) (input : Input n) : Option (Turn n (Work n × Color) Unit) :=
  if w.replying then
    match input, w.requestors, w.shares with
    | .tick .go, dest :: _, count :: _ => w.sendWork rank abortFlag tokenProc dest count
    | .tick .go, _, _ =>
        some (.returns ({ w with replying := false, requestors := [], shares := [] }, tokenProc) ())
    | _, _, _ => none
  else
    match input with
    | .recv src .workRequest _ =>
        some (.stays ({ w with requestors := w.requestors ++ [src] }, tokenProc))
    | .tick choice =>
        if w.requestors = [] then
          some (.returns (w, tokenProc) ())
        else if w.queue.count = 0 || cleanup || abortFlag then
          some (.stays ({ w with
            replying := true
            shares := List.replicate w.requestors.length 0 }, tokenProc))
        else
          match choice with
          | .draw value =>
              some (.stays ({ w with
                replying := true
                shares := splitShares cfg.splitEqual w.requestors.length w.queue.count value },
                tokenProc))
          | _ => none
    | _ => none

/-- `workreceiptCheck`, with the member `term_flag`. -/
def workreceiptCheck (w : Work n) (termFlag : Bool) (input : Input n) :
    Option (Turn n (Work n × Bool) Unit) :=
  match input with
  | .recv _ .workReceipt _ =>
      if w.workOutstanding > 0 then
        some (.stays ({ w with workOutstanding := w.workOutstanding - 1 }, false))
      else
        none
  | .tick .go => some (.returns (w, termFlag) ())
  | _ => none

/-- The first half of `workReceive`: a message that starts a reply. -/
def receiveHeader (w : Work n) (abortFlag : Bool) (msg : Msg) :
    Option (Turn n (Work n × Bool) Outcome) :=
  match msg with
  | .ints header =>
      match header with
      | [] => some (.returns (w, abortFlag) .failed)
      | items :: _ =>
          (extendOffsets w.offsetsCount header.length).map fun offsetsCount =>
            if items = 0 then
              .returns ({ w with offsetsCount := offsetsCount, workRequested := false }, abortFlag)
                .returned
            else if items = payloadAbort then
              .returns ({ w with offsetsCount := offsetsCount, workRequested := false }, true)
                .returned
            else if items < 0 then
              .returns ({ w with offsetsCount := offsetsCount, workRequested := false }, abortFlag)
                .returned
            else
              .stays ({ w with offsetsCount := offsetsCount, receiving := some header }, abortFlag)
  | _ => some (.returns (w, abortFlag) .failed)

/-- The second half of `workReceive`: the bytes of a reply, and the receipt. -/
def receiveItems (page : PageSize) (w : Work n) (abortFlag : Bool) (source : Fin n)
    (header : List Int) (msg : Msg) : Option (Turn n (Work n × Bool) Outcome) :=
  match msg with
  | .chars payload =>
      (receivePayload page w.queue (header.headD 0) (header.tail.headD 0) header.tail.tail
        payload).map fun received =>
          match received with
          | .work queue =>
              .sendsAndReturns
                ({ w with queue := queue, receiving := none, workRequested := false }, abortFlag)
                source .workReceipt .empty .returned
          | _ => .returns (w, abortFlag) .failed
  | _ => some (.returns (w, abortFlag) .failed)

/-- `requestWork`, with `ABORT_FLAG`. -/
def requestWork (cfg : Config n) (rank : Fin n) (cleanup : Bool) (w : Work n) (abortFlag : Bool)
    (input : Input n) : Option (Turn n (Work n × Bool) Outcome) :=
  match w.receiving with
  | some header =>
      match input with
      | .recv source .workReply msg =>
          if w.workRequestedRank = some source then
            w.receiveItems cfg.page abortFlag source header msg
          else
            none
      | _ => none
  | none =>
      if w.workRequested then
        match input with
        | .recv source .workReply msg =>
            if w.workRequestedRank = some source then w.receiveHeader abortFlag msg else none
        | .tick .go => some (.returns (w, abortFlag) .returned)
        | _ => none
      else if !cleanup && !abortFlag then
        match w.nextProcessor, input with
        | none, .tick .go => some (.returns (w, abortFlag) .returned)
        | some source, .tick (.next (some following)) =>
            if following ≠ rank then
              some (.sendsAndReturns
                ({ w with
                    workRequested := true
                    workRequestedRank := some source
                    nextProcessor := some following }, abortFlag)
                source .workRequest .empty .returned)
            else
              none
        | _, _ => none
      else
        match input with
        | .tick .go => some (.returns (w, abortFlag) .returned)
        | _ => none

/-- A call of the process callback. -/
def process (page : PageSize) (w : Work n) (ops : List QueueOp) : Option (Work n) :=
  (w.queue.performAll page ops).map fun (results, queue) =>
    { w with
      queue := queue
      enqueued := w.enqueued ++ enqueuedBy ops results
      dequeued := w.dequeued ++ dequeuedBy results }

end Work

/-! ## Turns

One inductive predicate for each function, with a constructor for each thing
that a turn of the function can do. -/

section Turns

variable {n : Nat} {cfg : Config n} {rank : Fin n} {input : Input n}

/-- The turns of `workreqCheck`. -/
inductive WorkreqTurn (cfg : Config n) (rank : Fin n) (cleanup abortFlag : Bool) (w : Work n)
    (proc : Color) : Input n → Turn n (Work n × Color) Unit → Prop where
  | collect {src : Fin n} {msg : Msg} (hReplying : w.replying = false) :
      WorkreqTurn cfg rank cleanup abortFlag w proc (.recv src .workRequest msg)
        (.stays ({ w with requestors := w.requestors ++ [src] }, proc))
  | nothing {choice : Choice n} (hReplying : w.replying = false) (hNone : w.requestors = []) :
      WorkreqTurn cfg rank cleanup abortFlag w proc (.tick choice) (.returns (w, proc) ())
  | refuse {choice : Choice n} (hReplying : w.replying = false)
      (hRefuse : w.queue.count = 0 ∨ cleanup = true ∨ abortFlag = true) :
      WorkreqTurn cfg rank cleanup abortFlag w proc (.tick choice) (.stays ({ w with
        replying := true
        shares := List.replicate w.requestors.length 0 }, proc))
  | share {value : Nat} (hReplying : w.replying = false) (hSome : w.requestors ≠ [])
      (hCount : w.queue.count ≠ 0) (hCleanup : cleanup = false) (hAbort : abortFlag = false) :
      WorkreqTurn cfg rank cleanup abortFlag w proc (.tick (.draw value)) (.stays ({ w with
        replying := true
        shares := splitShares cfg.splitEqual w.requestors.length w.queue.count value }, proc))
  | noWork {dest : Fin n} {requestors : List (Fin n)} {shares : List Nat}
      (hReplying : w.replying = true) (hRequestors : w.requestors = dest :: requestors)
      (hShares : w.shares = 0 :: shares) (hSending : w.sending = none) :
      WorkreqTurn cfg rank cleanup abortFlag w proc (.tick .go)
        (.sends ({ w with requestors := requestors, shares := shares }, proc) dest .workReply
          (.ints [if abortFlag then payloadAbort else 0]))
  | header {dest : Fin n} {requestors : List (Fin n)} {count : Nat} {shares : List Nat}
      {sent : SentWork} (hReplying : w.replying = true)
      (hRequestors : w.requestors = dest :: requestors) (hShares : w.shares = count :: shares)
      (hSending : w.sending = none) (hCount : count ≠ 0)
      (hBytes : w.queue.segmentBytes count ≤ intMax)
      (hSend : sendWork w.offsetsCount w.queue count = some sent) :
      WorkreqTurn cfg rank cleanup abortFlag w proc (.tick .go)
        (.sends ({ w with sending := some sent, offsetsCount := sent.offsetsCount },
          Work.colorAfterSend rank dest proc) dest .workReply (.ints sent.header))
  | payload {dest : Fin n} {requestors : List (Fin n)} {count : Nat} {shares : List Nat}
      {sent : SentWork} (hReplying : w.replying = true)
      (hRequestors : w.requestors = dest :: requestors) (hShares : w.shares = count :: shares)
      (hSending : w.sending = some sent) :
      WorkreqTurn cfg rank cleanup abortFlag w proc (.tick .go)
        (.sends ({ w with
          queue := sent.queue
          sending := none
          workOutstanding := w.workOutstanding + 1
          requestors := requestors
          shares := shares }, proc) dest .workReply (.chars sent.payload))
  | finished (hReplying : w.replying = true) (hDone : w.requestors = [] ∨ w.shares = []) :
      WorkreqTurn cfg rank cleanup abortFlag w proc (.tick .go)
        (.returns ({ w with replying := false, requestors := [], shares := [] }, proc) ())

theorem workreqTurn_of_eq {cleanup abortFlag : Bool} {w : Work n} {proc : Color}
    {turn : Turn n (Work n × Color) Unit}
    (h : w.workreqCheck cfg rank cleanup abortFlag proc input = some turn) :
    WorkreqTurn cfg rank cleanup abortFlag w proc input turn := by
  unfold Work.workreqCheck at h
  split at h
  next hReplying =>
    split at h
    next dest requestors count shares hRequestors hShares =>
      -- a reply is due: the items of a header already sent, a refusal, or a header
      unfold Work.sendWork at h
      split at h
      next sent hSending =>
        cases h
        simpa [Work.answered, hRequestors, hShares] using
          WorkreqTurn.payload hReplying hRequestors hShares hSending
      next hSending =>
        split at h
        next hZero =>
          cases h
          subst hZero
          simpa [Work.sendNoWork, Work.answered, hRequestors, hShares] using
            WorkreqTurn.noWork hReplying hRequestors hShares hSending
        next hCount =>
          split at h
          next hBytes =>
            obtain ⟨sent, hSend, rfl⟩ := Option.map_eq_some_iff.mp h
            exact .header hReplying hRequestors hShares hSending hCount hBytes hSend
          next => cases h
    next hNone =>
      cases h
      refine .finished hReplying ?_
      cases hRequestors : w.requestors with
      | nil => exact Or.inl rfl
      | cons dest requestors =>
          cases hShares : w.shares with
          | nil => exact Or.inr rfl
          | cons count shares => exact (hNone _ _ _ _ hRequestors hShares).elim
    next => cases h
  next hReplying =>
    -- no replies are due: requests come in until the probe finds none
    rw [Bool.not_eq_true] at hReplying
    split at h
    next src msg =>
      cases h
      exact .collect hReplying
    next choice =>
      split at h
      next hNone =>
        cases h
        exact .nothing hReplying hNone
      next hSome =>
        split at h
        next hRefuse =>
          cases h
          exact .refuse hReplying (by simpa [or_assoc] using hRefuse)
        next hShare =>
          simp only [Bool.or_eq_true, decide_eq_true_eq, not_or, Bool.not_eq_true] at hShare
          split at h
          next value =>
            cases h
            exact .share hReplying hSome hShare.1.1 hShare.1.2 hShare.2
          next => cases h
    next => cases h

theorem WorkreqTurn.silent {cleanup abortFlag : Bool} {w : Work n} {proc : Color}
    {turn : Turn n (Work n × Color) Unit}
    (h : WorkreqTurn cfg rank cleanup abortFlag w proc input turn) {tag : Tag}
    (hRequest : tag ≠ .workRequest) (hReply : tag ≠ .workReply) : Silent tag input turn.out := by
  cases h
  case collect => exact silent_recv _ _ hRequest
  case noWork | header | payload => exact silent_tick_send _ _ _ hReply
  all_goals exact silent_tick _ _

/-- The turns of `workreceiptCheck`. -/
inductive ReceiptTurn (w : Work n) (termFlag : Bool) :
    Input n → Turn n (Work n × Bool) Unit → Prop where
  | receipt {src : Fin n} {msg : Msg} (hOutstanding : 0 < w.workOutstanding) :
      ReceiptTurn w termFlag (.recv src .workReceipt msg)
        (.stays ({ w with workOutstanding := w.workOutstanding - 1 }, false))
  | nothing : ReceiptTurn w termFlag (.tick .go) (.returns (w, termFlag) ())

theorem receiptTurn_of_eq {w : Work n} {termFlag : Bool} {turn : Turn n (Work n × Bool) Unit}
    (h : w.workreceiptCheck termFlag input = some turn) : ReceiptTurn w termFlag input turn := by
  unfold Work.workreceiptCheck at h
  split at h
  · split at h
    next hOutstanding =>
      cases h
      exact .receipt hOutstanding
    next => cases h
  · cases h
    exact .nothing
  · cases h

theorem ReceiptTurn.silent {w : Work n} {termFlag : Bool} {turn : Turn n (Work n × Bool) Unit}
    (h : ReceiptTurn w termFlag input turn) {tag : Tag} (hTag : tag ≠ .workReceipt) :
    Silent tag input turn.out := by
  cases h
  case receipt => exact silent_recv _ _ hTag
  case nothing => exact silent_tick _ _

/-- The turns of `requestWork`. -/
inductive RequestTurn (cfg : Config n) (rank : Fin n) (cleanup : Bool) (w : Work n)
    (abortFlag : Bool) : Input n → Turn n (Work n × Bool) Outcome → Prop where
  | items {source : Fin n} {header : List Int} {payload : List UInt8} {queue : Queue}
      (hReceiving : w.receiving = some header) (hSource : w.workRequestedRank = some source)
      (hReceive : receivePayload cfg.page w.queue (header.headD 0) (header.tail.headD 0)
        header.tail.tail payload = some (.work queue)) :
      RequestTurn cfg rank cleanup w abortFlag (.recv source .workReply (.chars payload))
        (.sendsAndReturns
          ({ w with queue := queue, receiving := none, workRequested := false }, abortFlag)
          source .workReceipt .empty .returned)
  | badItems {source : Fin n} {header : List Int} {msg : Msg}
      (hReceiving : w.receiving = some header) (hSource : w.workRequestedRank = some source)
      (hBad : ∀ payload queue, msg = .chars payload →
        receivePayload cfg.page w.queue (header.headD 0) (header.tail.headD 0)
          header.tail.tail payload ≠ some (.work queue)) :
      RequestTurn cfg rank cleanup w abortFlag (.recv source .workReply msg)
        (.returns (w, abortFlag) .failed)
  | noItems {source : Fin n} {items : Int} {rest : List Int} {offsetsCount : Nat}
      (hReceiving : w.receiving = none) (hRequested : w.workRequested = true)
      (hSource : w.workRequestedRank = some source)
      (hExtend : extendOffsets w.offsetsCount (items :: rest).length = some offsetsCount)
      (hItems : items ≤ 0) :
      RequestTurn cfg rank cleanup w abortFlag (.recv source .workReply (.ints (items :: rest)))
        (.returns ({ w with offsetsCount := offsetsCount, workRequested := false },
          decide (items = payloadAbort) || abortFlag) .returned)
  | header {source : Fin n} {items : Int} {rest : List Int} {offsetsCount : Nat}
      (hReceiving : w.receiving = none) (hRequested : w.workRequested = true)
      (hSource : w.workRequestedRank = some source)
      (hExtend : extendOffsets w.offsetsCount (items :: rest).length = some offsetsCount)
      (hItems : 0 < items) :
      RequestTurn cfg rank cleanup w abortFlag (.recv source .workReply (.ints (items :: rest)))
        (.stays ({ w with offsetsCount := offsetsCount, receiving := some (items :: rest) },
          abortFlag))
  | badHeader {source : Fin n} {msg : Msg} (hReceiving : w.receiving = none)
      (hRequested : w.workRequested = true) (hSource : w.workRequestedRank = some source)
      (hBad : ∀ items rest, msg ≠ .ints (items :: rest)) :
      RequestTurn cfg rank cleanup w abortFlag (.recv source .workReply msg)
        (.returns (w, abortFlag) .failed)
  | nothing (hReceiving : w.receiving = none) :
      RequestTurn cfg rank cleanup w abortFlag (.tick .go) (.returns (w, abortFlag) .returned)
  | request {source following : Fin n} (hReceiving : w.receiving = none)
      (hRequested : w.workRequested = false) (hCleanup : cleanup = false)
      (hAbort : abortFlag = false) (hSource : w.nextProcessor = some source)
      (hFollowing : following ≠ rank) :
      RequestTurn cfg rank cleanup w abortFlag (.tick (.next (some following)))
        (.sendsAndReturns
          ({ w with
              workRequested := true
              workRequestedRank := some source
              nextProcessor := some following }, abortFlag)
          source .workRequest .empty .returned)

theorem requestTurn_of_eq {cleanup : Bool} {w : Work n} {abortFlag : Bool}
    {turn : Turn n (Work n × Bool) Outcome}
    (h : w.requestWork cfg rank cleanup abortFlag input = some turn) :
    RequestTurn cfg rank cleanup w abortFlag input turn := by
  unfold Work.requestWork at h
  split at h
  next header hReceiving =>
    -- the header came with an earlier turn: what comes now is its items
    split at h
    next source msg =>
      split at h
      next hSource =>
        unfold Work.receiveItems at h
        split at h
        next payload =>
          obtain ⟨received, hReceive, rfl⟩ := Option.map_eq_some_iff.mp h
          split
          next queue => exact .items hReceiving hSource hReceive
          next hOther =>
            refine .badItems hReceiving hSource fun payload' queue hEq hWork => ?_
            cases hEq
            rw [hReceive] at hWork
            cases hWork
            exact hOther queue rfl
        next hOther =>
          cases h
          exact .badItems hReceiving hSource fun payload queue hEq _ => hOther payload hEq
      next => cases h
    next => cases h
  next hReceiving =>
    split at h
    next hRequested =>
      split at h
      next source msg =>
        split at h
        next hSource =>
          unfold Work.receiveHeader at h
          split at h
          next header =>
            split at h
            next =>
              cases h
              exact .badHeader hReceiving hRequested hSource (by simp)
            next items rest =>
              obtain ⟨offsetsCount, hExtend, rfl⟩ := Option.map_eq_some_iff.mp h
              split
              next hZero =>
                -- no items: the rank asked has none to give
                have hTurn : RequestTurn cfg rank cleanup w abortFlag _ _ :=
                  .noItems hReceiving hRequested hSource hExtend (by omega)
                simpa [hZero, payloadAbort] using hTurn
              next hZero =>
                split
                next hAbort =>
                  -- `PAYLOAD_ABORT`: the rank asked is aborting
                  have hTurn : RequestTurn cfg rank cleanup w abortFlag _ _ :=
                    .noItems hReceiving hRequested hSource hExtend
                      (by unfold payloadAbort at hAbort; omega)
                  simpa [hAbort] using hTurn
                next hAbort =>
                  split
                  next hNegative =>
                    -- any other negative count ends the request as well
                    have hTurn : RequestTurn cfg rank cleanup w abortFlag _ _ :=
                      .noItems hReceiving hRequested hSource hExtend (by omega)
                    simpa [hAbort] using hTurn
                  next hNegative =>
                    exact .header hReceiving hRequested hSource hExtend (by omega)
          next hOther =>
            cases h
            exact .badHeader hReceiving hRequested hSource fun items rest hEq =>
              hOther _ hEq
        next => cases h
      next =>
        cases h
        exact .nothing hReceiving
      next => cases h
    next hRequested =>
      -- no request is out: outside cleanup and without a flag a new one goes out
      rw [Bool.not_eq_true] at hRequested
      split at h
      next hActive =>
        simp only [Bool.and_eq_true, Bool.not_eq_true'] at hActive
        split at h
        next =>
          cases h
          exact .nothing hReceiving
        next source following hSource =>
          split at h
          next hFollowing =>
            cases h
            exact .request hReceiving hRequested hActive.1 hActive.2 hSource hFollowing
          next => cases h
        next => cases h
      next =>
        split at h
        next =>
          cases h
          exact .nothing hReceiving
        next => cases h

theorem RequestTurn.silent {cleanup : Bool} {w : Work n} {abortFlag : Bool}
    {turn : Turn n (Work n × Bool) Outcome}
    (h : RequestTurn cfg rank cleanup w abortFlag input turn) {tag : Tag}
    (hRequest : tag ≠ .workRequest) (hReply : tag ≠ .workReply) (hReceipt : tag ≠ .workReceipt) :
    Silent tag input turn.out := by
  cases h
  case items => exact silent_recv_send _ _ _ _ hReply hReceipt
  case badItems | noItems | header | badHeader => exact silent_recv _ _ hReply
  case request => exact silent_tick_send _ _ _ hRequest
  case nothing => exact silent_tick _ _

end Turns

end Circle
