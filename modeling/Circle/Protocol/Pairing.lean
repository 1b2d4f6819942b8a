import Circle.Protocol.Stealing

/-!
# Requests and replies pair one to one

The books of two ranks (`Ledger`) and the channels between them determine
where an open request is: it is on its way, it waits with the rank that was
asked, or the reply to it is on its way.
-/

namespace Circle

open FifoNet (inFlight)

variable {n : Nat} {cfg : Config n}

/-! ## Streams of replies -/

/-- The replies that are begun in a stream. -/
def begun (k : Option (List Int)) (log : List Msg) : Nat :=
  (replies.read k log).length + if (replies.after k log).isSome then 1 else 0

/-- A reply on its way: the header that its sender has sent without the bytes,
the one that its receiver has received without the bytes, and the messages in
flight. -/
inductive ReplyInFlight : Option (List Int) → Option (List Int) → List Msg → Prop where
  | refusal {items : Int} {rest : List Int} (hItems : items ≤ 0) :
      ReplyInFlight none none [.ints (items :: rest)]
  | header {items : Int} {rest : List Int} (hItems : 0 < items) :
      ReplyInFlight (some (items :: rest)) none [.ints (items :: rest)]
  | pause (header : List Int) : ReplyInFlight (some header) (some header) []
  | whole {items : List Item} (hItems : Sendable items) :
      ReplyInFlight none none [.ints (encodeHeader items), .chars items.flatten]
  | bytes {items : List Item} (hItems : Sendable items) :
      ReplyInFlight none (some (encodeHeader items)) [.chars items.flatten]

theorem begun_refusal {items : Int} (rest : List Int) (hItems : items ≤ 0) (log : List Msg) :
    begun none (.ints (items :: rest) :: log) = begun none log + 1 := by
  have hNext : replies.next none (.ints (items :: rest)) = none := by
    rw [replies_next_none, if_neg (by omega)]
  have hOut : replies.out none (.ints (items :: rest)) = [[]] := by
    rw [replies_out_none, if_neg (by omega)]
  show (replies.out _ _ ++ replies.read (replies.next _ _) log).length +
    (if (replies.after (replies.next _ _) log).isSome then 1 else 0) = _
  rw [hNext, hOut, begun, List.length_append, List.length_singleton]
  omega

theorem begun_header {items : Int} (rest : List Int) (hItems : 0 < items) (log : List Msg) :
    begun none (.ints (items :: rest) :: log) = begun (some (items :: rest)) log := by
  have hNext : replies.next none (.ints (items :: rest)) = some (items :: rest) := by
    rw [replies_next_none, if_pos hItems]
  have hOut : replies.out none (.ints (items :: rest)) = [] := by
    rw [replies_out_none, if_pos hItems]
  show (replies.out _ _ ++ replies.read (replies.next _ _) log).length +
    (if (replies.after (replies.next _ _) log).isSome then 1 else 0) = _
  rw [hNext, hOut, begun, List.nil_append]

theorem begun_bytes (header : List Int) (payload : List UInt8) (log : List Msg) :
    begun (some header) (.chars payload :: log) = begun none log + 1 := by
  show ([_] ++ replies.read none log).length +
    (if (replies.after none log).isSome then 1 else 0) = _
  rw [begun, List.length_append, List.length_singleton]
  omega

/-- Where no reply is begun, there are no messages. -/
theorem eq_nil_of_begun_eq_zero {log : List Msg} (hAccepts : replies.Accepts none log)
    (hBegun : begun none log = 0) : log = [] := by
  cases log with
  | nil => rfl
  | cons first log =>
      exfalso
      obtain ⟨hOk, hLater⟩ := hAccepts
      obtain ⟨items, rest, rfl⟩ := replies_ok_none hOk
      by_cases hItems : items ≤ 0
      · rw [begun_refusal rest hItems] at hBegun
        omega
      · have hPos : 0 < items := by omega
        rw [begun_header rest hPos] at hBegun
        rw [replies_next_none, if_pos hPos] at hLater
        cases log with
        | nil => simp [begun] at hBegun
        | cons second log =>
            obtain ⟨sent, -, -, rfl⟩ := replies_ok_some hLater.1
            rw [begun_bytes] at hBegun
            omega

/-- Where no reply is begun, none is awaited either. -/
theorem nothing_of_begun_eq_zero {k : Option (List Int)} {log : List Msg}
    (hAccepts : replies.Accepts k log) (hBegun : begun k log = 0) :
    k = none ∧ log = [] ∧ replies.after k log = none := by
  cases k with
  | none =>
      obtain rfl := eq_nil_of_begun_eq_zero hAccepts hBegun
      exact ⟨rfl, rfl, rfl⟩
  | some header =>
      exfalso
      cases log with
      | nil => simp [begun] at hBegun
      | cons first rest =>
          obtain ⟨items, -, -, rfl⟩ := replies_ok_some hAccepts.1
          rw [begun_bytes] at hBegun
          omega

/-- Behind a header, one reply is the bytes or nothing yet. -/
theorem replyInFlight_of_some {header : List Int} {log : List Msg}
    (hAccepts : replies.Accepts (some header) log) (hBegun : begun (some header) log = 1) :
    ReplyInFlight (replies.after (some header) log) (some header) log := by
  cases log with
  | nil => exact .pause header
  | cons first log =>
      obtain ⟨hOk, hLater⟩ := hAccepts
      obtain ⟨items, hItems, rfl, rfl⟩ := replies_ok_some hOk
      rw [begun_bytes] at hBegun
      obtain rfl := eq_nil_of_begun_eq_zero hLater (by omega)
      exact .bytes hItems

/-- One reply that is begun in a stream. -/
theorem replyInFlight_of_begun {k : Option (List Int)} {log : List Msg}
    (hAccepts : replies.Accepts k log) (hBegun : begun k log = 1) :
    ReplyInFlight (replies.after k log) k log := by
  cases k with
  | some header => exact replyInFlight_of_some hAccepts hBegun
  | none =>
      cases log with
      | nil => simp [begun] at hBegun
      | cons first log =>
          obtain ⟨hOk, hLater⟩ := hAccepts
          obtain ⟨items, rest, rfl⟩ := replies_ok_none hOk
          by_cases hItems : items ≤ 0
          · rw [begun_refusal rest hItems] at hBegun
            rw [replies_next_none, if_neg (by omega)] at hLater
            obtain rfl := eq_nil_of_begun_eq_zero hLater (by omega)
            show ReplyInFlight (replies.next none _) none _
            rw [replies_next_none, if_neg (by omega)]
            exact .refusal hItems
          · have hPos : 0 < items := by omega
            rw [begun_header rest hPos] at hBegun
            rw [replies_next_none, if_pos hPos] at hLater
            show ReplyInFlight (replies.after (replies.next none _) log) none _
            rw [replies_next_none, if_pos hPos]
            -- the header is followed by its bytes, or it is the last message
            cases log with
            | nil => exact .header hPos
            | cons second log =>
                obtain ⟨hBytes, hEnd⟩ := hLater
                obtain ⟨sent, hSent, hHeader, rfl⟩ := replies_ok_some hBytes
                rw [begun_bytes] at hBegun
                obtain rfl := eq_nil_of_begun_eq_zero hEnd (by omega)
                rw [hHeader]
                exact .whole hSent

/-- A header that is read last was the start of a reply. -/
theorem exists_header_of_after {log : List Msg} {header : List Int}
    (hAfter : replies.after none log = some header) :
    ∃ front, log = front ++ [.ints header] ∧ replies.after none front = none := by
  rcases List.eq_nil_or_concat log with rfl | ⟨front, last, rfl⟩
  · simp at hAfter
  · rw [List.concat_eq_append, replies.after_snoc] at hAfter
    rw [List.concat_eq_append]
    refine ⟨front, ?_⟩
    cases hState : replies.after none front with
    | some earlier =>
        rw [hState] at hAfter
        cases hAfter
    | none =>
        rw [hState] at hAfter
        cases last with
        | ints values =>
            cases values with
            | nil => simp [replies] at hAfter
            | cons items rest =>
                rw [replies_next_none] at hAfter
                split at hAfter
                · cases hAfter
                  exact ⟨rfl, rfl⟩
                · cases hAfter
        | _ => simp [replies] at hAfter

/-! ## Two ranks -/

/-- The requestors to whom no reply is begun. -/
def Work.unanswered (w : Work n) : List (Fin n) :=
  if w.sending.isSome then w.requestors.tail else w.requestors

theorem Stock.count_requestors {w : Work n} (h : Stock w) (r : Fin n) :
    w.requestors.count r = w.unanswered.count r + if (w.opened r).isSome then 1 else 0 := by
  unfold Work.unanswered Work.opened
  cases hSending : w.sending with
  | none => simp
  | some sent =>
      obtain ⟨hReplying, front, back, hSend⟩ := h.sending sent hSending
      have hLength := h.shares_length hReplying
      have hShare := hSend.share
      cases hRequestors : w.requestors with
      | nil =>
          rw [hRequestors, List.length_nil, List.length_eq_zero_iff] at hLength
          simp [hLength] at hShare
      | cons dest rest =>
          by_cases hDest : dest = r
          · simp [hDest]
          · simp [hDest]

variable {g : World n}

/-- The open requests of `r` to `d`, counted by the place where they are. -/
theorem asked_eq (hFifo : FifoNet.Fifo g)
    (hInv : ∀ other, WorkInv (g other).state.work (g other).sent (g other).rcvd) (r d : Fin n) :
    (g r).state.work.asked d = (inFlight g r d .workRequest).length +
      (g d).state.work.unanswered.count r +
        begun ((g r).state.work.waiting d) (inFlight g d r .workReply) := by
  have hAsker := (hInv r).ledger d
  have hAsked := (hInv d).ledger r
  have hRequests := congrArg List.length (hFifo.append_inFlight r d .workRequest)
  have hReplies := hFifo.append_inFlight d r .workReply
  have hRead : replies.read none ((g d).sent r .workReply) =
      replies.read none ((g r).rcvd d .workReply) ++
        replies.read ((g r).state.work.waiting d) (inFlight g d r .workReply) := by
    rw [← hReplies, replies.read_append, hAsker.waiting_eq]
  have hAfter : replies.after ((g r).state.work.waiting d) (inFlight g d r .workReply) =
      (g d).state.work.opened r := by
    rw [← hAsked.opened_eq, ← hReplies, replies.after_append, hAsker.waiting_eq]
  have hCount := (hInv d).stock.count_requestors r
  have hSent := hAsker.requests
  have hRcvd := hAsked.answers
  rw [hRead, List.length_append] at hRcvd
  rw [List.length_append] at hRequests
  rw [begun, hAfter]
  omega

/-- The messages in flight continue what the receiver has read. -/
theorem accepts_inFlight (hFifo : FifoNet.Fifo g)
    (hInv : ∀ other, WorkInv (g other).state.work (g other).sent (g other).rcvd) (r d : Fin n) :
    replies.Accepts ((g r).state.work.waiting d) (inFlight g d r .workReply) ∧
      replies.after ((g r).state.work.waiting d) (inFlight g d r .workReply) =
        (g d).state.work.opened r := by
  have hAsker := (hInv r).ledger d
  have hAsked := (hInv d).ledger r
  have hReplies := hFifo.append_inFlight d r .workReply
  have hAccepts := hAsked.accepts
  rw [← hReplies, replies.accepts_append, hAsker.waiting_eq] at hAccepts
  refine ⟨hAccepts.2, ?_⟩
  rw [← hAsked.opened_eq, ← hReplies, replies.after_append, hAsker.waiting_eq]

/-- Where an open request can be. -/
inductive RequestPlace where
  /-- It is in flight. -/
  | request
  /-- It is in the list of requestors, and no reply to it is begun. -/
  | queued
  /-- The reply to it is in flight, whole or in part. -/
  | reply
  deriving DecidableEq, Repr

/-- The request of `r` to `d` is at a place, and at no other. -/
structure RequestAt (g : World n) (r d : Fin n) (place : RequestPlace) : Prop where
  request : (inFlight g r d .workRequest).length = if place = .request then 1 else 0
  queued : (g d).state.work.unanswered.count r = if place = .queued then 1 else 0
  reply : place = .reply → ReplyInFlight ((g d).state.work.opened r) ((g r).state.work.waiting d)
    (inFlight g d r .workReply)
  noReply : place ≠ .reply → (g d).state.work.opened r = none ∧
    (g r).state.work.waiting d = none ∧ inFlight g d r .workReply = []

/-- No request of `r` to `d` exists, and no reply to one. -/
structure NoRequest (g : World n) (r d : Fin n) : Prop where
  request : inFlight g r d .workRequest = []
  requestors : r ∉ (g d).state.work.requestors
  waiting : (g r).state.work.waiting d = none
  reply : inFlight g d r .workReply = []

theorem noRequest_of_asked (hFifo : FifoNet.Fifo g)
    (hInv : ∀ other, WorkInv (g other).state.work (g other).sent (g other).rcvd) {r d : Fin n}
    (hAsked : (g r).state.work.asked d = 0) : NoRequest g r d := by
  have hTotal := asked_eq hFifo hInv r d
  obtain ⟨hAccepts, hAfter⟩ := accepts_inFlight hFifo hInv r d
  rw [hAsked] at hTotal
  obtain ⟨hWaiting, hReply, hNone⟩ := nothing_of_begun_eq_zero hAccepts (by omega)
  have hCount := (hInv d).stock.count_requestors r
  rw [← hAfter, hNone] at hCount
  exact {
    request := List.length_eq_zero_iff.mp (by omega)
    requestors := by
      apply List.count_eq_zero.mp
      simp only [Option.isSome_none, Bool.false_eq_true, if_false] at hCount
      omega
    waiting := hWaiting
    reply := hReply }

/-- An open request is at one place. -/
theorem exists_place_of_asked (hFifo : FifoNet.Fifo g)
    (hInv : ∀ other, WorkInv (g other).state.work (g other).sent (g other).rcvd) {r d : Fin n}
    (hAsked : (g r).state.work.asked d = 1) : ∃! place, RequestAt g r d place := by
  have hTotal := asked_eq hFifo hInv r d
  obtain ⟨hAccepts, hAfter⟩ := accepts_inFlight hFifo hInv r d
  rw [hAsked] at hTotal
  have hUnique : ∀ place other, RequestAt g r d place → RequestAt g r d other → other = place := by
    intro place other h h'
    have hRequest := h.request.symm.trans h'.request
    have hQueued := h.queued.symm.trans h'.queued
    cases place <;> cases other <;> simp at hRequest hQueued <;> rfl
  suffices hPlace : ∃ place, RequestAt g r d place by
    obtain ⟨place, hAt⟩ := hPlace
    exact ⟨place, hAt, fun other hOther => hUnique place other hAt hOther⟩
  by_cases hBegun : begun ((g r).state.work.waiting d) (inFlight g d r .workReply) = 0
  · obtain ⟨hWaiting, hReply, hNone⟩ := nothing_of_begun_eq_zero hAccepts hBegun
    have hNothing : (g d).state.work.opened r = none ∧ (g r).state.work.waiting d = none ∧
        inFlight g d r .workReply = [] := ⟨hAfter ▸ hNone, hWaiting, hReply⟩
    by_cases hFlight : (inFlight g r d .workRequest).length = 1
    · exact ⟨.request, {
        request := hFlight
        queued := by simp only [reduceCtorEq, if_false]; omega
        reply := fun hEq => by cases hEq
        noReply := fun _ => hNothing }⟩
    · exact ⟨.queued, {
        request := by simp only [reduceCtorEq, if_false]; omega
        queued := by simp only [if_true]; omega
        reply := fun hEq => by cases hEq
        noReply := fun _ => hNothing }⟩
  · exact ⟨.reply, {
      request := by simp only [reduceCtorEq, if_false]; omega
      queued := by simp only [reduceCtorEq, if_false]; omega
      reply := fun _ => by
        rw [← hAfter]
        exact replyInFlight_of_begun hAccepts (by omega)
      noReply := fun hNot => (hNot rfl).elim }⟩

/-- A rank is in the list of requestors of another at most once. -/
theorem nodup_requestors (hFifo : FifoNet.Fifo g)
    (hInv : ∀ other, WorkInv (g other).state.work (g other).sent (g other).rcvd) (d : Fin n) :
    (g d).state.work.requestors.Nodup := by
  rw [List.nodup_iff_count_le_one]
  intro r
  have hTotal := asked_eq hFifo hInv r d
  have hCount := (hInv d).stock.count_requestors r
  obtain ⟨-, hAfter⟩ := accepts_inFlight hFifo hInv r d
  have hAsked : (g r).state.work.asked d ≤ 1 := by
    unfold Work.asked
    split <;> omega
  rw [begun, hAfter] at hTotal
  omega

theorem length_requestors_le (hFifo : FifoNet.Fifo g)
    (hInv : ∀ other, WorkInv (g other).state.work (g other).sent (g other).rcvd) (d : Fin n) :
    (g d).state.work.requestors.length ≤ n := by
  simpa using (nodup_requestors hFifo hInv d).length_le_card

/-! ## Executions -/

/-- A rank with no open request: nothing of it exists anywhere. -/
structure Unrequested (g : World n) (r : Fin n) : Prop where
  requested : (g r).state.work.workRequested = false
  nothing : ∀ d, NoRequest g r d

/-- A rank with an open request: it is at one place at the rank that was
asked, and nothing of it exists elsewhere. -/
structure Requested (g : World n) (r d : Fin n) : Prop where
  requested : (g r).state.work.workRequested = true
  target : (g r).state.work.workRequestedRank = some d
  place : ∃! place, RequestAt g r d place
  nothing : ∀ other, other ≠ d → NoRequest g r other

/-- What rank `d` does while it collects requests in one call of
`workreqCheck`; `ABORT_FLAG` may be set meanwhile. -/
def Collecting (d : Fin n) (event : Fin n × Event n) : Prop :=
  event.1 = d → event.2 = .tick .raiseAbort ∨ ∃ src, event.2 = .recv src .workRequest

/-- Rank `d` receives a request. -/
def collects (d : Fin n) : Fin n × Event n → Bool
  | (rank, .recv _ .workRequest) => rank = d
  | _ => false

/-- What it means that requests and replies pair one to one. -/
structure Paired (cfg : Config n) (g : World n) : Prop where
  each : ∀ r, Unrequested g r ∨ ∃ d, Requested g r d
  /-- A request is written to `requestors` below the size of the communicator. -/
  room : ∀ d src msg state out, FifoNet.Fires (mainLoop cfg) g d (.recv src .workRequest msg) state out →
    state.work.requestors = (g d).state.work.requestors ++ [src] ∧
      (g d).state.work.requestors.length < n
  /-- The loop that collects requests ends. -/
  drains : ∀ d events g', FifoNet.run (mainLoop cfg) g events = some g' →
    (∀ event ∈ events, Collecting d event) → events.countP (collects d) ≤ n
  /-- What `workReceive` gets first is a header. -/
  header : ∀ r src msg, FifoNet.Admits g r (.recv src .workReply msg : Input n) →
    (g r).state.work.workRequestedRank = some src → (g r).state.work.receiving = none →
      ∃ items rest, msg = .ints (items :: rest)
  /-- What it gets next are the bytes that were sent behind the header. -/
  bytes : ∀ r src msg header, FifoNet.Admits g r (.recv src .workReply msg : Input n) →
    (g r).state.work.workRequestedRank = some src → (g r).state.work.receiving = some header →
      ∃ front items, (g r).rcvd src .workReply = front ++ [.ints header] ∧
        replies.after none front = none ∧ header = encodeHeader items ∧ msg = .chars items.flatten

variable {ok : World n → Fin n → Event n → Prop}

theorem requested_or_unrequested (hFifo : FifoNet.Fifo g)
    (hInv : ∀ other, WorkInv (g other).state.work (g other).sent (g other).rcvd) (r : Fin n) :
    Unrequested g r ∨ ∃ d, Requested g r d := by
  cases hRequested : (g r).state.work.workRequested with
  | false =>
      refine Or.inl ⟨hRequested, fun d => noRequest_of_asked hFifo hInv ?_⟩
      simp [Work.asked, hRequested]
  | true =>
      obtain ⟨d, hTarget⟩ := (hInv r).stock.target hRequested
      refine Or.inr ⟨d, hRequested, hTarget, exists_place_of_asked hFifo hInv ?_, fun other hOther =>
        noRequest_of_asked hFifo hInv ?_⟩
      · simp [Work.asked, hRequested, hTarget]
      · simp [Work.asked, hRequested, hTarget, Ne.symm hOther]

/-- Receiving a request appends it to the requestors. -/
theorem requestors_of_recv {rank src : Fin n} {msg : Msg} {s s' : State n} {out : Option (Packet n)}
    (hStep : MainStep cfg rank (.recv src .workRequest msg) s s' out) :
    s'.work.requestors = s.work.requestors ++ [src] := by
  have hWork := workStep_of_mainStep hStep
  generalize s'.work = next at hWork ⊢
  cases hWork
  case other hRequest _ _ => exact (hRequest.input src msg rfl).elim
  case workreq hTurn =>
    cases hTurn
    rfl
  case receipt hTurn => cases hTurn
  case request hTurn => cases hTurn

/-- While it collects requests, the list of a rank grows with each. -/
theorem length_requestors_of_run {d : Fin n} {events : List (Fin n × Event n)} {g g' : World n}
    (hRun : FifoNet.run (mainLoop cfg) g events = some g')
    (hEvents : ∀ event ∈ events, Collecting d event) :
    (g d).state.work.requestors.length + events.countP (collects d) =
      (g' d).state.work.requestors.length := by
  induction events generalizing g with
  | nil =>
      cases hRun
      rfl
  | cons first rest ih =>
      obtain ⟨rank, event⟩ := first
      obtain ⟨next, hStep, hRest⟩ := Option.bind_eq_some_iff.mp hRun
      have hLater := ih hRest fun event hMem => hEvents event (by simp [hMem])
      obtain ⟨input, state, out, hInput, hFires, rfl⟩ := FifoNet.step_cases hStep
      rw [List.countP_cons, ← hLater]
      by_cases hRank : rank = d
      · subst hRank
        rw [FifoNet.set_self, FifoNet.Node.after_state]
        rcases hEvents (rank, event) (by simp) rfl with hRaise | ⟨src, hCollect⟩
        · simp only at hRaise
          subst hRaise
          cases hInput
          cases hFires.acts
          simp [collects]
        · simp only at hCollect
          subst hCollect
          obtain ⟨msg, -, rfl⟩ := Option.map_eq_some_iff.mp hInput
          rw [requestors_of_recv (mainStep_of_mainLoop hFires.acts)]
          simp [collects]
          omega
      · rw [FifoNet.set_of_ne _ _ (Ne.symm hRank)]
        have hNot : collects d (rank, event) = false := by
          unfold collects
          split
          next hEq =>
            cases hEq
            simpa using hRank
          next => rfl
        simp [hNot]

/-- In every execution, work requests and replies pair one to one. -/
theorem Execution.paired (h : Execution cfg FifoNet.always g) : Paired cfg g where
  each := requested_or_unrequested h.fifo h.workInv
  room := by
    intro d src msg state out hFires
    have hAppend := requestors_of_recv (mainStep_of_mainLoop hFires.acts)
    refine ⟨hAppend, ?_⟩
    -- the list is still one of distinct ranks after the step
    have hNext : Execution cfg FifoNet.always _ := FifoNet.Reachable.fires h hFires
    have hLength := length_requestors_le hNext.fifo hNext.workInv d
    rw [FifoNet.set_self, FifoNet.Node.after_state, hAppend, List.length_append] at hLength
    exact hLength
  drains := by
    intro d events g' hRun hEvents
    have hNext : Execution cfg FifoNet.always g' := FifoNet.Reachable.run h hRun
    have hLength := length_requestors_le hNext.fifo hNext.workInv d
    have hGrown := length_requestors_of_run hRun hEvents
    omega
  header := by
    intro r src msg hAdmits hSource hReceiving
    have hOk := replies_ok_of_admits h.fifo h.workInv hAdmits src msg rfl
    have hWaiting : (g r).state.work.waiting src = none := by simp [Work.waiting, hReceiving]
    rw [((h.workInv r).ledger src).waiting_eq, hWaiting] at hOk
    exact replies_ok_none hOk
  bytes := by
    intro r src msg header hAdmits hSource hReceiving
    have hOk := replies_ok_of_admits h.fifo h.workInv hAdmits src msg rfl
    obtain ⟨items, -, hHeader, hMsg⟩ := (h.workInv r).payload_of_ok hReceiving hSource hOk
    have hAfter := ((h.workInv r).ledger src).waiting_eq
    rw [Work.waiting, if_pos hSource, hReceiving] at hAfter
    obtain ⟨front, hFront, hComplete⟩ := exists_header_of_after hAfter
    exact ⟨front, items, hFront, hComplete, hHeader, hMsg⟩

/-- Rank 1 of two asks for work. -/
theorem paired_pairWorld : ∃ g,
    FifoNet.run (mainLoop (pairConfig false false)) pairWorld
      (idleTurns 1 ++ [(1, .tick (.next (some 0)))]) = some g ∧
    (g 1).state.work.workRequested = true ∧ Paired (pairConfig false false) g := by
  have hEnd : (FifoNet.run (mainLoop (pairConfig false false)) pairWorld
      (idleTurns 1 ++ [(1, .tick (.next (some 0)))])).map
        (fun g => (g 1).state.work.workRequested) = some true := by
    decide +kernel
  obtain ⟨g, hRun, hRequested⟩ := Option.map_eq_some_iff.mp hEnd
  exact ⟨g, hRun, hRequested,
    Execution.paired (FifoNet.Reachable.run (execution_pairWorld _ _) hRun)⟩

end Circle
