import Circle.Protocol.AbortAgreement
import Circle.Protocol.PayloadSends
import Circle.Protocol.Receipts
import Circle.Protocol.Ring

/-!
# Ranks without work

Termination is safe when no item is left in a queue or on its way
(`Quiescent`).  A rank is `Idle` when its queue is empty and no reply under way
to it has items; it stays idle until another rank opens a reply with items to
it.  As long as no `ABORT_FLAG` is raised none is set (`Calm`), so that a rank
that checks for termination has an empty queue.
-/

namespace Circle

open FifoNet (Log inFlight)

variable {n : Nat} {cfg : Config n} {rank : Fin n} {input : Input n} {s s' : State n}
  {out : Option (Packet n)} {sent rcvd : Log (Fin n) Tag Msg}

/-! ## Executions without an abort -/

/-- No `ABORT_FLAG` is raised. -/
def NoAbort (_ : World n) (_ : Fin n) (event : Event n) : Prop :=
  match event with
  | .tick .raiseAbort => False
  | _ => True

instance (g : World n) (rank : Fin n) (event : Event n) : Decidable (NoAbort g rank event) :=
  match event with
  | .tick .raiseAbort => inferInstanceAs (Decidable False)
  | .tick .go | .tick (.tested _) | .tick (.draw _) | .tick (.next _) | .tick (.callback _)
  | .tick (.time _) | .tick (.init _) | .recv _ _ | .synced _ _ => inferInstanceAs (Decidable True)

/-- What a turn does to the members of the abort flood. -/
inductive FloodStep (cfg : Config n) (rank : Fin n) (s : State n) :
    Input n → Abort n → Option (Packet n) → Prop where
  | other {input : Input n} {out : Option (Packet n)} (hRequest : Silent .abortRequest input out)
      (hReply : Silent .abortReply input out) : FloodStep cfg rank s input s.abort out
  | raise : FloodStep cfg rank s (.tick .raiseAbort) { s.abort with abortFlag := true } none
  | request {input : Input n} {turn : Turn n (Work n × Bool) Outcome} (hPc : s.pc = .requestWork)
      (hTurn : RequestTurn cfg rank s.cleanup s.work s.abort.abortFlag input turn) :
      FloodStep cfg rank s input { s.abort with abortFlag := turn.record.2 } turn.out
  | turn {input : Input n} {turn : Turn n (Abort n) Unit} (hPc : s.pc = .abortCheck)
      (hTurn : AbortTurn cfg rank s.cleanup s.abort input turn) :
      FloodStep cfg rank s input turn.record turn.out
  | agree {input : Input n} (flag : Bool) (hPc : s.pc = .abortReduce)
      (hRequest : Silent .abortRequest input none) (hReply : Silent .abortReply input none) :
      FloodStep cfg rank s input { s.abort with abortFlag := flag, abortState := flag } none

theorem floodStep_of_mainStep (hStep : MainStep cfg rank input s s' out) :
    FloodStep cfg rank s input s'.abort out := by
  have hOther (hPc : s.pc ≠ .abortCheck) : FloodStep cfg rank s input s.abort out := by
    apply FloodStep.other <;> apply hStep.silent <;> cases hEq : s.pc <;> simp_all [Pc.tags]
  cases hStep
  case raise hInput =>
    subst hInput
    exact .raise
  case abortCheck hPc hTurn _ => exact .turn hPc (abortTurn_of_eq hTurn)
  case requestWork hPc hTurn _ => exact .request hPc (requestTurn_of_eq hTurn)
  case leaveAbortReduce turn flag hPc hTurn hResult =>
    have hTurn := abortReduceTurn_of_eq hTurn
    cases hTurn
    case finish => exact .agree flag hPc (silent_tick _ _) (silent_tick _ _)
    all_goals cases hResult
  all_goals exact hOther (by simp [*])

/-- What holds of a rank while no `ABORT_FLAG` is raised. -/
structure Calm (s : State n) (sent : Log (Fin n) Tag Msg) : Prop where
  flag : s.pc.early = true → s.abort.abortFlag = false
  toSend : s.abort.toSend = []
  requests : ∀ peer, sent peer .abortRequest = []
  replies : ∀ peer rest, Msg.ints (payloadAbort :: rest) ∉ sent peer .workReply

theorem calm_start (start : Start rank) : Calm start.state (fun _ _ => []) where
  flag := fun _ => rfl
  toSend := rfl
  requests := fun _ => rfl
  replies := by simp

/-- The header of a reply starts with the number of its items. -/
theorem header_of_sendWork {offsetsCount : Nat} {q : Queue} {count : Nat} {work : SentWork}
    (hSend : sendWork offsetsCount q count = some work) :
    ∃ rest, work.header = (count : Int) :: rest := by
  unfold sendWork at hSend
  simp only [Option.bind_eq_bind, Option.bind_eq_some_iff] at hSend
  obtain ⟨_, -, _, -, hSend⟩ := hSend
  split at hSend
  · cases hSend
  · cases hSend
    exact ⟨_, rfl⟩

/-- A rank whose `ABORT_FLAG` is not set does not send the abort code. -/
theorem WorkreqTurn.ne_abort {cleanup : Bool} {w : Work n} {proc : Color}
    {turn : Turn n (Work n × Color) Unit}
    (h : WorkreqTurn cfg rank cleanup false w proc input turn) (dst : Fin n) (rest : List Int) :
    turn.out ≠ some ⟨dst, .workReply, .ints (payloadAbort :: rest)⟩ := by
  cases h
  case noWork => simp [Turn.sends, payloadAbort]
  case header hCount _ hSend =>
    obtain ⟨offsets, hHeader⟩ := header_of_sendWork hSend
    intro hOut
    simp only [Turn.sends, Option.some.injEq, FifoNet.Packet.mk.injEq, Msg.ints.injEq, hHeader,
      List.cons.injEq] at hOut
    have hHead := hOut.2.2.1
    unfold payloadAbort at hHead
    omega
  case payload => simp [Turn.sends]
  all_goals simp [Turn.stays, Turn.returns]

/-- A rank that sends a reply is in `workreqCheck`. -/
theorem WorkreqTurn.replying_of_out {cleanup abortFlag : Bool} {w : Work n} {proc : Color}
    {turn : Turn n (Work n × Color) Unit}
    (h : WorkreqTurn cfg rank cleanup abortFlag w proc input turn) (hOut : turn.out ≠ none) :
    w.replying = true := by
  cases h
  case noWork hReplying _ _ _ => exact hReplying
  case header hReplying _ _ _ _ _ _ => exact hReplying
  case payload hReplying _ _ _ => exact hReplying
  all_goals exact (hOut rfl).elim

theorem Calm.step_replies (h : Calm s sent) (hPhases : Phases s)
    (hStep : MainStep cfg rank input s s' out) (peer : Fin n) (rest : List Int) :
    Msg.ints (payloadAbort :: rest) ∉ sent.send out peer .workReply := by
  have hOld := h.replies peer rest
  have hWork := workStep_of_mainStep hStep
  generalize s'.work = next at hWork
  cases hWork
  case other hReply _ => rwa [hReply.sent]
  case workreq turn hTurn =>
    cases hOut : turn.out with
    | none => exact hOld
    | some packet =>
        obtain ⟨dst, tag, msg⟩ := packet
        have hPc := hPhases.replying (hTurn.replying_of_out (by simp [hOut]))
        rw [h.flag (by simp [hPc, Pc.early])] at hTurn
        intro hMem
        rw [Log.send_some, Log.add] at hMem
        split at hMem
        next hSame =>
          obtain ⟨rfl, rfl⟩ := hSame
          rcases List.mem_append.mp hMem with hBefore | hNew
          · exact hOld hBefore
          · rw [← List.mem_singleton.mp hNew] at hOut
            exact hTurn.ne_abort _ rest hOut
        next => exact hOld hMem
  case receipt hTurn =>
    have hSilent : Silent .workReply _ _ := hTurn.silent (by decide)
    rwa [hSilent.sent]
  case request hTurn => rwa [Log.send_of_tag_ne _ hTurn.tag_ne_reply]
  case callback => exact hOld

theorem Calm.step (h : Calm s sent) (hPhases : Phases s) (hRaise : input ≠ .tick .raiseAbort)
    (hRequest : ∀ src msg, input ≠ .recv src .abortRequest msg)
    (hReply : ∀ src rest, input ≠ .recv src .workReply (.ints (payloadAbort :: rest)))
    (hStep : MainStep cfg rank input s s' out) : Calm s' (sent.send out) := by
  have hReplies := h.step_replies hPhases hStep
  have hEarly := early_of_step hStep
  have hFlood := floodStep_of_mainStep hStep
  have hFlag : s'.pc.early = true → s.abort.abortFlag = false := fun hPc => h.flag (hEarly hPc)
  generalize hAbort : s'.abort = abort at hFlood
  cases hFlood
  case other hSilent _ =>
    exact {
      flag := hAbort ▸ hFlag
      toSend := hAbort ▸ h.toSend
      requests := fun peer => (hSilent.sent sent peer).trans (h.requests peer)
      replies := hReplies }
  case raise => exact (hRaise rfl).elim
  case request hPc hTurn =>
    have hSilent : Silent .abortRequest _ _ := hTurn.silent (by decide) (by decide) (by decide)
    refine ⟨fun hPc' => ?_, hAbort ▸ h.toSend, fun peer => ?_, hReplies⟩
    · rw [hAbort]
      show _ = false
      cases hTurn
      case noItems source items rest _ _ _ _ _ _ =>
        have hCode : items ≠ payloadAbort := by
          rintro rfl
          exact hReply source rest rfl
        simp [Turn.returns, hCode, hFlag hPc']
      all_goals exact hFlag hPc'
    · rw [hSilent.sent]
      exact h.requests peer
  case turn hPc hTurn =>
    have hNot : s.abort.abortFlag = false := h.flag (by simp [hPc, Pc.early])
    cases hTurn
    case request hToSend =>
      rw [h.toSend] at hToSend
      cases hToSend
    case enter hSet => simp [hNot] at hSet
    case answer => exact (hRequest _ _ rfl).elim
    all_goals
      exact {
        flag := fun _ => by rw [hAbort]; exact hNot
        toSend := by rw [hAbort]; exact h.toSend
        requests := h.requests
        replies := hReplies }
  case agree flag hPc _ _ =>
    refine ⟨fun hPc' => ?_, hAbort ▸ h.toSend, h.requests, hReplies⟩
    have hPc := hEarly hPc'
    simp_all [Pc.early]

/-- While no `ABORT_FLAG` is raised, none is set. -/
theorem Execution.calm {ok : World n → Fin n → Event n → Prop} {g : World n}
    (h : Execution cfg ok g) (hOk : ∀ g rank event, ok g rank event → event ≠ .tick .raiseAbort) :
    ∀ r, Calm (g r).state (g r).sent := by
  refine h.invariant (I := fun g => ∀ r, Calm (g r).state (g r).sent) ?_ ?_
  · rintro states ⟨start, hStates⟩ r
    show Calm (states r) _
    rw [hStates r]
    exact calm_start (start r)
  · intro g rank event input state out hReach hAll hTurnOk hInput hFires r
    have hReach : Execution cfg ok g := hReach
    by_cases hSelf : r = rank
    · subst hSelf
      rw [FifoNet.set_self]
      refine (hAll r).step (hReach.control r).phases ?_ ?_ ?_ (mainStep_of_mainLoop hFires.acts)
      · rintro rfl
        exact hOk _ _ _ hTurnOk (FifoNet.event_of_input_tick hInput)
      · rintro src msg rfl
        have hMem := FifoNet.mem_sent_of_admits hFires.admits
        rw [(hAll src).requests] at hMem
        cases hMem
      · rintro src rest rfl
        exact (hAll src).replies _ rest (FifoNet.mem_sent_of_admits hFires.admits)
    · rw [FifoNet.set_of_ne _ _ hSelf]
      exact hAll r

/-! ## Idle ranks -/

/-- A rank without items, to which none are under way. -/
structure Idle (g : World n) (r : Fin n) : Prop where
  empty : (g r).state.work.queue.count = 0
  whole : (g r).state.work.receiving = none
  refused : ∀ src, ∀ msg ∈ inFlight g src r .workReply, msg.Refuses

/-- No rank has work, and none is on its way. -/
structure Quiescent (g : World n) : Prop where
  empty : ∀ r, (g r).state.work.queue.count = 0
  /-- No reply is between its two messages. -/
  whole : ∀ r, (g r).state.work.sending = none ∧ (g r).state.work.receiving = none
  refused : ∀ src dst, ∀ msg ∈ inFlight g src dst .workReply, msg.Refuses

theorem after_of_refuses {flight : List Msg} (hRefuses : ∀ msg ∈ flight, msg.Refuses) :
    replies.after none flight = none := by
  induction flight with
  | nil => rfl
  | cons msg rest ih =>
      obtain ⟨items, tail, rfl, hItems⟩ := hRefuses msg List.mem_cons_self
      show replies.after (replies.next none _) rest = none
      rw [replies_next_none, if_neg (by omega)]
      exact ih fun m hMem => hRefuses m (List.mem_cons_of_mem _ hMem)

/-- A rank that has nothing and is sent nothing gets nothing. -/
theorem WorkStep.stays_empty {w : Work n} (h : WorkStep cfg rank s input w out)
    (hStock : Stock s.work) (hEmpty : s.work.queue.count = 0) (hWhole : s.work.receiving = none)
    (hRefused : ∀ src msg, input = .recv src .workReply msg → msg.Refuses) :
    w.queue.count = 0 ∧ w.receiving = none := by
  cases h
  case other => exact ⟨hEmpty, hWhole⟩
  case workreq hTurn =>
    refine ⟨?_, by rw [hTurn.receiving_eq, hWhole]⟩
    cases hTurn
    case payload hSending =>
      have hPos := hStock.count_pos_of_sending hSending
      omega
    all_goals exact hEmpty
  case receipt hTurn =>
    obtain ⟨outstanding, hSame⟩ := hTurn.work_eq
    rw [hSame]
    exact ⟨hEmpty, hWhole⟩
  case request hTurn =>
    cases hTurn
    case items hReceiving _ _ =>
      rw [hWhole] at hReceiving
      cases hReceiving
    case header source items rest _ _ _ _ _ hItems =>
      obtain ⟨items', rest', hSame, hRefuse⟩ := hRefused source _ rfl
      cases hSame
      omega
    all_goals exact ⟨hEmpty, hWhole⟩
  case callback hCount _ => omega

/-- What a rank can send in a reply. -/
theorem WorkStep.reply_cases {w : Work n} {dst : Fin n} {msg : Msg}
    (h : WorkStep cfg rank s input w (some ⟨dst, .workReply, msg⟩)) :
    msg.Refuses ∨
      (∃ items rest, msg = .ints (items :: rest) ∧ 0 < items ∧ s.work.replying = true ∧
        items.toNat ∈ s.work.shares) ∨
      ∃ sent, s.work.sending = some sent ∧ s.work.opened dst = some sent.header := by
  generalize hOut : some (⟨dst, .workReply, msg⟩ : Packet n) = out at h
  cases h
  case other hReply _ => exact (hReply.out _ hOut.symm rfl).elim
  case workreq hTurn =>
    cases hTurn
    case noWork =>
      simp only [Turn.sends, Option.some.injEq, FifoNet.Packet.mk.injEq] at hOut
      obtain ⟨-, -, rfl⟩ := hOut
      refine Or.inl ⟨_, [], rfl, ?_⟩
      unfold payloadAbort
      split <;> omega
    case header count _ _ hReplying hRequestors hShares _ hCount _ hSend =>
      obtain ⟨rest, hHeader⟩ := header_of_sendWork hSend
      simp only [Turn.sends, Option.some.injEq, FifoNet.Packet.mk.injEq, hHeader] at hOut
      obtain ⟨rfl, -, rfl⟩ := hOut
      exact Or.inr (Or.inl ⟨_, rest, rfl, by omega, hReplying, by simp [hShares]⟩)
    case payload work hReplying hRequestors hShares hSending =>
      simp only [Turn.sends, Option.some.injEq, FifoNet.Packet.mk.injEq] at hOut
      obtain ⟨rfl, -⟩ := hOut
      exact Or.inr (Or.inr ⟨work, hSending, by simp [Work.opened, hRequestors, hSending]⟩)
    all_goals cases hOut
  case receipt hTurn => cases hTurn <;> cases hOut
  case request hTurn => exact (hTurn.tag_ne_reply _ hOut.symm rfl).elim
  case callback => cases hOut

section Step

variable {ok : World n → Fin n → Event n → Prop} {g : World n} {r : Fin n}

/-- A rank to which a reply is open is not idle: the header is under way to it,
or it waits for the bytes. -/
theorem Idle.opened_eq_none (h : Idle g r) (hReach : Execution cfg ok g) (src : Fin n) :
    (g src).state.work.opened r = none := by
  have hSent := ((hReach.workInv src).ledger r).opened_eq
  have hRcvd := ((hReach.workInv r).ledger src).waiting_eq
  have hWaiting : (g r).state.work.waiting src = none := by simp [Work.waiting, h.whole]
  rw [hWaiting] at hRcvd
  rw [← hReach.fifo.append_inFlight src r .workReply, replies.after_append, hRcvd,
    after_of_refuses (h.refused src)] at hSent
  exact hSent.symm

/-- An idle rank stays idle, unless a rank that has work opens a reply with
items to it. -/
theorem Idle.step (h : Idle g r) (hReach : Execution cfg ok g)
    (hFires : FifoNet.Fires (mainLoop cfg) g rank input s' out) :
    Idle (FifoNet.set g rank ((g rank).after input s' out)) r ∨
      (g rank).state.work.queue.count ≠ 0 ∧ ∃ items rest,
        out = some ⟨r, .workReply, .ints (items :: rest)⟩ ∧ 0 < items := by
  have hStep := workStep_of_mainStep (mainStep_of_mainLoop hFires.acts)
  have hStock := (hReach.workInv rank).stock
  -- a reply with items is sent in this turn, or none is
  by_cases hOpens : ∃ items rest,
      out = some (⟨r, .workReply, .ints (items :: rest)⟩ : Packet n) ∧ 0 < items
  · obtain ⟨items, rest, rfl, hItems⟩ := hOpens
    refine Or.inr ⟨?_, items, rest, rfl, hItems⟩
    rcases hStep.reply_cases with ⟨_, _, hSame, hRefuse⟩ | ⟨_, _, hSame, -, hReplying, hShare⟩ |
      ⟨work, hSending, -⟩
    · cases hSame
      omega
    · cases hSame
      have hSum := hStock.shares_sum hReplying
      have hLe := List.le_sum_of_mem hShare
      omega
    · have hPos := hStock.count_pos_of_sending hSending
      omega
  left
  have hState : (FifoNet.set g rank ((g rank).after input s' out) r).state.work.queue.count = 0 ∧
      (FifoNet.set g rank ((g rank).after input s' out) r).state.work.receiving = none := by
    by_cases hSelf : r = rank
    · subst hSelf
      rw [FifoNet.set_self, FifoNet.Node.after_state]
      refine hStep.stays_empty hStock h.empty h.whole ?_
      rintro src msg rfl
      exact h.refused src msg (FifoNet.mem_inFlight_of_admits hFires.admits)
    · rw [FifoNet.set_of_ne _ _ hSelf]
      exact ⟨h.empty, h.whole⟩
  refine ⟨hState.1, hState.2, fun src msg hMem => ?_⟩
  rcases FifoNet.mem_inFlight_set hMem with hOld | ⟨rfl, rfl⟩
  · exact h.refused src msg hOld
  · rcases hStep.reply_cases with hRefuse | ⟨items, rest, rfl, hItems, -⟩ | ⟨work, -, hOpened⟩
    · exact hRefuse
    · exact (hOpens ⟨items, rest, rfl, hItems⟩).elim
    · rw [h.opened_eq_none hReach] at hOpened
      cases hOpened

/-- When all ranks are idle, nothing is left to do. -/
theorem quiescent_of_idle (hReach : Execution cfg ok g) (hAll : ∀ r, Idle g r) : Quiescent g where
  empty := fun r => (hAll r).empty
  whole := by
    intro r
    refine ⟨?_, (hAll r).whole⟩
    by_contra hSome
    obtain ⟨work, hSending⟩ := Option.ne_none_iff_exists'.mp hSome
    have hPos := (hReach.workInv r).stock.count_pos_of_sending hSending
    have hEmpty := (hAll r).empty
    omega
  refused := fun src dst => (hAll dst).refused src

/-- Where nothing is left to do, nothing comes up. -/
theorem idle_step (hReach : Execution cfg ok g) (hAll : ∀ r, Idle g r)
    (hFires : FifoNet.Fires (mainLoop cfg) g rank input s' out) (r : Fin n) :
    Idle (FifoNet.set g rank ((g rank).after input s' out)) r := by
  rcases (hAll r).step hReach hFires with hIdle | ⟨hBusy, -⟩
  · exact hIdle
  · exact (hBusy (hAll rank).empty).elim

theorem idle_run {g' : World n} {events : List (Fin n × Event n)}
    (hReach : Execution cfg FifoNet.always g) (hAll : ∀ r, Idle g r)
    (hRun : FifoNet.run (mainLoop cfg) g events = some g') : ∀ r, Idle g' r := by
  induction events generalizing g with
  | nil =>
      cases hRun
      exact hAll
  | cons first rest ih =>
      obtain ⟨next, hStep, hRest⟩ := Option.bind_eq_some_iff.mp hRun
      obtain ⟨input, state, out, -, hFires, rfl⟩ := FifoNet.step_cases hStep
      exact ih (hReach.fires hFires) (idle_step hReach hAll hFires) hRest

end Step

end Circle
