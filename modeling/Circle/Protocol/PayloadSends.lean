import Circle.Protocol.Pairing

/-!
# Sends of unbounded size

The bytes of a reply and the user data of a background reduction are sent with
`MPI_Send`, which may wait until the receiver is at its receive.  A rank that
is at one of these sends waits for one other rank (`WaitsFor`).

A requestor has no items, so that no reply is open to a rank that is itself
sending one; a rank that sends user data waits for its parent.  The two graphs
meet where a reply is open to a rank that sends user data: without that, no
ranks wait for each other.
-/

namespace Circle

variable {n : Nat} {cfg : Config n} {rank : Fin n} {input : Input n} {s s' : State n}
  {out : Option (Packet n)}

/-- The rank to which the bytes of a reply are being sent. -/
def Work.payloadTo (w : Work n) : Option (Fin n) :=
  if w.sending.isSome then w.requestors.head? else none

/-- The rank to which `sendWork` is about to open a reply with items. -/
def Work.opensPayloadTo (w : Work n) : Option (Fin n) :=
  match w.requestors, w.shares with
  | dest :: _, count :: _ =>
      if w.replying ∧ w.sending = none ∧ 0 < count then some dest else none
  | _, _ => none

/-- The user data of a background reduction is being sent. -/
def State.sendsData (s : State n) : Bool := s.pc = .reduceCheck && s.reduce.phase = .sendData

/-- `reduceCheck` is about to pass user data on. -/
def State.opensData (cfg : Config n) (rank : Fin n) (s : State n) : Bool :=
  s.pc = .reduceCheck && s.reduce.phase = .children [] &&
    s.reduce.reduceReplies = (cfg.tree.children rank).length &&
      (cfg.tree.parent rank).isSome && s.reduce.valid && decide (0 < s.reduce.reduceBufSize)

/-- A rank is at a send of unbounded size, to another. -/
def WaitsFor (cfg : Config n) (g : World n) (r d : Fin n) : Prop :=
  (g r).state.work.payloadTo = some d ∨ (g r).state.sendsData = true ∧ cfg.tree.parent r = some d

/-- Some ranks wait for each other. -/
def SendDeadlock (cfg : Config n) (g : World n) : Prop :=
  ∃ S : Set (Fin n), S.Nonempty ∧ ∀ r ∈ S, ∃ d ∈ S, WaitsFor cfg g r d

/-- The turn does not open a reply to a rank that sends user data, and does not
pass user data on while a reply to the rank is open. -/
def KeepsApart (cfg : Config n) (g : World n) (rank : Fin n) (event : Event n) : Prop :=
  match event with
  | .tick .go =>
      (∀ d, (g rank).state.work.opensPayloadTo = some d → (g d).state.sendsData = false) ∧
        ((g rank).state.opensData cfg rank = true →
          ∀ r, (g r).state.work.payloadTo ≠ some rank)
  | _ => True

instance (g : World n) (rank : Fin n) (event : Event n) :
    Decidable (KeepsApart cfg g rank event) :=
  match event with
  | .tick .go => inferInstanceAs (Decidable (_ ∧ _))
  | .tick .raiseAbort | .tick (.tested _) | .tick (.draw _) | .tick (.next _)
  | .tick (.callback _) | .tick (.time _) | .tick (.init _) | .recv _ _ | .synced _ _ =>
      inferInstanceAs (Decidable True)

/-! ## One turn -/

theorem replying_of_opensPayloadTo {w : Work n} {d : Fin n} (hOpens : w.opensPayloadTo = some d) :
    w.replying = true := by
  unfold Work.opensPayloadTo at hOpens
  split at hOpens
  · split at hOpens
    next hReplying => exact hReplying.1
    next => cases hOpens
  · cases hOpens

theorem Stock.count_pos_of_sending {w : Work n} (h : Stock w) {sent : SentWork}
    (hSending : w.sending = some sent) : 0 < w.queue.count := by
  obtain ⟨-, front, back, hSend⟩ := h.sending sent hSending
  have hPos := List.length_pos_iff.mpr hSend.sendable.ne_nil
  have hCount := hSend.holds.count_eq
  rw [List.length_append] at hCount
  omega

/-- A rank that sends the bytes of a reply has items. -/
theorem Stock.count_pos_of_payloadTo {w : Work n} (h : Stock w) {d : Fin n}
    (hOpen : w.payloadTo = some d) : 0 < w.queue.count ∧ d ∈ w.requestors := by
  unfold Work.payloadTo at hOpen
  split at hOpen
  next hSome =>
    obtain ⟨sent, hSending⟩ := Option.isSome_iff_exists.mp hSome
    exact ⟨h.count_pos_of_sending hSending, List.mem_of_head? hOpen⟩
  next => cases hOpen

/-- A reply that is open after a turn of `workreqCheck` was open before, or is
opened by it. -/
theorem WorkreqTurn.payloadTo {cleanup abortFlag : Bool} {w : Work n} {proc : Color}
    {turn : Turn n (Work n × Color) Unit}
    (hTurn : WorkreqTurn cfg rank cleanup abortFlag w proc input turn) (hStock : Stock w)
    {d : Fin n} (hOpen : turn.record.1.payloadTo = some d) :
    w.payloadTo = some d ∨ input = .tick .go ∧ w.opensPayloadTo = some d := by
  cases hTurn
  case collect hReplying | refuse hReplying _ | share hReplying _ _ _ _ =>
    simp [Work.payloadTo, Turn.stays, hStock.sending_none hReplying] at hOpen
  case nothing => exact Or.inl hOpen
  case noWork hSending =>
    simp [Work.payloadTo, Turn.sends, hSending] at hOpen
  case header dest requestors count shares sent hReplying hRequestors hShares hSending hCount _ _ =>
    have hPos := Nat.pos_of_ne_zero hCount
    refine Or.inr ⟨rfl, ?_⟩
    simpa [Work.opensPayloadTo, Work.payloadTo, Turn.sends, hRequestors, hShares, hReplying,
      hSending, hPos] using hOpen
  case payload =>
    simp [Work.payloadTo, Turn.sends] at hOpen
  case finished =>
    unfold Work.payloadTo at hOpen
    split at hOpen <;> cases hOpen

/-- A reply that is open after a turn was open before, or is opened by it. -/
theorem payloadTo_step (hStock : Stock s.work) (hStep : MainStep cfg rank input s s' out) {d : Fin n} (hOpen : s'.work.payloadTo = some d) :
    s.work.payloadTo = some d ∨ input = .tick .go ∧ s.work.opensPayloadTo = some d := by
  have hWork := workStep_of_mainStep hStep
  generalize s'.work = next at hWork hOpen
  cases hWork
  case other => exact Or.inl hOpen
  case workreq hTurn => exact hTurn.payloadTo hStock hOpen
  case receipt hTurn =>
    cases hTurn <;> exact Or.inl hOpen
  case request hTurn =>
    cases hTurn <;> exact Or.inl hOpen
  case callback hWork =>
    obtain ⟨result, -, rfl⟩ := Option.map_eq_some_iff.mp hWork
    exact Or.inl hOpen

/-- User data that is being sent after a turn was being sent before, or is
passed on by it. -/
theorem sendsData_step (hPhases : Phases s) (hStep : MainStep cfg rank input s s' out)
    (hSends : s'.sendsData = true) :
    s.sendsData = true ∨ input = .tick .go ∧ s.opensData cfg rank = true := by
  have hWhere := hPhases.reduce
  simp only [State.sendsData, Bool.and_eq_true, decide_eq_true_eq] at hSends
  obtain ⟨hPc', hPhase'⟩ := hSends
  cases hStep
  case raise =>
    left
    rw [State.sendsData, Bool.and_eq_true, decide_eq_true_eq, decide_eq_true_eq]
    exact ⟨hPc', hPhase'⟩
  case reduceCheck turn pc hPc hTurn hNext =>
    have hTurn := reduceTurn_of_eq hTurn
    cases hTurn
    case report hPhase hReplies hParent hData =>
      exact Or.inr ⟨rfl, by simp [State.opensData, hPc, hPhase, hReplies, hParent, hData]⟩
    all_goals simp_all [Turn.stays, Turn.sends, Turn.returns, Turn.sendsAndReturns]
  case reduceSync turn hPc hTurn =>
    rcases hResult : turn.result with _ | _ | _ <;> simp [hResult] at hPc'
  all_goals simp_all

/-! ## Executions -/

/-- No reply is open to a rank that sends user data. -/
def Apart (g : World n) : Prop :=
  ∀ r d, (g r).state.work.payloadTo = some d → (g d).state.sendsData = false

section Executions

variable {g : World n}

theorem Execution.apart (h : Execution cfg (KeepsApart cfg) g) : Apart g := by
  refine FifoNet.Reachable.invariant (I := Apart) ?_ ?_ h
  · rintro states ⟨start, hStates⟩ r d hOpen
    simp [FifoNet.fresh, hStates, Start.state, Work.payloadTo] at hOpen
  · intro g rank event input state out hReach hApart hOk hInput hFires r d hOpen
    have hReach : Execution cfg (KeepsApart cfg) g := hReach
    have hStep := mainStep_of_mainLoop hFires.acts
    have hControl := hReach.control rank
    have hGo : input = .tick .go → (∀ d, (g rank).state.work.opensPayloadTo = some d →
        (g d).state.sendsData = false) ∧ ((g rank).state.opensData cfg rank = true →
          ∀ r, (g r).state.work.payloadTo ≠ some rank) := by
      rintro rfl
      rw [FifoNet.event_of_input_tick hInput] at hOk
      exact hOk
    -- the reply was open before, or is opened by this turn
    have hOpened : (g r).state.work.payloadTo = some d ∨
        r = rank ∧ input = .tick .go ∧ (g rank).state.work.opensPayloadTo = some d := by
      by_cases hSelf : r = rank
      · subst hSelf
        rw [FifoNet.set_self] at hOpen
        exact (payloadTo_step (hReach.workInv r).stock hStep hOpen).imp_right fun hNew => ⟨rfl, hNew⟩
      · rw [FifoNet.set_of_ne _ _ hSelf] at hOpen
        exact Or.inl hOpen
    rw [← Bool.not_eq_true]
    intro hSends
    by_cases hSelf : d = rank
    · subst hSelf
      rw [FifoNet.set_self] at hSends
      rcases sendsData_step hControl.phases hStep hSends with hBefore | ⟨hTick, hNew⟩
      · rcases hOpened with hOld | ⟨rfl, hTick, hOpens⟩
        · simp [hApart r d hOld] at hBefore
        · simp [(hGo hTick).1 r hOpens] at hBefore
      · rcases hOpened with hOld | ⟨rfl, hTick, hOpens⟩
        · exact (hGo hTick).2 hNew r hOld
        · have hPc := hControl.phases.replying (replying_of_opensPayloadTo hOpens)
          simp [State.opensData, hPc] at hNew
    · rw [FifoNet.set_of_ne _ _ hSelf] at hSends
      rcases hOpened with hOld | ⟨rfl, hTick, hOpens⟩
      · simp [hApart r d hOld] at hSends
      · simp [(hGo hTick).1 d hOpens] at hSends

/-- A reply is open to a rank that waits for it, which has no items. -/
theorem count_of_payloadTo {ok : World n → Fin n → Event n → Prop} (h : Execution cfg ok g)
    {r d : Fin n} (hOpen : (g r).state.work.payloadTo = some d) :
    (g d).state.work.queue.count = 0 := by
  have hRequestor := ((h.workInv r).stock.count_pos_of_payloadTo hOpen).2
  have hAsked : (g d).state.work.asked r ≠ 0 := fun hZero =>
    (noRequest_of_asked h.fifo h.workInv hZero).requestors hRequestor
  unfold Work.asked at hAsked
  split at hAsked
  next hRequested => exact (h.workInv d).stock.empty hRequested.1
  next => exact (hAsked rfl).elim

/-- As long as replies and user data keep apart, no ranks wait for each
other. -/
theorem Execution.not_sendDeadlock (h : Execution cfg (KeepsApart cfg) g) :
    ¬ SendDeadlock cfg g := by
  rintro ⟨S, ⟨first, hFirst⟩, hWaits⟩
  -- a rank that waits with a reply would wait for one that cannot wait
  have hParent : ∀ r ∈ S, ∃ p ∈ S, cfg.tree.parent r = some p := by
    intro r hr
    obtain ⟨d, hd, hOpen | ⟨-, hParent⟩⟩ := hWaits r hr
    · obtain ⟨e, -, hNext | ⟨hSends, -⟩⟩ := hWaits d hd
      · have hPos := ((h.workInv d).stock.count_pos_of_payloadTo hNext).1
        have hZero := count_of_payloadTo h hOpen
        omega
      · simp [h.apart r d hOpen] at hSends
    · exact ⟨d, hd, hParent⟩
  -- so the set would be closed under parents
  refine cfg.tree.down_induction (P := fun r => r ∉ S) ?_ ?_ first hFirst
  · intro hRoot
    obtain ⟨p, -, hp⟩ := hParent _ hRoot
    rw [cfg.tree.parent_root] at hp
    cases hp
  · intro p c hpc ih hc
    obtain ⟨q, hq, hqc⟩ := hParent c hc
    rw [hpc, Option.some.injEq] at hqc
    exact ih (hqc ▸ hq)

end Executions

/-- A parent that sends a reply to a child that sends it user data: both
wait. -/
theorem sendDeadlock_of_parent {g : World n} {r d : Fin n}
    (hOpen : (g r).state.work.payloadTo = some d) (hSends : (g d).state.sendsData = true)
    (hParent : cfg.tree.parent d = some r) : SendDeadlock cfg g := by
  refine ⟨{r, d}, ⟨r, by simp⟩, ?_⟩
  rintro other (rfl | rfl)
  · exact ⟨d, by simp, Or.inl hOpen⟩
  · exact ⟨r, by simp, Or.inr ⟨hSends, hParent⟩⟩

/-- Rank 0 of two starts a reduction, in which rank 1 takes part before it asks
for work. -/
def askingTurns : List (Fin 2 × Event 2) :=
  idleTurns 0 ++
    [(0, .tick (.time true)), (0, .tick (.init (byteBuf 7))), (0, .tick .go), (0, .tick .go),
      (0, .tick (.callback []))] ++
    idleTurns 1 ++
    [(1, .recv 0 .reduce), (1, .tick (.init (byteBuf 7))), (1, .tick .go), (1, .tick (.next (some 0))),
      (1, .tick .go), (1, .tick .go), (1, .tick .go)]

/-- Rank 0 opens a reply. -/
def replyingTurns : List (Fin 2 × Event 2) :=
  [(0, .recv 1 .workRequest), (0, .tick (.draw 0)), (0, .tick .go)]

/-- Rank 1 passes its user data on. -/
def reportingTurns : List (Fin 2 × Event 2) :=
  idleTurns 1 ++ [(1, .tick .go), (1, .tick .go)]

theorem not_sendDeadlock_pairWorld : ∃ g,
    FifoNet.runWhile (mainLoop (pairConfig true true)) (KeepsApart (pairConfig true true)) pairWorld
      (askingTurns ++ replyingTurns) = some g ∧
    (g 0).state.work.payloadTo = some 1 ∧ ¬ SendDeadlock (pairConfig true true) g := by
  have hEnd : (FifoNet.runWhile (mainLoop (pairConfig true true))
      (KeepsApart (pairConfig true true)) pairWorld (askingTurns ++ replyingTurns)).map
      (fun g => (g 0).state.work.payloadTo) = some (some 1) := by
    decide +kernel
  obtain ⟨g, hRun, hOpen⟩ := Option.map_eq_some_iff.mp hEnd
  exact ⟨g, hRun, hOpen,
    Execution.not_sendDeadlock (FifoNet.Reachable.runWhile (execution_pairWorld _ _) hRun)⟩

/-- Where the reply is opened while rank 1 sends its user data, the two ranks
wait for each other. -/
theorem sendDeadlock_pairWorld : ∃ g, Execution (pairConfig true true) FifoNet.always g ∧
    SendDeadlock (pairConfig true true) g := by
  have hEnd : (FifoNet.run (mainLoop (pairConfig true true)) pairWorld
      (askingTurns ++ reportingTurns ++ replyingTurns)).map
      (fun g => ((g 0).state.work.payloadTo, (g 1).state.sendsData)) = some (some 1, true) := by
    decide +kernel
  obtain ⟨g, hRun, hBoth⟩ := Option.map_eq_some_iff.mp hEnd
  rw [Prod.mk.injEq] at hBoth
  exact ⟨g, FifoNet.Reachable.run (execution_pairWorld _ _) hRun,
    sendDeadlock_of_parent hBoth.1 hBoth.2 (by decide +kernel)⟩

end Circle
