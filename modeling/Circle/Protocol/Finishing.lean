import Circle.Protocol.Background
import Circle.Protocol.Leaving

/-!
# Finishing the last reduction

Each turn of `reduceSync` leaves less to do, and while ranks are in `reduceSync`
one of them has a turn: the lowest, since its children have reported.  Together
with what the root delivers, this makes the last reduction exact.
-/

namespace Circle

open FifoNet (Log inFlight)

variable {n : Nat} {cfg : Config n} {rank : Fin n} {input : Input n} {s s' : State n}
  {out : Option (Packet n)} {g g' : World n}

/-! ## What is left of `reduceSync` -/

/-- How many turns `reduceSync` has at most. -/
def Reduce.syncLeft (cfg : Config n) (rank : Fin n) (r : Reduce n) : Nat :=
  match r.phase with
  | .start => 2 * (cfg.tree.children rank).length + 3
  | .syncChildren rest => 2 * rest.length + 2
  | .syncData _ _ rest => 2 * rest.length + 3
  | .syncSendData => 1
  | _ => 0

/-- How many turns of `reduceSync` a rank has still to take at most. -/
def State.syncLeft (cfg : Config n) (rank : Fin n) (s : State n) : Nat :=
  if s.pc = .reduceSync then s.reduce.syncLeft cfg rank else 0

theorem SyncTurn.left_lt {sample : Int} {r : Reduce n} {turn : Turn n (Reduce n) Outcome}
    (hTurn : SyncTurn cfg rank sample r input turn) (hResult : turn.result ≠ some .failed) :
    0 < r.syncLeft cfg rank ∧
      (turn.result = none → turn.record.syncLeft cfg rank < r.syncLeft cfg rank) := by
  cases hTurn
  case badHeader | badData => exact (hResult rfl).elim
  case init hPhase => simp [Reduce.syncLeft, Turn.stays, hPhase]
  case header hPhase _ =>
    simp [Reduce.syncLeft, Turn.stays, hPhase]
    omega
  case bare hPhase | data hPhase _ => simp [Reduce.syncLeft, Turn.stays, hPhase]
  case send hPhase _ _ => simp [Reduce.syncLeft, Turn.sends, hPhase]
  case sendBare hPhase _ _ => simp [Reduce.syncLeft, Turn.sendsAndReturns, hPhase]
  case deliver hPhase _ => simp [Reduce.syncLeft, Turn.returns, hPhase]
  case sendData hPhase _ _ => simp [Reduce.syncLeft, Turn.sendsAndReturns, hPhase]

/-- Setting `ABORT_FLAG` is the only thing that happens to a rank in
`reduceSync` without a turn of it. -/
theorem syncTurn_of_mainLoop (hPc : s.pc = .reduceSync) (hInput : input ≠ .tick .raiseAbort)
    (hActs : mainLoop cfg rank input s = some (s', out)) :
    ∃ turn, SyncTurn cfg rank s.localObjectsProcessed s.reduce input turn ∧
      s'.reduce = turn.record ∧ out = turn.out ∧
      s'.pc = match turn.result with
        | none => .reduceSync
        | some .failed => .failed
        | some .returned => .abortReduce := by
  have hStep := mainStep_of_mainLoop hActs
  cases hStep
  case raise hRaise => exact (hInput hRaise).elim
  case reduceSync turn hPc hTurn => exact ⟨turn, syncTurn_of_eq hTurn, rfl, rfl, rfl⟩
  all_goals simp_all

/-- Each turn of a rank in `reduceSync` leaves less to do. -/
theorem Execution.syncLeft_lt (h : Execution cfg FifoNet.always g)
    (hFires : FifoNet.Fires (mainLoop cfg) g rank input s' out)
    (hPc : (g rank).state.pc = .reduceSync) (hInput : input ≠ .tick .raiseAbort) :
    s'.syncLeft cfg rank < (g rank).state.syncLeft cfg rank := by
  have hRunning := h.running_step hFires.admits (mainStep_of_mainLoop hFires.acts)
  obtain ⟨turn, hTurn, hReduce, -, hNext⟩ := syncTurn_of_mainLoop hPc hInput hFires.acts
  have hResult : turn.result ≠ some .failed := by
    intro hEq
    rw [hEq] at hNext
    exact hRunning hNext
  obtain ⟨hPos, hLess⟩ := hTurn.left_lt hResult
  rw [State.syncLeft, State.syncLeft, if_pos hPc, hReduce, hNext]
  rcases hCases : turn.result with _ | _ | _
  · exact hLess hCases
  · exact hPos
  · exact (hResult hCases).elim

/-! ## A rank in `reduceSync` has a turn -/

/-- A child that has finished `reduceSync` has reported, and its parent has not
read all of it. -/
theorem Execution.report_inFlight (h : Execution cfg FifoNet.always g)
    (hEnabled : cfg.reduceEnabled = true) {p c : Fin n} {rest : List (Fin n)}
    (hRest : (g p).state.reduce.syncRest = some (c :: rest))
    (hDone : (g c).state.pc.early = false) :
    ∃ msg, FifoNet.Admits g p (.recv c .reduce msg : Input n) := by
  obtain ⟨hInv, -⟩ := h.reductions
  obtain ⟨order, hGathers⟩ := (hInv p).gathers
  obtain ⟨hOrder, -⟩ := hGathers.sync _ hRest
  have hMem : c ∈ cfg.tree.children p := by
    rw [← hOrder]
    simp
  have hParent := cfg.tree.parent_of_mem hMem
  have hNodup := cfg.tree.nodup_children p
  rw [← hOrder, List.nodup_append] at hNodup
  have hNot : c ∉ order := fun hIn => hNodup.2.2 c hIn c List.mem_cons_self rfl
  have hHeard := hGathers.length_eq c hMem
  rw [if_neg hNot, Nat.add_zero] at hHeard
  -- the child has said one report more than its parent has heard
  have hLast := h.last_of_finished hEnabled c (Or.inl hDone)
  have hShape := h.reduceShape c (h.running c)
  have hLeft := hShape.leftBarrier hLast
  have hSpoken : (g c).state.reduce.spoken.length = (g p).state.reduce.rounds.length + 1 := by
    obtain ⟨x, hx⟩ := Option.ne_none_iff_exists'.mp hLast
    rw [Reduce.spoken, List.length_append, (h.responses_eq hLeft hParent).1, hx]
    rfl
  have hSends : (g c).state.reduce.sendsReport = false := by
    have hFits := hShape.fits
    have hClosed := (noRound_of_left h hInv hLeft c).2
    unfold Reduce.Fits at hFits
    cases hPhase : (g c).state.reduce.phase <;> rw [hPhase] at hFits <;>
      try simp [Reduce.sendsReport, hPhase]
    case sendData => simp [hClosed] at hFits
    case syncSendData =>
      have hPlace := hShape.syncPlace (by simp [hPhase, ReducePhase.isSync])
      rw [hPlace] at hDone
      cases hDone
  have hRead := (((hInv c).upward p hParent).read_eq hSends).2
  refine FifoNet.exists_admits (Nat.lt_of_not_le fun hLe => ?_)
  have hAll := (h.fifo c p .reduce).eq_of_length_le hLe
  rw [heard, hAll, hRead, hSpoken] at hHeard
  omega

theorem ReduceTurn.not_syncSendData {sample : Int} {cleanup : Bool} {r : Reduce n}
    {turn : Turn n (Reduce n) Outcome} (hTurn : ReduceTurn cfg rank sample cleanup r input turn)
    (hResult : turn.result ≠ some .failed) : turn.record.phase ≠ .syncSendData := by
  cases hTurn
  case badStart | badHeader | badData => exact (hResult rfl).elim
  case idle hPhase _ | refuse hPhase _ _ _ => simp [Turn.returns, Turn.sendsAndReturns, hPhase]
  all_goals simp [Turn.stays, Turn.returns, Turn.sends, Turn.sendsAndReturns]

theorem SyncTurn.parent_of_syncSendData {sample : Int} {r : Reduce n}
    {turn : Turn n (Reduce n) Outcome} (hTurn : SyncTurn cfg rank sample r input turn)
    (hResult : turn.result ≠ some .failed) (hPhase : turn.record.phase = .syncSendData) :
    cfg.tree.parent rank ≠ none := by
  cases hTurn
  case badHeader | badData => exact (hResult rfl).elim
  case send _ hParent _ => simp [hParent]
  all_goals simp [Turn.stays, Turn.returns, Turn.sendsAndReturns] at hPhase

/-- Only a rank with a parent sends the data of the last reduction. -/
theorem Execution.parent_of_syncSendData (h : Execution cfg FifoNet.always g) (rank : Fin n) :
    (g rank).state.reduce.phase = .syncSendData → cfg.tree.parent rank ≠ none := by
  refine h.forall_rank (L := fun rank node =>
    node.state.reduce.phase = .syncSendData → cfg.tree.parent rank ≠ none) ?_ ?_ rank
  · intro rank start hPhase
    simp [Start.state] at hPhase
  · intro g rank input s' out hReach hAll hAdmits hStep
    have hRunning := hReach.running_step hAdmits hStep
    have hReduceStep := reduceStep_of_mainStep hStep
    rw [FifoNet.Node.after_state]
    cases hReduceStep
    case other hReduce hProcessed hStays hSilent =>
      rw [hReduce]
      exact hAll rank
    case check turn hPc hTurn hReduce hCleanup hProcessed hCheck hFailed =>
      rw [hReduce]
      intro hPhase
      exact (hTurn.not_syncSendData (fun hEq => hRunning (hFailed.mp hEq)) hPhase).elim
    case sync turn hPc hTurn hReduce hCleanup hProcessed hNext =>
      rw [hReduce]
      refine hTurn.parent_of_syncSendData fun hEq => ?_
      rw [hEq] at hNext
      exact hRunning hNext

/-- A rank in `reduceSync` has a turn when its children have finished. -/
theorem Execution.exists_syncTurn (h : Execution cfg FifoNet.always g)
    (hEnabled : cfg.reduceEnabled = true) (hPc : (g rank).state.pc = .reduceSync)
    (hChildren : ∀ c ∈ cfg.tree.children rank, (g c).state.pc.early = false) :
    ∃ input s' out, input ≠ .tick .raiseAbort ∧
      FifoNet.Fires (mainLoop cfg) g rank input s' out := by
  have hShape := h.reduceShape rank (h.running rank)
  have hFits := hShape.fits
  have hTick (choice : Choice n) : FifoNet.Admits g rank (.tick choice : Input n) := trivial
  have hFire (input : Input n) {turn : Turn n (Reduce n) Outcome}
      (hInput : input ≠ .tick .raiseAbort) (hAdmits : FifoNet.Admits g rank input)
      (hTurn : (g rank).state.reduce.reduceSync cfg rank (g rank).state.localObjectsProcessed
        input = some turn) :
      ∃ input s' out, input ≠ .tick .raiseAbort ∧
        FifoNet.Fires (mainLoop cfg) g rank input s' out := by
    obtain ⟨acts, hActs⟩ : ∃ acts, mainLoop cfg rank input (g rank).state = some acts := by
      simp [mainLoop, hPc, hTurn]
    exact ⟨input, acts.1, acts.2, hInput, hAdmits, hActs⟩
  have hMem {c : Fin n} {rest : List (Fin n)} (hSuffix : c :: rest <:+ cfg.tree.children rank) :
      c ∈ cfg.tree.children rank := hSuffix.mem List.mem_cons_self
  unfold Reduce.Fits at hFits
  have hPlace := hShape.checkPlace hPc
  cases hPhase : (g rank).state.reduce.phase <;> rw [hPhase] at hFits hPlace <;>
    simp only [ReducePhase.isSync, reduceCtorEq, or_self, Bool.false_eq_true] at hPlace
  case start =>
    -- any buffer of the callback will do
    obtain ⟨turn, hTurn⟩ : ∃ turn, (g rank).state.reduce.reduceSync cfg rank
        (g rank).state.localObjectsProcessed (.tick (.init (byteBuf 0))) = some turn := by
      simp [Reduce.reduceSync, hPhase]
    exact hFire _ (by simp) (hTick _) hTurn
  case syncChildren rest =>
    cases rest with
    | nil =>
        obtain ⟨turn, hTurn⟩ : ∃ turn, (g rank).state.reduce.reduceSync cfg rank
            (g rank).state.localObjectsProcessed (.tick .go) = some turn := by
          cases hParent : cfg.tree.parent rank <;> simp [Reduce.reduceSync, hPhase, hParent]
          split <;> exact ⟨_, rfl⟩
        exact hFire _ (by simp) (hTick _) hTurn
    | cons c rest =>
        have hRest : (g rank).state.reduce.syncRest = some (c :: rest) := by
          simp [Reduce.syncRest, hPhase]
        -- the child has left the loop, and so its report is under way
        obtain ⟨msg, hAdmits⟩ := h.report_inFlight hEnabled hRest (hChildren c (hMem hFits.2))
        obtain ⟨turn, hTurn⟩ : ∃ turn, (g rank).state.reduce.reduceSync cfg rank
            (g rank).state.localObjectsProcessed (.recv c .reduce msg) = some turn := by
          -- whatever the message is, the rank takes it in
          cases msg <;> simp [Reduce.reduceSync, hPhase]
          split
          · exact ⟨_, rfl⟩
          · split <;> exact ⟨_, rfl⟩
        exact hFire _ (by simp) hAdmits hTurn
  case syncData c bytes rest =>
    have hRest : (g rank).state.reduce.syncRest = some (c :: rest) := by
      simp [Reduce.syncRest, hPhase]
    obtain ⟨msg, hAdmits⟩ := h.report_inFlight hEnabled hRest (hChildren c (hMem hFits.2))
    obtain ⟨turn, hTurn⟩ : ∃ turn, (g rank).state.reduce.reduceSync cfg rank
        (g rank).state.localObjectsProcessed (.recv c .reduce msg) = some turn := by
      cases msg <;> simp [Reduce.reduceSync, hPhase]
      split <;> exact ⟨_, rfl⟩
    exact hFire _ (by simp) hAdmits hTurn
  case syncSendData =>
    obtain ⟨p, hParent⟩ := Option.ne_none_iff_exists'.mp (h.parent_of_syncSendData rank hPhase)
    obtain ⟨-, buf, hBuf⟩ := hShape.buffers (Or.inr (by simp [hPhase, ReducePhase.isSync]))
    obtain ⟨turn, hTurn⟩ : ∃ turn, (g rank).state.reduce.reduceSync cfg rank
        (g rank).state.localObjectsProcessed (.tick .go) = some turn := by
      simp [Reduce.reduceSync, hPhase, hParent, hBuf]
    exact hFire _ (by simp) (hTick _) hTurn

/-! ## All ranks finish -/

/-- After the barrier comes `reduceSync`. -/
theorem Execution.reduceSync_of_left (h : Execution cfg FifoNet.always g) {r : Fin n}
    (hLeft : (g r).state.pc.leftBarrier = true) (hEarly : (g r).state.pc.early = true) :
    (g r).state.pc = .reduceSync := by
  have hRunning := h.running r
  revert hLeft hEarly hRunning
  cases (g r).state.pc <;> decide

/-- While ranks are in `reduceSync`, the lowest of them has a turn. -/
theorem Execution.exists_sync (h : Execution cfg FifoNet.always g)
    (hEnabled : cfg.reduceEnabled = true) (hLeft : ∀ r, (g r).state.pc.leftBarrier = true)
    (hEarly : ∃ r, (g r).state.pc.early = true) :
    ∃ r input s' out, FifoNet.Fires (mainLoop cfg) g r input s' out ∧
      s'.syncLeft cfg r < (g r).state.syncLeft cfg r := by
  obtain ⟨i, hi⟩ := hEarly
  obtain ⟨r, hr, hLowest⟩ := cfg.tree.exists_lowest (P := fun r => (g r).state.pc.early = true) hi
  have hPc := h.reduceSync_of_left (hLeft r) hr
  obtain ⟨input, s', out, hInput, hFires⟩ := h.exists_syncTurn hEnabled hPc fun c hMem => by
    rw [← Bool.not_eq_true]
    exact hLowest c hMem
  exact ⟨r, input, s', out, hFires, h.syncLeft_lt hFires hPc hInput⟩

/-- A rank that has left the barrier does not come back. -/
theorem leftBarrier_of_fires (h : Execution cfg FifoNet.always g) {r : Fin n}
    (hFires : FifoNet.Fires (mainLoop cfg) g r input s' out)
    (hLeft : (g r).state.pc.leftBarrier = true) : s'.pc.leftBarrier = true := by
  have hStep := mainStep_of_mainLoop hFires.acts
  have hRunning := h.running_step hFires.admits hStep
  rw [Pc.leftBarrier_of_mem_next hStep.next (by rintro hEq; simp [hEq, Pc.leftBarrier] at hLeft)
    hRunning]
  exact hLeft

/-- Once all have left the barrier, all can finish `reduceSync`. -/
theorem Execution.all_finish (h : Execution cfg FifoNet.always g)
    (hEnabled : cfg.reduceEnabled = true) (hLeft : ∀ r, (g r).state.pc.leftBarrier = true) :
    ∃ g', FifoNet.Leads (mainLoop cfg) g g' ∧ ∀ r, (g' r).state.pc.early = false := by
  have hStep (g : World n)
      (hg : Execution cfg FifoNet.always g ∧ ∀ r, (g r).state.pc.leftBarrier = true)
      (hNot : ¬ ∀ r, (g r).state.pc.early = false) :
      ∃ g', FifoNet.Leads (mainLoop cfg) g g' ∧
        (Execution cfg FifoNet.always g' ∧ ∀ r, (g' r).state.pc.leftBarrier = true) ∧
        ∑ r, (g' r).state.syncLeft cfg r < ∑ r, (g r).state.syncLeft cfg r := by
    obtain ⟨hReach, hLeft⟩ := hg
    push Not at hNot
    simp only [Bool.not_eq_false] at hNot
    obtain ⟨r, input, s', out, hFires, hLess⟩ := hReach.exists_sync hEnabled hLeft hNot
    have hAlone := alone_of_fires hFires
    have hState : (FifoNet.set g r ((g r).after input s' out) r).state = s' := by
      rw [FifoNet.set_self, FifoNet.Node.after_state]
    refine ⟨_, hAlone.leads, ⟨hReach.fires hFires, fun d => ?_⟩, ?_⟩
    · by_cases hSelf : d = r
      · subst hSelf
        rw [hState]
        exact leftBarrier_of_fires hReach hFires (hLeft d)
      · rw [hAlone.others d hSelf]
        exact hLeft d
    · exact FifoNet.sum_lt_of_others (f := fun r node => node.state.syncLeft cfg r)
        hAlone.others (by rw [hState]; exact hLess)
  obtain ⟨g', hLeads, -, hEnd⟩ := FifoNet.exists_leads
    (fun g : World n => ∑ r, (g r).state.syncLeft cfg r) hStep ⟨h, hLeft⟩
  exact ⟨g', hLeads, hEnd⟩

/-! ## Exactness -/

/-- The last reduction is exact. -/
structure ExactAtEnd (cfg : Config n) (g : World n) : Prop where
  /-- No message is taken for another one: no rank stops the execution. -/
  running : ∀ r, (g r).state.pc ≠ .failed
  /-- Once a rank has left the barrier, all starts of background rounds are
  received, all answers to them are read, and a child that has not reported in
  the last reduction has no message under way. -/
  drained : ∀ r p c, (g r).state.pc.leftBarrier = true → cfg.tree.parent c = some p →
    inFlight g p c .reduce = [] ∧ (g c).state.reduce.responses <+: heard (g p).rcvd c ∧
      ((g c).state.reduce.last = none → inFlight g c p .reduce = [])
  far : ∀ a b, b ∉ cfg.neighbours a → inFlight g a b .reduce = []
  /-- A rank that has finished `reduceSync` has put something into the last
  reduction. -/
  taken : ∀ r, (g r).state.pc.early = false → (g r).state.reduce.last ≠ none
  /-- What the root puts in comes of one contribution of every rank, and is what
  it delivers last. -/
  delivered : ∀ x, (g cfg.tree.root).state.reduce.last = some x →
    (g cfg.tree.root).state.reduce.finalized.getLast? = some (x.count, x.value) ∧
      ∃ y : Fin n → Round, (∀ r, (g r).state.reduce.last = some (y r)) ∧
        x.count = ∑ r, ((g r).state.localObjectsProcessed : Int) ∧
        x.value = cfg.tree.fold (fun r values => values.foldl cfg.op (y r).init) cfg.tree.root ∧
        (Std.Associative cfg.op → Std.Commutative cfg.op →
          combineAll cfg.op ((List.finRange n).map fun r => (y r).init) = some x.value)
  /-- Every turn of `reduceSync` leaves less to do, -/
  shrinks : ∀ r input s' out, FifoNet.Fires (mainLoop cfg) g r input s' out →
    (g r).state.pc = .reduceSync → input ≠ .tick .raiseAbort →
    s'.syncLeft cfg r < (g r).state.syncLeft cfg r
  /-- there is such a turn while a rank has not finished, -/
  goesOn : (∀ r, (g r).state.pc.leftBarrier = true) → (∃ r, (g r).state.pc.early = true) →
    ∃ r input s' out, FifoNet.Fires (mainLoop cfg) g r input s' out ∧
      s'.syncLeft cfg r < (g r).state.syncLeft cfg r
  /-- and once a rank has left the barrier, all ranks can finish. -/
  finishes : ∀ r, (g r).state.pc.leftBarrier = true →
    ∃ g', FifoNet.Leads (mainLoop cfg) g g' ∧ ∀ r, (g' r).state.pc.early = false

theorem Execution.exactAtEnd (hEnabled : cfg.reduceEnabled = true)
    (h : Execution cfg FifoNet.always g) : ExactAtEnd cfg g where
  running := h.running
  drained := fun _ _ _ hLeft hParent => ⟨h.starts_received hLeft hParent,
    h.responses_read hLeft hParent, h.answers_received hLeft hParent⟩
  far := fun _ _ => h.nothing_far
  taken := fun r hDone => h.last_of_finished hEnabled r (Or.inl hDone)
  delivered := by
    intro x hLast
    refine ⟨?_, h.last_exact hLast⟩
    have hBooks := (h.reductions.1 cfg.tree.root).books
    have hValid := (hBooks.last x hLast).1
    rw [hBooks.finalized cfg.tree.parent_root, Reduce.delivered, hLast]
    simp [hValid]
  shrinks := fun _ _ _ _ hFires hPc hInput => h.syncLeft_lt hFires hPc hInput
  goesOn := h.exists_sync hEnabled
  finishes := by
    intro r hLeft
    obtain ⟨next, hNext, hAll⟩ := h.all_leave hLeft
    have hReach : Execution cfg FifoNet.always next := FifoNet.Reachable.leads h hNext
    obtain ⟨g', hLeads, hEnd⟩ := hReach.all_finish hEnabled hAll
    exact ⟨g', hNext.trans hLeads, hEnd⟩

/-! ## Two ranks -/

/-- A rank goes on by itself for some turns. -/
def goOn (rank : Fin 2) (turns : Nat) : List (Fin 2 × Event 2) :=
  List.replicate turns (rank, .tick .go)

/-- Both ranks ask each other for work in vain. -/
def vainTurns : List (Fin 2 × Event 2) :=
  List.flatten [
    idleTurns 0, [(0, .tick (.time false)), (0, .tick (.callback [.pop [], .pop []]))],
    idleTurns 0, [(0, .tick (.time false)), (0, .tick (.next (some 1)))], goOn 0 3,
    [(1, .recv 0 .workRequest)], goOn 1 6,
    [(1, .tick (.tested false)), (1, .tick (.time false)), (1, .tick (.next (some 0)))],
    goOn 1 3]

/-- They get their replies, and terminate. -/
def terminatingTurns : List (Fin 2 × Event 2) :=
  List.flatten [
    [(0, .recv 1 .workRequest)], goOn 0 6,
    [(0, .tick (.tested false)), (0, .tick (.time false)), (0, .recv 1 .workReply),
      (0, .tick .go), (0, .recv 1 .term)], goOn 0 8,
    idleTurns 1, [(1, .tick (.time false)), (1, .recv 0 .workReply)], goOn 1 2,
    [(1, .recv 0 .term)], goOn 1 5]

/-- They leave the barrier. -/
def leavingTurns : List (Fin 2 × Event 2) :=
  List.flatten [
    goOn 0 1, [(0, .tick (.time false))], goOn 0 3, [(0, .tick (.tested false))], goOn 0 1,
    [(0, .recv 1 .barrier)], goOn 0 4,
    goOn 1 1, [(1, .tick (.time false))], goOn 1 3, [(1, .tick (.tested false))], goOn 1 3,
    [(1, .recv 0 .barrier)], goOn 1 1]

/-- They carry out the last reduction. -/
def reducingTurns : List (Fin 2 × Event 2) :=
  [(0, .tick (.init (byteBuf 1))), (1, .tick (.init (byteBuf 2))), (1, .tick .go),
    (1, .tick .go), (0, .recv 1 .reduce), (0, .recv 1 .reduce), (0, .tick .go)]

def finishingTurns : List (Fin 2 × Event 2) :=
  vainTurns ++ terminatingTurns ++ leavingTurns ++ reducingTurns

theorem exactAtEnd_pairWorld : ∃ g,
    FifoNet.run (mainLoop addConfig) pairWorld finishingTurns = some g ∧
    (g 0).state.reduce.finalized = [(1, byteBuf 3)] ∧ (∀ r, (g r).state.pc.early = false) ∧
    ExactAtEnd addConfig g := by
  have hEnd : (FifoNet.run (mainLoop addConfig) pairWorld finishingTurns).map (fun g =>
      ((g 0).state.reduce.finalized, (g 0).state.pc, (g 1).state.pc)) =
        some ([(1, byteBuf 3)], .abortReduce, .abortReduce) := by
    decide +kernel
  obtain ⟨g, hRun, hAll⟩ := Option.map_eq_some_iff.mp hEnd
  simp only [Prod.mk.injEq] at hAll
  obtain ⟨hFinalized, hFirst, hSecond⟩ := hAll
  refine ⟨g, hRun, hFinalized, ?_, Execution.exactAtEnd rfl
    (FifoNet.Reachable.run (execution_pairWorld _ _) hRun)⟩
  rw [Fin.forall_fin_two, hFirst, hSecond]
  exact ⟨rfl, rfl⟩

end Circle
