import Circle.Protocol.Quiescence
import Circle.Protocol.Termination

/-!
# Termination by the tree

The flags of the termination reduction do not count: the first round that is
complete ends the execution.  A rank contributes to it without items, with all
of its transfers acknowledged; as long as no rank is given items after it has
contributed, all that holds of every rank when the round is complete.
-/

namespace Circle

open FifoNet (inFlight)

variable {n : Nat} {cfg : Config n} {rank : Fin n} {input : Input n} {s s' : State n}
  {out : Option (Packet n)}

/-- No `ABORT_FLAG` is raised, and no rank that has contributed to the
termination reduction receives items. -/
def ContributesLast (g : World n) (rank : Fin n) (event : Event n) : Prop :=
  match event with
  | .tick .raiseAbort => False
  | .recv src .workReply =>
      (g rank).state.term.termUp = true →
        ∀ msg ∈ (inFlight g src rank .workReply).head?, msg.Refuses
  | _ => True

instance (g : World n) (rank : Fin n) (event : Event n) :
    Decidable (ContributesLast g rank event) :=
  match event with
  | .tick .raiseAbort => inferInstanceAs (Decidable False)
  | .recv _ .workReply => inferInstanceAs (Decidable (_ → ∀ msg ∈ (_ : Option Msg), msg.Refuses))
  | .recv _ .workRequest | .recv _ .workReceipt | .recv _ .token | .recv _ .reduce
  | .recv _ .barrier | .recv _ .term | .recv _ .abortRequest | .recv _ .abortReply
  | .recv _ .abortReduce | .tick .go | .tick (.tested _) | .tick (.draw _) | .tick (.next _)
  | .tick (.callback _) | .tick (.time _) | .tick (.init _) | .synced _ _ =>
      inferInstanceAs (Decidable True)

theorem ContributesLast.noAbort {g : World n} {event : Event n}
    (h : ContributesLast g rank event) : event ≠ .tick .raiseAbort := by
  rintro rfl
  exact h

/-! ## A rank that has contributed -/

/-- A rank without items, whose transfers are acknowledged. -/
structure Settled (s : State n) : Prop where
  empty : s.work.queue.count = 0
  whole : s.work.receiving = none
  outstanding : s.work.workOutstanding = 0

theorem Stock.sending_of_empty {w : Work n} (h : Stock w) (hEmpty : w.queue.count = 0) :
    w.sending = none := by
  by_contra hSome
  obtain ⟨work, hSending⟩ := Option.ne_none_iff_exists'.mp hSome
  have hPos := h.count_pos_of_sending hSending
  omega

/-- A rank without items makes no transfer. -/
theorem WorkStep.outstanding_of_empty {w : Work n} (h : WorkStep cfg rank s input w out)
    (hStock : Stock s.work) (hEmpty : s.work.queue.count = 0)
    (hZero : s.work.workOutstanding = 0) : w.workOutstanding = 0 := by
  cases h
  case other => exact hZero
  case workreq hTurn =>
    cases hTurn
    case payload hSending =>
      rw [hStock.sending_of_empty hEmpty] at hSending
      cases hSending
    all_goals exact hZero
  case receipt hTurn =>
    cases hTurn
    case receipt hOutstanding => omega
    case nothing => exact hZero
  case request hTurn => rw [hTurn.outstanding_eq, hZero]
  case callback hCount _ => omega

/-- A rank contributes in `checkForTermAllReduce`, with nothing outstanding. -/
theorem contributes_of_step (hStep : MainStep cfg rank input s s' out)
    (hBefore : s.term.wave.up = 0) (hUp : 1 ≤ s'.term.wave.up) :
    s.pc = .checkForTermAllReduce ∧ s'.work = s.work ∧ s.work.workOutstanding = 0 := by
  cases hStep
  case checkForTermAllReduce turn hPc hTurn =>
    refine ⟨hPc, rfl, ?_⟩
    have hTurn := termTurn_of_eq hTurn
    cases hTurn
    case contribute hWork _ _ _ | gather hWork _ _ _ | look hWork _ => exact hWork
    all_goals
      simp only [Turn.stays, Turn.returns, Turn.sends] at hUp
      omega
  all_goals
    simp only at hUp
    omega

theorem settled_step (hStep : MainStep cfg rank input s s' out) (hControl : Control cfg s)
    (hStock : Stock s.work) (hFlag : s.pc.early = true → s.abort.abortFlag = false)
    (hOld : 1 ≤ s.term.wave.up → Settled s)
    (hRefused : 1 ≤ s.term.wave.up → ∀ src msg, input = .recv src .workReply msg → msg.Refuses)
    (hUp : 1 ≤ s'.term.wave.up) : Settled s' := by
  rcases Nat.eq_zero_or_pos s.term.wave.up with hBefore | hBefore
  · obtain ⟨hPc, hWork, hZero⟩ := contributes_of_step hStep hBefore hUp
    have hFits := hControl.fits
    simp only [State.Fits, hPc, hFlag (by simp [hPc, Pc.early]), Bool.false_eq_true,
      or_false] at hFits
    refine ⟨hWork ▸ hFits.2.2, ?_, hWork ▸ hZero⟩
    rw [hWork]
    by_contra hSome
    rcases hControl.phases.receiving hSome with hOther | hOther <;> simp [hPc] at hOther
  · obtain ⟨hEmpty, hWhole, hZero⟩ := hOld hBefore
    have hWork := workStep_of_mainStep hStep
    obtain ⟨hEmpty', hWhole'⟩ := hWork.stays_empty hStock hEmpty hWhole (hRefused hBefore)
    exact ⟨hEmpty', hWhole', hWork.outstanding_of_empty hStock hEmpty hZero⟩

/-! ## Executions -/

/-- What it means that the tree terminates safely. -/
structure TreeSafe (cfg : Config n) (g : World n) : Prop where
  /-- A rank has returned TERMINATE. -/
  terminated : ∀ r, (g r).state.cleanup = true → Quiescent g
  /-- No item is sent later. -/
  later : ∀ r, (g r).state.cleanup = true → ∀ events g',
    FifoNet.run (mainLoop cfg) g events = some g' → Quiescent g'
  /-- A rank that has contributed has all its transfers acknowledged. -/
  acknowledged : ∀ r, 1 ≤ (g r).state.term.wave.up → (g r).state.work.workOutstanding = 0
  /-- It makes no other: what it has under way are refusals. -/
  refuses : ∀ r, 1 ≤ (g r).state.term.wave.up → ∀ dst,
    ∀ msg ∈ inFlight g r dst .workReply, msg.Refuses

section Results

variable {ok : World n → Fin n → Event n → Prop} {g : World n}

/-- Once a rank has the result, all ranks have contributed. -/
theorem Execution.up_of_closed (h : Execution cfg ok g) {r : Fin n}
    (hClosed : 1 ≤ (g r).state.term.wave.closed) (other : Fin n) :
    1 ≤ (g other).state.term.wave.up := by
  have hWave := fun r => (h.termInv r).tracks.inv
  have hFifo := fun s d => h.fifo.length_le s d .term
  exact Wave.up_of_done hWave hFifo (Nat.le_trans hClosed (hWave r).closed_le_done) other

/-- A rank that has nothing, and whose transfers are acknowledged, has no items
under way. -/
theorem Settled.refused (h : Settled (g rank).state) (hReach : Execution cfg ok g) (dst : Fin n) :
    ∀ msg ∈ inFlight g rank dst .workReply, msg.Refuses :=
  (hReach.acknowledged h.outstanding
    ((hReach.workInv rank).stock.sending_of_empty h.empty)).refusals dst

theorem idle_of_settled (hReach : Execution cfg ok g) (hAll : ∀ r, Settled (g r).state)
    (r : Fin n) : Idle g r where
  empty := (hAll r).empty
  whole := (hAll r).whole
  refused := fun src => (hAll src).refused hReach r

/-- As long as no rank is given items after it has contributed, the ranks that
have contributed are settled. -/
theorem Execution.settled (h : Execution cfg ContributesLast g) (r : Fin n) :
    1 ≤ (g r).state.term.wave.up → Settled (g r).state := by
  revert r
  refine FifoNet.Reachable.invariant
    (I := fun g => ∀ r, 1 ≤ (g r).state.term.wave.up → Settled (g r).state) ?_ ?_ h
  · rintro states ⟨start, hStates⟩ r hUp
    simp [FifoNet.fresh, hStates, Start.state, Wave.Counters.zero] at hUp
  · intro g rank event input state out hReach hAll hOk hInput hFires r
    have hReach : Execution cfg ContributesLast g := hReach
    by_cases hSelf : r = rank
    · subst hSelf
      rw [FifoNet.set_self, FifoNet.Node.after_state]
      refine settled_step (mainStep_of_mainLoop hFires.acts) (hReach.control r)
        (hReach.workInv r).stock (hReach.calm (fun _ _ _ hOk => hOk.noAbort) r).flag (hAll r) ?_
      rintro hUp src msg rfl
      obtain ⟨rfl, hHead⟩ := FifoNet.event_of_input_recv hInput
      cases hTermUp : (g r).state.term.termUp with
      | true => exact hOk hTermUp msg hHead
      | false =>
          -- the round is closed, so that all ranks have contributed
          have hOpen := (hReach.termInv r).tracks.up_eq
          rw [hTermUp] at hOpen
          have hSettled := hAll src (hReach.up_of_closed (r := r) (by simp at hOpen; omega) src)
          exact hSettled.refused hReach r msg (FifoNet.mem_inFlight_of_admits hFires.admits)
    · rw [FifoNet.set_of_ne _ _ hSelf]
      exact hAll r

/-- In tree mode without an abort, termination is safe as long as no rank that
has contributed is given items. -/
theorem Execution.treeSafe (h : Execution cfg ContributesLast g) (hTree : cfg.termTree = true) :
    TreeSafe cfg g := by
  have hIdle (r : Fin n) (hCleanup : (g r).state.cleanup = true) : ∀ other, Idle g other := by
    have hClosed := (h.termInv r).closed_eq
    simp only [hTree, hCleanup, Bool.true_and, if_true] at hClosed
    exact idle_of_settled h fun other =>
      h.settled other (h.up_of_closed (r := r) (by omega) other)
  have hAlways : Execution cfg FifoNet.always g := h.weaken fun _ _ _ _ => trivial
  exact {
    terminated := fun r hCleanup => quiescent_of_idle h (hIdle r hCleanup)
    later := fun r hCleanup _ _ hRun =>
      quiescent_of_idle (FifoNet.Reachable.run hAlways hRun)
        (idle_run hAlways (hIdle r hCleanup) hRun)
    acknowledged := fun r hUp => (h.settled r hUp).outstanding
    refuses := fun r hUp dst => (h.settled r hUp).refused h dst }

end Results

/-! ## Two ranks -/

theorem treeSafe_pairWorld : ∃ g,
    FifoNet.runWhile (mainLoop (pairConfig true false)) ContributesLast pairWorld closingTurns =
      some g ∧
    (g 0).state.cleanup = true ∧ TreeSafe (pairConfig true false) g := by
  have hEnd : (FifoNet.runWhile (mainLoop (pairConfig true false)) ContributesLast pairWorld
      closingTurns).map (fun g => (g 0).state.cleanup) = some true := by
    decide +kernel
  obtain ⟨g, hRun, hCleanup⟩ := Option.map_eq_some_iff.mp hEnd
  have hReach : Execution (pairConfig true false) ContributesLast g :=
    FifoNet.Reachable.runWhile (execution_pairWorld _ _) hRun
  exact ⟨g, hRun, hCleanup, hReach.treeSafe rfl⟩

/-- Rank 1 contributes while its request is open, and then gets an item from
rank 0, which contributes once it has the receipt. -/
def abandoningTurns : List (Fin 2 × Event 2) :=
  idleTurns 1 ++ [(1, .tick (.next (some 0))), (1, .tick .go), (1, .tick .go), (1, .tick .go)] ++
    [(0, .recv 1 .workRequest), (0, .tick (.draw 0)), (0, .tick .go), (0, .tick .go)] ++
    idleTurns 1 ++ [(1, .recv 0 .workReply), (1, .recv 0 .workReply)] ++
    [(0, .tick .go), (0, .recv 1 .workReceipt), (0, .tick .go), (0, .tick .go), (0, .tick .go),
      (0, .tick (.tested false)), (0, .tick (.callback [.pop []]))] ++ idleTurns 0 ++
    [(0, .tick (.next (some 1))), (0, .tick .go), (0, .recv 1 .term), (0, .tick .go),
      (0, .tick .go), (0, .tick .go), (0, .tick .go)]

/-- Rank 0 terminates, and rank 1 has an item. -/
theorem not_treeSafe_pairWorld : ∃ g, Execution (pairConfig true false) NoAbort g ∧
    (g 0).state.cleanup = true ∧ (g 1).state.work.queue.items = [[2]] ∧
    ¬ TreeSafe (pairConfig true false) g := by
  have hEnd : (FifoNet.runWhile (mainLoop (pairConfig true false)) NoAbort pairWorld
      abandoningTurns).map (fun g => ((g 0).state.cleanup, (g 1).state.work.queue.items,
        (g 1).state.work.queue.count)) = some (true, [[2]], 1) := by
    decide +kernel
  obtain ⟨g, hRun, hAll⟩ := Option.map_eq_some_iff.mp hEnd
  simp only [Prod.mk.injEq] at hAll
  obtain ⟨hCleanup, hItems, hCount⟩ := hAll
  refine ⟨g, FifoNet.Reachable.runWhile (execution_pairWorld _ _) hRun, hCleanup, hItems, ?_⟩
  intro hSafe
  have hEmpty := (hSafe.terminated 0 hCleanup).empty 1
  omega

end Circle
