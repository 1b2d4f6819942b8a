import Circle.Protocol.RingTermination
import Circle.Protocol.TreeTermination
import Circle.Protocol.Unanimity

/-!
# Every item is processed once

Work stealing conserves the items, and a rank that terminates does so when no
rank has an item and none is under way.  Together: once a rank has left the
main loop, the items taken out by callbacks are those ever put in, each as
often.  No callback runs after that, and where nobody has set `ABORT_FLAG` no
rank comes to the checkpoint.
-/

namespace Circle

open FifoNet (Log inFlight)

variable {n : Nat} {cfg : Config n} {rank : Fin n} {input : Input n} {s s' : State n}
  {out : Option (Packet n)}

/-! ## Items -/

/-- Refusals carry no items. -/
theorem read_of_refuses {flight : List Msg} (hRefuses : ∀ msg ∈ flight, msg.Refuses) :
    (replies.read none flight).flatten = [] := by
  induction flight with
  | nil => rfl
  | cons msg rest ih =>
      obtain ⟨items, tail, rfl, hItems⟩ := hRefuses msg List.mem_cons_self
      have hRest := ih fun m hMem => hRefuses m (List.mem_cons_of_mem _ hMem)
      show (replies.out none _ ++ replies.read (replies.next none _) rest).flatten = []
      rw [replies_out_none, replies_next_none, if_neg (by omega), if_neg (by omega),
        List.flatten_append, hRest]
      rfl

/-- Items are put in and taken out by callbacks, and a rank without items makes
no callback. -/
theorem WorkStep.processed_of_empty {w : Work n} (h : WorkStep cfg rank s input w out)
    (hEmpty : s.work.queue.count = 0) :
    w.enqueued = s.work.enqueued ∧ w.dequeued = s.work.dequeued := by
  cases h
  case other => exact ⟨rfl, rfl⟩
  case workreq hTurn => cases hTurn <;> exact ⟨rfl, rfl⟩
  case receipt hTurn =>
    obtain ⟨outstanding, hSame⟩ := hTurn.work_eq
    rw [hSame]
    exact ⟨rfl, rfl⟩
  case request hTurn => cases hTurn <;> exact ⟨rfl, rfl⟩
  case callback hCount _ => omega

/-! ## Executions -/

/-- The turns with which a mode terminates safely. -/
def Covered (cfg : Config n) (g : World n) (rank : Fin n) (event : Event n) : Prop :=
  if cfg.termTree then ContributesLast g rank event else PassesCovered g rank event

instance (cfg : Config n) (g : World n) (rank : Fin n) (event : Event n) :
    Decidable (Covered cfg g rank event) :=
  inferInstanceAs (Decidable (ite _ _ _))

theorem Covered.contributesLast {g : World n} {event : Event n}
    (h : Covered cfg g rank event) (hTree : cfg.termTree = true) : ContributesLast g rank event := by
  simpa [Covered, hTree] using h

theorem Covered.passesCovered {g : World n} {event : Event n} (h : Covered cfg g rank event)
    (hRing : cfg.termTree = false) : PassesCovered g rank event := by
  simpa [Covered, hRing] using h

theorem Covered.noAbort {g : World n} {event : Event n} (h : Covered cfg g rank event) :
    event ≠ .tick .raiseAbort := by
  cases hMode : cfg.termTree with
  | true => exact (h.contributesLast hMode).noAbort
  | false => exact (h.passesCovered hMode).noAbort

/-- What it means that every item is processed once. -/
structure ProcessesOnce (cfg : Config n) (g : World n) : Prop where
  /-- As soon as a rank has left the main loop, the items taken out are those ever
  put in, each as often. -/
  once : ∀ r, (g r).state.cleanup = true →
    ∑ q, ((g q).state.work.dequeued : Multiset Item) =
      ∑ q, ((g q).state.work.enqueued : Multiset Item)
  /-- Nothing is put in or taken out later. -/
  final : ∀ r, (g r).state.cleanup = true → ∀ events g',
    FifoNet.run (mainLoop cfg) g events = some g' → ∀ q,
      (g' q).state.work.enqueued = (g q).state.work.enqueued ∧
        (g' q).state.work.dequeued = (g q).state.work.dequeued
  /-- At the end no rank writes a checkpoint. -/
  done : Finished g → ∀ r, (g r).state.pc = .done

section Results

variable {ok : World n → Fin n → Event n → Prop} {g : World n}

/-- Without an abort no rank sees the flag in `abortReduce`. -/
theorem Execution.denies (h : Execution cfg ok g)
    (hOk : ∀ g rank event, ok g rank event → event ≠ .tick .raiseAbort) :
    ∀ r, Unanimous false (g r).state (g r).sent := by
  refine FifoNet.Reachable.invariant
    (I := fun g => ∀ r, Unanimous false (g r).state (g r).sent) ?_ ?_ h
  · rintro states ⟨start, hStates⟩ r
    show Unanimous false (states r) _
    rw [hStates r]
    exact unanimous_of_early rfl fun _ => rfl
  · intro g rank event input state out hReach hAll _ _ hFires
    have hReach : Execution cfg ok g := hReach
    exact unanimous_fires hAll hFires (hReach.calm hOk rank).flag

/-- When a rank has left the main loop, all ranks are idle. -/
theorem Execution.idle_of_cleanup (h : Execution cfg (Covered cfg) g) {r : Fin n}
    (hCleanup : (g r).state.cleanup = true) (other : Fin n) : Idle g other := by
  cases hMode : cfg.termTree with
  | true =>
      have hReach : Execution cfg ContributesLast g :=
        h.weaken fun _ _ _ hOk => hOk.contributesLast hMode
      have hClosed := (h.termInv r).closed_eq
      simp only [hMode, hCleanup, Bool.true_and, if_true] at hClosed
      exact idle_of_settled h
        (fun q => hReach.settled q (h.up_of_closed (r := r) (by omega) q)) other
  | false =>
      have hReach : Execution cfg PassesCovered g :=
        h.weaken fun _ _ _ hOk => hOk.passesCovered hMode
      exact hReach.ringInv.ended r (Or.inl (h.terminate_of_cleanup hMode r hCleanup)) other

/-- Where all ranks are idle, no item is queued or under way. -/
theorem Execution.balance_of_idle (h : Execution cfg ok g) (hAll : ∀ r, Idle g r) :
    ∑ q, ((g q).state.work.dequeued : Multiset Item) =
      ∑ q, ((g q).state.work.enqueued : Multiset Item) := by
  have hQueues (r : Fin n) : ((g r).state.work.queue.items : Multiset Item) = 0 := by
    have hLength := (h.workInv r).stock.inv.length_items
    rw [(hAll r).empty, List.length_eq_zero_iff] at hLength
    rw [hLength]
    rfl
  have hTransit (src dst : Fin n) : (inTransit g src dst : Multiset Item) = 0 := by
    have hWaiting : (g dst).state.work.waiting src = none := by
      simp [Work.waiting, (hAll dst).whole]
    rw [inTransit, hWaiting, read_of_refuses ((hAll dst).refused src)]
    rfl
  rw [h.balance]
  simp only [hQueues, hTransit, Finset.sum_const_zero, add_zero]

/-- Where all ranks are idle, callbacks put in and take out nothing any more. -/
theorem processed_run {g' : World n} {events : List (Fin n × Event n)}
    (hReach : Execution cfg FifoNet.always g) (hAll : ∀ r, Idle g r)
    (hRun : FifoNet.run (mainLoop cfg) g events = some g') (q : Fin n) :
    (g' q).state.work.enqueued = (g q).state.work.enqueued ∧
      (g' q).state.work.dequeued = (g q).state.work.dequeued := by
  induction events generalizing g with
  | nil =>
      cases hRun
      exact ⟨rfl, rfl⟩
  | cons first rest ih =>
      obtain ⟨next, hStep, hRest⟩ := Option.bind_eq_some_iff.mp hRun
      obtain ⟨input, state, out, -, hFires, rfl⟩ := FifoNet.step_cases hStep
      obtain ⟨hPut, hTaken⟩ := ih (hReach.fires hFires) (idle_step hReach hAll hFires) hRest
      rw [hPut, hTaken]
      by_cases hSelf : q = first.1
      · subst hSelf
        rw [FifoNet.set_self, FifoNet.Node.after_state]
        exact (workStep_of_mainStep (mainStep_of_mainLoop hFires.acts)).processed_of_empty
          (hAll first.1).empty
      · rw [FifoNet.set_of_ne _ _ hSelf]
        exact ⟨rfl, rfl⟩

/-- In an execution that terminates safely, every item is processed once. -/
theorem Execution.processesOnce (h : Execution cfg (Covered cfg) g) : ProcessesOnce cfg g where
  once := fun _ hCleanup => h.balance_of_idle (h.idle_of_cleanup hCleanup)
  final := fun _ hCleanup _ _ hRun =>
    processed_run h.unconstrained (h.idle_of_cleanup hCleanup) hRun
  done := fun hDone r =>
    (hDone r).resolve_left (h.denies (fun _ _ _ hOk => hOk.noAbort) r).result

end Results

/-- In a ring, the two items of rank 0 are processed by one rank each. -/
theorem processesOnce_pairWorld : ∃ g,
    FifoNet.runWhile (mainLoop (pairConfig false false)) (Covered (pairConfig false false))
      pairWorld settledTurns = some g ∧ Finished g ∧
    (g 0).state.work.dequeued = [[1]] ∧ (g 1).state.work.dequeued = [[2]] ∧
    ProcessesOnce (pairConfig false false) g := by
  have hEnd : (FifoNet.runWhile (mainLoop (pairConfig false false))
      (Covered (pairConfig false false)) pairWorld settledTurns).map (fun g =>
        ((g 0).state.pc, (g 1).state.pc, (g 0).state.work.dequeued,
          (g 1).state.work.dequeued)) = some (.done, .done, [[1]], [[2]]) := by
    decide +kernel
  obtain ⟨g, hRun, hAll⟩ := Option.map_eq_some_iff.mp hEnd
  simp only [Prod.mk.injEq] at hAll
  obtain ⟨hFirst, hSecond, hOwn, hGiven⟩ := hAll
  exact ⟨g, hRun, Fin.forall_fin_two.mpr ⟨Or.inr hFirst, Or.inr hSecond⟩, hOwn, hGiven,
    Execution.processesOnce (FifoNet.Reachable.runWhile (execution_pairWorld _ _) hRun)⟩

end Circle
