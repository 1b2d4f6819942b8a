import Circle.Protocol.Drained

/-!
# The end of an execution

Once a rank has left the barrier all ranks can leave it.  From then on nothing
can keep them from returning: there are only so many turns left, and as long as a
rank has not returned one of them can be taken, in whatever order the turns
come.
-/

namespace Circle

open FifoNet (Log inFlight)

variable {n : Nat} {cfg : Config n} {rank : Fin n} {input : Input n} {s s' : State n}
  {out : Option (Packet n)} {g g' : World n}

/-! ## What is left -/

/-- How many turns a rank that has left the barrier has still to take at most. -/
def State.lateLeft (cfg : Config n) (rank : Fin n) (s : State n) : Nat :=
  s.syncLeft cfg rank + s.abortStage.turnsLeft (cfg.tree.children rank).length

/-- How many turns all ranks have still to take at most. -/
def lateLeft (cfg : Config n) (g : World n) : Nat := ∑ r, (g r).state.lateLeft cfg r

theorem syncLeft_of_late (hLate : s.pc.early = false) : s.syncLeft cfg rank = 0 := by
  rw [State.syncLeft, if_neg]
  rintro hPc
  rw [hPc] at hLate
  cases hLate

/-- A turn of `abortReduce` is all that a rank takes in it, except that its flag
can be set. -/
theorem abortTurn_of_mainLoop (hPc : s.pc = .abortReduce) (hInput : input ≠ .tick .raiseAbort)
    (hActs : mainLoop cfg rank input s = some (s', out)) :
    ∃ turn, AbortReduceTurn (cfg.links rank) s.abortReduce input turn ∧ s'.abortStage = turn.abortStage ∧
      s'.pc.early = false := by
  have hStep := mainStep_of_mainLoop hActs
  cases hStep
  case raise hRaise => exact (hInput hRaise).elim
  case abortReduce turn hPc hTurn hResult =>
    exact ⟨turn, abortReduceTurn_of_eq hTurn, by simp [State.abortStage, Turn.abortStage, hResult],
      rfl⟩
  case leaveAbortReduce turn flag hPc hTurn hResult =>
    refine ⟨turn, abortReduceTurn_of_eq hTurn, ?_, ?_⟩
    · cases flag <;> simp [State.abortStage, Turn.abortStage, hResult]
    · cases flag <;> rfl
  all_goals simp_all

/-- Each turn of a rank that has left the barrier leaves less to do. -/
theorem Execution.lateLeft_lt (h : Execution cfg FifoNet.always g)
    (hFires : FifoNet.Fires (mainLoop cfg) g rank input s' out)
    (hLeft : (g rank).state.pc.leftBarrier = true) (hInput : input ≠ .tick .raiseAbort) :
    s'.lateLeft cfg rank < (g rank).state.lateLeft cfg rank := by
  have hActs := hFires.acts
  cases hPc : (g rank).state.pc <;> rw [hPc] at hLeft <;> try cases hLeft
  case reduceSync =>
    have hLess := h.syncLeft_lt hFires hPc hInput
    have hBefore : (g rank).state.abortStage = .before := by simp [State.abortStage, hPc]
    have hMain := abortMainStep_of_mainStep (mainStep_of_mainLoop hActs)
    have hStage : s'.abortStage.turnsLeft (cfg.tree.children rank).length ≤
        (g rank).state.abortStage.turnsLeft (cfg.tree.children rank).length := by
      rw [hBefore]
      generalize s'.abortStage = stage at hMain
      cases hMain
      case other => rw [hBefore]
      case enter =>
        simp only [AbortReduce.enter, AbortStage.turnsLeft, Config.childrenRanks_links]
        omega
      case turn hStage _ =>
        rw [hBefore] at hStage
        cases hStage
    unfold State.lateLeft
    omega
  case abortReduce =>
    obtain ⟨turn, hTurn, hStage, hLate⟩ := abortTurn_of_mainLoop hPc hInput hActs
    have hInside : (g rank).state.abortStage = .inside (g rank).state.abortReduce := by
      simp [State.abortStage, hPc]
    have hLess := turnsLeft_turn hTurn
    rw [Config.childrenRanks_links] at hLess
    rw [State.lateLeft, State.lateLeft, syncLeft_of_late hLate, hStage, hInside]
    omega
  case checkpoint | done =>
    -- only the flag can be set
    have hStep := mainStep_of_mainLoop hActs
    cases hStep
    case raise hRaise => exact (hInput hRaise).elim
    all_goals simp_all

/-- Turns that set no flag. -/
def Unraised (events : List (Fin n × Event n)) : Prop :=
  ∀ event ∈ events, event.2 ≠ .tick .raiseAbort

/-- A run after the barrier takes as many turns as it leaves fewer. -/
theorem Execution.lateLeft_run {events : List (Fin n × Event n)} (hUnraised : Unraised events)
    (h : Execution cfg FifoNet.always g) (hLeft : ∀ r, (g r).state.pc.leftBarrier = true)
    (hRun : FifoNet.run (mainLoop cfg) g events = some g') :
    events.length + lateLeft cfg g' ≤ lateLeft cfg g := by
  induction events generalizing g with
  | nil =>
      cases hRun
      simp
  | cons first rest ih =>
      obtain ⟨next, hNext, hRest⟩ := Option.bind_eq_some_iff.mp hRun
      have hReach : Execution cfg FifoNet.always next := h.step trivial hNext
      obtain ⟨input, s', out, hEvent, hFires, rfl⟩ := FifoNet.step_cases hNext
      have hInput : input ≠ .tick .raiseAbort := by
        rintro rfl
        exact hUnraised first List.mem_cons_self (FifoNet.event_of_input_tick hEvent)
      have hLess := h.lateLeft_lt hFires (hLeft first.1) hInput
      have hOthers := (alone_of_fires hFires).others
      have hSum : lateLeft cfg (FifoNet.set g first.1 ((g first.1).after input s' out)) <
          lateLeft cfg g := by
        refine FifoNet.sum_lt_of_others (f := fun r node => node.state.lateLeft cfg r) hOthers ?_
        rwa [FifoNet.set_self, FifoNet.Node.after_state]
      have hLater : ∀ r, (FifoNet.set g first.1 ((g first.1).after input s' out) r).state.pc.leftBarrier
          = true := by
        intro r
        by_cases hSelf : r = first.1
        · subst hSelf
          rw [FifoNet.set_self, FifoNet.Node.after_state]
          exact leftBarrier_of_fires h hFires (hLeft first.1)
        · rw [hOthers r hSelf]
          exact hLeft r
      have hTail := ih (fun event hMem => hUnraised event (List.mem_cons_of_mem _ hMem)) hReach
        hLater hRest
      rw [List.length_cons]
      omega

/-! ## A turn that can be taken -/

/-- A rank in `abortReduce`, seen as one that has called it with a flag. -/
def State.abortRank (entry : Bool) (s : State n) : AbortRank n :=
  match s.abortStage with
  | .after flag => ⟨entry, flag, flag, .after flag⟩
  | stage => ⟨entry, entry, false, stage⟩

@[simp] theorem abortRank_stage (entry : Bool) (s : State n) :
    (s.abortRank entry).stage = s.abortStage := by
  unfold State.abortRank
  cases s.abortStage <;> rfl

@[simp] theorem abortRank_entry (entry : Bool) (s : State n) :
    (s.abortRank entry).entry = entry := by
  unfold State.abortRank
  cases s.abortStage <;> rfl

/-- While a rank is in `abortReduce`, somebody has a turn of it. -/
theorem Execution.exists_abortTurn (h : Execution cfg FifoNet.always g) (hLate : Late g)
    (hNot : ¬ Finished g) : ∃ r input s' out, input ≠ .tick .raiseAbort ∧
      FifoNet.Fires (mainLoop cfg) g r input s' out := by
  choose entry hInv using h.abortMainInv
  -- the same system, of ranks that only know `abortReduce`
  let calls : AbortWorld n := fun r =>
    { state := (g r).state.abortRank (entry r), sent := (g r).sent, rcvd := (g r).rcvd }
  have hCalls (r : Fin n) :
      AbortRankInv cfg r (calls r).state (calls r).sent (calls r).rcvd := by
    refine ⟨?_, ?_, ?_⟩
    · rw [abortRank_entry, abortRank_stage]
      exact hInv r
    · intro hStays
      rw [abortRank_entry]
      rw [abortRank_stage] at hStays
      show ((g r).state.abortRank (entry r)).abortFlag = entry r
      unfold State.abortRank
      cases hStage : (g r).state.abortStage with
      | after flag => exact (hStays flag hStage).elim
      | _ => rfl
    · intro flag hAfter
      rw [abortRank_stage] at hAfter
      show ((g r).state.abortRank (entry r)).abortFlag = flag ∧
        ((g r).state.abortRank (entry r)).abortState = flag
      unfold State.abortRank
      rw [hAfter]
      exact ⟨rfl, rfl⟩
  have hFifo : FifoNet.Fifo calls := h.fifo
  -- some rank has not left `abortReduce`, or all of them would be finished
  obtain ⟨r, hr⟩ : ∃ r, ∀ flag, (calls r).state.stage ≠ .after flag := by
    by_contra hAll
    push Not at hAll
    refine hNot fun r => ?_
    obtain ⟨flag, hAfter⟩ := hAll r
    rw [abortRank_stage] at hAfter
    unfold State.abortStage at hAfter
    split at hAfter
    next => cases hAfter
    next hPc => exact Or.inl hPc
    next hPc => exact Or.inr hPc
    next => cases hAfter
  obtain ⟨other, input, state, out, hFires, -⟩ := exists_canMove hCalls hFifo hr
  -- a turn of that system is a turn of this one
  have hActs := hFires.acts
  have hAdmits : FifoNet.Admits g other (abortInput input) := by
    have hOwn := hFires.admits
    cases input with
    | tick choice => exact True.intro
    | recv src tag msg => exact hOwn
    | synced dst tag => exact hOwn
  have hInput : abortInput input ≠ .tick .raiseAbort := by
    cases input <;> simp [abortInput]
  have hPc := hLate other
  unfold abortLoop at hActs
  rw [show (calls other).state.stage = (g other).state.abortStage from abortRank_stage _ _] at hActs
  cases hState : (g other).state.pc <;> rw [hState] at hPc <;> try cases hPc
  case abortReduce =>
    rw [show (g other).state.abortStage = .inside (g other).state.abortReduce by
      simp [State.abortStage, hState]] at hActs
    obtain ⟨turn, hTurn, -⟩ := Option.map_eq_some_iff.mp hActs
    obtain ⟨acts, hMain⟩ : ∃ acts, mainLoop cfg other (abortInput input) (g other).state =
        some acts := by
      simp [mainLoop, hState, hTurn]
    exact ⟨other, abortInput input, acts.1, acts.2, hInput, hAdmits, hMain⟩
  case checkpoint => simp [State.abortStage, hState] at hActs
  case done => simp [State.abortStage, hState] at hActs

/-! ## All ranks return -/

/-- The turns of a rank are bounded by its children. -/
theorem Execution.lateLeft_le (h : Execution cfg FifoNet.always g) (r : Fin n) :
    (g r).state.lateLeft cfg r ≤ 4 * (cfg.tree.children r).length + 7 := by
  have hSync : (g r).state.syncLeft cfg r ≤ 2 * (cfg.tree.children r).length + 3 := by
    have hFits := (h.reduceShape r (h.running r)).fits
    unfold State.syncLeft
    split
    · unfold Reduce.Fits at hFits
      unfold Reduce.syncLeft
      cases hPhase : (g r).state.reduce.phase <;> rw [hPhase] at hFits <;> dsimp only <;> try omega
      case syncChildren rest =>
        have hLength := hFits.2.length_le
        omega
      case syncData child bytes rest =>
        have hLength := hFits.2.length_le
        rw [List.length_cons] at hLength
        omega
    · omega
  have hAbort : (g r).state.abortStage.turnsLeft (cfg.tree.children r).length ≤
      2 * (cfg.tree.children r).length + 4 := by
    obtain ⟨entry, hInv⟩ := h.abortMainInv r
    have hWaiting := (List.subperm_of_subset hInv.waiting_nodup hInv.waiting_sub).length_le
    have hTodo := (List.subperm_of_subset hInv.todo_nodup hInv.todo_sub).length_le
    generalize (g r).state.abortStage = stage at hWaiting hTodo ⊢
    match stage with
    | .before => exact Nat.le_refl _
    | .inside ⟨_, .children rest⟩ =>
        rw [AbortStage.waiting] at hWaiting
        rw [AbortStage.turnsLeft]
        omega
    | .inside ⟨_, .parent⟩ =>
        rw [AbortStage.turnsLeft]
        omega
    | .inside ⟨_, .down rest⟩ =>
        rw [AbortStage.todo] at hTodo
        rw [AbortStage.turnsLeft]
        omega
    | .after flag =>
        rw [AbortStage.turnsLeft]
        omega
  rw [State.lateLeft]
  omega

/-- Every rank but the root is a child once. -/
theorem Execution.sum_lateLeft_le (h : Execution cfg FifoNet.always g) :
    lateLeft cfg g + 4 ≤ 11 * n := by
  have hChildren : 1 + ∑ r, (cfg.tree.children r).length = n := by
    simpa using cfg.tree.sum_children (fun _ => 1 : Fin n → Nat)
  calc lateLeft cfg g + 4
      ≤ ∑ r, (4 * (cfg.tree.children r).length + 7) + 4 :=
        Nat.add_le_add_right (Finset.sum_le_sum fun r _ => h.lateLeft_le r) 4
    _ = 4 * ∑ r, (cfg.tree.children r).length + 7 * n + 4 := by
        rw [Finset.sum_add_distrib, ← Finset.mul_sum, Finset.sum_const, Finset.card_univ,
          Fintype.card_fin, smul_eq_mul, Nat.mul_comm n 7]
    _ = 11 * n := by omega

/-- As long as a rank has not returned, a rank has a turn. -/
theorem Execution.exists_lateTurn (h : Execution cfg FifoNet.always g)
    (hLeft : ∀ r, (g r).state.pc.leftBarrier = true) (hNot : ¬ Finished g) :
    ∃ r input s' out, input ≠ .tick .raiseAbort ∧
      FifoNet.Fires (mainLoop cfg) g r input s' out := by
  by_cases hLate : Late g
  · exact h.exists_abortTurn hLate hNot
  · unfold Late at hLate
    push Not at hLate
    simp only [Bool.not_eq_false] at hLate
    obtain ⟨early, hEarly⟩ := hLate
    have hEnabled : cfg.reduceEnabled = true := by
      have hFits := (h.control early).fits
      rw [State.Fits, h.reduceSync_of_left (hLeft early) hEarly] at hFits
      exact hFits.2
    -- the lowest rank in `reduceSync`: its children have reported
    obtain ⟨r, hr, hLowest⟩ :=
      cfg.tree.exists_lowest (P := fun r => (g r).state.pc.early = true) hEarly
    obtain ⟨input, s', out, hInput, hFires⟩ := h.exists_syncTurn hEnabled
      (h.reduceSync_of_left (hLeft r) hr) fun c hMem => by
        rw [← Bool.not_eq_true]
        exact hLowest c hMem
    exact ⟨r, input, s', out, hInput, hFires⟩

theorem Execution.left_run {events : List (Fin n × Event n)}
    (h : Execution cfg FifoNet.always g) (hLeft : ∀ r, (g r).state.pc.leftBarrier = true)
    (hRun : FifoNet.run (mainLoop cfg) g events = some g') :
    ∀ r, (g' r).state.pc.leftBarrier = true := by
  have hI : FifoNet.Keeps (mainLoop cfg) (Execution cfg FifoNet.always)
      (Execution cfg FifoNet.always) := fun g i input s' out hReach _ hFires => hReach.fires hFires
  intro r
  have hQ : FifoNet.Keeps (mainLoop cfg) (Execution cfg FifoNet.always)
      (fun g => (g r).state.pc.leftBarrier = true) := by
    intro g i input s' out hReach hLeft hFires
    by_cases hSelf : r = i
    · subst hSelf
      rw [FifoNet.set_self, FifoNet.Node.after_state]
      exact leftBarrier_of_fires hReach hFires hLeft
    · rwa [FifoNet.set_of_ne _ _ hSelf]
  exact (hI.leads hQ h (hLeft r) ⟨events, hRun⟩).2

/-- Once a rank has left the barrier, some run takes all ranks out of `mainLoop`. -/
theorem Execution.exists_finished (h : Execution cfg FifoNet.always g) {q : Fin n}
    (hLeft : (g q).state.pc.leftBarrier = true) :
    FifoNet.CanReach (mainLoop cfg) g Finished := by
  obtain ⟨next, hNext, hAll⟩ := h.all_leave hLeft
  have hStep (g : World n)
      (hg : Execution cfg FifoNet.always g ∧ ∀ r, (g r).state.pc.leftBarrier = true)
      (hNot : ¬ Finished g) : ∃ g', FifoNet.Leads (mainLoop cfg) g g' ∧
        (Execution cfg FifoNet.always g' ∧ ∀ r, (g' r).state.pc.leftBarrier = true) ∧
        lateLeft cfg g' < lateLeft cfg g := by
    obtain ⟨hReach, hAll⟩ := hg
    obtain ⟨r, input, s', out, hInput, hFires⟩ := hReach.exists_lateTurn hAll hNot
    have hState : (FifoNet.set g r ((g r).after input s' out) r).state = s' := by
      rw [FifoNet.set_self, FifoNet.Node.after_state]
    obtain ⟨events, hRun⟩ := hFires.leads
    refine ⟨_, ⟨events, hRun⟩, ⟨hReach.fires hFires, hReach.left_run hAll hRun⟩, ?_⟩
    refine FifoNet.sum_lt_of_others (f := fun r node => node.state.lateLeft cfg r)
      (alone_of_fires hFires).others ?_
    rw [hState]
    exact hReach.lateLeft_lt hFires (hAll r) hInput
  obtain ⟨g', hLeads, -, hEnd⟩ := FifoNet.exists_leads (lateLeft cfg) hStep
    ⟨FifoNet.Reachable.leads h hNext, hAll⟩
  exact ⟨g', hNext.trans hLeads, hEnd⟩

/-- The last part of an execution comes to its end. -/
structure Completes (cfg : Config n) (g : World n) : Prop where
  /-- When a rank has left the barrier, all ranks can return. -/
  canReturn : ∀ r, (g r).state.pc.leftBarrier = true →
    FifoNet.CanReach (mainLoop cfg) g Finished
  /-- When all ranks have left it, they do, whatever the order of their turns: a
  run that only leaves the flags alone is short, and it can be continued until
  all ranks have returned. -/
  returns : (∀ r, (g r).state.pc.leftBarrier = true) →
    ∀ events g', Unraised events → FifoNet.run (mainLoop cfg) g events = some g' →
      events.length + 4 ≤ 11 * n ∧
        (Finished g' ∨ ∃ event : Fin n × Event n, ∃ g'', event.2 ≠ .tick .raiseAbort ∧
          FifoNet.step (mainLoop cfg) g' event.1 event.2 = some g'')

theorem Execution.completes (h : Execution cfg FifoNet.always g) : Completes cfg g where
  canReturn := fun _ hLeft => h.exists_finished hLeft
  returns := by
    intro hAll events g' hUnraised hRun
    have hReach : Execution cfg FifoNet.always g' := FifoNet.Reachable.run h hRun
    refine ⟨?_, ?_⟩
    · have hTurns := h.lateLeft_run hUnraised hAll hRun
      have hBound := h.sum_lateLeft_le
      omega
    · by_cases hEnd : Finished g'
      · exact Or.inl hEnd
      · obtain ⟨r, input, s', out, hInput, hFires⟩ :=
          hReach.exists_lateTurn (h.left_run hAll hRun) hEnd
        obtain ⟨event, hEvent, hStep⟩ := hFires.exists_event
        refine Or.inr ⟨(r, event), _, fun hRaise => ?_, hStep⟩
        rw [show event = .tick .raiseAbort from hRaise] at hEvent
        exact hInput (Option.some.inj hEvent).symm

/-- Two ranks leave the barrier, and return. -/
theorem completes_pairWorld : ∃ g,
    FifoNet.run (mainLoop addConfig) pairWorld
      (List.flatten [vainTurns, terminatingTurns, leavingTurns]) = some g ∧
    (∀ r, (g r).state.pc = .reduceSync) ∧ Completes addConfig g := by
  have hEnd : (FifoNet.run (mainLoop addConfig) pairWorld
      (List.flatten [vainTurns, terminatingTurns, leavingTurns])).map (fun g =>
        ((g 0).state.pc, (g 1).state.pc)) = some (.reduceSync, .reduceSync) := by
    decide +kernel
  obtain ⟨g, hRun, hPcs⟩ := Option.map_eq_some_iff.mp hEnd
  simp only [Prod.mk.injEq] at hPcs
  refine ⟨g, hRun, Fin.forall_fin_two.mpr hPcs, Execution.completes ?_⟩
  exact FifoNet.Reachable.run (execution_pairWorld _ _) hRun

end Circle
