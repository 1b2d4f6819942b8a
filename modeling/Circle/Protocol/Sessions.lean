import Circle.Base.Repeat
import Circle.Execute
import Circle.Protocol.Unanimity

/-!
# Several executions

A program calls `execute` again and again.  A rank that has left `mainLoop` goes
on at once: it does not know whether the other ranks have left it, and the
messages of the next execution use the same communicator and the same tags.

Each execution is one of its own all the same, where ranks leave the main loop
with their transfers settled, as they do in tree mode.
-/

namespace Circle

open FifoNet (Log inFlight)

variable {n : Nat} {cfg : Config n} {rank : Fin n} {input : Input n} {s s' : State n}
  {out : Option (Packet n)} {ok : World n → Fin n → Event n → Prop} {g : World n}

/-! ## What a call of `execute` starts with -/

/-- The state of a rank that has just been constructed. -/
def Constructed (rank : Fin n) (s : State n) : Prop := ∃ start : Start rank, s = start.state

theorem begins_constructed : FifoNet.Begins (Constructed (n := n)) = Initial := by
  funext states
  rw [FifoNet.Begins, Initial, eq_iff_iff]
  exact Classical.skolem

theorem Queue.Stocked.performAll {q q' : Queue} (h : q.Stocked) {page : PageSize}
    {ops : List QueueOp} {results : List QueueResult}
    (hRun : q.performAll page ops = some (results, q')) : q'.Stocked := by
  obtain ⟨items, hHolds, hSized⟩ := h
  obtain ⟨items', hHolds', hSized', -⟩ := hHolds.performAll_accounts hSized hRun
  exact ⟨items', hHolds', hSized'⟩

theorem CircleImpl.stocked_perform {page : PageSize} {impl impl' : CircleImpl} {call : ProgramCall}
    (h : impl.queue.Stocked) (hRun : impl.perform page call = some impl') :
    impl'.queue.Stocked := by
  cases call with
  | queue op =>
      obtain ⟨⟨result, queue⟩, hOp, rfl⟩ := Option.map_eq_some_iff.mp hRun
      have hAll : impl.queue.performAll page [op] = some ([result], queue) := by
        simp [Queue.performAll, hOp]
      exact h.performAll hAll
  | reduce buf =>
      cases hRun
      exact h
  | checkpoint ops =>
      obtain ⟨⟨rc, file, queue⟩, hWrite, rfl⟩ := Option.map_eq_some_iff.mp hRun
      exact h.write hWrite
  | readRestarts =>
      obtain ⟨⟨rc, queue⟩, hRead, rfl⟩ := Option.map_eq_some_iff.mp hRun
      exact h.read hRead

theorem CircleImpl.stocked_performAll {page : PageSize} {calls : List ProgramCall} :
    ∀ {impl impl' : CircleImpl}, impl.queue.Stocked → impl.performAll page calls = some impl' →
      impl'.queue.Stocked := by
  induction calls with
  | nil =>
      intro impl impl' h hRun
      cases hRun
      exact h
  | cons call rest ih =>
      intro impl impl' h hRun
      obtain ⟨next, hFirst, hRest⟩ := Option.bind_eq_some_iff.mp hRun
      exact ih (stocked_perform h hFirst) hRest

theorem ne_of_picks {next : Option (Fin n)} (h : picks rank next = true) (peer : Fin n)
    (hNext : next = some peer) : peer ≠ rank := by
  subst hNext
  simpa [picks] using h

theorem eq_one_of_picks {next : Option (Fin n)} (h : picks rank next = true)
    (hNext : next = none) : n = 1 := by
  subst hNext
  simpa [picks] using h

/-- What `execute` hands to `mainLoop` is a state as executions start with. -/
theorem CircleImpl.constructed_execute {impl : CircleImpl} {createGlobal : Bool}
    {call : ExecuteCall n} (h : impl.queue.Stocked)
    (hRun : impl.execute cfg createGlobal rank call = some s) : Constructed rank s := by
  obtain ⟨items, hHolds, hSized⟩ := h
  obtain ⟨fresh, hFresh, hCreate⟩ := Option.bind_eq_some_iff.mp hRun
  unfold State.construct at hFresh
  split at hFresh
  next hFits =>
    obtain ⟨hOffsets, hPicks⟩ := hFits
    have hItems := hHolds.items_eq
    cases hFresh
    split at hCreate
    next =>
      obtain ⟨work, hProcess, rfl⟩ := Option.map_eq_some_iff.mp hCreate
      obtain ⟨⟨results, queue⟩, hAll, rfl⟩ := Option.map_eq_some_iff.mp hProcess
      obtain ⟨items', hHolds', hSized', hBalance⟩ := hHolds.performAll_accounts hSized hAll
      refine ⟨{
        queue := queue
        items := items'
        holds := hHolds'
        sized := hSized'
        enqueued := impl.queue.items ++ enqueuedBy call.create results
        dequeued := [] ++ dequeuedBy results
        balanced := ?_
        offsetsCount := impl.queue.strings.length
        offsets_le := hOffsets
        nextProcessor := call.next
        next_ne := ne_of_picks hPicks
        next_none := eq_one_of_picks hPicks
        reduceBuf := impl.reduceBuf }, rfl⟩
      rw [List.nil_append, ← Multiset.coe_eq_coe, ← Multiset.coe_add, ← Multiset.coe_add, hItems,
        hBalance, add_comm]
    next =>
      cases hCreate
      exact ⟨{
        queue := impl.queue
        items := items
        holds := hHolds
        sized := hSized
        enqueued := impl.queue.items
        dequeued := []
        balanced := by rw [hItems, List.nil_append]
        offsetsCount := impl.queue.strings.length
        offsets_le := hOffsets
        nextProcessor := call.next
        next_ne := ne_of_picks hPicks
        next_none := eq_one_of_picks hPicks
        reduceBuf := impl.reduceBuf }, rfl⟩
  next => cases hFresh

theorem CircleImpl.constructed_enter {impl : CircleImpl} {createGlobal : Bool}
    {call : ExecuteCall n} {file : File} (h : impl.queue.Stocked)
    (hRun : impl.enter cfg createGlobal rank call = some (s, file)) : Constructed rank s := by
  obtain ⟨next, hBefore, hExecute⟩ := Option.bind_eq_some_iff.mp hRun
  obtain ⟨s', hState, hEq⟩ := Option.map_eq_some_iff.mp hExecute
  cases hEq
  exact constructed_execute (stocked_performAll h hBefore) hState

/-- A rank that has returned from `mainLoop`. -/
def State.Left (s : State n) : Prop := s.pc = .checkpoint ∨ s.pc = .done

/-- A rank calls `execute` again when it has left `mainLoop`. -/
theorem constructed_executeAgain {createGlobal : Bool} {call : ExecuteCall n} {file file' : File}
    (h : s.work.queue.Stocked)
    (hRun : executeAgain cfg createGlobal rank call file s = some (s', file')) :
    s.Left ∧ Constructed rank s' := by
  obtain ⟨impl, hLeave, hEnter⟩ := Option.bind_eq_some_iff.mp hRun
  unfold State.leave at hLeave
  split at hLeave
  next hPc =>
    obtain ⟨⟨rc, file, queue⟩, hWrite, rfl⟩ := Option.map_eq_some_iff.mp hLeave
    exact ⟨Or.inl hPc, CircleImpl.constructed_enter (h.write hWrite) hEnter⟩
  next hPc =>
    cases hLeave
    exact ⟨Or.inr hPc, CircleImpl.constructed_enter h hEnter⟩
  next => cases hLeave

/-! ## Executions do not mix -/

/-- A rank that is about to leave the main loop has the receipts of all its
transfers; with a tree it always has. -/
def State.Settles (cfg : Config n) (rank : Fin n) (s : State n) : Prop :=
  cfg.termTree = false → s.terminates rank → s.work.workOutstanding = 0

/-- The executions of a program. -/
abbrev SettledExecution (cfg : Config n) : World n → Prop :=
  FifoNet.Reachable (mainLoop cfg) (FifoNet.Begins Constructed)
    (FifoNet.Allows (State.Settles cfg))

theorem settledExecution_iff :
    SettledExecution cfg g ↔ Execution cfg (FifoNet.Allows (State.Settles cfg)) g := by
  rw [SettledExecution, begins_constructed]

/-- Ranks that have terminated have nothing outstanding. -/
theorem Execution.outstanding_of_settles
    (h : Execution cfg (FifoNet.Allows (State.Settles cfg)) g) (r : Fin n)
    (hCleanup : (g r).state.cleanup = true) : (g r).state.work.workOutstanding = 0 := by
  cases hMode : cfg.termTree with
  | true => exact (h.retired r).outstanding (Or.inr ⟨hMode, hCleanup⟩)
  | false =>
      have hSettled : Execution cfg LeavesSettled g :=
        FifoNet.Reachable.weaken h fun g i event hOk => hOk hMode
      exact hSettled.outstanding_of_settled r hCleanup

/-- When a rank leaves `mainLoop`, all ranks have come to `abortReduce`. -/
theorem Execution.late_of_left (h : Execution cfg ok g) (hLeft : (g rank).state.Left) :
    Late g := by
  intro r
  rcases h.unconstrained.checkpointAgrees.entered rank hLeft r with hPc | hPc | hPc <;>
    rw [hPc] <;> rfl

/-- Nothing is under way to a rank that has left `mainLoop`. -/
theorem Execution.drained_of_left (h : Execution cfg (FifoNet.Allows (State.Settles cfg)) g)
    (hLeft : (g rank).state.Left) (src : Fin n) (tag : Tag) : inFlight g src rank tag = [] := by
  have hLate := h.late_of_left hLeft
  have hOutstanding := h.outstanding_of_settles rank (hLate.cleanup h rank)
  cases tag with
  | workRequest => exact (h.noRequest hLate src rank).request
  | workReply => exact (h.noRequest hLate rank src).reply
  | workReceipt => exact (h.receipts_drained_iff hLate rank).mpr hOutstanding src
  | token => exact h.token_drained hLate
  | reduce => exact h.reduce_drained hLate
  | barrier => exact h.barrier_drained hLate
  | term => exact h.term_drained hLate
  | abortRequest => exact (h.abort_drained hLate).1
  | abortReply => exact (h.abort_drained hLate).2
  | abortReduce =>
      rcases hLeft with hPc | hPc
      · have hAfter : (g rank).state.abortStage = .after true := by simp [State.abortStage, hPc]
        exact h.abortReduce_drained hAfter
      · have hAfter : (g rank).state.abortStage = .after false := by simp [State.abortStage, hPc]
        exact h.abortReduce_drained hAfter

/-- A rank says nothing in `abortReduce` before all have begun. -/
theorem Execution.abortReduce_unsent (h : Execution cfg ok g) {start : Start rank}
    (hNew : g rank = FifoNet.Node.new start.state) (src dst : Fin n) :
    (g src).sent dst .abortReduce = [] := by
  by_cases hEarly : (g src).state.pc.early = true
  · exact h.abortReduce_of_early hEarly dst
  · -- `src` has left the barrier, so `rank` has started it
    have hLeft : (g src).state.pc.leftBarrier = true := by
      revert hEarly
      cases (g src).state.pc <;> decide
    have hEntered := h.all_started hLeft rank
    rw [hNew] at hEntered
    rcases hEntered with hStarted | hUp
    · cases hStarted
    · exact (Nat.not_succ_le_zero _ hUp).elim

/-- Once a rank has left `mainLoop`, the others listen to `abortReduce` only. -/
theorem Late.deaf (hLate : Late g) {src : Fin n} {tag : Tag} {msg : Msg}
    (hTag : tag ≠ .abortReduce) :
    mainLoop cfg rank (.recv src tag msg) (g rank).state = none := by
  by_contra hSome
  obtain ⟨⟨s', out⟩, hActs⟩ := Option.ne_none_iff_exists'.mp hSome
  have hUnused : tag ∉ (g rank).state.pc.tags := by
    have hPc := hLate rank
    revert hPc
    cases (g rank).state.pc <;> simp [Pc.early, Pc.tags, hTag]
  exact ((mainStep_of_mainLoop hActs).silent hUnused).input src msg rfl

/-- The executions of a program keep apart. -/
theorem keepsRounds_mainLoop (cfg : Config n) (createGlobal : Bool) :
    FifoNet.KeepsRounds (mainLoop cfg) (executeAgain cfg createGlobal) Constructed
      (State.Settles cfg) State.Left where
  restarts := by
    intro g rank call file s file' hReach hAgain
    have hStock := ((settledExecution_iff.mp hReach).workInv rank).stock
    exact constructed_executeAgain ⟨_, hStock.inv.holds, hStock.sized⟩ hAgain
  begun := by
    rintro g rank other s hReach hLeft ⟨start, rfl⟩ hNew
    have hLate := (settledExecution_iff.mp hReach).late_of_left hLeft other
    rw [hNew] at hLate
    cases hLate
  drained := by
    intro g rank src tag hReach hLeft
    exact (settledExecution_iff.mp hReach).drained_of_left hLeft src tag
  deaf := by
    rintro g g' rank src s tag msg hReach hReach' hLeft ⟨start, rfl⟩ hNew hSent
    have h := settledExecution_iff.mp hReach
    by_cases hTag : tag = .abortReduce
    · subst hTag
      rw [(settledExecution_iff.mp hReach').abortReduce_unsent hNew src rank] at hSent
      cases hSent
    · exact (h.late_of_left hLeft).deaf hTag

/-- A rank that runs a program. -/
abbrev Session (n : Nat) := FifoNet.Repeated (State n) File

/-- Every rank has called `execute` for the first time. -/
def FirstCalls (cfg : Config n) (createGlobal : Bool) (states : Fin n → Session n) : Prop :=
  ∀ r, (states r).round = 0 ∧ ∃ file call,
    (CircleImpl.construct file).enter cfg createGlobal r call =
      some ((states r).state, (states r).kept)

/-- The systems that a program leads to which calls `execute` any number of
times. -/
abbrev Program (cfg : Config n) (createGlobal : Bool) :
    FifoNet.System (Fin n) Tag Msg (Session n) → Prop :=
  FifoNet.Reachable (FifoNet.again (mainLoop cfg) (executeAgain cfg createGlobal))
    (FirstCalls cfg createGlobal) (FifoNet.Allows fun rank s => s.state.Settles cfg rank)

/-- What it means that the executions of a program do not mix. -/
structure Separated (cfg : Config n) (createGlobal : Bool)
    (g : FifoNet.System (Fin n) Tag Msg (Session n)) (each : Nat → World n) : Prop where
  /-- There is an execution on channels of its own for each call, -/
  execution : ∀ k, Execution cfg (FifoNet.Allows (State.Settles cfg)) (each k)
  /-- every rank is in the one that it has got to, -/
  state : ∀ r, (each (g r).state.round r).state = (g r).state.state
  /-- has left those before, -/
  past : ∀ r k, k < (g r).state.round → (each k r).state.Left
  /-- and has not begun those after. -/
  future : ∀ r k, (g r).state.round < k →
    ∃ start : Start r, each k r = FifoNet.Node.new start.state
  /-- Ranks are in the same execution, or in one and the next. -/
  near : ∀ r other, (g r).state.round ≤ (g other).state.round + 1
  /-- A turn is one of the execution that the rank is in, with a message of that
  execution if it receives one; or it is the next call of `execute`. -/
  turn : ∀ r input s' out,
    FifoNet.Fires (FifoNet.again (mainLoop cfg) (executeAgain cfg createGlobal)) g r input s' out →
      (∃ input', input.part = .inl input' ∧
        FifoNet.Fires (mainLoop cfg) (each (g r).state.round) r input' s'.state out) ∨
      ∃ call, input = .tick (.inr call) ∧ (g r).state.state.Left ∧
        s'.round = (g r).state.round + 1
  /-- What a rank has sent and received is what it has in its executions. -/
  sent : ∀ r dst tag, (g r).sent dst tag =
    FifoNet.history (fun k => (each k r).sent dst tag) ((g r).state.round + 1)
  rcvd : ∀ r src tag, (g r).rcvd src tag =
    FifoNet.history (fun k => (each k r).rcvd src tag) ((g r).state.round + 1)

/-- No message of one call of `execute` interferes with the next one. -/
theorem Program.separated {createGlobal : Bool}
    {g : FifoNet.System (Fin n) Tag Msg (Session n)} (h : Program cfg createGlobal g) :
    ∃ each, Separated cfg createGlobal g each := by
  have hKeeps := keepsRounds_mainLoop cfg createGlobal
  obtain ⟨f, hSplits⟩ := h.splits hKeeps fun states hFirst r =>
    ⟨(hFirst r).1, by
      obtain ⟨file, call, hEnter⟩ := (hFirst r).2
      exact CircleImpl.constructed_enter Queue.stocked_fresh hEnter⟩
  choose rest hRest using hSplits.begins
  have hNow (r : Fin n) {k : Nat} (hk : k ≤ (g r).state.round) :
      FifoNet.during g f k rest r = f k r := FifoNet.during_of_le f rest hk
  refine ⟨fun k => FifoNet.during g f k rest, {
    execution := fun k => settledExecution_iff.mp (hSplits.reachable k rest hRest)
    state := fun r => by rw [hNow r (Nat.le_refl _), hSplits.current r]
    past := fun r k hk => by
      rw [hNow r hk.le]
      exact hSplits.ended r k hk
    future := fun r k hk => by
      obtain ⟨start, hStart⟩ := hRest r
      exact ⟨start, by rw [FifoNet.during_of_lt f rest hk, hStart]⟩
    near := hSplits.round_le hKeeps
    turn := ?_
    sent := fun r dst tag => by
      rw [hSplits.sent]
      exact FifoNet.history_congr fun k hk => by rw [hNow r (Nat.lt_succ_iff.mp hk)]
    rcvd := fun r src tag => by
      rw [hSplits.rcvd]
      exact FifoNet.history_congr fun k hk => by rw [hNow r (Nat.lt_succ_iff.mp hk)] }⟩
  intro r input s' out hFires
  rcases hSplits.fires_during hKeeps hRest hFires with
    ⟨input', hPart, -, hOwn⟩ | ⟨call, hInput, hRound, hLeft, -, -⟩
  · exact Or.inl ⟨input', hPart, hOwn⟩
  · exact Or.inr ⟨call, hInput, hLeft, hRound⟩

/-! ## Two ranks -/

/-- A call of `execute` on two ranks, without any work. -/
def emptyCall (rank : Fin 2) : ExecuteCall 2 where
  before := []
  next := some (rank + 1)
  create := []
  files := .succeed

def firstSession (rank : Fin 2) : Session 2 :=
  match (CircleImpl.construct none).enter addConfig false rank (emptyCall rank) with
  | some (s, file) => ⟨0, s, file⟩
  | none => ⟨0, (pairStart rank [] (by decide)).state, none⟩

theorem firstCalls_pair : FirstCalls addConfig false firstSession := by
  intro r
  have hEnter : ((CircleImpl.construct none).enter addConfig false r (emptyCall r)).isSome := by
    revert r
    decide +kernel
  obtain ⟨⟨s, file⟩, hSome⟩ := Option.isSome_iff_exists.mp hEnter
  unfold firstSession
  rw [hSome]
  exact ⟨rfl, none, emptyCall r, hSome⟩

/-- A turn in an execution. -/
def inMainLoop : Fin 2 × Event 2 → Fin 2 × FifoNet.Event (Fin 2) Tag (Choice 2 ⊕ ExecuteCall 2)
  | (rank, .tick choice) => (rank, .tick (.inl choice))
  | (rank, .recv src tag) => (rank, .recv src tag)
  | (rank, .synced dst tag) => (rank, .synced dst tag)

/-- Rank 0 leaves `abortReduce`, in which rank 1 still waits. -/
def leavingAbortReduce : List (Fin 2 × Event 2) :=
  goOn 1 1 ++ [(0, .recv 1 .abortReduce)] ++ goOn 0 3

/-- Rank 0 asks rank 1 for work. -/
def againTurns : List (Fin 2 × Event 2) :=
  idleTurns 0 ++ [(0, .tick (.time false)), (0, .tick (.next (some 1)))]

/-- Rank 0 calls `execute` again before rank 1 has left the first call. -/
def callingAgain : List (Fin 2 × FifoNet.Event (Fin 2) Tag (Choice 2 ⊕ ExecuteCall 2)) :=
  List.flatten [
    (vainTurns.drop 7 ++ terminatingTurns ++ leavingTurns ++ reducingTurns).map inMainLoop,
    leavingAbortReduce.map inMainLoop,
    [(0, .tick (.inr (emptyCall 0)))],
    againTurns.map inMainLoop]

theorem separated_pair : ∃ g,
    FifoNet.run (FifoNet.again (mainLoop addConfig) (executeAgain addConfig false))
      (FifoNet.fresh firstSession) callingAgain = some g ∧
    (g 0).state.round = 1 ∧ (g 1).state.round = 0 ∧ inFlight g 0 1 .workRequest = [.empty] ∧
    ∃ each, Separated addConfig false g each := by
  have hEnd : (FifoNet.run (FifoNet.again (mainLoop addConfig) (executeAgain addConfig false))
      (FifoNet.fresh firstSession) callingAgain).map (fun g =>
        ((g 0).state.round, (g 1).state.round, inFlight g 0 1 .workRequest)) =
          some (1, 0, [.empty]) := by
    decide +kernel
  obtain ⟨g, hRun, hAll⟩ := Option.map_eq_some_iff.mp hEnd
  simp only [Prod.mk.injEq] at hAll
  obtain ⟨hFirst, hSecond, hFlight⟩ := hAll
  have hReach := FifoNet.Reachable.run (FifoNet.Reachable.start firstCalls_pair) hRun
  refine ⟨g, hRun, hFirst, hSecond, hFlight, Program.separated (FifoNet.Reachable.weaken hReach ?_)⟩
  -- with a tree every turn is allowed
  intro g rank event _ hMode
  cases hMode

end Circle
