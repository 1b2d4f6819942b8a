import Circle.Protocol.Control

/-!
# The barrier

What a rank knows about its part of the barrier is that its members agree with
the counters of a wave on the tree (`BarrierInv`).  `barrierLoop` is a rank
that does nothing but call `barrierStart` and `barrierTest`, in any order and
any number of times.
-/

namespace Circle

open FifoNet (Log inFlight)

variable {n : Nat} {cfg : Config n} {rank : Fin n} {input : Input n}

/-- The numbers of messages exchanged with each peer. -/
abbrev counts (log : Log (Fin n) Tag Msg) (tag : Tag) (peer : Fin n) : Nat := (log peer tag).length

theorem counts_add (log : Log (Fin n) Tag Msg) (peer : Fin n) (tag : Tag) (msg : Msg) :
    counts (log.add peer tag msg) tag = Wave.bump (counts log tag) peer := by
  funext d
  exact log.length_add_same_tag peer tag msg d

/-- What a rank knows about its part of the barrier. -/
structure BarrierInv (cfg : Config n) (rank : Fin n) (b : Barrier n)
    (sent rcvd : Log (Fin n) Tag Msg) : Prop where
  wave : Wave.Inv cfg.tree rank b.wave (counts sent .barrier) (counts rcvd .barrier)
  up_eq : b.wave.up = b.wave.closed + if b.barrierUp then 1 else 0
  done_eq : b.wave.done = b.wave.closed + if b.phase = .down then 1 else 0
  /-- Nothing happens before the barrier is started. -/
  started : b.barrierUp = true ∨ b.phase ≠ .children → b.barrierStarted = true

/-- A rank that has not started a barrier. -/
def Barrier.initial : Barrier n where
  barrierStarted := false
  barrierUp := false
  wave := .zero
  phase := .children

theorem barrierInv_initial :
    BarrierInv cfg rank .initial (fun _ _ => []) (fun _ _ => []) where
  wave := Wave.inv_zero _ _
  up_eq := rfl
  done_eq := rfl
  started := by simp [Barrier.initial]

section Turns

variable {b : Barrier n} {sent rcvd : Log (Fin n) Tag Msg}

theorem BarrierInv.frame (h : BarrierInv cfg rank b sent rcvd) {sent' rcvd' : Log (Fin n) Tag Msg}
    (hSent : ∀ peer, sent' peer .barrier = sent peer .barrier)
    (hRcvd : ∀ peer, rcvd' peer .barrier = rcvd peer .barrier) :
    BarrierInv cfg rank b sent' rcvd' where
  wave := by
    have hSentEq : counts sent' .barrier = counts sent .barrier :=
      funext fun peer => congrArg List.length (hSent peer)
    have hRcvdEq : counts rcvd' .barrier = counts rcvd .barrier :=
      funext fun peer => congrArg List.length (hRcvd peer)
    rw [hSentEq, hRcvdEq]
    exact h.wave
  up_eq := h.up_eq
  done_eq := h.done_eq
  started := h.started

theorem BarrierInv.barrierStart (h : BarrierInv cfg rank b sent rcvd) :
    BarrierInv cfg rank b.barrierStart sent rcvd :=
  { h with started := fun _ => rfl }

/-- A message that a child may have sent is counted by a turn of `barrierTest`. -/
theorem BarrierInv.collect (h : BarrierInv cfg rank b sent rcvd) (hPhase : b.phase = .children)
    (hOpen : b.wave.replies < (cfg.tree.children rank).length) {src : Fin n}
    (hChild : src ∈ cfg.tree.children rank) (hFirst : (rcvd src .barrier).length = b.wave.closed)
    (hStarted : b.barrierStarted = true) (msg : Msg) :
    BarrierInv cfg rank
      { b with wave := { b.wave with replies := b.wave.replies + 1 }, phase := .up } sent
      (rcvd.add src .barrier msg) where
  wave := by
    rw [counts_add]
    exact h.wave.collect hChild hFirst hOpen
  up_eq := h.up_eq
  done_eq := by
    have hDone := h.done_eq
    rw [hPhase] at hDone
    exact hDone
  started := fun _ => hStarted

/-- The rank has the replies of all children, and contributes. -/
theorem BarrierInv.contribute (h : BarrierInv cfg rank b sent rcvd) (hPhase : b.phase = .up)
    (hUp : b.barrierUp = false) (hFull : b.wave.replies = (cfg.tree.children rank).length)
    {sent' : Log (Fin n) Tag Msg}
    (hParent : ∀ p, cfg.tree.parent rank = some p → counts sent' .barrier p = counts sent .barrier p + 1)
    (hOther : ∀ d, cfg.tree.parent rank ≠ some d → counts sent' .barrier d = counts sent .barrier d) :
    BarrierInv cfg rank
      { b with barrierUp := true, wave := { b.wave with up := b.wave.up + 1 }, phase := .parent }
      sent' rcvd where
  wave := by
    have hOpen := h.up_eq
    rw [hUp] at hOpen
    exact h.wave.contribute hOpen hFull hParent hOther
  up_eq := by
    have hOpen := h.up_eq
    rw [hUp] at hOpen
    exact congrArg (· + 1) hOpen
  done_eq := by
    have hDone := h.done_eq
    rw [hPhase] at hDone
    exact hDone
  started := fun _ => h.started (Or.inr (by simp [hPhase]))

/-- The rank learns that the barrier is complete. -/
theorem BarrierInv.learn (h : BarrierInv cfg rank b sent rcvd) (hPhase : b.phase = .parent)
    (hUp : b.barrierUp = true) {rcvd' : Log (Fin n) Tag Msg}
    (hParent : ∀ p, cfg.tree.parent rank = some p → counts rcvd' .barrier p = counts rcvd .barrier p + 1)
    (hOther : ∀ d, cfg.tree.parent rank ≠ some d → counts rcvd' .barrier d = counts rcvd .barrier d) :
    BarrierInv cfg rank
      { b with
        wave := { b.wave with done := b.wave.done + 1, todo := cfg.tree.children rank }
        phase := .down } sent rcvd' where
  wave := by
    have hOpen := h.up_eq
    have hDone := h.done_eq
    rw [hUp] at hOpen
    rw [hPhase] at hDone
    exact h.wave.learn hOpen hDone hParent hOther
  up_eq := h.up_eq
  done_eq := by
    have hDone := h.done_eq
    rw [hPhase] at hDone
    exact congrArg (· + 1) hDone
  started := fun _ => h.started (Or.inl hUp)

/-- The rank closes the barrier. -/
theorem BarrierInv.close (h : BarrierInv cfg rank b sent rcvd) (hPhase : b.phase = .down)
    (hTodo : b.wave.todo = []) :
    BarrierInv cfg rank
      { b with
        barrierStarted := false
        barrierUp := false
        wave := { b.wave with closed := b.wave.closed + 1, replies := 0 }
        phase := .children } sent rcvd where
  wave := by
    have hDone := h.done_eq
    rw [hPhase] at hDone
    exact h.wave.close hDone hTodo
  up_eq := by
    have hDone := h.done_eq
    have hUp := h.wave.up_le
    have hLe := h.wave.done_le_up
    rw [hPhase] at hDone
    simp only [if_true, Bool.false_eq_true, if_false] at hDone ⊢
    omega
  done_eq := by
    have hDone := h.done_eq
    rw [hPhase] at hDone
    exact hDone
  started := by simp

/-- The turns of `barrierTest`, given that the messages it counts are those of
children that it has not counted yet. -/
theorem BarrierInv.turn (h : BarrierInv cfg rank b sent rcvd)
    (hCollect : ∀ src msg, input = .recv src .barrier msg →
      b.wave.replies < (cfg.tree.children rank).length →
        src ∈ cfg.tree.children rank ∧ (rcvd src .barrier).length = b.wave.closed)
    {turn : Turn n (Barrier n) Bool} (hTurn : BarrierTurn cfg rank b input turn) :
    BarrierInv cfg rank turn.record (sent.send turn.out) (rcvd.receive input) := by
  cases hTurn
  case collect src msg hPhase hStarted hOpen =>
    -- what the network admits here is the message of this barrier, never of the next
    obtain ⟨hChild, hFirst⟩ := hCollect src msg rfl hOpen
    exact h.collect hPhase hOpen hChild hFirst hStarted msg
  case look hPhase hStarted =>
    exact { h with
      done_eq := by
        have hDone := h.done_eq
        rw [hPhase] at hDone
        exact hDone
      started := fun _ => hStarted }
  case inactive => exact h
  case contribute parentRank hPhase hUp hFull hParent =>
    refine h.contribute hPhase hUp hFull ?_ ?_
    · intro p hp
      rw [hParent, Option.some.injEq] at hp
      subst hp
      simp [counts, Turn.sends]
    · intro d hd
      have hNe : d ≠ parentRank := by
        rintro rfl
        exact hd hParent
      simp [counts, Turn.sends, Log.add_of_peer_ne _ _ _ _ hNe]
  case gather hPhase hUp hFull hRoot =>
    exact h.contribute hPhase hUp hFull (by simp [hRoot]) fun _ _ => rfl
  case skip hPhase _ =>
    exact { h with
      done_eq := by
        have hDone := h.done_eq
        rw [hPhase] at hDone
        exact hDone
      started := fun _ => h.started (Or.inr (by simp [hPhase])) }
  case learn parentRank msg hPhase hUp hParent =>
    refine h.learn hPhase hUp ?_ ?_
    · intro p hp
      rw [hParent, Option.some.injEq] at hp
      subst hp
      simp [counts]
    · intro d hd
      have hNe : d ≠ parentRank := by
        rintro rfl
        exact hd hParent
      simp [counts, Log.add_of_peer_ne _ _ _ _ hNe]
  case decide hPhase hUp hRoot =>
    exact h.learn hPhase hUp (by simp [hRoot]) fun _ _ => rfl
  case wait hPhase _ =>
    exact { h with
      done_eq := by
        have hDone := h.done_eq
        rw [hPhase] at hDone
        exact hDone
      started := fun hSome => h.started (by
        rcases hSome with hUp | hNe
        · exact Or.inl hUp
        · exact (hNe rfl).elim) }
  case tell child rest hPhase hTodo =>
    exact { h with
      wave := by
        show Wave.Inv _ _ _ (counts (sent.add child .barrier .empty) .barrier) _
        rw [counts_add]
        exact h.wave.tell hTodo }
  case close hPhase hTodo => exact h.close hPhase hTodo

end Turns

/-! ## Barriers in a row -/

/-- A rank that goes through barriers, with the number of them that it has
started. -/
structure BarrierRank (n : Nat) where
  barrier : Barrier n
  starts : Nat

/-- What a rank does next: it calls `barrierStart`, or goes on in
`barrierTest`. -/
inductive BarrierCall where
  | start
  | test
  deriving DecidableEq, Repr

/-- A rank that calls `barrierStart` and `barrierTest`. -/
def barrierLoop (cfg : Config n) : FifoNet.Program (Fin n) Tag Msg (BarrierRank n) BarrierCall :=
  fun rank input s =>
    let test (input : Input n) : Option (BarrierRank n × Option (Packet n)) :=
      (s.barrier.barrierTest cfg rank input).map fun turn =>
        ({ s with barrier := turn.record }, turn.out)
    match input with
    | .tick .start =>
        -- a call is not made in the middle of another
        if s.barrier.phase = .children then
          some ({
            barrier := s.barrier.barrierStart
            starts := s.starts + if s.barrier.barrierStarted then 0 else 1 }, none)
        else
          none
    | .tick .test => test (.tick .go)
    | .recv src tag msg => test (.recv src tag msg)
    | .synced _ _ => none

abbrev BarrierWorld (n : Nat) := FifoNet.System (Fin n) Tag Msg (BarrierRank n)

/-- No rank has started a barrier. -/
def BarrierInitial (states : Fin n → BarrierRank n) : Prop :=
  ∀ rank, states rank = { barrier := .initial, starts := 0 }

/-- The systems that calls of the ranks lead to, in any order. -/
abbrev BarrierRun (cfg : Config n) : BarrierWorld n → Prop :=
  FifoNet.Reachable (barrierLoop cfg) BarrierInitial FifoNet.always

/-- The input of `barrierTest` that goes with an input of the loop. -/
def testInput : FifoNet.Input (Fin n) Tag Msg BarrierCall → Input n
  | .tick _ => .tick .go
  | .recv src tag msg => .recv src tag msg
  | .synced dst tag => .synced dst tag

/-- The turns of a rank that goes through barriers. -/
inductive BarrierStep (cfg : Config n) (rank : Fin n) (s : BarrierRank n) :
    FifoNet.Input (Fin n) Tag Msg BarrierCall → BarrierRank n → Option (Packet n) → Prop where
  | start (hPhase : s.barrier.phase = .children) :
      BarrierStep cfg rank s (.tick .start) {
        barrier := s.barrier.barrierStart
        starts := s.starts + if s.barrier.barrierStarted then 0 else 1 } none
  | test {input : FifoNet.Input (Fin n) Tag Msg BarrierCall} {turn : Turn n (Barrier n) Bool}
      (hTurn : BarrierTurn cfg rank s.barrier (testInput input) turn) :
      BarrierStep cfg rank s input { s with barrier := turn.record } turn.out

theorem barrierStep_of_eq {s s' : BarrierRank n} {out : Option (Packet n)}
    {input : FifoNet.Input (Fin n) Tag Msg BarrierCall}
    (h : barrierLoop cfg rank input s = some (s', out)) : BarrierStep cfg rank s input s' out := by
  unfold barrierLoop at h
  dsimp only at h
  split at h
  · split at h
    next hPhase =>
      cases h
      exact .start hPhase
    next => cases h
  · obtain ⟨turn, hTurn, hEq⟩ := Option.map_eq_some_iff.mp h
    cases hEq
    exact .test (barrierTurn_of_eq hTurn)
  · obtain ⟨turn, hTurn, hEq⟩ := Option.map_eq_some_iff.mp h
    cases hEq
    exact .test (barrierTurn_of_eq hTurn)
  · cases h

/-- What a rank that goes through barriers knows. -/
structure BarrierRankInv (cfg : Config n) (rank : Fin n) (s : BarrierRank n)
    (sent rcvd : Log (Fin n) Tag Msg) : Prop where
  barrier : BarrierInv cfg rank s.barrier sent rcvd
  starts_eq : s.starts = s.barrier.wave.closed + if s.barrier.barrierStarted then 1 else 0

theorem BarrierRankInv.up_le_starts {s : BarrierRank n} {sent rcvd : Log (Fin n) Tag Msg}
    (h : BarrierRankInv cfg rank s sent rcvd) : s.barrier.wave.up ≤ s.starts := by
  rw [h.barrier.up_eq, h.starts_eq]
  cases hUp : s.barrier.barrierUp with
  | false => simp
  | true => simp [h.barrier.started (Or.inl hUp)]

/-- A turn of `barrierTest` closes the barrier exactly when it returns 1. -/
theorem BarrierTurn.closed_eq {b : Barrier n} {turn : Turn n (Barrier n) Bool}
    (h : BarrierTurn cfg rank b input turn) :
    turn.record.wave.closed = b.wave.closed + if turn.result = some true then 1 else 0 := by
  cases h <;> simp [Turn.stays, Turn.returns, Turn.sends]

theorem BarrierTurn.started_eq {b : Barrier n} {turn : Turn n (Barrier n) Bool}
    (h : BarrierTurn cfg rank b input turn) :
    turn.record.barrierStarted = if turn.result = some true then false else b.barrierStarted := by
  cases h <;> simp [Turn.stays, Turn.returns, Turn.sends]

theorem BarrierTurn.phase_of_closed {b : Barrier n} {turn : Turn n (Barrier n) Bool}
    (h : BarrierTurn cfg rank b input turn) (hResult : turn.result = some true) :
    b.phase = .down := by
  cases h
  case close hPhase _ => exact hPhase
  all_goals simp [Turn.stays, Turn.returns, Turn.sends] at hResult

@[simp] theorem receive_testInput (log : Log (Fin n) Tag Msg)
    (input : FifoNet.Input (Fin n) Tag Msg BarrierCall) :
    log.receive (testInput input) = log.receive input := by
  cases input <;> rfl

/-- While a rank waits for its children, the messages that can arrive are
those of children that it has not counted. -/
theorem child_of_admits {χ : Type} {σ : Type} {g : FifoNet.System (Fin n) Tag Msg σ} {tag : Tag}
    (hFifo : FifoNet.Fifo g) {w : Fin n → Wave.Counters (Fin n)}
    (hWave : ∀ r, Wave.Inv cfg.tree r (w r) (counts (g r).sent tag) (counts (g r).rcvd tag))
    {src : Fin n} {msg : Msg} (hAdmits : FifoNet.Admits g rank (.recv src tag msg : FifoNet.Input _ _ _ χ))
    (hOpen : (w rank).replies < (cfg.tree.children rank).length) :
    src ∈ cfg.tree.children rank ∧ counts (g rank).rcvd tag src = (w rank).closed := by
  refine Wave.child_of_pending hWave (fun s d => hFifo.length_le s d tag) hOpen ?_
  exact hFifo.length_lt_of_admits hAdmits

theorem BarrierRankInv.step {g : BarrierWorld n} (hFifo : FifoNet.Fifo g)
    (hInv : ∀ r, BarrierRankInv cfg r (g r).state (g r).sent (g r).rcvd)
    {input : FifoNet.Input (Fin n) Tag Msg BarrierCall} {state : BarrierRank n}
    {out : Option (Packet n)} (hAdmits : FifoNet.Admits g rank input)
    (hStep : BarrierStep cfg rank (g rank).state input state out) :
    BarrierRankInv cfg rank state ((g rank).sent.send out) ((g rank).rcvd.receive input) := by
  have h := hInv rank
  cases hStep
  case start hPhase =>
    refine ⟨h.barrier.barrierStart, ?_⟩
    rw [h.starts_eq]
    cases (g rank).state.barrier.barrierStarted <;> simp [Barrier.barrierStart]
  case test turn hTurn =>
    have hCollect : ∀ src msg, testInput input = .recv src .barrier msg →
        (g rank).state.barrier.wave.replies < (cfg.tree.children rank).length →
          src ∈ cfg.tree.children rank ∧
            ((g rank).rcvd src .barrier).length = (g rank).state.barrier.wave.closed := by
      intro src msg hInput hOpen
      cases input with
      | recv s t m =>
          cases hInput
          exact child_of_admits hFifo (fun r => (hInv r).barrier.wave) hAdmits hOpen
      | _ => cases hInput
    have hNext := h.barrier.turn hCollect hTurn
    rw [receive_testInput] at hNext
    refine ⟨hNext, ?_⟩
    show (g rank).state.starts = _
    rw [h.starts_eq, hTurn.closed_eq, hTurn.started_eq]
    by_cases hResult : turn.result = some true
    · have hPhase := hTurn.phase_of_closed hResult
      simp [hResult, h.barrier.started (Or.inr (by simp [hPhase]))]
    · simp [hResult]

theorem BarrierRun.inv {g : BarrierWorld n} (h : BarrierRun cfg g) (r : Fin n) :
    BarrierRankInv cfg r (g r).state (g r).sent (g r).rcvd := by
  refine FifoNet.Reachable.forall_node
    (L := fun r node => BarrierRankInv cfg r node.state node.sent node.rcvd) ?_ ?_ h r
  · intro states hInit r
    rw [hInit r]
    exact ⟨barrierInv_initial, rfl⟩
  · intro g r input state out hReach hAll hFires
    exact BarrierRankInv.step hReach.fifo hAll hFires.admits (barrierStep_of_eq hFires.acts)

/-- What it means that barriers synchronize, one after the other. -/
structure Synchronizes (cfg : Config n) (g : BarrierWorld n) : Prop where
  /-- The n-th return of 1 comes after every rank has started its n-th barrier. -/
  afterAll : ∀ r other, (g r).state.barrier.wave.closed ≤ (g other).state.starts
  /-- A call of `barrierTest` that returns 1 is counted in `closed`, and no other. -/
  counted : ∀ r input turn, (g r).state.barrier.barrierTest cfg r input = some turn →
    turn.record.wave.closed =
      (g r).state.barrier.wave.closed + if turn.result = some true then 1 else 0
  /-- Each barrier takes one message to each neighbour, and none to others. -/
  sentOnce : ∀ r d, d ∈ cfg.neighbours r →
    (g r).state.barrier.wave.closed ≤ ((g r).sent d .barrier).length ∧
      ((g r).sent d .barrier).length ≤ (g r).state.starts
  sentNowhere : ∀ r d, d ∉ cfg.neighbours r → (g r).sent d .barrier = []
  /-- A message that is sent in a barrier has the number of the barrier. -/
  sentNumber : ∀ r input state dst tag msg,
    FifoNet.Fires (barrierLoop cfg) g r input state (some ⟨dst, tag, msg⟩) →
      tag = .barrier ∧ (g r).state.starts = (g r).state.barrier.wave.closed + 1 ∧
        ((g r).sent dst .barrier).length = (g r).state.barrier.wave.closed
  /-- So has a message that is received in it.  The replies that are counted
  are those of children; the other messages are those of the parent. -/
  rcvdNumber : ∀ r src tag msg state out,
    FifoNet.Fires (barrierLoop cfg) g r (.recv src tag msg) state out →
      (g r).state.starts = (g r).state.barrier.wave.closed + 1 ∧
        ((g r).rcvd src .barrier).length = (g r).state.barrier.wave.closed ∧
          ((g r).state.barrier.phase = .children ∧ src ∈ cfg.tree.children r ∨
            (g r).state.barrier.phase = .parent ∧ cfg.tree.parent r = some src ∧
              state.barrier.barrierReplies = (g r).state.barrier.barrierReplies)
  /-- Once all ranks have returned from a barrier, its messages have arrived. -/
  settled : ∀ k, (∀ r, k ≤ (g r).state.barrier.wave.closed) → ∀ s d,
    ((g s).sent d .barrier).take k = ((g d).rcvd s .barrier).take k
  /-- While no rank is in a barrier, no message is in flight. -/
  quiet : (∀ r, (g r).state.starts = (g r).state.barrier.wave.closed) → ∀ s d,
    inFlight g s d .barrier = []

section Results

variable {g : BarrierWorld n}

theorem mem_neighbours_iff {r d : Fin n} :
    d ∈ cfg.neighbours r ↔ cfg.tree.parent r = some d ∨ d ∈ cfg.tree.children r := by
  simp [Config.neighbours]

theorem BarrierRankInv.starts_of_started {s : BarrierRank n} {sent rcvd : Log (Fin n) Tag Msg}
    (h : BarrierRankInv cfg rank s sent rcvd) (hStarted : s.barrier.barrierStarted = true) :
    s.starts = s.barrier.wave.closed + 1 := by
  rw [h.starts_eq, if_pos hStarted]

/-- Neighbours are neighbours of each other. -/
theorem neighbours_symm {r d : Fin n} (h : d ∈ cfg.neighbours r) : r ∈ cfg.neighbours d := by
  rcases mem_neighbours_iff.mp h with hParent | hChild
  · exact mem_neighbours_iff.mpr (Or.inr (cfg.tree.mem_children hParent))
  · exact mem_neighbours_iff.mpr (Or.inl (cfg.tree.parent_of_mem hChild))

theorem BarrierRankInv.sent_eq_nil {s : BarrierRank n} {sent rcvd : Log (Fin n) Tag Msg}
    (h : BarrierRankInv cfg rank s sent rcvd) {d : Fin n} (hFar : d ∉ cfg.neighbours rank) :
    sent d .barrier = [] := by
  rw [mem_neighbours_iff, not_or] at hFar
  exact List.length_eq_zero_iff.mp (h.barrier.wave.sent_other d hFar.1 hFar.2)

/-- The number of a message that goes out. -/
theorem BarrierRankInv.sent_number {s state : BarrierRank n} {sent rcvd : Log (Fin n) Tag Msg}
    (h : BarrierRankInv cfg rank s sent rcvd)
    {input : FifoNet.Input (Fin n) Tag Msg BarrierCall} {dst : Fin n} {tag : Tag} {msg : Msg}
    (hStep : BarrierStep cfg rank s input state (some ⟨dst, tag, msg⟩)) :
    tag = .barrier ∧ s.starts = s.barrier.wave.closed + 1 ∧
      (sent dst .barrier).length = s.barrier.wave.closed := by
  generalize hOut : some (⟨dst, tag, msg⟩ : Packet n) = out at hStep
  cases hStep
  case start => cases hOut
  case test turn hTurn =>
    generalize testInput input = testInput at hTurn
    cases hTurn
    case contribute parentRank hPhase hUp hFull hParent =>
      cases hOut
      have hOpen := h.barrier.up_eq
      rw [hUp] at hOpen
      refine ⟨rfl, h.starts_of_started (h.barrier.started (Or.inr (by simp [hPhase]))), ?_⟩
      exact (h.barrier.wave.sent_parent _ hParent).trans hOpen
    case tell child rest hPhase hTodo =>
      cases hOut
      have hDone := h.barrier.done_eq
      rw [hPhase] at hDone
      have hSent := h.barrier.wave.sent_todo dst (by simp [hTodo])
      refine ⟨rfl, h.starts_of_started (h.barrier.started (Or.inr (by simp [hPhase]))), ?_⟩
      simp only [if_true] at hDone
      show counts sent .barrier dst = _
      omega
    all_goals cases hOut

/-- The number of a message that arrives, and whose message it is. -/
theorem BarrierRun.rcvd_number (h : BarrierRun cfg g) {r src : Fin n} {tag : Tag} {msg : Msg}
    {state : BarrierRank n} {out : Option (Packet n)}
    (hFires : FifoNet.Fires (barrierLoop cfg) g r (.recv src tag msg) state out) :
    (g r).state.starts = (g r).state.barrier.wave.closed + 1 ∧
      ((g r).rcvd src .barrier).length = (g r).state.barrier.wave.closed ∧
        ((g r).state.barrier.phase = .children ∧ src ∈ cfg.tree.children r ∨
          (g r).state.barrier.phase = .parent ∧ cfg.tree.parent r = some src ∧
            state.barrier.barrierReplies = (g r).state.barrier.barrierReplies) := by
  have hInv := h.inv r
  have hAdmits := hFires.admits
  have hStep := barrierStep_of_eq hFires.acts
  generalize hInput : (.recv src tag msg : FifoNet.Input (Fin n) Tag Msg BarrierCall) = input at hStep
  cases hStep
  case start => cases hInput
  case test turn hTurn =>
    subst hInput
    simp only [testInput] at hTurn
    cases hTurn
    case collect hPhase hStarted hOpen =>
      obtain ⟨hChild, hFirst⟩ :=
        child_of_admits h.fifo (fun other => (h.inv other).barrier.wave) hAdmits hOpen
      exact ⟨hInv.starts_of_started hStarted, hFirst, Or.inl ⟨hPhase, hChild⟩⟩
    case learn hPhase hUp hParent =>
      have hDone := hInv.barrier.done_eq
      rw [hPhase] at hDone
      exact ⟨hInv.starts_of_started (hInv.barrier.started (Or.inl hUp)),
        (hInv.barrier.wave.rcvd_parent src hParent).trans hDone, Or.inr ⟨hPhase, hParent, rfl⟩⟩

/-- However the ranks call `barrierStart` and `barrierTest`, the barriers
synchronize them. -/
theorem BarrierRun.synchronizes (h : BarrierRun cfg g) : Synchronizes cfg g := by
  have hWave := fun r => (h.inv r).barrier.wave
  have hFifo := fun s d => h.fifo.length_le s d .barrier
  have hAfterAll : ∀ r other, (g r).state.barrier.wave.closed ≤ (g other).state.starts := by
    intro r other
    have hUp := Wave.up_of_done hWave hFifo (hWave r).closed_le_done other
    exact Nat.le_trans hUp (h.inv other).up_le_starts
  exact {
    afterAll := hAfterAll
    counted := fun r input turn hEq => (barrierTurn_of_eq hEq).closed_eq
    sentOnce := by
      intro r d hNeighbour
      have hPeer := mem_neighbours_iff.mp hNeighbour
      obtain ⟨hLow, hHigh⟩ := (h.inv r).barrier.wave.closed_le_sent hPeer
      exact ⟨hLow, Nat.le_trans hHigh (h.inv r).up_le_starts⟩
    sentNowhere := fun r d hFar => (h.inv r).sent_eq_nil hFar
    sentNumber := fun r input state dst tag msg hFires =>
      (h.inv r).sent_number (barrierStep_of_eq hFires.acts)
    rcvdNumber := fun r src tag msg state out hFires => h.rcvd_number hFires
    settled := by
      intro k hClosed s d
      by_cases hNeighbour : s ∈ cfg.neighbours d
      · have hPeer := mem_neighbours_iff.mp hNeighbour
        have hRcvd := Nat.le_trans (hClosed d) ((h.inv d).barrier.wave.closed_le_rcvd_peer hPeer)
        obtain ⟨rest, hRest⟩ := h.fifo s d .barrier
        rw [← hRest, List.take_append_of_le_length hRcvd]
      · have hSent := (h.inv s).sent_eq_nil fun hFar => hNeighbour (neighbours_symm hFar)
        have hRcvd := hFifo s d
        rw [hSent] at hRcvd
        rw [hSent, List.length_eq_zero_iff.mp (Nat.le_zero.mp hRcvd)]
    quiet := by
      intro hRest s d
      have hSame : ∀ r, (g r).state.barrier.wave.closed = (g s).state.barrier.wave.closed := by
        intro r
        have hLow := hAfterAll r s
        have hHigh := hAfterAll s r
        rw [hRest] at hLow hHigh
        omega
      rw [h.fifo.inFlight_eq_nil_iff]
      refine (h.fifo s d .barrier).eq_of_length ?_
      refine Wave.rcvd_eq_sent hWave hFifo (fun r => ⟨hSame r, ?_⟩) s d
      have hUp := (h.inv r).up_le_starts
      have hClosed := (hWave r).closed_le_done
      have hDone := (hWave r).done_le_up
      rw [hRest] at hUp
      rw [← hSame r]
      omega }

end Results

/-- Two ranks that have not started a barrier. -/
def pairAtBarrier : BarrierWorld 2 :=
  FifoNet.fresh fun _ => { barrier := .initial, starts := 0 }

/-- Two ranks go through one barrier. -/
def barrierTurns : List (Fin 2 × FifoNet.Event (Fin 2) Tag BarrierCall) :=
  [(1, .tick .start), (1, .tick .test), (1, .tick .test), (0, .tick .start),
    (0, .recv 1 .barrier), (0, .tick .test), (0, .tick .test), (0, .tick .test), (0, .tick .test),
    (1, .recv 0 .barrier), (1, .tick .test)]

theorem synchronizes_pair : ∃ g,
    FifoNet.run (barrierLoop (pairConfig false false)) pairAtBarrier barrierTurns = some g ∧
    (∀ r, (g r).state.barrier.wave.closed = 1) ∧ Synchronizes (pairConfig false false) g := by
  have hEnd : (FifoNet.run (barrierLoop (pairConfig false false)) pairAtBarrier barrierTurns).map
      (fun g => decide (∀ r, (g r).state.barrier.wave.closed = 1)) = some true := by
    decide +kernel
  obtain ⟨g, hRun, hClosed⟩ := Option.map_eq_some_iff.mp hEnd
  have hStart : BarrierRun (pairConfig false false) pairAtBarrier := .start fun _ => rfl
  exact ⟨g, hRun, of_decide_eq_true hClosed,
    BarrierRun.synchronizes (FifoNet.Reachable.run hStart hRun)⟩

end Circle
