import Circle.Protocol.Contributions

/-!
# The last reduction

When a rank enters `reduceSync`, the messages of all background rounds have been
received.  What the root delivers in the end is the fold of the contributions
along the tree, with the exact number of processed objects.
-/

namespace Circle

open FifoNet (Log inFlight)

variable {n : Nat} {cfg : Config n} {rank : Fin n} {input : Input n} {s s' : State n}
  {out : Option (Packet n)} {ok : World n → Fin n → Event n → Prop} {g : World n}

/-! ## Nothing is left of the background rounds -/

section Left

variable {r p c : Fin n}

/-- A child has answered all rounds of its parent, and no others. -/
theorem Execution.responses_eq (h : Execution cfg ok g)
    (hLeft : (g r).state.pc.leftBarrier = true) (hParent : cfg.tree.parent c = some p) :
    (g c).state.reduce.responses.length = (g p).state.reduce.rounds.length ∧
      (g c).state.reduce.isTaken = false ∧
      (g p).state.reduce.startsTo c = (g p).state.reduce.rounds.length := by
  obtain ⟨hInv, hAnswered⟩ := h.reductions
  have hStarts := responses_le h hInv hParent
  have hAnswers := hAnswered p c hParent
  have hClosed := isOpen_eq_false (noRound_of_left h hInv hLeft p).2
  have hRounds : (g p).state.reduce.startsTo c = (g p).state.reduce.rounds.length := by
    simp [Reduce.startsTo, hClosed]
  rw [hRounds] at hStarts
  refine ⟨by omega, ?_, hRounds⟩
  rw [← Bool.not_eq_true]
  intro hTaken
  rw [if_pos hTaken] at hStarts
  omega

/-- All starts have arrived. -/
theorem Execution.starts_received (h : Execution cfg ok g)
    (hLeft : (g r).state.pc.leftBarrier = true) (hParent : cfg.tree.parent c = some p) :
    inFlight g p c .reduce = [] := by
  have hInv := h.reductions.1
  obtain ⟨hLength, hTaken, hRounds⟩ := h.responses_eq hLeft hParent
  rw [h.fifo.inFlight_eq_nil_iff, ((hInv c).upward p hParent).starts,
    (hInv p).downward c (cfg.tree.mem_children hParent), hTaken, hRounds, hLength]
  rfl

/-- All answers have been read. -/
theorem Execution.responses_read (h : Execution cfg ok g)
    (hLeft : (g r).state.pc.leftBarrier = true) (hParent : cfg.tree.parent c = some p) :
    (g c).state.reduce.responses <+: heard (g p).rcvd c := by
  have hInv := h.reductions.1
  obtain ⟨order, hGathers⟩ := (hInv p).gathers
  have hHeard := hGathers.length_eq c (cfg.tree.mem_children hParent)
  refine List.prefix_of_prefix_length_le (List.prefix_append _ _)
    (((hInv c).upward p hParent).read_initial (h.fifo c p .reduce)) ?_
  rw [(h.responses_eq hLeft hParent).1]
  exact Nat.le.intro hHeard.symm

/-- When all reports of a child have been read, it has no message under way. -/
theorem Execution.inFlight_of_heard (h : Execution cfg ok g)
    (hParent : cfg.tree.parent c = some p)
    (hHeard : (g c).state.reduce.spoken.length ≤ (heard (g p).rcvd c).length) :
    inFlight g c p .reduce = [] := by
  have hUp := (h.reductions.1 c).upward p hParent
  rw [h.fifo.inFlight_eq_nil_iff]
  obtain ⟨rest, hRest⟩ := h.fifo c p .reduce
  -- the headers that have been received are those of all reports
  have hCount := countP_isHeader (hUp.accepts.of_prefix ⟨rest, hRest⟩)
  have hTotal := hUp.countP_isHeader
  rw [← hRest, List.countP_append, hCount] at hTotal
  unfold heard at hHeard
  have hWhole : reports.after none ((g p).rcvd c .reduce) = none := by
    cases hAfter : reports.after none ((g p).rcvd c .reduce) with
    | none => rfl
    | some header =>
        rw [hAfter] at hTotal
        simp only [Option.isSome_some, if_true] at hTotal
        omega
  cases rest with
  | nil => rw [← hRest, List.append_nil]
  | cons msg rest =>
      have hNext : (g p).rcvd c .reduce ++ [msg] <+: (g c).sent p .reduce :=
        ⟨rest, by rw [← hRest, List.append_assoc, List.singleton_append]⟩
      have hOk := hUp.accepts.next_ok hNext
      rw [hWhole] at hOk
      obtain ⟨valid, count, bytes, rfl, -⟩ := reports_ok_none hOk
      simp only [List.countP_cons, Msg.isHeader, if_true] at hTotal
      omega

/-- A child that has not reported in the last reduction has no message under
way. -/
theorem Execution.answers_received (h : Execution cfg ok g)
    (hLeft : (g r).state.pc.leftBarrier = true) (hParent : cfg.tree.parent c = some p)
    (hLast : (g c).state.reduce.last = none) : inFlight g c p .reduce = [] := by
  refine h.inFlight_of_heard hParent ?_
  have hSpoken : (g c).state.reduce.spoken = (g c).state.reduce.responses := by
    simp [Reduce.spoken, hLast]
  rw [hSpoken]
  exact (h.responses_read hLeft hParent).length_le

/-- A rank that has put something into the last reduction has read all that its
children say. -/
theorem Execution.reports_received (h : Execution cfg ok g) (hParent : cfg.tree.parent c = some p)
    (hLast : (g p).state.reduce.last ≠ none) : inFlight g c p .reduce = [] := by
  obtain ⟨hInv, -⟩ := h.reductions
  obtain ⟨order, hGathers⟩ := (hInv p).gathers
  have hMem := cfg.tree.mem_children hParent
  refine h.inFlight_of_heard hParent ?_
  rw [hGathers.length_eq c hMem, hGathers.ended hLast, if_pos hMem]
  exact spoken_le h hInv hParent

/-- Ranks that are no neighbours exchange nothing. -/
theorem Execution.nothing_far (h : Execution cfg ok g) {a b : Fin n}
    (hFar : b ∉ cfg.neighbours a) : inFlight g a b .reduce = [] := by
  rw [FifoNet.inFlight, (h.reductions.1 a).nowhere b hFar, List.drop_nil]

end Left

/-! ## The end of `reduceSync` -/

theorem SyncTurn.last_of_returned {sample : Int} {r : Reduce n} {turn : Turn n (Reduce n) Outcome}
    (hTurn : SyncTurn cfg rank sample r input turn)
    (hBuffers : r.phase.isSync = true →
      (∃ init, r.initial = some init) ∧ ∃ buf, r.reduceBuf = some buf)
    (h : r.phase = .syncSendData → r.last ≠ none) (hResult : turn.result ≠ some .failed) :
    turn.result = some .returned ∨ turn.record.phase = .syncSendData →
      turn.record.last ≠ none := by
  cases hTurn
  case badHeader | badData => exact (hResult rfl).elim
  case send hPhase _ _ | sendBare hPhase _ _ | deliver hPhase _ =>
    obtain ⟨⟨init, hInit⟩, buf, hBuf⟩ := hBuffers (by simp [hPhase, ReducePhase.isSync])
    simp [Turn.sends, Turn.sendsAndReturns, Turn.returns, Reduce.endLast, Reduce.finalize,
      Reduce.round, hInit, hBuf]
  case sendData hPhase _ _ => exact fun _ => h hPhase
  all_goals simp [Turn.stays]

/-- What comes before `abortReduce`. -/
theorem Pc.of_late_mem_next {pc pc' : Pc} (h : pc' ∈ pc.next) (hLate : pc'.early = false) :
    pc = .barrierTest ∨ pc = .reduceSync ∨ pc.early = false := by
  revert h hLate
  cases pc <;> cases pc' <;> decide

/-- With reductions, `reduceSync` follows the barrier. -/
theorem early_of_barrierTest (hEnabled : cfg.reduceEnabled = true) (hPc : s.pc = .barrierTest)
    (hStep : MainStep cfg rank input s s' out) : s'.pc.early = true := by
  cases hStep
  case raise =>
    simp only [hPc]
    rfl
  case barrierTest =>
    dsimp only
    split <;> rfl
  case leaveBarrier =>
    simp only [hEnabled]
    rfl
  all_goals simp_all

/-- A rank that has finished `reduceSync` has put something into the last
reduction. -/
theorem Execution.last_of_finished (h : Execution cfg ok g) (hEnabled : cfg.reduceEnabled = true)
    (rank : Fin n) :
    (g rank).state.pc.early = false ∨ (g rank).state.reduce.phase = .syncSendData →
      (g rank).state.reduce.last ≠ none := by
  refine h.forall_rank (L := fun _ node => node.state.pc.early = false ∨
    node.state.reduce.phase = .syncSendData → node.state.reduce.last ≠ none) ?_ ?_ rank
  · intro rank start hEnd
    simp [Start.state, Pc.early] at hEnd
  · intro g rank input s' out hReach hAll hAdmits hStep
    have hOld := hAll rank
    have hRunning := hReach.running_step hAdmits hStep
    have hShape := hReach.reduceShape rank (hReach.running rank)
    have hReduceStep := reduceStep_of_mainStep hStep
    rw [FifoNet.Node.after_state]
    cases hReduceStep
    case other hReduce hProcessed hStays hSilent =>
      rw [hReduce]
      rintro (hEnd | hPhase)
      · -- only `reduceSync` is followed by `abortReduce`
        rcases Pc.of_late_mem_next hStep.next hEnd with hPc | hPc | hLate
        · rw [early_of_barrierTest hEnabled hPc hStep] at hEnd
          cases hEnd
        · rw [(hStays (Or.inr (Or.inl hPc))).1, hPc] at hEnd
          cases hEnd
        · exact hOld (Or.inl hLate)
      · exact hOld (Or.inr hPhase)
    case check turn hPc hTurn hReduce hCleanup hProcessed hCheck hFailed =>
      have hNotSync := (hTurn.fits hShape.fits fun hEq => hRunning (hFailed.mp hEq)).2
      rw [hReduce]
      rintro (hEnd | hPhase)
      · rcases Pc.of_late_mem_next hStep.next hEnd with hOther | hOther | hOther <;>
          simp [hPc, Pc.early] at hOther
      · simp [hPhase, ReducePhase.isSync] at hNotSync
    case sync turn hPc hTurn hReduce hCleanup hProcessed hNext =>
      have hResult : turn.result ≠ some .failed := by
        intro hEq
        rw [hEq] at hNext
        exact hRunning hNext
      rw [hReduce]
      intro hEnd
      refine hTurn.last_of_returned (fun hSync => hShape.buffers (Or.inr hSync))
        (fun hPhase => hOld (Or.inr hPhase)) hResult (hEnd.imp_left fun hLate => ?_)
      rw [hNext] at hLate
      split at hLate
      · cases hLate
      · cases hLate
      · assumption

/-- What the root delivers in the end: the exact number of objects, and the fold
of the contributions along the tree. -/
theorem Execution.last_exact (h : Execution cfg ok g) {x : Round}
    (hLast : (g cfg.tree.root).state.reduce.last = some x) :
    ∃ y : Fin n → Round, (∀ r, (g r).state.reduce.last = some (y r)) ∧
      x.count = ∑ r, ((g r).state.localObjectsProcessed : Int) ∧
      x.value = cfg.tree.fold (fun r values => values.foldl cfg.op (y r).init) cfg.tree.root ∧
      (Std.Associative cfg.op → Std.Commutative cfg.op →
        combineAll cfg.op ((List.finRange n).map fun r => (y r).init) = some x.value) := by
  choose y hTaken using h.all_last (by simp [hLast])
  have hRoot : y cfg.tree.root = x := by
    have hSame := hTaken cfg.tree.root
    rw [hLast, Option.some.injEq] at hSame
    exact hSame.symm
  have hSum := h.last_addsUp hTaken
  rw [← hRoot]
  refine ⟨y, hTaken, ?_, ?_, fun _ _ => hSum.value_root⟩
  · rw [hSum.count_root]
    exact Finset.sum_congr rfl fun r _ => ((h.reductions.1 r).books.last (y r) (hTaken r)).2.1
  · have hFold := cfg.tree.eq_fold (f := fun r values => values.foldl cfg.op (y r).init)
      (fun r => (hSum r).2) cfg.tree.root
    exact hFold

end Circle
