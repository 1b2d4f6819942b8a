import Circle.Protocol.Steps

/-!
# Where a rank can be

`Control` ties the function that a rank is in to its flags (`Fits`) and to the
phases of all functions: a function that has not returned is the one that the
rank is in.
-/

namespace Circle

variable {n : Nat} {cfg : Config n} {rank : Fin n} {input : Input n} {s s' : State n}
  {out : Option (Packet n)}

/-- What holds of a rank that is in a function. -/
def State.Fits (cfg : Config n) (s : State n) : Prop :=
  match s.pc with
  | .workreqCheck | .abortCheck | .failed => True
  | .workreceiptCheck | .process => s.cleanup = false
  | .reduceCheck => cfg.reduceEnabled = true
  | .requestWork => s.cleanup = false → s.work.queue.count = 0
  | .checkForTerm =>
      s.cleanup = false ∧ cfg.termTree = false ∧
        (s.work.queue.count = 0 ∨ s.abort.abortFlag = true)
  | .checkForTermAllReduce =>
      s.cleanup = false ∧ cfg.termTree = true ∧
        (s.work.queue.count = 0 ∨ s.abort.abortFlag = true)
  | .barrierStart | .barrierTest | .abortReduce | .checkpoint | .done => s.cleanup = true
  | .tokenCheck | .tokenTest => s.cleanup = true ∧ cfg.termTree = false
  | .reduceSync => s.cleanup = true ∧ cfg.reduceEnabled = true

theorem fits_step (h : s.Fits cfg) (hStep : MainStep cfg rank input s s' out) : s'.Fits cfg := by
  cases hStep
  case raise =>
    unfold State.Fits at h ⊢
    dsimp only
    split at h <;> simp_all
  case workreqCheck turn pc hPc hTurn hNext =>
    subst hNext
    cases hResult : turn.result <;> cases hCleanup : s.cleanup <;>
      cases hReduce : cfg.reduceEnabled <;>
      simp [State.Fits, State.afterWorkreq, hCleanup, hReduce]
  case workreceiptCheck turn pc hPc hTurn hNext =>
    subst hNext
    simp only [State.Fits, hPc] at h
    cases hResult : turn.result <;> simp [State.Fits, h]
  case abortCheck turn pc hPc hTurn hNext =>
    subst hNext
    cases hResult : turn.result
    · simp [State.Fits]
    · cases hCleanup : s.cleanup
      · by_cases hCount : s.work.queue.count = 0 <;> cases hReduce : cfg.reduceEnabled <;>
          simp [State.Fits, State.afterAbort, State.afterReduce, hCleanup, hCount, hReduce]
      · cases hTree : cfg.termTree <;> simp [State.Fits, State.afterAbort, hCleanup, hTree]
  case reduceCheck turn pc hPc hTurn hNext =>
    subst hNext
    simp only [State.Fits, hPc] at h
    rcases hResult : turn.result with _ | _ | _
    · simp [State.Fits, h]
    · cases hCleanup : s.cleanup <;> by_cases hCount : s.work.queue.count = 0 <;>
        simp [State.Fits, State.afterReduce, hCount]
    · simp [State.Fits]
  case requestWork turn pc hPc hTurn hNext =>
    subst hNext
    simp only [State.Fits, hPc] at h
    cases requestTurn_of_eq hTurn <;> cases hCleanup : s.cleanup <;>
      simp_all [State.Fits, Turn.stays, Turn.returns, Turn.sendsAndReturns]
  case callback => simp [State.Fits]
  case idle hPc hInput hIdle =>
    simp only [State.Fits, hPc] at h
    cases hTree : cfg.termTree <;> simp [State.Fits, h, hTree, hIdle]
  case checkForTerm turn hPc hTurn =>
    simp only [State.Fits, hPc] at h
    rcases hResult : turn.result with _ | _ | _ <;> simp [State.Fits, h]
  case checkForTermAllReduce turn hPc hTurn =>
    simp only [State.Fits, hPc] at h
    rcases hResult : turn.result with _ | _ | _ <;> simp [State.Fits, h]
  case barrierStart hPc hInput =>
    simp only [State.Fits, hPc] at h
    simp [State.Fits, h]
  case barrierTest turn hPc hTurn hResult =>
    simp only [State.Fits, hPc] at h
    cases turn.result <;> simp [State.Fits, h]
  case leaveBarrier turn hPc hTurn hResult =>
    simp only [State.Fits, hPc] at h
    cases hReduce : cfg.reduceEnabled <;> simp [State.Fits, h, hReduce]
  case tokenCheck turn hPc hTurn =>
    simp only [State.Fits, hPc] at h
    cases turn.result <;> simp [State.Fits, h]
  case tokenTest turn hPc hTurn =>
    simp only [State.Fits, hPc] at h
    simp [State.Fits, h]
  case reduceSync turn hPc hTurn =>
    simp only [State.Fits, hPc] at h
    rcases hResult : turn.result with _ | _ | _ <;> simp [State.Fits, h]
  case abortReduce turn hPc hTurn hResult =>
    simp only [State.Fits, hPc] at h
    simp [State.Fits, h]
  case leaveAbortReduce turn flag hPc hTurn hResult =>
    simp only [State.Fits, hPc] at h
    cases flag <;> simp [State.Fits, h]

/-- A function that has not returned is the one that the rank is in. -/
structure Phases (s : State n) : Prop where
  replying : s.work.replying = true → s.pc = .workreqCheck
  receiving : s.work.receiving ≠ none → s.pc = .requestWork ∨ s.pc = .failed
  term : s.term.phase ≠ .children → s.pc = .checkForTermAllReduce
  token : s.token.incoming ≠ none → s.pc = .checkForTerm ∨ s.pc = .tokenCheck
  barrier : s.barrier.phase ≠ .children → s.pc = .barrierTest
  abort : s.abort.phase ≠ .start ∨ s.abort.toSend ≠ [] → s.pc = .abortCheck
  reduce : s.reduce.phase ≠ .start → s.pc = .reduceCheck ∨ s.pc = .reduceSync ∨ s.pc = .failed

theorem WorkreqTurn.replying_of_returns {cleanup abortFlag : Bool} {w : Work n} {proc : Color}
    {turn : Turn n (Work n × Color) Unit}
    (h : WorkreqTurn cfg rank cleanup abortFlag w proc input turn)
    (hResult : turn.result.isSome) : turn.record.1.replying = false := by
  cases h <;> simp_all [Turn.stays, Turn.returns, Turn.sends]

theorem WorkreqTurn.receiving_eq {cleanup abortFlag : Bool} {w : Work n} {proc : Color}
    {turn : Turn n (Work n × Color) Unit}
    (h : WorkreqTurn cfg rank cleanup abortFlag w proc input turn) :
    turn.record.1.receiving = w.receiving := by
  cases h <;> rfl

theorem RequestTurn.replying_eq {cleanup : Bool} {w : Work n} {abortFlag : Bool}
    {turn : Turn n (Work n × Bool) Outcome}
    (h : RequestTurn cfg rank cleanup w abortFlag input turn) :
    turn.record.1.replying = w.replying := by
  cases h <;> rfl

theorem RequestTurn.receiving_of_returned {cleanup : Bool} {w : Work n} {abortFlag : Bool}
    {turn : Turn n (Work n × Bool) Outcome}
    (h : RequestTurn cfg rank cleanup w abortFlag input turn)
    (hResult : turn.result = some .returned) : turn.record.1.receiving = none := by
  cases h <;> simp_all [Turn.stays, Turn.returns, Turn.sendsAndReturns]

theorem ReceiptTurn.work_eq {w : Work n} {termFlag : Bool} {turn : Turn n (Work n × Bool) Unit}
    (h : ReceiptTurn w termFlag input turn) :
    ∃ outstanding, turn.record.1 = { w with workOutstanding := outstanding } := by
  cases h
  · exact ⟨_, rfl⟩
  · exact ⟨_, rfl⟩

theorem TermTurn.phase_of_returns {workOutstanding : Nat} {t : Term n}
    {turn : Turn n (Term n) Bool} (h : TermTurn cfg rank workOutstanding t input turn)
    (hResult : turn.result.isSome) : turn.record.phase = .children := by
  cases h <;> simp_all [Turn.stays, Turn.returns, Turn.sends]

theorem BarrierTurn.phase_of_returns {b : Barrier n} {turn : Turn n (Barrier n) Bool}
    (h : BarrierTurn cfg rank b input turn) (hResult : turn.result.isSome) :
    turn.record.phase = .children := by
  cases h <;> simp_all [Turn.stays, Turn.returns, Turn.sends]

theorem TokenTurn.incoming_of_returns {abortFlag : Bool} {t : Token} {turn : Turn n Token Unit}
    (h : TokenTurn rank abortFlag t input turn) (hResult : turn.result.isSome) :
    turn.record.incoming = none := by
  cases h <;> simp_all [Turn.stays, Turn.returns, Turn.sendsAndReturns]

theorem CheckTurn.incoming_of_returns {abortFlag : Bool} {t : Token} {turn : Turn n Token Bool}
    (h : CheckTurn rank abortFlag t input turn) (hResult : turn.result.isSome) :
    turn.record.incoming = none := by
  cases h
  case terminated hIncoming _ => exact hIncoming
  case pass hIncoming _ _ _ => exact hIncoming
  case keep hIncoming _ _ _ => exact hIncoming
  case check hTurn => exact hTurn.incoming_of_returns (by simpa using hResult)

theorem TestTurn.incoming_eq {t : Token} {turn : Turn n Token Unit}
    (h : TestTurn rank t input turn) : turn.record.incoming = t.incoming := by
  cases h <;> rfl

theorem AbortTurn.rests_of_returns {cleanup : Bool} {a : Abort n} {turn : Turn n (Abort n) Unit}
    (h : AbortTurn cfg rank cleanup a input turn) (hResult : turn.result.isSome) :
    turn.record.phase = .start ∧ turn.record.toSend = [] := by
  cases h <;> simp_all [Turn.stays, Turn.returns, Turn.sends]

theorem ReduceTurn.phase_of_returned {sample : Int} {cleanup : Bool} {r : Reduce n}
    {turn : Turn n (Reduce n) Outcome} (h : ReduceTurn cfg rank sample cleanup r input turn)
    (hResult : turn.result = some .returned) : turn.record.phase = .start := by
  cases h <;> simp_all [Turn.stays, Turn.returns, Turn.sends, Turn.sendsAndReturns]

theorem SyncTurn.phase_of_returned {sample : Int} {r : Reduce n}
    {turn : Turn n (Reduce n) Outcome} (h : SyncTurn cfg rank sample r input turn)
    (hResult : turn.result = some .returned) : turn.record.phase = .start := by
  cases h <;> simp_all [Turn.stays, Turn.returns, Turn.sends, Turn.sendsAndReturns]

theorem Phases.step_replying (h : Phases s) (hStep : MainStep cfg rank input s s' out) :
    s'.work.replying = true → s'.pc = .workreqCheck := by
  have hOld := h.replying
  cases hStep
  case workreqCheck turn pc hPc hTurn hNext =>
    subst hNext
    cases hResult : turn.result
    · simp
    · simp [(workreqTurn_of_eq hTurn).replying_of_returns (by simp [hResult])]
  case workreceiptCheck turn pc hPc hTurn hNext =>
    obtain ⟨outstanding, hWork⟩ := (receiptTurn_of_eq hTurn).work_eq
    simp_all
  case requestWork turn pc hPc hTurn hNext =>
    have hSame := (requestTurn_of_eq hTurn).replying_eq
    simp_all
  case callback ops work hPc hInput hCount hAbort hWork => simp
  all_goals simp_all

theorem Phases.step_receiving (h : Phases s) (hStep : MainStep cfg rank input s s' out) :
    s'.work.receiving ≠ none → s'.pc = .requestWork ∨ s'.pc = .failed := by
  have hOld := h.receiving
  cases hStep
  case workreqCheck turn pc hPc hTurn hNext =>
    have hSame := (workreqTurn_of_eq hTurn).receiving_eq
    simp_all
  case workreceiptCheck turn pc hPc hTurn hNext =>
    obtain ⟨outstanding, hWork⟩ := (receiptTurn_of_eq hTurn).work_eq
    simp_all
  case requestWork turn pc hPc hTurn hNext =>
    subst hNext
    rcases hResult : turn.result with _ | _ | _
    · simp
    · simp [(requestTurn_of_eq hTurn).receiving_of_returned hResult]
    · simp
  case callback ops work hPc hInput hCount hAbort hWork =>
    obtain ⟨result, -, rfl⟩ := Option.map_eq_some_iff.mp hWork
    simp_all
  all_goals simp_all

theorem Phases.step_term (h : Phases s) (hStep : MainStep cfg rank input s s' out) :
    s'.term.phase ≠ .children → s'.pc = .checkForTermAllReduce := by
  have hOld := h.term
  cases hStep
  case checkForTermAllReduce turn hPc hTurn =>
    cases hResult : turn.result
    · simp
    · simp [(termTurn_of_eq hTurn).phase_of_returns (by simp [hResult])]
  all_goals simp_all

theorem Phases.step_token (h : Phases s) (hStep : MainStep cfg rank input s s' out) :
    s'.token.incoming ≠ none → s'.pc = .checkForTerm ∨ s'.pc = .tokenCheck := by
  have hOld := h.token
  cases hStep
  case checkForTerm turn hPc hTurn =>
    cases hResult : turn.result
    · simp
    · simp [(checkTurn_of_eq hTurn).incoming_of_returns (by simp [hResult])]
  case tokenCheck turn hPc hTurn =>
    cases hResult : turn.result
    · simp
    · simp [(tokenTurn_of_eq hTurn).incoming_of_returns (by simp [hResult])]
  case tokenTest turn hPc hTurn =>
    have hSame := (testTurn_of_eq hTurn).incoming_eq
    simp_all
  all_goals simp_all

theorem Phases.step_barrier (h : Phases s) (hStep : MainStep cfg rank input s s' out) :
    s'.barrier.phase ≠ .children → s'.pc = .barrierTest := by
  have hOld := h.barrier
  cases hStep
  case barrierStart hPc hInput =>
    simp
  case barrierTest turn hPc hTurn hResult =>
    cases hResult : turn.result
    · simp
    · simp [(barrierTurn_of_eq hTurn).phase_of_returns (by simp [hResult])]
  case leaveBarrier turn hPc hTurn hResult =>
    simp [(barrierTurn_of_eq hTurn).phase_of_returns (by simp [hResult])]
  all_goals simp_all

theorem Phases.step_abort (h : Phases s) (hStep : MainStep cfg rank input s s' out) :
    s'.abort.phase ≠ .start ∨ s'.abort.toSend ≠ [] → s'.pc = .abortCheck := by
  have hOld := h.abort
  cases hStep
  case abortCheck turn pc hPc hTurn hNext =>
    subst hNext
    cases hResult : turn.result
    · simp
    · simp [(abortTurn_of_eq hTurn).rests_of_returns (by simp [hResult])]
  all_goals simp_all

theorem Phases.step_reduce (h : Phases s) (hStep : MainStep cfg rank input s s' out) :
    s'.reduce.phase ≠ .start → s'.pc = .reduceCheck ∨ s'.pc = .reduceSync ∨ s'.pc = .failed := by
  have hOld := h.reduce
  cases hStep
  case reduceCheck turn pc hPc hTurn hNext =>
    subst hNext
    rcases hResult : turn.result with _ | _ | _
    · simp
    · simp [(reduceTurn_of_eq hTurn).phase_of_returned hResult]
    · simp
  case reduceSync turn hPc hTurn =>
    rcases hResult : turn.result with _ | _ | _
    · simp
    · simp [(syncTurn_of_eq hTurn).phase_of_returned hResult]
    · simp
  all_goals simp_all

theorem phases_step (h : Phases s) (hStep : MainStep cfg rank input s s' out) : Phases s' where
  replying := h.step_replying hStep
  receiving := h.step_receiving hStep
  term := h.step_term hStep
  token := h.step_token hStep
  barrier := h.step_barrier hStep
  abort := h.step_abort hStep
  reduce := h.step_reduce hStep

/-- What a rank knows about where it is. -/
structure Control (cfg : Config n) (s : State n) : Prop where
  fits : s.Fits cfg
  phases : Phases s

theorem control_start (start : Start rank) : Control cfg start.state where
  fits := trivial
  phases := by constructor <;> simp [Start.state]

theorem control_step (h : Control cfg s) (hStep : MainStep cfg rank input s s' out) :
    Control cfg s' where
  fits := fits_step h.fits hStep
  phases := phases_step h.phases hStep

/-- The rule for what a rank knows: a turn has to keep it, and may use it for
all ranks. -/
theorem Execution.forall_rank {ok : World n → Fin n → Event n → Prop}
    {L : Fin n → Rank n → Prop}
    (hStart : ∀ (rank : Fin n) (start : Start rank),
      L rank { state := start.state, sent := fun _ _ => [], rcvd := fun _ _ => [] })
    (hStep : ∀ g rank input state out, Execution cfg ok g → (∀ other, L other (g other)) →
      FifoNet.Admits g rank input → MainStep cfg rank input (g rank).state state out →
      L rank ((g rank).after input state out))
    {g : World n} (h : Execution cfg ok g) : ∀ rank, L rank (g rank) := by
  refine FifoNet.Reachable.forall_node ?_ ?_ h
  · rintro states ⟨start, hStates⟩ rank
    rw [hStates rank]
    exact hStart rank (start rank)
  · intro g rank input state out hReach hAll hFires
    exact hStep g rank input state out hReach hAll hFires.admits
      (mainStep_of_mainLoop hFires.acts)

theorem Execution.control {ok : World n → Fin n → Event n → Prop} {g : World n}
    (h : Execution cfg ok g) (rank : Fin n) : Control cfg (g rank).state := by
  refine h.forall_rank (L := fun _ node => Control cfg node.state) ?_ ?_ rank
  · intro rank start
    exact control_start start
  · intro g rank input state out _ hAll _ hStep
    exact control_step (hAll rank) hStep

end Circle
