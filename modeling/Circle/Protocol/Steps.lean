import Circle.MainLoop

/-!
# What a turn of the main loop can do

`MainStep` lists the turns of `mainLoop` by the function that takes them, with
the members that it leaves changed.  Every invariant is proved by cases on it.
The second part says which tags each function hears and speaks, so that the
channels of all other tags are unchanged.
-/

namespace Circle

variable {n : Nat} {cfg : Config n} {rank : Fin n} {input : Input n} {s s' : State n}
  {out : Option (Packet n)}

/-- The turns of a rank. -/
inductive MainStep (cfg : Config n) (rank : Fin n) (input : Input n) (s : State n) :
    State n → Option (Packet n) → Prop where
  | raise (hInput : input = .tick .raiseAbort) :
      MainStep cfg rank input s { s with abort := { s.abort with abortFlag := true } } none
  | workreqCheck {turn : Turn n (Work n × Color) Unit} {pc : Pc} (hPc : s.pc = .workreqCheck)
      (hTurn : s.work.workreqCheck cfg rank s.cleanup s.abort.abortFlag s.token.tokenProc input =
        some turn)
      (hNext : pc = if turn.result.isSome then s.afterWorkreq cfg else .workreqCheck) :
      MainStep cfg rank input s { s with
        work := turn.record.1
        token := { s.token with tokenProc := turn.record.2 }
        pc := pc } turn.out
  | workreceiptCheck {turn : Turn n (Work n × Bool) Unit} {pc : Pc}
      (hPc : s.pc = .workreceiptCheck)
      (hTurn : s.work.workreceiptCheck s.term.termFlag input = some turn)
      (hNext : pc = if turn.result.isSome then .abortCheck else .workreceiptCheck) :
      MainStep cfg rank input s { s with
        work := turn.record.1
        term := { s.term with termFlag := turn.record.2 }
        pc := pc } turn.out
  | abortCheck {turn : Turn n (Abort n) Unit} {pc : Pc} (hPc : s.pc = .abortCheck)
      (hTurn : s.abort.abortCheck cfg rank s.cleanup input = some turn)
      (hNext : pc = if turn.result.isSome then s.afterAbort cfg else .abortCheck) :
      MainStep cfg rank input s { s with abort := turn.record, pc := pc } turn.out
  | reduceCheck {turn : Turn n (Reduce n) Outcome} {pc : Pc} (hPc : s.pc = .reduceCheck)
      (hTurn : s.reduce.reduceCheck cfg rank s.localObjectsProcessed s.cleanup input = some turn)
      (hNext : pc = match turn.result with
        | none => .reduceCheck
        | some .failed => .failed
        | some .returned => if s.cleanup then .requestWork else s.afterReduce) :
      MainStep cfg rank input s { s with reduce := turn.record, pc := pc } turn.out
  | requestWork {turn : Turn n (Work n × Bool) Outcome} {pc : Pc} (hPc : s.pc = .requestWork)
      (hTurn : s.work.requestWork cfg rank s.cleanup s.abort.abortFlag input = some turn)
      (hNext : pc = match turn.result with
        | none => .requestWork
        | some .failed => .failed
        | some .returned => if s.cleanup then .abortCheck else .process) :
      MainStep cfg rank input s { s with
        work := turn.record.1
        abort := { s.abort with abortFlag := turn.record.2 }
        pc := pc } turn.out
  | callback {ops : List QueueOp} {work : Work n} (hPc : s.pc = .process)
      (hInput : input = .tick (.callback ops)) (hCount : s.work.queue.count > 0)
      (hAbort : s.abort.abortFlag = false) (hWork : s.work.process cfg.page ops = some work) :
      MainStep cfg rank input s { s with
        work := work
        localObjectsProcessed := s.localObjectsProcessed + 1
        pc := .workreqCheck } none
  | idle (hPc : s.pc = .process) (hInput : input = .tick .go)
      (hIdle : s.work.queue.count = 0 ∨ s.abort.abortFlag = true) :
      MainStep cfg rank input s
        { s with pc := if cfg.termTree then .checkForTermAllReduce else .checkForTerm } none
  | checkForTerm {turn : Turn n Token Bool} (hPc : s.pc = .checkForTerm)
      (hTurn : s.token.checkForTerm rank s.abort.abortFlag input = some turn) :
      MainStep cfg rank input s { s with
        token := turn.record
        cleanup := turn.result = some true || s.cleanup
        pc := match turn.result with
          | none => .checkForTerm
          | some true => .barrierStart
          | some false => .workreqCheck } turn.out
  | checkForTermAllReduce {turn : Turn n (Term n) Bool} (hPc : s.pc = .checkForTermAllReduce)
      (hTurn : s.term.checkForTermAllReduce cfg rank s.work.workOutstanding input = some turn) :
      MainStep cfg rank input s { s with
        term := turn.record
        cleanup := turn.result = some true || s.cleanup
        pc := match turn.result with
          | none => .checkForTermAllReduce
          | some true => .barrierStart
          | some false => .workreqCheck } turn.out
  | barrierStart (hPc : s.pc = .barrierStart) (hInput : input = .tick .go) :
      MainStep cfg rank input s { s with
        barrier := if s.readyForBarrier then s.barrier.barrierStart else s.barrier
        pc := .barrierTest } none
  | barrierTest {turn : Turn n (Barrier n) Bool} (hPc : s.pc = .barrierTest)
      (hTurn : s.barrier.barrierTest cfg rank input = some turn)
      (hResult : turn.result ≠ some true) :
      MainStep cfg rank input s { s with
        barrier := turn.record
        pc := if turn.result.isSome then .workreqCheck else .barrierTest } turn.out
  | leaveBarrier {turn : Turn n (Barrier n) Bool} (hPc : s.pc = .barrierTest)
      (hTurn : s.barrier.barrierTest cfg rank input = some turn)
      (hResult : turn.result = some true) :
      MainStep cfg rank input s { s with
        barrier := turn.record
        abortReduce := if cfg.reduceEnabled then s.abortReduce
          else .enter (cfg.links rank) s.abort.abortFlag
        pc := if cfg.reduceEnabled then .reduceSync else .abortReduce } turn.out
  | tokenCheck {turn : Turn n Token Unit} (hPc : s.pc = .tokenCheck)
      (hTurn : s.token.tokenCheck rank s.abort.abortFlag input = some turn) :
      MainStep cfg rank input s { s with
        token := turn.record
        pc := if turn.result.isSome then .tokenTest else .tokenCheck } turn.out
  | tokenTest {turn : Turn n Token Unit} (hPc : s.pc = .tokenTest)
      (hTurn : s.token.tokenTest rank input = some turn) :
      MainStep cfg rank input s { s with token := turn.record, pc := .barrierStart } turn.out
  | reduceSync {turn : Turn n (Reduce n) Outcome} (hPc : s.pc = .reduceSync)
      (hTurn : s.reduce.reduceSync cfg rank s.localObjectsProcessed input = some turn) :
      MainStep cfg rank input s { s with
        reduce := turn.record
        abortReduce := if turn.result = some .returned then .enter (cfg.links rank) s.abort.abortFlag
          else s.abortReduce
        pc := match turn.result with
          | none => .reduceSync
          | some .failed => .failed
          | some .returned => .abortReduce } turn.out
  | abortReduce {turn : Turn n (AbortReduce n) Bool} (hPc : s.pc = .abortReduce)
      (hTurn : s.abortReduce.abortReduce (cfg.links rank) input = some turn)
      (hResult : turn.result = none) :
      MainStep cfg rank input s { s with abortReduce := turn.record, pc := .abortReduce } turn.out
  | leaveAbortReduce {turn : Turn n (AbortReduce n) Bool} {flag : Bool}
      (hPc : s.pc = .abortReduce)
      (hTurn : s.abortReduce.abortReduce (cfg.links rank) input = some turn)
      (hResult : turn.result = some flag) :
      MainStep cfg rank input s { s with
        abortReduce := turn.record
        abort := { s.abort with abortFlag := flag, abortState := flag }
        pc := if flag then .checkpoint else .done } turn.out

/-- Every turn of `mainLoop` is one of the list. -/
theorem mainStep_of_mainLoop (h : mainLoop cfg rank input s = some (s', out)) :
    MainStep cfg rank input s s' out := by
  unfold mainLoop at h
  split at h
  · cases h
    exact .raise rfl
  · cases hPc : s.pc <;> simp only [hPc, reduceCtorEq] at h
    case workreqCheck =>
      obtain ⟨turn, hTurn, hEq⟩ := Option.map_eq_some_iff.mp h
      rcases turn with ⟨⟨work, proc⟩, sent, _ | _⟩ <;> cases hEq <;>
        exact .workreqCheck hPc hTurn rfl
    case workreceiptCheck =>
      obtain ⟨turn, hTurn, hEq⟩ := Option.map_eq_some_iff.mp h
      rcases turn with ⟨⟨work, flag⟩, sent, _ | _⟩ <;> cases hEq <;>
        exact .workreceiptCheck hPc hTurn rfl
    case abortCheck =>
      obtain ⟨turn, hTurn, hEq⟩ := Option.map_eq_some_iff.mp h
      rcases turn with ⟨abort, sent, _ | _⟩ <;> cases hEq <;> exact .abortCheck hPc hTurn rfl
    case reduceCheck =>
      obtain ⟨turn, hTurn, hEq⟩ := Option.map_eq_some_iff.mp h
      rcases turn with ⟨reduce, sent, _ | _ | _⟩ <;> cases hEq <;>
        exact .reduceCheck hPc hTurn rfl
    case requestWork =>
      obtain ⟨turn, hTurn, hEq⟩ := Option.map_eq_some_iff.mp h
      rcases turn with ⟨⟨work, flag⟩, sent, _ | _ | _⟩ <;> cases hEq <;>
        exact .requestWork hPc hTurn rfl
    case process =>
      split at h
      next hBusy =>
        split at h
        next ops =>
          -- the callback runs with items in the queue and no flag raised
          obtain ⟨work, hWork, hEq⟩ := Option.map_eq_some_iff.mp h
          cases hEq
          exact .callback hPc rfl hBusy.1 (by simpa using hBusy.2) hWork
        next => cases h
      next hBusy =>
        split at h
        next =>
          cases h
          -- `mainLoop` calls back only under both conditions: here one of them fails
          refine .idle hPc rfl ?_
          by_cases hCount : s.work.queue.count = 0
          · exact Or.inl hCount
          · refine Or.inr ?_
            by_contra hAbort
            exact hBusy ⟨Nat.pos_of_ne_zero hCount, hAbort⟩
        next => cases h
    case checkForTerm =>
      obtain ⟨turn, hTurn, hEq⟩ := Option.map_eq_some_iff.mp h
      rcases turn with ⟨token, sent, _ | _ | _⟩ <;> cases hEq <;>
        exact .checkForTerm hPc hTurn
    case checkForTermAllReduce =>
      obtain ⟨turn, hTurn, hEq⟩ := Option.map_eq_some_iff.mp h
      rcases turn with ⟨term, sent, _ | _ | _⟩ <;> cases hEq <;>
        exact .checkForTermAllReduce hPc hTurn
    case barrierStart =>
      split at h
      next =>
        cases h
        exact .barrierStart hPc rfl
      next => cases h
    case barrierTest =>
      obtain ⟨turn, hTurn, hEq⟩ := Option.map_eq_some_iff.mp h
      rcases turn with ⟨barrier, sent, _ | _ | _⟩
      · cases hEq
        exact .barrierTest hPc hTurn (by simp)
      · cases hEq
        exact .barrierTest hPc hTurn (by simp)
      · -- behind the barrier comes the last reduction, if there is one
        cases hReduce : cfg.reduceEnabled <;> simp only [hReduce] at hEq <;> cases hEq
        · simpa [hReduce, State.enterAbortReduce] using
            (MainStep.leaveBarrier hPc hTurn rfl : MainStep cfg rank input s _ _)
        · simpa [hReduce] using
            (MainStep.leaveBarrier hPc hTurn rfl : MainStep cfg rank input s _ _)
    case tokenCheck =>
      obtain ⟨turn, hTurn, hEq⟩ := Option.map_eq_some_iff.mp h
      rcases turn with ⟨token, sent, _ | _⟩ <;> cases hEq <;> exact .tokenCheck hPc hTurn
    case tokenTest =>
      obtain ⟨turn, hTurn, hEq⟩ := Option.map_eq_some_iff.mp h
      cases hEq
      exact .tokenTest hPc hTurn
    case reduceSync =>
      obtain ⟨turn, hTurn, hEq⟩ := Option.map_eq_some_iff.mp h
      rcases turn with ⟨reduce, sent, _ | _ | _⟩ <;> cases hEq <;>
        exact .reduceSync hPc hTurn
    case abortReduce =>
      obtain ⟨turn, hTurn, hEq⟩ := Option.map_eq_some_iff.mp h
      rcases turn with ⟨abort, sent, _ | flag⟩ <;> cases hEq
      · exact .abortReduce hPc hTurn rfl
      · exact .leaveAbortReduce hPc hTurn rfl

/-! ## The order of the functions -/

/-- Where a turn can leave a rank. -/
def Pc.next : Pc → List Pc
  | .workreqCheck => [.workreqCheck, .workreceiptCheck, .reduceCheck, .requestWork]
  | .workreceiptCheck => [.workreceiptCheck, .abortCheck]
  | .abortCheck => [.abortCheck, .reduceCheck, .requestWork, .process, .barrierStart, .tokenCheck]
  | .reduceCheck => [.reduceCheck, .requestWork, .process, .failed]
  | .requestWork => [.requestWork, .process, .abortCheck, .failed]
  | .process => [.process, .workreqCheck, .checkForTerm, .checkForTermAllReduce]
  | .checkForTerm => [.checkForTerm, .workreqCheck, .barrierStart]
  | .checkForTermAllReduce => [.checkForTermAllReduce, .workreqCheck, .barrierStart]
  | .barrierStart => [.barrierStart, .barrierTest]
  | .barrierTest => [.barrierTest, .workreqCheck, .reduceSync, .abortReduce]
  | .tokenCheck => [.tokenCheck, .tokenTest]
  | .tokenTest => [.tokenTest, .barrierStart]
  | .reduceSync => [.reduceSync, .abortReduce, .failed]
  | .abortReduce => [.abortReduce, .checkpoint, .done]
  | .checkpoint => [.checkpoint]
  | .done => [.done]
  | .failed => [.failed]

theorem MainStep.next (hStep : MainStep cfg rank input s s' out) : s'.pc ∈ s.pc.next := by
  cases hStep
  case raise => cases s.pc <;> decide
  case workreqCheck turn pc hPc hTurn hNext =>
    subst hNext
    simp only [hPc, State.afterWorkreq]
    repeat' split
    all_goals decide
  case workreceiptCheck turn pc hPc hTurn hNext =>
    subst hNext
    simp only [hPc]
    split <;> decide
  case abortCheck turn pc hPc hTurn hNext =>
    subst hNext
    simp only [hPc, State.afterAbort, State.afterReduce]
    repeat' split
    all_goals decide
  case reduceCheck turn pc hPc hTurn hNext =>
    subst hNext
    simp only [hPc, State.afterReduce]
    repeat' split
    all_goals decide
  case requestWork turn pc hPc hTurn hNext =>
    subst hNext
    simp only [hPc]
    repeat' split
    all_goals decide
  case leaveAbortReduce turn flag hPc hTurn hResult =>
    simp only [hPc]
    cases flag <;> decide
  case callback hPc _ _ _ _ | barrierStart hPc _ | tokenTest hPc _ | abortReduce hPc _ _ =>
    simp only [hPc]
    decide
  case idle hPc _ _ | barrierTest hPc _ _ | leaveBarrier hPc _ _ | tokenCheck hPc _ |
      reduceSync hPc _ | checkForTerm hPc _ | checkForTermAllReduce hPc _ =>
    simp only [hPc]
    split <;> decide

/-- The functions that a rank is in before `abortReduce`. -/
def Pc.early : Pc → Bool
  | .abortReduce | .checkpoint | .done => false
  | _ => true

/-- No function comes before `abortReduce` again. -/
theorem early_of_step (hStep : MainStep cfg rank input s s' out) (hEarly : s'.pc.early = true) :
    s.pc.early = true := by
  have hNext := hStep.next
  revert hNext hEarly
  generalize s.pc = pc, s'.pc = pc'
  cases pc <;> cases pc' <;> decide

/-! ## Who uses a tag -/

/-- The tags that a function hears or speaks. -/
def Pc.tags : Pc → List Tag
  | .workreqCheck => [.workRequest, .workReply]
  | .workreceiptCheck => [.workReceipt]
  | .abortCheck => [.abortRequest, .abortReply]
  | .reduceCheck | .reduceSync => [.reduce]
  | .requestWork => [.workRequest, .workReply, .workReceipt]
  | .checkForTerm | .tokenCheck | .tokenTest => [.token]
  | .checkForTermAllReduce => [.term]
  | .barrierTest => [.barrier]
  | .abortReduce => [.abortReduce]
  | .process | .barrierStart | .checkpoint | .done | .failed => []

/-- A turn leaves the tags of other functions alone. -/
theorem MainStep.silent (hStep : MainStep cfg rank input s s' out) {tag : Tag}
    (hTag : tag ∉ s.pc.tags) : Silent tag input out := by
  have hNe {pc : Pc} {other : Tag} (hPc : s.pc = pc) (hUses : other ∈ pc.tags) : tag ≠ other := by
    rintro rfl
    exact hTag (hPc ▸ hUses)
  cases hStep
  case raise hInput | callback hInput _ _ _ | idle hInput _ | barrierStart hInput =>
    subst hInput
    exact silent_tick _ _
  case workreqCheck hPc hTurn _ =>
    exact (workreqTurn_of_eq hTurn).silent (hNe hPc (by decide)) (hNe hPc (by decide))
  case workreceiptCheck hPc hTurn _ => exact (receiptTurn_of_eq hTurn).silent (hNe hPc (by decide))
  case abortCheck hPc hTurn _ =>
    exact (abortTurn_of_eq hTurn).silent (hNe hPc (by decide)) (hNe hPc (by decide))
  case reduceCheck hPc hTurn _ => exact (reduceTurn_of_eq hTurn).silent (hNe hPc (by decide))
  case requestWork hPc hTurn _ =>
    exact (requestTurn_of_eq hTurn).silent (hNe hPc (by decide)) (hNe hPc (by decide))
      (hNe hPc (by decide))
  case checkForTerm hPc hTurn => exact (checkTurn_of_eq hTurn).silent (hNe hPc (by decide))
  case checkForTermAllReduce hPc hTurn => exact (termTurn_of_eq hTurn).silent (hNe hPc (by decide))
  case barrierTest hPc hTurn _ | leaveBarrier hPc hTurn _ =>
    exact (barrierTurn_of_eq hTurn).silent (hNe hPc (by decide))
  case tokenCheck hPc hTurn => exact (tokenTurn_of_eq hTurn).silent (hNe hPc (by decide))
  case tokenTest hTurn => exact (testTurn_of_eq hTurn).silent _
  case reduceSync hPc hTurn => exact (syncTurn_of_eq hTurn).silent (hNe hPc (by decide))
  case abortReduce hPc hTurn _ | leaveAbortReduce hPc hTurn _ =>
    exact (abortReduceTurn_of_eq hTurn).silent (hNe hPc (by decide))

end Circle
