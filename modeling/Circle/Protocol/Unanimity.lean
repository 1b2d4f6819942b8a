import Circle.Protocol.Drained

/-!
# One and the same flag

Where all ranks come to `abortReduce` with the same value of `ABORT_FLAG`, every
flag that they exchange there has this value, and so has the result.
-/

namespace Circle

open FifoNet (Log inFlight)

variable {n : Nat} {cfg : Config n} {rank : Fin n} {input : Input n} {s s' : State n}
  {out : Option (Packet n)} {value : Bool}

/-- A rank that has seen only one value in `abortReduce`, and has told only this. -/
structure Unanimous (value : Bool) (s : State n) (sent : Log (Fin n) Tag Msg) : Prop where
  result : s.pc ≠ if value then .done else .checkpoint
  flag : s.pc = .abortReduce → s.abortReduce.flag = value
  sent : ∀ peer, ∀ msg ∈ sent peer .abortReduce, msg = .flag value

theorem unanimous_of_early {sent : Log (Fin n) Tag Msg} (hEarly : s.pc.early = true)
    (hSent : ∀ peer, sent peer .abortReduce = []) : Unanimous value s sent where
  result := by
    intro hPc
    rw [hPc] at hEarly
    cases value <;> cases hEarly
  flag := by
    intro hPc
    rw [hPc] at hEarly
    cases hEarly
  sent := fun peer msg hMem => by
    rw [hSent peer] at hMem
    cases hMem

/-! ## Turns -/

theorem AbortReduceTurn.unanimous {a : AbortReduce n} {turn : Turn n (AbortReduce n) Bool}
    (h : AbortReduceTurn (cfg.links rank) a input turn) (hFlag : a.flag = value)
    (hRcvd : ∀ src msg, input = .recv src .abortReduce msg → msg = .flag value) :
    turn.record.flag = value ∧ (∀ flag, turn.result = some flag → flag = value) ∧
      ∀ packet, turn.out = some packet → packet.msg = .flag value := by
  cases h
  case collect =>
    obtain ⟨rfl⟩ := hRcvd _ _ rfl
    simp [Turn.stays, hFlag]
  case learn =>
    obtain ⟨rfl⟩ := hRcvd _ _ rfl
    simp [Turn.stays]
  case contribute | tell => simp [Turn.sends, hFlag]
  case decide => simp [Turn.stays, hFlag]
  case finish => simp [Turn.returns, hFlag]

theorem Unanimous.of_silent {sent : Log (Fin n) Tag Msg} (h : Unanimous value s sent)
    (hSilent : Silent .abortReduce input out)
    (hResult : s'.pc ≠ if value then .done else .checkpoint)
    (hFlag : s'.pc = .abortReduce → s'.abortReduce.flag = value) :
    Unanimous value s' (sent.send out) where
  result := hResult
  flag := hFlag
  sent := fun peer msg hMem => h.sent peer msg (by rwa [hSilent.sent sent peer] at hMem)

theorem Unanimous.sent_of {sent : Log (Fin n) Tag Msg} (h : Unanimous value s sent)
    (hOut : ∀ packet, out = some packet → packet.msg = .flag value) (peer : Fin n) :
    ∀ msg ∈ sent.send out peer .abortReduce, msg = .flag value := by
  intro msg hMem
  rcases Log.mem_send hMem with hOld | ⟨packet, hSome, rfl⟩
  · exact h.sent peer msg hOld
  · exact hOut packet hSome

/-- A rank comes to `abortReduce` with the value of its flag, and keeps to it. -/
theorem Unanimous.step {sent : Log (Fin n) Tag Msg} (h : Unanimous value s sent)
    (hCalm : s.pc.early = true → s.abort.abortFlag = value)
    (hRcvd : ∀ src msg, input = .recv src .abortReduce msg → msg = .flag value)
    (hStep : MainStep cfg rank input s s' out) : Unanimous value s' (sent.send out) := by
  have hNext := hStep.next
  have hOther {pc : Pc} (hPc : s.pc = pc) (hTags : Tag.abortReduce ∉ pc.tags)
      (hEarly : ∀ next ∈ pc.next, next.early = true) : Unanimous value s' (sent.send out) := by
    subst hPc
    have hAfter := hEarly _ hNext
    refine h.of_silent (hStep.silent hTags) ?_ ?_
    · intro hLate
      rw [hLate] at hAfter
      cases value <;> cases hAfter
    · intro hLate
      rw [hLate] at hAfter
      cases hAfter
  cases hStep
  case raise hInput =>
    have hSilent : Silent .abortReduce (.tick .raiseAbort : Input n) none := silent_tick _ _
    exact h.of_silent hSilent h.result h.flag
  case leaveBarrier turn hPc hTurn hResult =>
    have hFlag : s.abort.abortFlag = value := hCalm (by rw [hPc]; rfl)
    refine h.of_silent ((barrierTurn_of_eq hTurn).silent (by decide)) ?_ ?_
    · cases cfg.reduceEnabled <;> cases value <;> simp
    · intro hLate
      cases hEnabled : cfg.reduceEnabled with
      | true => simp [hEnabled] at hLate
      | false => simpa [hEnabled, AbortReduce.enter] using hFlag
  case reduceSync turn hPc hTurn =>
    have hFlag : s.abort.abortFlag = value := hCalm (by rw [hPc]; rfl)
    refine h.of_silent ((syncTurn_of_eq hTurn).silent (by decide)) ?_ ?_
    · rcases turn.result with _ | _ | _ <;> cases value <;> simp
    · intro hLate
      rcases hResult : turn.result with _ | _ | _ <;> simp [hResult] at hLate
      simpa [hResult, AbortReduce.enter] using hFlag
  case barrierTest turn hPc hTurn hResult =>
    refine h.of_silent ((barrierTurn_of_eq hTurn).silent (by decide)) ?_ ?_
    all_goals
      simp only
      split <;> cases value <;> simp
  case abortReduce turn hPc hTurn hResult =>
    obtain ⟨hFlag, -, hOut⟩ := (abortReduceTurn_of_eq hTurn).unanimous (h.flag hPc) hRcvd
    exact ⟨by cases value <;> simp, fun _ => hFlag, h.sent_of hOut⟩
  case leaveAbortReduce turn flag hPc hTurn hResult =>
    obtain ⟨-, hSame, hOut⟩ := (abortReduceTurn_of_eq hTurn).unanimous (h.flag hPc) hRcvd
    obtain rfl := hSame flag hResult
    cases flag
    all_goals exact ⟨by simp, by simp, h.sent_of hOut⟩
  case workreqCheck hPc _ _ | workreceiptCheck hPc _ _ | abortCheck hPc _ _ | reduceCheck hPc _ _ |
      requestWork hPc _ _ | callback hPc _ _ _ _ | idle hPc _ _ | checkForTerm hPc _ |
      checkForTermAllReduce hPc _ | barrierStart hPc _ | tokenCheck hPc _ | tokenTest hPc _ =>
    exact hOther hPc (by decide) (by decide)

/-! ## Executions -/

section Executions

variable {ok : World n → Fin n → Event n → Prop} {g : World n}

/-- A turn of a system in which all ranks have seen the same value. -/
theorem unanimous_fires (hAll : ∀ r, Unanimous value (g r).state (g r).sent)
    (hFires : FifoNet.Fires (mainLoop cfg) g rank input s' out)
    (hFlag : (g rank).state.pc.early = true → (g rank).state.abort.abortFlag = value) :
    ∀ r, Unanimous value (FifoNet.set g rank ((g rank).after input s' out) r).state
      (FifoNet.set g rank ((g rank).after input s' out) r).sent := by
  apply FifoNet.forall_set (P := fun _ (node : Rank n) => Unanimous value node.state node.sent)
  · refine (hAll rank).step hFlag ?_ (mainStep_of_mainLoop hFires.acts)
    rintro src msg rfl
    exact (hAll src).sent rank msg (FifoNet.mem_sent_of_admits hFires.admits)
  · exact fun r _ => hAll r

/-- Before `abortReduce` a rank has said nothing in it. -/
theorem Execution.abortReduce_of_early (h : Execution cfg ok g) {r : Fin n}
    (hEarly : (g r).state.pc.early = true) (dst : Fin n) : (g r).sent dst .abortReduce = [] := by
  by_cases hNear : dst ∈ cfg.neighbours r
  · obtain ⟨entry, hInv⟩ := h.abortMainInv r
    rw [abortStage_of_early hEarly] at hInv
    rcases mem_neighbours_iff.mp hNear with hParent | hChild
    · exact hInv.sent_parent dst hParent
    · exact hInv.sent_child dst hChild
  · exact h.abortReduce_far r dst hNear

end Executions

end Circle
