import Circle.Protocol.RingTermination

/-!
# The end of the ring

The terminating token goes from rank 0 through the ring, and stays with the rank
that does not pass it on (`RingStage`).  So there is no token under way once all
ranks have terminated, also when ranks abort.
-/

namespace Circle

open FifoNet (Log inFlight)

variable {n : Nat} {cfg : Config n} {rank : Fin n} {input : Input n} {s s' : State n}
  {out : Option (Packet n)} {ok : World n → Fin n → Event n → Prop} {g : World n}

/-- The token members of a system. -/
def World.token (g : World n) (r : Fin n) : Token := (g r).state.token

/-- Where the terminating token is. -/
inductive RingStage (g : World n) : Prop where
  /-- No rank has terminated, and no token says so. -/
  | before (hProc : ∀ r, (g.token r).tokenProc ≠ .terminate)
      (hBuf : ∀ r, (g.token r).tokenBuf ≠ .terminate)
      (hIncoming : ∀ r, (g.token r).incoming ≠ some .terminate)
      (hFlight : ∀ src dst, Msg.color .terminate ∉ inFlight g src dst .token)
  /-- The ranks before `d` have terminated, and the token is on its way to
  `d`. -/
  | passing (d : Fin n) (hProc : ∀ r, (g.token r).tokenProc = .terminate ↔ r < d)
      (hHeld : ∀ r, (g.token r).tokenIsLocal = true → r = d ∧
        (g.token r).incoming = some .terminate)
      (hFlight : ∀ src dst msg, msg ∈ inFlight g src dst .token →
        dst = d ∧ msg = .color .terminate)
  /-- The ranks up to `k` have terminated, and the token stays with `k`. -/
  | kept (k : Fin n) (hProc : ∀ r, (g.token r).tokenProc = .terminate ↔ r ≤ k)
      (hLocal : (g.token k).tokenIsLocal = true) (hIncoming : (g.token k).incoming = none)

/-! ## Who has terminated -/

theorem WorkreqTurn.proc_of_terminate {cleanup abortFlag : Bool} {w : Work n} {proc : Color}
    {turn : Turn n (Work n × Color) Unit}
    (h : WorkreqTurn cfg rank cleanup abortFlag w proc input turn)
    (hProc : turn.record.2 = .terminate) : proc = .terminate := by
  cases h
  case header =>
    simp only [Turn.sends, Work.colorAfterSend] at hProc
    split at hProc
    · cases hProc
    · exact hProc
  all_goals exact hProc

/-- A rank gets the colour of termination from a token. -/
theorem CheckTurn.result_of_terminate {abortFlag : Bool} {t : Token} {turn : Turn n Token Bool}
    (h : CheckTurn rank abortFlag t input turn) (hOld : t.tokenProc ≠ .terminate)
    (hProc : turn.record.tokenProc = .terminate) : turn.result = some true := by
  cases h
  case terminated hSame => exact (hOld hSame).elim
  case pass | keep => cases hProc
  case check hTurn =>
    cases hTurn
    case accept =>
      simp only [Turn.returns] at hProc
      split at hProc
      · cases hProc
      · exact (hOld hProc).elim
    case forward | stop => simp [Turn.returns, Turn.sendsAndReturns]
    all_goals exact (hOld hProc).elim

/-- A rank with the colour of termination has left the main loop. -/
theorem Execution.cleanup_of_terminate (h : Execution cfg ok g) (r : Fin n) :
    (g r).state.token.tokenProc = .terminate → (g r).state.cleanup = true := by
  refine h.forall_rank (L := fun _ node =>
    node.state.token.tokenProc = .terminate → node.state.cleanup = true) ?_ ?_ r
  · intro r start hProc
    cases hProc
  · intro g r input s' out hReach hAll _ hStep hProc
    have hOld := hAll r
    have hFits := (hReach.control r).fits
    rw [FifoNet.Node.after_state] at hProc ⊢
    cases hStep
    case workreqCheck hTurn hNext =>
      exact hOld ((workreqTurn_of_eq hTurn).proc_of_terminate hProc)
    case checkForTerm turn hPc hTurn =>
      simp only [State.Fits, hPc] at hFits
      have hNot : (g r).state.token.tokenProc ≠ .terminate := by
        intro hSame
        rw [hOld hSame] at hFits
        cases hFits.1
      simp [(checkTurn_of_eq hTurn).result_of_terminate hNot hProc]
    case tokenCheck hPc _ | tokenTest hPc _ =>
      simp only [State.Fits, hPc] at hFits
      exact hFits.1
    case checkForTermAllReduce => simp [hOld hProc]
    all_goals exact hOld hProc

/-! ## One turn -/

section Turns

variable {g' : World n}

/-- Nothing changes that the stage depends on. -/
theorem RingStage.frame (h : RingStage g)
    (hProc : ∀ r, (g'.token r).tokenProc = .terminate ↔ (g.token r).tokenProc = .terminate)
    (hBuf : ∀ r, (g'.token r).tokenBuf = (g.token r).tokenBuf)
    (hIncoming : ∀ r, (g'.token r).incoming = (g.token r).incoming)
    (hLocal : ∀ r, (g'.token r).tokenIsLocal = (g.token r).tokenIsLocal)
    (hFlight : ∀ src dst msg, msg ∈ inFlight g' src dst .token → msg ∈ inFlight g src dst .token) :
    RingStage g' := by
  cases h with
  | before hOldProc hOldBuf hOldIncoming hOldFlight =>
      refine .before (fun r hEq => hOldProc r ((hProc r).mp hEq)) (fun r => ?_) (fun r => ?_)
        fun src dst hMem => hOldFlight src dst (hFlight src dst _ hMem)
      · rw [hBuf r]
        exact hOldBuf r
      · rw [hIncoming r]
        exact hOldIncoming r
  | passing d hOldProc hOldHeld hOldFlight =>
      refine .passing d (fun r => (hProc r).trans (hOldProc r)) (fun r => ?_)
        fun src dst msg hMem => hOldFlight src dst msg (hFlight src dst msg hMem)
      rw [hLocal r, hIncoming r]
      exact hOldHeld r
  | kept k hOldProc hOldLocal hOldIncoming =>
      refine .kept k (fun r => (hProc r).trans (hOldProc r)) ?_ ?_
      · rw [hLocal k]
        exact hOldLocal
      · rw [hIncoming k]
        exact hOldIncoming

/-- What a turn of one rank does to the system. -/
structure TokenChange (g g' : World n) (rank : Fin n) (t : Token) (out : Option (Packet n)) :
    Prop where
  self : g'.token rank = t
  other : ∀ r, r ≠ rank → g'.token r = g.token r
  flight : ∀ src dst msg, msg ∈ inFlight g' src dst .token →
    msg ∈ inFlight g src dst .token ∨ src = rank ∧ out = some ⟨dst, .token, msg⟩

/-- A property of the token members of all ranks. -/
theorem TokenChange.forall {t : Token} (h : TokenChange g g' rank t out) {P : Fin n → Token → Prop}
    (hSelf : P rank t) (hOther : ∀ r, r ≠ rank → P r (g.token r)) (r : Fin n) :
    P r (g'.token r) := by
  by_cases hEq : r = rank
  · subst hEq
    rw [h.self]
    exact hSelf
  · rw [h.other r hEq]
    exact hOther r hEq

/-- A turn that does nothing to the stage. -/
theorem RingStage.same (h : RingStage g) {t : Token} (hChange : TokenChange g g' rank t out)
    (hProc : t.tokenProc = .terminate ↔ (g.token rank).tokenProc = .terminate)
    (hBuf : t.tokenBuf = (g.token rank).tokenBuf)
    (hIncoming : t.incoming = (g.token rank).incoming)
    (hLocal : t.tokenIsLocal = (g.token rank).tokenIsLocal)
    (hSilent : ∀ packet, out = some packet → packet.tag ≠ .token) : RingStage g' := by
  refine h.frame
    (hChange.forall (P := fun r t => t.tokenProc = .terminate ↔
      (g.token r).tokenProc = .terminate) hProc fun _ _ => Iff.rfl)
    (hChange.forall (P := fun r t => t.tokenBuf = (g.token r).tokenBuf) hBuf fun _ _ => rfl)
    (hChange.forall (P := fun r t => t.incoming = (g.token r).incoming) hIncoming fun _ _ => rfl)
    (hChange.forall (P := fun r t => t.tokenIsLocal = (g.token r).tokenIsLocal) hLocal
      fun _ _ => rfl) ?_
  intro src dst msg hMem
  rcases hChange.flight src dst msg hMem with hOld | ⟨-, hOut⟩
  · exact hOld
  · exact (hSilent _ hOut rfl).elim

/-- Nobody terminates. -/
theorem RingStage.stays_before {t : Token} (hChange : TokenChange g g' rank t out)
    (hProc : ∀ r, (g.token r).tokenProc ≠ .terminate)
    (hBuf : ∀ r, (g.token r).tokenBuf ≠ .terminate)
    (hIncoming : ∀ r, (g.token r).incoming ≠ some .terminate)
    (hFlight : ∀ src dst, Msg.color .terminate ∉ inFlight g src dst .token)
    (hProc' : t.tokenProc ≠ .terminate) (hBuf' : t.tokenBuf ≠ .terminate)
    (hIncoming' : t.incoming ≠ some .terminate)
    (hSent : ∀ dst, out ≠ some ⟨dst, .token, .color .terminate⟩) : RingStage g' := by
  refine .before
    (hChange.forall (P := fun _ t => t.tokenProc ≠ .terminate) hProc' fun r _ => hProc r)
    (hChange.forall (P := fun _ t => t.tokenBuf ≠ .terminate) hBuf' fun r _ => hBuf r)
    (hChange.forall (P := fun _ t => t.incoming ≠ some .terminate) hIncoming'
      fun r _ => hIncoming r) ?_
  intro src dst hMem
  rcases hChange.flight src dst _ hMem with hOld | ⟨-, hOut⟩
  · exact hFlight src dst hOld
  · exact hSent dst hOut

/-- A rank passes the terminating token on. -/
theorem RingStage.forward {t : Token} (hChange : TokenChange g g' rank t out)
    (hHeld : TokenHeld g rank) (hRank : rank.val + 1 < n)
    (hProc : ∀ r, r ≠ rank → ((g.token r).tokenProc = .terminate ↔ r < rank))
    (hProc' : t.tokenProc = .terminate) (hLocal' : t.tokenIsLocal = false)
    (hOut : out = some ⟨tokenDest rank, .token, .color .terminate⟩) : RingStage g' := by
  have hDest : (tokenDest rank).val = rank.val + 1 := by
    simp [tokenDest, Nat.mod_eq_of_lt hRank]
  refine .passing (tokenDest rank)
    (hChange.forall (P := fun r t => t.tokenProc = .terminate ↔ r < tokenDest rank) ?_
      fun r hNe => ?_)
    (hChange.forall (P := fun r t => t.tokenIsLocal = true → r = tokenDest rank ∧
      t.incoming = some .terminate) ?_ fun r hNe hLocal => ?_) ?_
  · rw [Fin.lt_def, hDest]
    exact iff_of_true hProc' (Nat.lt_succ_self _)
  · rw [hProc r hNe, Fin.lt_def, Fin.lt_def, hDest]
    have hVal := Fin.val_ne_of_ne hNe
    omega
  · rw [hLocal']
    intro hFalse
    cases hFalse
  · exact (hNe ((hHeld.held r).mp hLocal)).elim
  · intro src dst msg hMem
    rcases hChange.flight src dst msg hMem with hOld | ⟨-, hSent⟩
    · rw [hHeld.flight] at hOld
      cases hOld
    · rw [hOut, Option.some.injEq, FifoNet.Packet.mk.injEq] at hSent
      exact ⟨hSent.1.symm, hSent.2.2.symm⟩

/-- A rank keeps the terminating token. -/
theorem RingStage.stop {t : Token} (hChange : TokenChange g g' rank t out)
    (hProc : ∀ r, r ≠ rank → ((g.token r).tokenProc = .terminate ↔ r < rank))
    (hProc' : t.tokenProc = .terminate) (hLocal' : t.tokenIsLocal = true)
    (hIncoming' : t.incoming = none) : RingStage g' := by
  refine .kept rank
    (hChange.forall (P := fun r t => t.tokenProc = .terminate ↔ r ≤ rank)
      (iff_of_true hProc' (Fin.le_refl _)) fun r hNe => ?_) ?_ ?_
  · rw [hProc r hNe, Fin.lt_def, Fin.le_def]
    have hVal := Fin.val_ne_of_ne hNe
    omega
  · rw [hChange.self]
    exact hLocal'
  · rw [hChange.self]
    exact hIncoming'

/-- What a rank knows that takes up the terminating token. -/
theorem RingStage.terminates (h : RingStage g) (hReach : Execution cfg ok g) {token : Color}
    (hIncoming : (g.token rank).incoming = some token)
    (hToken : token = .terminate ∨ rank.val = 0 ∧ token = .white) (r : Fin n) :
    (g.token r).tokenProc = .terminate ↔ r < rank := by
  have hLocal : (g.token rank).tokenIsLocal = true :=
    (hReach.tokenInv rank).incoming (by
      show (g.token rank).incoming ≠ none
      simp [hIncoming])
  cases h with
  | before hProc hBuf hNone hFlight =>
      rcases hToken with rfl | ⟨hZero, -⟩
      · exact (hNone rank hIncoming).elim
      · refine iff_of_false (hProc r) ?_
        rw [Fin.lt_def]
        omega
  | passing d hProc hHeld hFlight =>
      obtain ⟨rfl, -⟩ := hHeld rank hLocal
      exact hProc r
  | kept k hProc hKept hNone =>
      obtain rfl := ((tokenHeld_of_local hReach hKept).held rank).mp hLocal
      rw [hNone] at hIncoming
      cases hIncoming

theorem RingStage.tokenTurn (h : RingStage g) (hReach : Execution cfg ok g)
    (hAdmits : FifoNet.Admits g rank input) {abortFlag : Bool} {turn : Turn n Token Unit}
    (hTurn : TokenTurn rank abortFlag (g.token rank) input turn)
    (hChange : TokenChange g g' rank turn.record turn.out) : RingStage g' := by
  have hHeld {token : Color} (hIncoming : (g.token rank).incoming = some token) :
      (g.token rank).tokenIsLocal = true ∧ TokenHeld g rank := by
    have hLocal : (g.token rank).tokenIsLocal = true :=
      (hReach.tokenInv rank).incoming (by
        show (g.token rank).incoming ≠ none
        simp [hIncoming])
    exact ⟨hLocal, tokenHeld_of_local hReach hLocal⟩
  cases hTurn
  case nothing => exact h.same hChange Iff.rfl rfl rfl rfl (by simp [Turn.returns])
  case sent => exact h.same hChange Iff.rfl rfl rfl rfl (by simp [Turn.stays])
  case arrive token hIncoming =>
    have hMsg := FifoNet.mem_inFlight_of_admits hAdmits
    cases h with
    | before hProc hBuf hNone hFlight =>
        -- no rank has terminated, and the token that arrives is not the terminate token
        refine stays_before hChange hProc hBuf hNone hFlight (hProc rank) (hBuf rank) ?_
          (by simp [Turn.stays])
        simp only [Turn.stays, Option.some.injEq, ne_eq]
        rintro rfl
        exact hFlight _ _ hMsg
    | passing d hProc hOld hFlight =>
        -- the terminate token is on its way round, and this is its next rank
        obtain ⟨rfl, hColor⟩ := hFlight _ _ _ hMsg
        rw [Msg.color.injEq] at hColor
        subst hColor
        refine .passing rank
          (hChange.forall (P := fun r t => t.tokenProc = .terminate ↔ r < rank) (hProc rank)
            fun r _ => hProc r)
          (hChange.forall (P := fun r t => t.tokenIsLocal = true → r = rank ∧
            t.incoming = some .terminate) (fun _ => ⟨rfl, rfl⟩) fun r _ => hOld r) ?_
        intro src dst msg hMem
        rcases hChange.flight src dst msg hMem with hBefore | ⟨-, hOut⟩
        · exact hFlight src dst msg hBefore
        · cases hOut
    | kept k hProc hLocal hNone =>
        rw [(tokenHeld_of_local hReach hLocal).flight] at hMsg
        cases hMsg
  case accept token hIncoming hPending hToken hMaster =>
    obtain ⟨hLocal, hToken'⟩ := hHeld hIncoming
    cases h with
    | before hProc hBuf hNone hFlight =>
        refine stays_before hChange hProc hBuf hNone hFlight ?_ hToken (by simp [Turn.returns])
          (by simp [Turn.returns])
        simp only [Turn.returns]
        split
        · simp
        · exact hProc rank
    | passing d hProc hOld hFlight =>
        have hSame := (hOld rank hLocal).2
        rw [hIncoming, Option.some.injEq] at hSame
        exact (hToken hSame).elim
    | kept k hProc hKept hNone =>
        obtain rfl := ((tokenHeld_of_local hReach hKept).held rank).mp hLocal
        rw [hNone] at hIncoming
        cases hIncoming
  case forward token hIncoming hPending hToken hRank hAbort =>
    exact forward hChange (hHeld hIncoming).2 hRank
      (fun r _ => h.terminates hReach hIncoming hToken r) rfl rfl rfl
  case stop token hIncoming hPending hToken hLast =>
    exact stop hChange (fun r _ => h.terminates hReach hIncoming hToken r) rfl
      (hHeld hIncoming).1 rfl

/-- A turn of a rank that has the token and has not terminated. -/
theorem RingStage.idleTurn (h : RingStage g) (hReach : Execution cfg ok g)
    (hIncoming : (g.token rank).incoming = none) (hProc : (g.token rank).tokenProc ≠ .terminate)
    (hLocal : (g.token rank).tokenIsLocal = true) {t : Token}
    (hChange : TokenChange g g' rank t out) (hProc' : t.tokenProc = .white) (hBuf' : t.tokenBuf = (g.token rank).passedColor rank)
    (hIncoming' : t.incoming = none)
    (hOut : ∀ packet, out = some packet → packet.tag = .token →
      packet.msg = .color ((g.token rank).passedColor rank)) : RingStage g' := by
  cases h with
  | before hOldProc hBuf hNone hFlight =>
      have hColor : (g.token rank).passedColor rank ≠ .terminate :=
        fun hEq => hBuf rank (tokenBuf_of_passedColor hEq)
      refine stays_before hChange hOldProc hBuf hNone hFlight (by simp [hProc']) ?_
        (by simp [hIncoming']) ?_
      · rw [hBuf']
        exact hColor
      · intro dst hSent
        have hMsg := hOut _ hSent rfl
        rw [Msg.color.injEq] at hMsg
        exact hColor hMsg.symm
  | passing d hOldProc hHeld hFlight =>
      have hSome := (hHeld rank hLocal).2
      rw [hIncoming] at hSome
      cases hSome
  | kept k hOldProc hKept hNone =>
      obtain rfl := ((tokenHeld_of_local hReach hKept).held rank).mp hLocal
      exact (hProc ((hOldProc rank).mpr (Fin.le_refl _))).elim

theorem RingStage.step (h : RingStage g) (hReach : Execution cfg ok g)
    (hFires : FifoNet.Fires (mainLoop cfg) g rank input s' out) :
    RingStage (FifoNet.set g rank ((g rank).after input s' out)) := by
  have hStep := mainStep_of_mainLoop hFires.acts
  have hToken := tokenStep_of_mainStep hStep
  have hChange : TokenChange g (FifoNet.set g rank ((g rank).after input s' out)) rank s'.token
      out := {
    self := by rw [World.token, FifoNet.set_self, FifoNet.Node.after_state]
    other := fun r hNe => by rw [World.token, FifoNet.set_of_ne _ _ hNe, World.token]
    flight := fun src dst msg => FifoNet.mem_inFlight_set }
  generalize FifoNet.set g rank ((g rank).after input s' out) = g' at hChange ⊢
  generalize s'.token = t at hToken hChange
  cases hToken
  case other hReply hSilent =>
    exact h.same hChange Iff.rfl rfl rfl rfl hSilent.out
  case workreq turn hTurn =>
    refine h.same hChange ⟨hTurn.proc_of_terminate, fun hProc => ?_⟩ rfl rfl rfl
      (hTurn.silent (by decide) (by decide)).out
    have hCleanup := hReach.cleanup_of_terminate rank hProc
    exact (hTurn.proc_eq_of_retired fun hReplying =>
      ((hReach.retired rank).shares hCleanup hReplying).2).trans hProc
  case pass hIncoming hProc hLocal =>
    refine h.idleTurn hReach hIncoming hProc hLocal hChange rfl rfl hIncoming ?_
    rintro packet hOut -
    cases hOut
    rfl
  case keep hIncoming hProc hLocal =>
    exact h.idleTurn hReach hIncoming hProc hLocal hChange rfl rfl hIncoming (by simp)
  case turn turn hTurn => exact h.tokenTurn hReach hFires.admits hTurn hChange
  case test hTurn =>
    cases hTurn
    case sent => exact h.same hChange Iff.rfl rfl rfl rfl (by simp [Turn.returns])
    case nothing => exact h.same hChange Iff.rfl rfl rfl rfl (by simp [Turn.returns])

end Turns

/-! ## Executions -/

theorem Execution.ringStage (h : Execution cfg ok g) : RingStage g := by
  refine FifoNet.Reachable.invariant (I := RingStage) ?_ ?_ h
  · rintro states ⟨start, hStates⟩
    refine .before ?_ ?_ ?_ ?_ <;>
      simp [World.token, FifoNet.fresh, hStates, Start.state, inFlight]
  · intro g rank event input s' out hReach hInv _ _ hFires
    exact hInv.step hReach hFires

/-- Once all ranks have terminated in ring mode, no token is under way. -/
theorem Execution.token_received (h : Execution cfg ok g) (hRing : cfg.termTree = false)
    (hDone : ∀ r, (g r).state.cleanup = true) (src dst : Fin n) :
    inFlight g src dst .token = [] := by
  have hTerminated (r : Fin n) : (g.token r).tokenProc = .terminate :=
    h.terminate_of_cleanup hRing r (hDone r)
  cases h.ringStage with
  | before hProc _ _ _ => exact (hProc src (hTerminated src)).elim
  | passing d hProc _ _ => exact (Fin.lt_irrefl d ((hProc d).mp (hTerminated d))).elim
  | kept k _ hLocal _ => exact (tokenHeld_of_local h hLocal).flight src dst

end Circle
