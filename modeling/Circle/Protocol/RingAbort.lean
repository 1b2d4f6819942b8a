import Circle.Base.Leads
import Circle.Protocol.RingEnd

/-!
# An aborted ring

With `ABORT_FLAG` up on all ranks no token is sent any more, and a rank leaves
the work loop in ring mode only with the terminating token.  So a rank that no
token is on its way to stays in the work loop for ever, and all others wait for
it in the barrier.
-/

namespace Circle

open FifoNet (inFlight)

variable {n : Nat} {cfg : Config n} {rank : Fin n} {input : Input n} {s s' : State n}
  {out : Option (Packet n)} {g g' : World n}

/-- The flag is up on every rank. -/
def Aborted (g : World n) : Prop := ∀ r, (g r).state.abort.abortFlag = true

/-! ## Turns under the flag -/

theorem AbortTurn.abortFlag {cleanup : Bool} {a : Abort n} {turn : Turn n (Abort n) Unit}
    (h : AbortTurn cfg rank cleanup a input turn) (hFlag : a.abortFlag = true) :
    turn.record.abortFlag = true := by
  have hStart (a : Abort n) : (a.abortStart cfg rank cleanup).abortFlag = true := by
    unfold Abort.abortStart
    dsimp only
    split
    · rfl
    · split <;> rfl
  cases h
  case enter | answer => exact hStart _
  all_goals exact hFlag

/-- Only `abortReduce` takes the flag down. -/
theorem MainStep.abortFlag (hStep : MainStep cfg rank input s s' out)
    (hEarly : s.pc.early = true) (hFlag : s.abort.abortFlag = true) :
    s'.abort.abortFlag = true := by
  cases hStep
  case raise => rfl
  case abortCheck hTurn _ => exact (abortTurn_of_eq hTurn).abortFlag hFlag
  case requestWork hTurn _ =>
    have hRequest := requestTurn_of_eq hTurn
    rw [hFlag] at hRequest
    cases hRequest <;> simp [Turn.returns, Turn.stays, Turn.sendsAndReturns]
  case leaveAbortReduce hPc _ _ =>
    rw [hPc] at hEarly
    cases hEarly
  all_goals exact hFlag

theorem TokenTurn.keeps_token {t : Token} {turn : Turn n Token Unit}
    (h : TokenTurn rank true t input turn) : turn.out = none := by
  cases h
  case forward hAbort => cases hAbort
  all_goals rfl

/-- A rank whose flag is up sends no token. -/
theorem MainStep.keeps_token (hStep : MainStep cfg rank input s s' out)
    (hFlag : s.abort.abortFlag = true) : ∀ packet, out = some packet → packet.tag ≠ .token := by
  by_cases hTags : Tag.token ∈ s.pc.tags
  · have hNone : out = none := by
      cases hStep
      case checkForTerm hTurn =>
        have hCheck := checkTurn_of_eq hTurn
        rw [hFlag] at hCheck
        cases hCheck
        case pass hAbort => cases hAbort
        case check hToken => exact hToken.keeps_token
        all_goals rfl
      case tokenCheck hTurn =>
        have hCheck := tokenTurn_of_eq hTurn
        rw [hFlag] at hCheck
        exact hCheck.keeps_token
      case tokenTest hTurn => cases testTurn_of_eq hTurn <;> rfl
      all_goals first | rfl | simp_all [Pc.tags]
    intro packet hOut
    rw [hNone] at hOut
    cases hOut
  · exact (hStep.silent hTags).out

/-- A rank comes to `TERMINATE` with a token that it has received. -/
theorem TokenStep.not_terminate {t : Token} (h : TokenStep cfg rank s input t out)
    (hProc : s.token.tokenProc ≠ .terminate) (hIncoming : s.token.incoming = none) :
    t.tokenProc ≠ .terminate := by
  cases h
  case other => exact hProc
  case workreq hTurn =>
    rcases hTurn.proc_or_black with hSame | hBlack
    · rwa [hSame]
    · simp [hBlack]
  case pass | keep => simp
  case turn hTurn =>
    cases hTurn
    case arrive | nothing => exact hProc
    all_goals simp_all
  case test hTurn => cases hTurn <;> exact hProc

/-- A rank has a token to accept when it has received one. -/
theorem TokenStep.incoming_none {t : Token} (h : TokenStep cfg rank s input t out)
    (hIncoming : s.token.incoming = none) (hNone : ∀ src msg, input ≠ .recv src .token msg) :
    t.incoming = none := by
  cases h
  case turn hTurn =>
    cases hTurn
    case arrive => exact (hNone _ _ rfl).elim
    case sent hSome _ | accept hSome _ _ _ | forward hSome _ _ _ _ | stop hSome _ _ _ =>
      rw [hIncoming] at hSome
      cases hSome
    case nothing => exact hIncoming
  case test hTurn => cases hTurn <;> exact hIncoming
  all_goals exact hIncoming

/-! ## Ranks that no token comes to -/

/-- The rank has not seen the terminating token, and no token is on its way to it. -/
structure Stranded (g : World n) (r : Fin n) : Prop where
  proc : (g r).state.token.tokenProc ≠ .terminate
  incoming : (g r).state.token.incoming = none
  flight : ∀ src, inFlight g src r .token = []

theorem Stranded.cleanup (hStranded : Stranded g rank) (h : Execution cfg FifoNet.always g)
    (hRing : cfg.termTree = false) : (g rank).state.cleanup = false := by
  by_contra hCleanup
  exact hStranded.proc (h.terminate_of_cleanup hRing rank (Bool.eq_true_of_not_eq_false hCleanup))

/-- All wait for the stranded rank in the barrier. -/
theorem Stranded.stays (hStranded : Stranded g rank) (h : Execution cfg FifoNet.always g)
    (hRing : cfg.termTree = false) (r : Fin n) : (g r).state.pc.leftBarrier = false := by
  by_contra hLeft
  have hEntered := h.all_started (Bool.eq_true_of_not_eq_false hLeft) rank
  have hCleanup := (h.of_started (P := fun _ => True) (fun _ _ _ => trivial)
    (fun _ _ _ _ _ _ _ _ _ _ => trivial) rank hEntered).1
  rw [hStranded.cleanup h hRing] at hCleanup
  cases hCleanup

theorem early_of_stays (hStays : (g rank).state.pc.leftBarrier = false) : (g rank).state.pc.early = true := by
  revert hStays
  cases (g rank).state.pc <;> decide

theorem Stranded.step (hStranded : Stranded g rank) (h : Execution cfg FifoNet.always g)
    (hRing : cfg.termTree = false) (hAborted : Aborted g) {r : Fin n}
    (hFires : FifoNet.Fires (mainLoop cfg) g r input s' out) :
    Aborted (FifoNet.set g r ((g r).after input s' out)) ∧
      Stranded (FifoNet.set g r ((g r).after input s' out)) rank := by
  have hStep := mainStep_of_mainLoop hFires.acts
  have hQuiet := hStep.keeps_token (hAborted r)
  have hEarly := early_of_stays (hStranded.stays h hRing r)
  have hFlight (src : Fin n) :
      inFlight (FifoNet.set g r ((g r).after input s' out)) src rank .token = [] := by
    refine List.eq_nil_iff_forall_not_mem.mpr fun msg hMem => ?_
    rcases FifoNet.mem_inFlight_set hMem with hOld | ⟨rfl, hOut⟩
    · rw [hStranded.flight src] at hOld
      cases hOld
    · exact hQuiet _ hOut rfl
  refine ⟨fun other => ?_, ?_⟩
  · by_cases hSelf : other = r
    · subst hSelf
      rw [FifoNet.set_self, FifoNet.Node.after_state]
      exact hStep.abortFlag hEarly (hAborted other)
    · rw [FifoNet.set_of_ne _ _ hSelf]
      exact hAborted other
  · by_cases hSelf : rank = r
    · subst hSelf
      have hToken := tokenStep_of_mainStep hStep
      refine ⟨?_, ?_, hFlight⟩
      · rw [FifoNet.set_self, FifoNet.Node.after_state]
        exact hToken.not_terminate hStranded.proc hStranded.incoming
      · rw [FifoNet.set_self, FifoNet.Node.after_state]
        refine hToken.incoming_none hStranded.incoming fun src msg hInput => ?_
        subst hInput
        have hMem := FifoNet.mem_inFlight_of_admits hFires.admits
        rw [hStranded.flight src] at hMem
        cases hMem
    · refine ⟨?_, ?_, hFlight⟩ <;> rw [FifoNet.set_of_ne _ _ hSelf]
      · exact hStranded.proc
      · exact hStranded.incoming

/-- Of two ranks that have not terminated, one is stranded: there is one token. -/
theorem Execution.exists_stranded (h : Execution cfg FifoNet.always g) {a b : Fin n} (hNe : a ≠ b)
    (hFirst : (g a).state.token.tokenProc ≠ .terminate)
    (hSecond : (g b).state.token.tokenProc ≠ .terminate) : ∃ r, Stranded g r := by
  have hOther (d : Fin n) : ∃ r, r ≠ d ∧ (g r).state.token.tokenProc ≠ .terminate := by
    by_cases hSame : a = d
    · exact ⟨b, fun hEq => hNe (hSame.trans hEq.symm), hSecond⟩
    · exact ⟨a, hSame, hFirst⟩
  rcases tokenHeld_or_tokenFlying h.fifo (Fin.pos a) h.tokenInv with
    ⟨owner, hHeld⟩ | ⟨sender, color, hFlying⟩
  · obtain ⟨r, hRank, hProc⟩ := hOther owner
    refine ⟨r, hProc, ?_, fun src => hHeld.flight src r⟩
    by_contra hSome
    exact hRank ((hHeld.held r).mp ((h.tokenInv r).incoming hSome))
  · obtain ⟨r, hRank, hProc⟩ := hOther (tokenDest sender)
    refine ⟨r, hProc, ?_, fun src => ?_⟩
    · by_contra hSome
      have hLocal := (h.tokenInv r).incoming hSome
      rw [hFlying.held r] at hLocal
      cases hLocal
    · rw [hFlying.flight src r, if_neg fun hEdge => hRank hEdge.2]

/-- An execution that no continuation ends. -/
structure Trapped (cfg : Config n) (g : World n) : Prop where
  /-- One and the same rank stays in the work loop, -/
  loops : ∃ r, ∀ g', FifoNet.Leads (mainLoop cfg) g g' → (g' r).state.cleanup = false
  /-- and none leaves the barrier. -/
  stays : ∀ g', FifoNet.Leads (mainLoop cfg) g g' → ∀ r, (g' r).state.pc.leftBarrier = false

/-- A stranded rank traps all others, once the flag is up everywhere. -/
theorem Stranded.noExit (hStranded : Stranded g rank) (h : Execution cfg FifoNet.always g)
    (hRing : cfg.termTree = false) (hAborted : Aborted g) : Trapped cfg g := by
  have hI : FifoNet.Keeps (mainLoop cfg) (Execution cfg FifoNet.always)
      (Execution cfg FifoNet.always) := fun g i input s' out hReach _ hFires => hReach.fires hFires
  have hQ : FifoNet.Keeps (mainLoop cfg) (Execution cfg FifoNet.always)
      (fun g => Aborted g ∧ Stranded g rank) := fun g i input s' out hReach hOld hFires =>
    hOld.2.step hReach hRing hOld.1 hFires
  have hLater (g' : World n) (hLeads : FifoNet.Leads (mainLoop cfg) g g') :=
    hI.leads hQ h ⟨hAborted, hStranded⟩ hLeads
  exact {
    loops := ⟨rank, fun g' hLeads => (hLater g' hLeads).2.2.cleanup (hLater g' hLeads).1 hRing⟩
    stays := fun g' hLeads => (hLater g' hLeads).2.2.stays (hLater g' hLeads).1 hRing }

/-- When the flag comes up everywhere before two ranks have terminated, a ring
can never return. -/
theorem Execution.trapped (h : Execution cfg FifoNet.always g) (hRing : cfg.termTree = false)
    (hAborted : Aborted g) {a b : Fin n} (hNe : a ≠ b)
    (hFirst : (g a).state.token.tokenProc ≠ .terminate)
    (hSecond : (g b).state.token.tokenProc ≠ .terminate) : Trapped cfg g := by
  obtain ⟨r, hStranded⟩ := h.exists_stranded hNe hFirst hSecond
  exact hStranded.noExit h hRing hAborted

/-- Two ranks are aborted before they have taken any other turn. -/
theorem trapped_pairWorld : ∃ g,
    FifoNet.run (mainLoop (pairConfig false false)) pairWorld
      [(0, .tick .raiseAbort), (1, .tick .raiseAbort)] = some g ∧
    Trapped (pairConfig false false) g := by
  obtain ⟨g, hRun⟩ : ∃ g, FifoNet.run (mainLoop (pairConfig false false)) pairWorld
      [(0, .tick .raiseAbort), (1, .tick .raiseAbort)] = some g := ⟨_, rfl⟩
  refine ⟨g, hRun, Execution.trapped (FifoNet.Reachable.run (execution_pairWorld _ _) hRun) rfl
    ?_ (show (0 : Fin 2) ≠ 1 by decide) ?_ ?_⟩
  · cases hRun
    exact Fin.forall_fin_two.mpr ⟨rfl, rfl⟩
  · cases hRun
    decide
  · cases hRun
    decide

end Circle
