import Circle.Protocol.Finishing
import Circle.Protocol.Flood

/-!
# How far the abort flood reaches

A rank that is asked to abort does so, and asks its own neighbours unless it is in
cleanup.  The neighbours are those of a tree, so that the flood comes to all
ranks: once it has come to rest, either every rank has aborted or none, as long
as no rank was in cleanup.
-/

namespace Circle

open FifoNet (Log inFlight)

variable {n : Nat} {cfg : Config n} {rank : Fin n} {input : Input n} {s s' : State n}
  {out : Option (Packet n)} {sent rcvd : Log (Fin n) Tag Msg} {a : Abort n} {cleanup : Bool}

/-- A rank in the abort state has its flag up, is in it once it is asked, and asks its
neighbours outside cleanup. -/
structure Alarm (cfg : Config n) (rank : Fin n) (a : Abort n) (cleanup : Bool)
    (sent rcvd : Log (Fin n) Tag Msg) : Prop where
  flag : a.abortState = true → a.abortFlag = true
  asked : ∀ q, rcvd q .abortRequest ≠ [] → a.abortState = true
  asks : cleanup = false → a.abortState = true → ∀ q,
    (sent q .abortRequest).length + a.toSend.count q = (cfg.neighbours rank).count q

theorem alarm_start (start : Start rank) :
    Alarm cfg rank start.state.abort start.state.cleanup (fun _ _ => []) (fun _ _ => []) where
  flag := by simp [Start.state]
  asked := fun _ hAsked => absurd rfl hAsked
  asks := by simp [Start.state]

/-- Turns that leave the requests and the abort state alone. -/
theorem Alarm.frame (h : Alarm cfg rank a cleanup sent rcvd) {a' : Abort n} {cleanup' : Bool}
    {sent' rcvd' : Log (Fin n) Tag Msg} (hCleanup : cleanup' = false → cleanup = false)
    (hFlag : a.abortFlag = true → a'.abortFlag = true) (hState : a'.abortState = a.abortState)
    (hToSend : a'.toSend = a.toSend)
    (hSent : ∀ q, sent' q .abortRequest = sent q .abortRequest)
    (hRcvd : ∀ q, rcvd' q .abortRequest = rcvd q .abortRequest) :
    Alarm cfg rank a' cleanup' sent' rcvd' where
  flag := fun hBegun => hFlag (h.flag (hState ▸ hBegun))
  asked := fun q hAsked => hState ▸ h.asked q (hRcvd q ▸ hAsked)
  asks := fun hOutside hBegun q => by
    rw [hSent, hToSend]
    exact h.asks (hCleanup hOutside) (hState ▸ hBegun) q

/-- `abortStart` puts a rank in the abort state. -/
theorem Alarm.abortStart (h : Alarm cfg rank a cleanup sent rcvd)
    (hLedger : AbortLedger cfg rank a true sent rcvd) :
    (a.abortStart cfg rank cleanup).abortState = true ∧
      Alarm cfg rank (a.abortStart cfg rank cleanup) cleanup sent rcvd := by
  by_cases hBegun : a.abortState = true
  · have hStart : a.abortStart cfg rank cleanup = { a with abortFlag := true } := by
      simp [Abort.abortStart, hBegun]
    rw [hStart]
    exact ⟨hBegun, h.frame (fun hOutside => hOutside) (fun _ => rfl) rfl rfl (fun _ => rfl)
      fun _ => rfl⟩
  · cases hCleanup : cleanup with
    | true =>
        have hStart : a.abortStart cfg rank true =
            { a with abortFlag := true, abortState := true } := by
          simp [Abort.abortStart, hBegun]
        rw [hStart]
        exact ⟨rfl, fun _ => rfl, fun _ _ => rfl, fun hOutside => by cases hOutside⟩
    | false =>
        have hStart : a.abortStart cfg rank false =
            { a with
              abortFlag := true
              abortState := true
              toSend := cfg.neighbours rank
              abortOutstanding := !(cfg.neighbours rank).isEmpty } := by
          simp [Abort.abortStart, hBegun]
        rw [hStart]
        refine ⟨rfl, fun _ => rfl, fun _ _ => rfl, fun _ _ q => ?_⟩
        -- no request was sent before the abort state
        cases hLedger.asked with
        | everybody hState _ => exact absurd (hState rfl) hBegun
        | nobody hNone _ => rw [hNone q, List.length_nil, Nat.zero_add]

theorem Alarm.turn (h : Alarm cfg rank a cleanup sent rcvd)
    (hLedger : AbortLedger cfg rank a true sent rcvd) {turn : Turn n (Abort n) Unit}
    (hTurn : AbortTurn cfg rank cleanup a input turn) :
    Alarm cfg rank turn.record cleanup (sent.send turn.out) (rcvd.receive input) := by
  have hPhase (phase : AbortPhase) : Alarm cfg rank { a with phase := phase } cleanup sent rcvd :=
    h.frame (fun hOutside => hOutside) (fun hFlag => hFlag) rfl rfl (fun _ => rfl) fun _ => rfl
  have hBooks (phase : AbortPhase) : AbortLedger cfg rank { a with phase := phase } true sent rcvd :=
    hLedger.frame (fun _ => ⟨rfl, fun hState => hState⟩) rfl rfl Or.inl (fun _ => rfl)
      (fun _ => rfl) hLedger.answered
  have hTags : Tag.abortRequest ≠ .abortReply := by decide
  cases hTurn
  case request neighbour rest hToSend =>
    refine ⟨h.flag, h.asked, fun hOutside hBegun q => ?_⟩
    have hBefore := h.asks hOutside hBegun q
    rw [hToSend, List.count_cons] at hBefore
    simp only [Turn.sends, Log.send_some, Log.length_add_same_tag]
    by_cases hSelf : q = neighbour
    · subst hSelf
      simp only [beq_self_eq_true, if_true] at hBefore ⊢
      omega
    · simp only [if_neg hSelf, beq_iff_eq, if_neg (Ne.symm hSelf)] at hBefore ⊢
      omega
  case enter => exact ((hPhase .probe).abortStart (hBooks .probe)).2
  case pass | noRequest => exact hPhase _
  case answer src msg hToSend hProbe =>
    obtain ⟨hBegun, hStarted⟩ := (hPhase .test).abortStart (hBooks .test)
    refine ⟨hStarted.flag, fun _ _ => hBegun, fun hOutside hState q => ?_⟩
    rw [Turn.sends, Log.send_some, Log.add_of_tag_ne _ _ _ _ hTags]
    exact hStarted.asks hOutside hState q
  case reply src msg hToSend hTest hSrc =>
    refine h.frame (fun hOutside => hOutside) (fun hFlag => hFlag) rfl rfl (fun _ => rfl) fun q => ?_
    exact Log.add_of_tag_ne _ _ _ _ hTags
  case complete =>
    exact h.frame (fun hOutside => hOutside) (fun hFlag => hFlag) rfl rfl (fun _ => rfl)
      fun _ => rfl
  case wait => exact hPhase _

theorem Alarm.step (h : Alarm cfg rank s.abort s.cleanup sent rcvd)
    (hLedger : AbortLedger cfg rank s.abort s.pc.early sent rcvd)
    (hStep : MainStep cfg rank input s s' out) (hEarly : s'.pc.early = true) :
    Alarm cfg rank s'.abort s'.cleanup (sent.send out) (rcvd.receive input) := by
  rw [early_of_step hStep hEarly] at hLedger
  have hCleanup : s'.cleanup = false → s.cleanup = false := by
    intro hOutside
    by_contra hBefore
    rw [cleanup_step (Bool.eq_true_of_not_eq_false hBefore) hStep] at hOutside
    cases hOutside
  have hFlood := floodStep_of_mainStep hStep
  have hLate := early_of_step hStep hEarly
  generalize s'.abort = a' at hFlood ⊢
  cases hFlood
  case other hRequest _ =>
    exact h.frame hCleanup (fun hFlag => hFlag) rfl rfl (hRequest.sent _) (hRequest.rcvd _)
  case raise => exact h.frame hCleanup (fun _ => rfl) rfl rfl (fun _ => rfl) fun _ => rfl
  case request turn hPc hTurn =>
    have hSilent : Silent .abortRequest input turn.out :=
      hTurn.silent (by decide) (by decide) (by decide)
    refine h.frame hCleanup (fun hFlag => ?_) rfl rfl (hSilent.sent _) (hSilent.rcvd _)
    show turn.record.2 = true
    cases hTurn
    case noItems => simp [Turn.returns, hFlag]
    all_goals exact hFlag
  case turn hPc hTurn =>
    exact (h.turn hLedger hTurn).frame hCleanup (fun hFlag => hFlag) rfl rfl (fun _ => rfl)
      fun _ => rfl
  case agree flag hPc _ _ =>
    rw [hPc] at hLate
    cases hLate

section Executions

variable {ok : World n → Fin n → Event n → Prop} {g : World n}

theorem Execution.alarm (h : Execution cfg ok g) (rank : Fin n) :
    (g rank).state.pc.early = true → Alarm cfg rank (g rank).state.abort (g rank).state.cleanup
      (g rank).sent (g rank).rcvd := by
  refine h.forall_rank (L := fun rank node => node.state.pc.early = true →
    Alarm cfg rank node.state.abort node.state.cleanup node.sent node.rcvd) ?_ ?_ rank
  · intro rank start _
    exact alarm_start start
  · intro g rank input s' out hReach hAll _ hStep hEarly
    exact (hAll rank (early_of_step hStep hEarly)).step (hReach.abortLedger rank) hStep hEarly

/-- A rank outside cleanup that has aborted and waits for no reply has been heard
by its neighbours. -/
theorem Execution.aborted_neighbour (h : Execution cfg ok g) {r q : Fin n}
    (hOutside : (g r).state.cleanup = false) (hBegun : (g r).state.abort.abortState = true)
    (hNone : (g r).state.abort.abortOutstanding = false) (hNear : q ∈ cfg.neighbours r)
    (hEarly : (g q).state.pc.early = true) : (g q).state.abort.abortState = true := by
  have hEarlyOwn : (g r).state.pc.early = true := by
    by_contra hLate
    have hFits := (h.control r).fits
    cases hPc : (g r).state.pc <;> simp_all [State.Fits, Pc.early]
  have hAll := (h.alarm r hEarlyOwn).asks hOutside hBegun q
  rw [((h.abortLedger r).outstanding hNone).1, List.count_nil, Nat.add_zero,
    List.count_eq_one_of_mem (nodup_neighbours cfg r) hNear] at hAll
  have hReplied := h.abort_replied hNone q
  obtain ⟨hReply, hAnswer, hRequest⟩ := h.abort_counts r q
  refine (h.alarm q hEarly).asked r fun hNil => ?_
  rw [hNil, List.length_nil] at hAnswer
  omega

/-- How far the flood has come. -/
structure FloodReaches (cfg : Config n) (g : World n) : Prop where
  /-- A rank that has aborted, is not in cleanup and waits for no reply has made its
  neighbours abort, -/
  spreads : ∀ r, (g r).state.cleanup = false → (g r).state.abort.abortState = true →
    (g r).state.abort.abortOutstanding = false → ∀ q ∈ cfg.neighbours r,
      (g q).state.pc.early = true →
        (g q).state.abort.abortState = true ∧ (g q).state.abort.abortFlag = true
  /-- and once no rank waits for a reply, all ranks have aborted or none has, if
  none is in cleanup. -/
  everywhere : (∀ r, (g r).state.cleanup = false) →
    (∀ r, (g r).state.abort.abortOutstanding = false) →
    (∃ r, (g r).state.abort.abortState = true) →
    ∀ r, (g r).state.abort.abortState = true ∧ (g r).state.abort.abortFlag = true

/-- In every execution, the abort flood comes to all ranks. -/
theorem Execution.floodReaches (h : Execution cfg ok g) : FloodReaches cfg g where
  spreads := by
    intro r hOutside hBegun hNone q hNear hEarly
    have hState := h.aborted_neighbour hOutside hBegun hNone hNear hEarly
    exact ⟨hState, (h.alarm q hEarly).flag hState⟩
  everywhere := by
    rintro hOutside hNone ⟨first, hFirst⟩ r
    have hEarly (q : Fin n) : (g q).state.pc.early = true := by
      by_contra hLate
      have hFits := (h.control q).fits
      have hNot := hOutside q
      cases hPc : (g q).state.pc <;> simp_all [State.Fits, Pc.early]
    have hSpreads {p q : Fin n} (hNear : q ∈ cfg.neighbours p)
        (hBegun : (g p).state.abort.abortState = true) : (g q).state.abort.abortState = true :=
      h.aborted_neighbour (hOutside p) hBegun (hNone p) hNear (hEarly q)
    -- from the first rank up to the root, and from the root down to every rank
    have hRoot : (g cfg.tree.root).state.abort.abortState = true := by
      refine cfg.tree.down_induction (P := fun i => (g i).state.abort.abortState = true →
        (g cfg.tree.root).state.abort.abortState = true) (fun hBegun => hBegun) ?_ first hFirst
      intro p c hParent ih hBegun
      exact ih (hSpreads (mem_neighbours_iff.mpr (Or.inl hParent)) hBegun)
    have hAll : (g r).state.abort.abortState = true := by
      refine cfg.tree.down_induction (P := fun i => (g i).state.abort.abortState = true) hRoot ?_ r
      intro p c hParent hBegun
      exact hSpreads (mem_neighbours_iff.mpr (Or.inr (cfg.tree.mem_children hParent))) hBegun
    exact ⟨hAll, (h.alarm r (hEarly r)).flag hAll⟩

end Executions

/-- Both ranks are told to abort, and tell each other. -/
def abortingTurns : List (Fin 2 × Event 2) :=
  List.flatten [
    [(0, .tick .raiseAbort), (1, .tick .raiseAbort)], goOn 0 4, goOn 1 4,
    [(0, .recv 1 .abortRequest), (1, .recv 0 .abortRequest), (0, .recv 1 .abortReply),
      (1, .recv 0 .abortReply), (0, .tick (.tested true)), (1, .tick (.tested true))]]

theorem floodReaches_pairWorld : ∃ g,
    FifoNet.run (mainLoop (pairConfig true false)) pairWorld abortingTurns = some g ∧
    (∀ r, (g r).state.cleanup = false) ∧ (∀ r, (g r).state.abort.abortOutstanding = false) ∧
    (g 0).state.abort.abortState = true ∧ FloodReaches (pairConfig true false) g := by
  have hEnd : (FifoNet.run (mainLoop (pairConfig true false)) pairWorld abortingTurns).map
      (fun g => ((g 0).state.cleanup, (g 1).state.cleanup, (g 0).state.abort.abortOutstanding,
        (g 1).state.abort.abortOutstanding, (g 0).state.abort.abortState)) =
          some (false, false, false, false, true) := by
    decide +kernel
  obtain ⟨g, hRun, hAll⟩ := Option.map_eq_some_iff.mp hEnd
  simp only [Prod.mk.injEq] at hAll
  obtain ⟨hFirst, hSecond, hNone, hNone', hBegun⟩ := hAll
  exact ⟨g, hRun, Fin.forall_fin_two.mpr ⟨hFirst, hSecond⟩,
    Fin.forall_fin_two.mpr ⟨hNone, hNone'⟩, hBegun,
    Execution.floodReaches (FifoNet.Reachable.run (execution_pairWorld _ FifoNet.always) hRun)⟩

end Circle
