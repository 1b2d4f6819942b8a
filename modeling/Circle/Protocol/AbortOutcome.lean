import Circle.Protocol.AbortWidth
import Circle.Protocol.TreeAbort

/-!
# What becomes of an abort

Once `ABORT_FLAG` is up on every rank, no rank can return without a checkpoint
any more.  In tree mode all ranks can still write theirs, from wherever they are;
in ring mode they may have to wait for a token that is not sent.
-/

namespace Circle

open FifoNet (Log inFlight)

variable {n : Nat} {cfg : Config n} {rank : Fin n} {input : Input n} {s s' : State n}
  {out : Option (Packet n)} {g g' : World n} {r : Fin n}

/-! ## The flag on entry -/

/-- `ABORT_FLAG` is set on a rank only before `abortReduce` reads it. -/
def RaisesEarly (g : World n) (rank : Fin n) (event : Event n) : Prop :=
  event = .tick .raiseAbort → (g rank).state.pc.early = true

/-- A rank enters `abortReduce` with its flag. -/
theorem MainStep.entered (hStep : MainStep cfg rank input s s' out) (hBefore : s.pc ≠ .abortReduce)
    (hAfter : s'.pc = .abortReduce) : s'.abortReduce.flag = s'.abort.abortFlag := by
  have hNext := hStep.next
  rw [hAfter] at hNext
  have hOther {pc : Pc} (hPc : s.pc = pc) (hNot : Pc.abortReduce ∉ pc.next) : False :=
    hNot (hPc ▸ hNext)
  cases hStep
  case raise => exact absurd hAfter hBefore
  case barrierTest => split at hAfter <;> cases hAfter
  case leaveBarrier =>
    cases hReduce : cfg.reduceEnabled with
    | true => simp [hReduce] at hAfter
    | false => simp [AbortReduce.enter]
  case reduceSync turn hPc hTurn =>
    rcases hResult : turn.result with _ | _ | _
    · simp [hResult] at hAfter
    · simp [AbortReduce.enter]
    · simp [hResult] at hAfter
  case abortReduce hPc _ _ | leaveAbortReduce hPc _ _ => exact absurd hPc hBefore
  case workreqCheck hPc _ _ | workreceiptCheck hPc _ _ | abortCheck hPc _ _ | reduceCheck hPc _ _ |
      requestWork hPc _ _ | callback hPc _ _ _ _ | idle hPc _ _ | checkForTerm hPc _ |
      checkForTermAllReduce hPc _ | barrierStart hPc _ | tokenCheck hPc _ | tokenTest hPc _ =>
    exact (hOther hPc (by decide)).elim

/-- In `abortReduce` the flag is not touched. -/
theorem MainStep.flag_inside (hStep : MainStep cfg rank input s s' out)
    (hInput : input ≠ .tick .raiseAbort) (hPc : s.pc = .abortReduce)
    (hAfter : s'.pc = .abortReduce) : s'.abort.abortFlag = s.abort.abortFlag := by
  cases hStep
  case raise hRaise => exact (hInput hRaise).elim
  case leaveAbortReduce flag _ _ _ => cases flag <;> cases hAfter
  case abortReduce => rfl
  all_goals simp_all

/-- A rank that returns without a checkpoint takes its flag down. -/
theorem MainStep.flag_done (hStep : MainStep cfg rank input s s' out)
    (hInput : input ≠ .tick .raiseAbort) (hAfter : s'.pc = .done) :
    s'.abort.abortFlag = false := by
  have hNext := hStep.next
  rw [hAfter] at hNext
  have hPc : s.pc = .abortReduce ∨ s.pc = .done := by
    revert hNext
    generalize s.pc = pc
    cases pc <;> decide
  cases hStep
  case raise hRaise => exact (hInput hRaise).elim
  case leaveAbortReduce flag _ _ _ => cases flag <;> first | rfl | cases hAfter
  all_goals simp_all

theorem abortStage_of_inside (hPc : s.pc = .abortReduce) :
    s.abortStage = .inside s.abortReduce := by
  simp [State.abortStage, hPc]

theorem pc_of_inside {a : AbortReduce n} (h : s.abortStage = .inside a) :
    s.pc = .abortReduce ∧ a = s.abortReduce := by
  unfold State.abortStage at h
  split at h
  next hPc =>
    cases h
    exact ⟨hPc, rfl⟩
  all_goals cases h

/-- What a rank knows of the abort reduction, with the flag that it has entered
with. -/
structure AbortEntry (cfg : Config n) (rank : Fin n) (node : Rank n) (entry : Bool) : Prop where
  inv : AbortInv cfg rank entry node.state.abortStage (node.sent · .abortReduce)
    (node.rcvd · .abortReduce)
  inside : node.state.pc = .abortReduce → node.state.abort.abortFlag = entry
  denied : node.state.pc = .done → node.state.abort.abortFlag = false

theorem AbortEntry.raise {node : Rank n} {entry : Bool} (h : AbortEntry cfg rank node entry)
    (hEarly : node.state.pc.early = true) :
    AbortEntry cfg rank (node.after (.tick .raiseAbort : Input n)
      { node.state with abort := { node.state.abort with abortFlag := true } } none) entry where
  inv := h.inv
  inside := by
    intro hPc
    rw [show node.state.pc = .abortReduce from hPc] at hEarly
    cases hEarly
  denied := by
    intro hPc
    rw [show node.state.pc = .done from hPc] at hEarly
    cases hEarly

/-- A turn that raises no flag keeps what a rank knows; a rank that enters
`abortReduce` in it enters with its flag. -/
theorem AbortEntry.step {node : Rank n} {entry : Bool} (h : AbortEntry cfg rank node entry)
    (hInput : input ≠ .tick .raiseAbort) (hStep : MainStep cfg rank input node.state s' out) :
    ∃ entry, AbortEntry cfg rank (node.after input s' out) entry := by
  have hInv := h.inv
  have hMain := abortMainStep_of_mainStep hStep
  have hDenied := hStep.flag_done hInput
  generalize hStage : s'.abortStage = stage at hMain
  cases hMain
  case other hSilent =>
    refine ⟨entry, ?_, fun hAfter => ?_, hDenied⟩
    · simpa [hStage, hSilent.sent, hSilent.rcvd] using hInv
    · have hPc := (pc_of_inside (hStage.symm.trans (abortStage_of_inside hAfter))).1
      exact (hStep.flag_inside hInput hPc hAfter).trans (h.inside hPc)
  case enter hBefore flag hSilent =>
    obtain ⟨hAfter, hCall⟩ := pc_of_inside hStage
    refine ⟨flag, ?_, fun _ => ?_, hDenied⟩
    · rw [hBefore] at hInv
      simpa [hStage, hSilent.sent, hSilent.rcvd] using hInv.enter flag
    · have hEntered := hStep.entered (fun hPc => by
        rw [abortStage_of_inside hPc] at hBefore
        cases hBefore) hAfter
      rw [← hCall] at hEntered
      exact hEntered.symm
  case turn hInside hTurn =>
    rw [hInside] at hInv
    refine ⟨entry, ?_, fun hAfter => ?_, hDenied⟩
    · have hNew := hInv.turn hTurn
      simpa [hStage] using hNew
    · exact (hStep.flag_inside hInput (pc_of_inside hInside).1 hAfter).trans
        (h.inside (pc_of_inside hInside).1)

theorem Execution.abortEntry (h : Execution cfg RaisesEarly g) (r : Fin n) :
    ∃ entry, AbortEntry cfg r (g r) entry := by
  refine FifoNet.Reachable.invariant (I := fun g => ∀ r, ∃ entry, AbortEntry cfg r (g r) entry)
    ?_ ?_ h r
  · rintro states ⟨start, hStates⟩ r
    refine ⟨false, ?_, ?_, ?_⟩
    · show AbortInv cfg r false (states r).abortStage _ _
      rw [hStates r]
      exact abortInv_before _
    · show (states r).pc = .abortReduce → _
      rw [hStates r]
      exact nofun
    · show (states r).pc = .done → _
      rw [hStates r]
      exact nofun
  · intro g r event input s' out _ hAll hOk hEvent hFires
    refine FifoNet.forall_set (P := fun r (node : Rank n) => ∃ entry, AbortEntry cfg r node entry)
      ?_ fun other _ => hAll other
    obtain ⟨entry, hEntry⟩ := hAll r
    by_cases hInput : input = .tick .raiseAbort
    · subst hInput
      have hActs := hFires.acts
      simp only [mainLoop, Option.some.injEq, Prod.mk.injEq] at hActs
      obtain ⟨rfl, rfl⟩ := hActs
      exact ⟨entry, hEntry.raise (hOk (FifoNet.event_of_input_tick hEvent))⟩
    · exact hEntry.step hInput (mainStep_of_mainLoop hFires.acts)

/-! ## Under the flag -/

theorem AbortStage.flag_of_result {a : AbortReduce n} {flag : Bool}
    (h : (AbortStage.inside a).result = some flag) : a.flag = flag := by
  obtain ⟨own, _ | _ | rest⟩ := a
  · cases h
  · cases h
  · exact Option.some.inj h

/-- A rank that has entered with its flag up is told so, and says so. -/
theorem unanimous_of_inside {entry : Fin n → Bool} (hEntry : ∀ r, AbortEntry cfg r (g r) (entry r))
    (hFifo : FifoNet.Fifo g) (hPc : (g r).state.pc = .abortReduce) (hUp : entry r = true)
    (hFar : ∀ d, d ∉ cfg.neighbours r → (g r).sent d .abortReduce = []) :
    Unanimous true (g r).state (g r).sent := by
  have hInv := (hEntry r).inv
  have hStage := abortStage_of_inside hPc
  have hSubtree : subtreeFlag cfg r (entry r) ((g r).rcvd · .abortReduce) = true := by
    simp [subtreeFlag, hUp]
  have hResult {flag : Bool} (hSome : (g r).state.abortStage.result = some flag) : flag = true := by
    rw [result_eq (fun r => (hEntry r).inv) (fun s d => hFifo s d .abortReduce) hSome]
    exact decide_eq_true ⟨r, hUp⟩
  refine ⟨by simp [hPc], fun _ => ?_, fun peer msg hMem => ?_⟩
  · cases hNone : (g r).state.abortStage.result with
    | none => exact (hInv.flag_eq _ hStage hNone).trans hSubtree
    | some flag =>
        have hFlag := hResult hNone
        rw [hStage] at hNone
        exact (AbortStage.flag_of_result hNone).trans hFlag
  · by_cases hNear : peer ∈ cfg.neighbours r
    · rcases mem_neighbours_iff.mp hNear with hParent | hChild
      · rw [hInv.sent_parent peer hParent] at hMem
        split at hMem
        · rw [List.mem_singleton.mp hMem, hSubtree]
        · cases hMem
      · rw [hInv.sent_child peer hChild] at hMem
        cases hSome : (g r).state.abortStage.result with
        | none =>
            rw [hSome] at hMem
            cases hMem
        | some flag =>
            rw [hSome] at hMem
            simp only at hMem
            split at hMem
            · cases hMem
            · rw [List.mem_singleton.mp hMem, hResult hSome]
    · rw [hFar peer hNear] at hMem
      cases hMem

/-- Where the flag is up on every rank, either all ranks have left `abortReduce`
or will with a checkpoint, or no rank has heard another value in it. -/
theorem Execution.checkpoint_or_unanimous (h : Execution cfg RaisesEarly g) (hAborted : Aborted g) :
    (∃ r, (g r).state.pc = .checkpoint) ∨ ∀ r, Unanimous true (g r).state (g r).sent := by
  choose entry hEntry using h.abortEntry
  have hReach : Execution cfg FifoNet.always g := h.weaken fun _ _ _ _ => True.intro
  by_cases hLeft : ∃ r, (g r).state.pc = .checkpoint
  · exact Or.inl hLeft
  · push Not at hLeft
    refine Or.inr fun r => ?_
    by_cases hEarly : (g r).state.pc.early = true
    · exact unanimous_of_early hEarly (hReach.abortReduce_of_early hEarly)
    · have hPc : (g r).state.pc = .abortReduce := by
        have hNot := hLeft r
        have hDenied := (hEntry r).denied
        rw [hAborted r] at hDenied
        revert hEarly hNot hDenied
        cases (g r).state.pc <;> simp [Pc.early]
      exact unanimous_of_inside hEntry hReach.fifo hPc
        ((hEntry r).inside hPc ▸ hAborted r) (hReach.abortReduce_far r)

/-- A rank that is to write its checkpoint stays there. -/
theorem checkpoint_leads (hPc : (g r).state.pc = .checkpoint)
    (hLeads : FifoNet.Leads (mainLoop cfg) g g') : (g' r).state.pc = .checkpoint := by
  have hKeeps : FifoNet.Keeps (mainLoop cfg) (fun _ => True)
      (fun g => (g r).state.pc = .checkpoint) := by
    intro g i input s' out _ hOld hFires
    by_cases hSelf : r = i
    · subst hSelf
      rw [FifoNet.set_self, FifoNet.Node.after_state]
      have hNext := (mainStep_of_mainLoop hFires.acts).next
      rw [hOld] at hNext
      simpa [Pc.next] using hNext
    · rwa [FifoNet.set_of_ne _ _ hSelf]
  exact (FifoNet.Keeps.leads (fun _ _ _ _ _ _ _ _ => trivial) hKeeps trivial hPc hLeads).2

/-- In tree mode all ranks can write their checkpoints. -/
theorem Execution.canCheckpoint (h : Execution cfg RaisesEarly g) (hTree : cfg.termTree = true)
    (hAborted : Aborted g) (hRoom : Room g) :
    FifoNet.CanReach (mainLoop cfg) g fun last => ∀ r, (last r).state.pc = .checkpoint := by
  have hReach : Execution cfg FifoNet.always g := h.weaken fun _ _ _ _ => True.intro
  rcases h.checkpoint_or_unanimous hAborted with ⟨q, hPc⟩ | hUnanimous
  · obtain ⟨last, hLeads, hFinished⟩ := hReach.exists_finished (q := q) (by rw [hPc]; rfl)
    have hAgrees := Execution.checkpointAgrees (FifoNet.Reachable.leads hReach hLeads)
    exact ⟨last, hLeads, fun r => (hFinished r).resolve_right
      (hAgrees.same q r (checkpoint_leads hPc hLeads))⟩
  · exact Aborting.canCheckpoint ⟨⟨hReach, fun r _ => hAborted r, hUnanimous⟩, hRoom⟩ hTree

/-! ## An abort from the start -/

theorem tokenDest_ne (hOthers : n ≠ 1) : tokenDest rank ≠ rank := by
  intro hEq
  have hVal : (rank.val + 1 + n) % n = rank.val := congrArg Fin.val hEq
  have hLess := rank.isLt
  rw [Nat.add_mod_right] at hVal
  rcases Nat.lt_or_eq_of_le (Nat.succ_le_of_lt hLess) with hInner | hLast
  · rw [Nat.mod_eq_of_lt hInner] at hVal
    omega
  · rw [show rank.val + 1 = n from hLast, Nat.mod_self] at hVal
    omega

/-- A rank without items and without user data. -/
def idleStart (rank : Fin n) : Start rank where
  queue := .fresh
  items := []
  holds := Queue.holds_fresh
  sized := ⟨Nat.zero_le _, by simp⟩
  enqueued := []
  dequeued := []
  balanced := List.Perm.refl _
  offsetsCount := 0
  offsets_le := Nat.zero_le _
  nextProcessor := if n = 1 then none else some (tokenDest rank)
  next_ne := by
    intro next hNext
    split at hNext
    next => cases hNext
    next hOthers =>
      cases hNext
      exact tokenDest_ne hOthers
  next_none := by
    intro hNone
    split at hNone
    next hOnly => exact hOnly
    next => cases hNone
  reduceBuf := none

/-- The flag of a rank is set. -/
def raised (node : Rank n) : Rank n :=
  { node with state := { node.state with abort := { node.state.abort with abortFlag := true } } }

/-- The flags of all ranks can be set one after the other. -/
theorem Execution.exists_raised (h : Execution cfg RaisesEarly g)
    (hEarly : ∀ r, (g r).state.pc.early = true) :
    Execution cfg RaisesEarly fun r => raised (g r) := by
  have hSome (ranks : List (Fin n)) :
      Execution cfg RaisesEarly fun r => if r ∈ ranks then raised (g r) else g r := by
    induction ranks with
    | nil => simpa using h
    | cons first rest ih =>
        have hStep : FifoNet.step (mainLoop cfg) (fun r => if r ∈ rest then raised (g r) else g r)
            first (.tick .raiseAbort) =
              some fun r => if r ∈ first :: rest then raised (g r) else g r := by
          simp only [FifoNet.step, FifoNet.Event.input, Option.bind_some, mainLoop, Option.map_some,
            Option.some.injEq]
          funext r
          by_cases hSelf : r = first
          · subst hSelf
            rw [FifoNet.set_self, if_pos List.mem_cons_self]
            split <;> rfl
          · rw [FifoNet.set_of_ne _ _ hSelf]
            simp only [List.mem_cons, hSelf, false_or]
        refine ih.step (fun _ => ?_) hStep
        dsimp only
        split <;> exact hEarly first
  simpa using hSome (List.finRange n)

/-- Idle ranks whose flags have been set before their first turn. -/
def idleWorld (n : Nat) : World n :=
  fun r => raised (FifoNet.fresh (fun r => (idleStart r).state) r)

theorem execution_idleWorld (cfg : Config n) : Execution cfg RaisesEarly (idleWorld n) :=
  Execution.exists_raised (.start ⟨idleStart, fun _ => rfl⟩) fun _ => rfl

theorem aborted_idleWorld : Aborted (idleWorld n) := fun _ => rfl

theorem room_idleWorld : Room (idleWorld n) where
  items := fun _ => show 0 + 4097 ≤ intMax by decide
  bytes := fun _ => Nat.zero_le _
  header := fun _ _ => nofun
  flight := fun _ _ _ => nofun

theorem stranded_idleWorld (r : Fin n) : Stranded (idleWorld n) r where
  proc := nofun
  incoming := rfl
  flight := fun _ => rfl

/-- A trapped rank does not come to its checkpoint. -/
theorem Trapped.not_canCheckpoint (h : Trapped cfg g) (r : Fin n) :
    ¬ FifoNet.CanReach (mainLoop cfg) g fun last => ∀ r, (last r).state.pc = .checkpoint := by
  rintro ⟨last, hLeads, hAll⟩
  have hStays := h.stays last hLeads r
  rw [hAll r] at hStays
  cases hStays

/-- An aborted run is never trapped, exactly in tree mode: as long as there is
room for the replies, all ranks can write their checkpoints from every state in
which the flag is up everywhere.  The tree is that of the ranks exactly where the
products of rank and width fit an `int`. -/
theorem abort_escapes_iff (cfg : Config n) {procNull : Int} (hNull : procNull < 0)
    (hRanks : n < 2 ^ 31) (hWidth : cfg.width < 2 ^ 31) :
    ((∀ rank, intLinks procNull cfg.width rank = some (cfg.links rank)) ∧
      ∀ g, Execution cfg RaisesEarly g → Aborted g → Room g →
        FifoNet.CanReach (mainLoop cfg) g fun last => ∀ r, (last r).state.pc = .checkpoint) ↔
      WidthFits n cfg.width ∧ cfg.termTree = true := by
  constructor
  · rintro ⟨hLinks, hEscapes⟩
    refine ⟨?_, ?_⟩
    · by_contra hNot
      obtain ⟨r, hWhole⟩ := exists_not_whole cfg hNull hRanks hWidth hNot hLinks
      cases hWhole
    · by_contra hRing
      rw [Bool.not_eq_true] at hRing
      have hReach : Execution cfg FifoNet.always (idleWorld n) :=
        (execution_idleWorld cfg).weaken fun _ _ _ _ => True.intro
      have hTrapped := (stranded_idleWorld ⟨0, cfg.size_pos⟩).noExit hReach hRing aborted_idleWorld
      exact hTrapped.not_canCheckpoint ⟨0, cfg.size_pos⟩
        (hEscapes _ (execution_idleWorld cfg) aborted_idleWorld room_idleWorld)
  · rintro ⟨hFits, hTree⟩
    exact ⟨intLinks_of_fits cfg hNull hRanks hWidth hFits,
      fun g h hAborted hRoom => h.canCheckpoint hTree hAborted hRoom⟩

/-- Two ranks whose flags are set before their first turn. -/
def raisingTurns : List (Fin 2 × Event 2) := [(0, .tick .raiseAbort), (1, .tick .raiseAbort)]

theorem execution_raisingTurns (cfg : Config 2) : ∃ g,
    FifoNet.run (mainLoop cfg) pairWorld raisingTurns = some g ∧ Execution cfg RaisesEarly g ∧
      Aborted g ∧ Room g := by
  obtain ⟨next, hNext⟩ : ∃ next, FifoNet.step (mainLoop cfg) pairWorld 0 (.tick .raiseAbort) =
      some next := ⟨_, rfl⟩
  obtain ⟨g, hLast⟩ : ∃ g, FifoNet.step (mainLoop cfg) next 1 (.tick .raiseAbort) = some g :=
    ⟨_, rfl⟩
  have hReach : Execution cfg RaisesEarly g :=
    ((execution_pairWorld cfg _).step (fun _ => rfl) hNext).step
      (fun _ => by cases hNext; rfl) hLast
  cases hNext
  cases hLast
  refine ⟨_, rfl, hReach, Fin.forall_fin_two.mpr ⟨rfl, rfl⟩, ?_⟩
  constructor
  · exact Fin.forall_fin_two.mpr ⟨show 2 + 4097 ≤ intMax by decide, show 0 + 4097 ≤ intMax by decide⟩
  · exact Fin.forall_fin_two.mpr ⟨show 2 ≤ intMax by decide, show 0 ≤ intMax by decide⟩
  · exact Fin.forall_fin_two.mpr ⟨nofun, nofun⟩
  · exact Fin.forall_fin_two.mpr ⟨Fin.forall_fin_two.mpr ⟨nofun, nofun⟩,
      Fin.forall_fin_two.mpr ⟨nofun, nofun⟩⟩

/-- Two ranks of a tree that are aborted before they have taken any other turn. -/
theorem abort_escapes_pairWorld : ∃ g,
    FifoNet.run (mainLoop (pairConfig true false)) pairWorld raisingTurns = some g ∧
    FifoNet.CanReach (mainLoop (pairConfig true false)) g fun last =>
      ∀ r, (last r).state.pc = .checkpoint := by
  obtain ⟨g, hRun, hReach, hAborted, hRoom⟩ := execution_raisingTurns (pairConfig true false)
  exact ⟨g, hRun, ((abort_escapes_iff (pairConfig true false) (show (-2 : Int) < 0 by decide)
    (by decide) (by decide)).mpr ⟨WidthFits.of_le (by decide), rfl⟩).2 g hReach hAborted hRoom⟩

/-- In a ring the same abort leads to no checkpoint. -/
theorem not_abort_escapes_pairWorld : ∃ g,
    FifoNet.run (mainLoop (pairConfig false false)) pairWorld raisingTurns = some g ∧
    Execution (pairConfig false false) RaisesEarly g ∧ Aborted g ∧ Room g ∧
    ¬ FifoNet.CanReach (mainLoop (pairConfig false false)) g fun last =>
      ∀ r, (last r).state.pc = .checkpoint := by
  obtain ⟨g, hRun, hReach, hAborted, hRoom⟩ := execution_raisingTurns (pairConfig false false)
  have hStranded : Stranded g 0 := by
    cases hRun
    exact ⟨nofun, rfl, Fin.forall_fin_two.mpr ⟨rfl, rfl⟩⟩
  have hTrapped := hStranded.noExit (hReach.weaken fun _ _ _ _ => True.intro) rfl hAborted
  exact ⟨g, hRun, hReach, hAborted, hRoom, hTrapped.not_canCheckpoint 0⟩

/-- Once the flag is up on every rank, no rank returns without a checkpoint. -/
theorem Execution.not_done (h : Execution cfg RaisesEarly g) (hAborted : Aborted g)
    (hLeads : FifoNet.Leads (mainLoop cfg) g g') (r : Fin n) : (g' r).state.pc ≠ .done := by
  have hReach : Execution cfg FifoNet.always g := h.weaken fun _ _ _ _ => True.intro
  rcases h.checkpoint_or_unanimous hAborted with ⟨q, hPc⟩ | hUnanimous
  · exact (Execution.checkpointAgrees (FifoNet.Reachable.leads hReach hLeads)).same q r
      (checkpoint_leads hPc hLeads)
  · have hFlagged : Flagged cfg g := ⟨hReach, fun r _ => hAborted r, hUnanimous⟩
    exact ((hFlagged.leads hLeads).unanimous r).result

/-- After the same abort, in a ring. -/
theorem not_done_pairWorld : ∃ g,
    FifoNet.run (mainLoop (pairConfig false false)) pairWorld raisingTurns = some g ∧
    ∀ g', FifoNet.Leads (mainLoop (pairConfig false false)) g g' →
      ∀ r, (g' r).state.pc ≠ .done := by
  obtain ⟨g, hRun, hReach, hAborted, -⟩ := execution_raisingTurns (pairConfig false false)
  exact ⟨g, hRun, fun g' hLeads r => hReach.not_done hAborted hLeads r⟩

end Circle
