import Circle.Protocol.Barrier
import Circle.Protocol.Receipts

/-!
# The rounds of the termination reduction

What a rank knows about `checkForTermAllReduce` is that its flags follow the
counters of a wave on the tree, and that the only result it hears or tells is 1
(`TermInv`).  A rank leaves the work loop with the first round that it closes,
so that there is no second round.
-/

namespace Circle

open FifoNet (Log inFlight)

variable {n : Nat} {cfg : Config n} {rank : Fin n} {input : Input n} {s s' : State n}
  {out : Option (Packet n)}

/-- The rank has the result of the round. -/
def TermPhase.isDown : TermPhase → Bool
  | .down _ => true
  | _ => false

/-- What a rank knows about its part of the termination reduction; `ended` tells
that it has terminated. -/
structure TermInv (cfg : Config n) (rank : Fin n) (t : Term n) (ended : Bool)
    (sent rcvd : Log (Fin n) Tag Msg) : Prop where
  tracks : Wave.Tracks cfg.tree rank t.wave t.termUp t.phase.isDown (counts sent .term)
    (counts rcvd .term)
  closed_eq : t.wave.closed = if ended then 1 else 0
  ended_rests : ended = true → t.termUp = false
  /-- The root gathers the result in the call in which it contributes. -/
  root_rests : cfg.tree.parent rank = none → t.phase = .children → t.termUp = false
  root_flag : cfg.tree.parent rank = none → ∀ flag, t.phase = .parent flag → t.termUp = true →
    flag = true
  down_flag : ∀ flag, t.phase = .down flag → flag = true
  sent_flag : ∀ c ∈ cfg.tree.children rank, ∀ msg ∈ sent c .term, msg = .flag true
  rcvd_flag : ∀ p, cfg.tree.parent rank = some p → ∀ msg ∈ rcvd p .term, msg = .flag true

theorem termInv_start (start : Start rank) :
    TermInv cfg rank start.state.term false (fun _ _ => []) (fun _ _ => []) where
  tracks := Wave.tracks_zero _ _
  closed_eq := rfl
  ended_rests := by simp
  root_rests := fun _ _ => rfl
  root_flag := by simp [Start.state]
  down_flag := by simp [Start.state]
  sent_flag := by simp
  rcvd_flag := by simp

section Turns

variable {t : Term n} {ended : Bool} {sent rcvd : Log (Fin n) Tag Msg}

theorem TermInv.frame (h : TermInv cfg rank t ended sent rcvd) {t' : Term n}
    (hUp : t'.termUp = t.termUp) (hWave : t'.wave = t.wave) (hPhase : t'.phase = t.phase)
    {sent' rcvd' : Log (Fin n) Tag Msg} (hSent : ∀ peer, sent' peer .term = sent peer .term)
    (hRcvd : ∀ peer, rcvd' peer .term = rcvd peer .term) :
    TermInv cfg rank t' ended sent' rcvd' where
  tracks := by
    have hSentEq : counts sent' .term = counts sent .term :=
      funext fun peer => congrArg List.length (hSent peer)
    have hRcvdEq : counts rcvd' .term = counts rcvd .term :=
      funext fun peer => congrArg List.length (hRcvd peer)
    rw [hUp, hWave, hPhase, hSentEq, hRcvdEq]
    exact h.tracks
  closed_eq := hWave ▸ h.closed_eq
  ended_rests := hUp ▸ h.ended_rests
  root_rests := by
    rw [hUp, hPhase]
    exact h.root_rests
  root_flag := by
    rw [hUp, hPhase]
    exact h.root_flag
  down_flag := hPhase ▸ h.down_flag
  sent_flag := by
    intro c hc
    rw [hSent]
    exact h.sent_flag c hc
  rcvd_flag := by
    intro p hp
    rw [hRcvd]
    exact h.rcvd_flag p hp

theorem TermInv.up_le_one (h : TermInv cfg rank t ended sent rcvd) : t.wave.up ≤ 1 := by
  have hUp := h.tracks.up_eq
  rw [h.closed_eq] at hUp
  cases hEnded : ended with
  | true =>
      rw [hEnded, h.ended_rests hEnded] at hUp
      simp only [if_true, Bool.false_eq_true, if_false] at hUp
      omega
  | false =>
      rw [hEnded] at hUp
      cases hTerm : t.termUp <;> rw [hTerm] at hUp <;> simp at hUp <;> omega

/-- The message of a child is counted. -/
theorem TermInv.collect (h : TermInv cfg rank t ended sent rcvd) (hPhase : t.phase = .children)
    (hOpen : t.wave.replies < (cfg.tree.children rank).length) {src : Fin n}
    (hChild : src ∈ cfg.tree.children rank) (hFirst : (rcvd src .term).length = t.wave.closed)
    (childFlag : Bool) :
    TermInv cfg rank { t with
      termFlag := t.termFlag && childFlag
      wave := { t.wave with replies := t.wave.replies + 1 } } ended sent
      (rcvd.add src .term (.flag childFlag)) :=
  { h with
    tracks := {
      inv := by
        rw [counts_add]
        exact h.tracks.inv.collect hChild hFirst hOpen
      up_eq := h.tracks.up_eq
      done_eq := h.tracks.done_eq }
    down_flag := by simp [hPhase]
    rcvd_flag := by
      intro p hp
      have hNe : p ≠ src := by
        rintro rfl
        exact cfg.tree.not_mem_children_of_parent hp hChild
      rw [Log.add_of_peer_ne _ _ _ _ hNe]
      exact h.rcvd_flag p hp }

/-- The rank contributes; it has not terminated. -/
theorem TermInv.contribute (h : TermInv cfg rank t false sent rcvd) (hPhase : t.phase = .children)
    (hUp : t.termUp = false) (hFull : t.wave.replies = (cfg.tree.children rank).length)
    {sent' : Log (Fin n) Tag Msg}
    (hParent : ∀ p, cfg.tree.parent rank = some p → counts sent' .term p = counts sent .term p + 1)
    (hOther : ∀ d, cfg.tree.parent rank ≠ some d → sent' d .term = sent d .term) :
    TermInv cfg rank { t with
      termUp := true
      wave := { t.wave with up := t.wave.up + 1 }
      phase := .parent true } false sent' rcvd :=
  { h with
    tracks := by
      have hTracks := h.tracks
      rw [hUp, hPhase] at hTracks
      exact hTracks.contribute hFull hParent fun d hd => congrArg List.length (hOther d hd)
    ended_rests := by simp
    root_rests := by simp
    root_flag := by simp
    down_flag := by simp
    sent_flag := by
      intro c hc
      rw [hOther c fun hp => cfg.tree.not_mem_children_of_parent hp hc]
      exact h.sent_flag c hc }

/-- The rank has the result. -/
theorem TermInv.learn (h : TermInv cfg rank t ended sent rcvd) {own : Bool}
    (hPhase : t.phase = .parent own) (hUp : t.termUp = true) {rcvd' : Log (Fin n) Tag Msg}
    (hParent : ∀ p, cfg.tree.parent rank = some p → rcvd' p .term = rcvd p .term ++ [.flag true])
    (hOther : ∀ d, cfg.tree.parent rank ≠ some d → rcvd' d .term = rcvd d .term) :
    TermInv cfg rank { t with
      wave := { t.wave with done := t.wave.done + 1, todo := cfg.tree.children rank }
      phase := .down true } ended sent rcvd' :=
  { h with
    tracks := by
      have hTracks := h.tracks
      rw [hUp, hPhase] at hTracks
      show Wave.Tracks _ _ _ t.termUp true _ _
      rw [hUp]
      exact hTracks.learn (fun p hp => by simp [counts, hParent p hp])
        fun d hd => congrArg List.length (hOther d hd)
    root_rests := by simp
    root_flag := by simp
    down_flag := by simp
    rcvd_flag := by
      intro p hp msg hMem
      rw [hParent p hp, List.mem_append, List.mem_singleton] at hMem
      rcases hMem with hOld | hNew
      · exact h.rcvd_flag p hp msg hOld
      · exact hNew }

/-- The next child is told. -/
theorem TermInv.tell (h : TermInv cfg rank t ended sent rcvd) {child : Fin n} {rest : List (Fin n)}
    (hTodo : t.wave.todo = child :: rest) :
    TermInv cfg rank { t with wave := { t.wave with todo := rest } } ended
      (sent.add child .term (.flag true)) rcvd :=
  { h with
    tracks := {
      inv := by
        rw [counts_add]
        exact h.tracks.inv.tell hTodo
      up_eq := h.tracks.up_eq
      done_eq := h.tracks.done_eq }
    sent_flag := by
      intro c hc msg hMem
      rw [Log.add_same_tag] at hMem
      split at hMem
      · rw [List.mem_append, List.mem_singleton] at hMem
        rcases hMem with hOld | hNew
        · exact h.sent_flag c hc msg hOld
        · exact hNew
      · exact h.sent_flag c hc msg hMem }

/-- The rank closes the round, and has terminated. -/
theorem TermInv.close (h : TermInv cfg rank t false sent rcvd) {flag : Bool}
    (hPhase : t.phase = .down flag) (hTodo : t.wave.todo = []) :
    TermInv cfg rank { t with
      termUp := false
      wave := { t.wave with closed := t.wave.closed + 1, replies := 0 }
      phase := .children } true sent rcvd :=
  { h with
    tracks := by
      have hTracks := h.tracks
      rw [hPhase] at hTracks
      exact hTracks.close hTodo
    closed_eq := congrArg (· + 1) h.closed_eq
    ended_rests := fun _ => rfl
    root_rests := fun _ _ => rfl
    root_flag := by simp
    down_flag := by simp }

/-- The turns of `checkForTermAllReduce`, given that the messages it counts are
those of children that it has not counted yet, and that the results are 1. -/
theorem TermInv.turn (h : TermInv cfg rank t false sent rcvd)
    (hCollect : ∀ src msg, input = .recv src .term msg →
      t.wave.replies < (cfg.tree.children rank).length →
        src ∈ cfg.tree.children rank ∧ (rcvd src .term).length = t.wave.closed)
    (hLearn : ∀ src msg, input = .recv src .term msg → cfg.tree.parent rank = some src →
      msg = .flag true)
    {workOutstanding : Nat} {turn : Turn n (Term n) Bool}
    (hTurn : TermTurn cfg rank workOutstanding t input turn) :
    TermInv cfg rank turn.record (turn.result = some true) (sent.send turn.out)
      (rcvd.receive input) := by
  cases hTurn
  case collect src childFlag hPhase hOpen =>
    obtain ⟨hChild, hFirst⟩ := hCollect src _ rfl hOpen
    exact h.collect hPhase hOpen hChild hFirst childFlag
  case busy => exact h
  case contribute parentRank hPhase hWork hUp hFull hParent =>
    refine h.contribute hPhase hUp hFull ?_ ?_
    · intro p hp
      rw [hParent, Option.some.injEq] at hp
      subst hp
      simp [counts, Turn.sends]
    · intro d hd
      have hNe : d ≠ parentRank := by
        rintro rfl
        exact hd hParent
      exact Log.add_of_peer_ne _ _ _ _ hNe
  case gather hPhase hWork hUp hFull hRoot =>
    exact h.contribute hPhase hUp hFull (by simp [hRoot]) fun _ _ => rfl
  case look hPhase hWork hSkip =>
    exact { h with
      tracks := by
        have hTracks := h.tracks
        rw [hPhase] at hTracks
        exact hTracks
      root_rests := by simp [Turn.stays]
      root_flag := by
        intro hRoot flag _ hUp
        have hRests := h.root_rests hRoot hPhase
        simp [Turn.stays, hRests] at hUp
      down_flag := by simp [Turn.stays] }
  case learn parentRank own result hPhase hUp hParent =>
    -- a parent never passes on a result other than true
    have hResult := hLearn parentRank _ rfl hParent
    simp only [Msg.flag.injEq] at hResult
    subst hResult
    refine h.learn hPhase hUp ?_ ?_
    · intro p hp
      rw [hParent, Option.some.injEq] at hp
      subst hp
      exact Log.add_self _ _ _ _
    · intro d hd
      have hNe : d ≠ parentRank := by
        rintro rfl
        exact hd hParent
      exact Log.add_of_peer_ne _ _ _ _ hNe
  case decide own hPhase hUp hRoot =>
    -- nor does the root ever find another one
    have hOwn := h.root_flag hRoot own hPhase hUp
    subst hOwn
    exact h.learn hPhase hUp (by simp [hRoot]) fun _ _ => rfl
  case wait own hPhase hWait =>
    exact { h with
      tracks := by
        have hTracks := h.tracks
        rw [hPhase] at hTracks
        exact hTracks
      root_rests := by
        intro hRoot _
        rcases hWait with hUp | hNot
        · exact hUp
        · exact (hNot hRoot).elim
      root_flag := by simp [Turn.returns]
      down_flag := by simp [Turn.returns] }
  case tell flag child rest hPhase hTodo =>
    have hFlag := h.down_flag flag hPhase
    subst hFlag
    exact h.tell hTodo
  case close flag hPhase hTodo =>
    have hFlag := h.down_flag flag hPhase
    subst hFlag
    exact h.close hPhase hTodo

end Turns

/-! ## In the main loop -/

/-- A turn leaves the reduction alone, or is one of it. -/
inductive TermStep (cfg : Config n) (rank : Fin n) (s : State n) :
    Input n → State n → Option (Packet n) → Prop where
  | other {input : Input n} {s' : State n} {out : Option (Packet n)}
      (hSilent : Silent .term input out) (hUp : s'.term.termUp = s.term.termUp)
      (hWave : s'.term.wave = s.term.wave) (hPhase : s'.term.phase = s.term.phase)
      (hCleanup : (cfg.termTree && s'.cleanup) = (cfg.termTree && s.cleanup)) :
      TermStep cfg rank s input s' out
  | turn {input : Input n} {s' : State n} {turn : Turn n (Term n) Bool}
      (hOpen : (cfg.termTree && s.cleanup) = false) (hTree : cfg.termTree = true)
      (hTurn : TermTurn cfg rank s.work.workOutstanding s.term input turn)
      (hTerm : s'.term = turn.record) (hCleanup : s'.cleanup = decide (turn.result = some true)) :
      TermStep cfg rank s input s' turn.out

theorem termStep_of_mainStep (hFits : s.Fits cfg) (hStep : MainStep cfg rank input s s' out) :
    TermStep cfg rank s input s' out := by
  have hSilent {pc : Pc} (hPc : s.pc = pc) (hTag : Tag.term ∉ pc.tags) :
      Silent .term input out := hStep.silent (hPc ▸ hTag)
  cases hStep
  case raise hInput =>
    subst hInput
    exact .other (silent_tick _ _) rfl rfl rfl rfl
  case checkForTerm turn hPc hTurn =>
    refine .other (hSilent hPc (by decide)) rfl rfl rfl ?_
    simp only [State.Fits, hPc] at hFits
    simp [hFits.2.1]
  case checkForTermAllReduce turn hPc hTurn =>
    simp only [State.Fits, hPc] at hFits
    refine .turn ?_ hFits.2.1 (termTurn_of_eq hTurn) rfl ?_
    · rw [hFits.1, Bool.and_false]
    · simp [hFits.1]
  case workreqCheck hPc _ _ | workreceiptCheck hPc _ _ | abortCheck hPc _ _ | reduceCheck hPc _ _ |
      requestWork hPc _ _ | callback hPc _ _ _ _ | idle hPc _ _ | barrierStart hPc _ |
      barrierTest hPc _ _ | leaveBarrier hPc _ _ | tokenCheck hPc _ | tokenTest hPc _ |
      reduceSync hPc _ | abortReduce hPc _ _ | leaveAbortReduce hPc _ _ =>
    exact .other (hSilent hPc (by decide)) rfl rfl rfl rfl

/-- The invariant of a rank in `mainLoop`. -/
abbrev TermMainInv (cfg : Config n) (rank : Fin n) (node : Rank n) : Prop :=
  TermInv cfg rank node.state.term (cfg.termTree && node.state.cleanup) node.sent node.rcvd

section Executions

variable {ok : World n → Fin n → Event n → Prop} {g : World n}

/-- A result that arrives is 1. -/
theorem flag_of_admits (hFifo : FifoNet.Fifo g) (hAll : ∀ r, TermMainInv cfg r (g r))
    {src : Fin n} {msg : Msg}
    (hAdmits : FifoNet.Admits g rank (.recv src .term msg : Input n))
    (hParent : cfg.tree.parent rank = some src) : msg = .flag true := by
  apply (hAll src).sent_flag rank (cfg.tree.mem_children hParent)
  apply (hFifo.of_admits_recv hAdmits).subset
  simp

theorem TermMainInv.step (hFifo : FifoNet.Fifo g) (hAll : ∀ r, TermMainInv cfg r (g r))
    (hFits : (g rank).state.Fits cfg) (hAdmits : FifoNet.Admits g rank input)
    (hStep : MainStep cfg rank input (g rank).state s' out) :
    TermMainInv cfg rank ((g rank).after input s' out) := by
  have h := hAll rank
  have hTerm := termStep_of_mainStep hFits hStep
  show TermInv _ _ s'.term (cfg.termTree && s'.cleanup) _ _
  cases hTerm
  case other hUp hWave hPhase hCleanup hSilent =>
    rw [hCleanup]
    exact h.frame hUp hWave hPhase (hSilent.sent _) (hSilent.rcvd _)
  case turn turn hOpen hTree hTurn hTerm hCleanup =>
    have hOld : TermInv cfg rank (g rank).state.term false (g rank).sent (g rank).rcvd := hOpen ▸ h
    rw [hTerm, hTree, hCleanup, Bool.true_and]
    refine hOld.turn ?_ ?_ hTurn
    · rintro src msg rfl hPending
      exact child_of_admits hFifo (fun r => (hAll r).tracks.inv) hAdmits hPending
    · rintro src msg rfl hParent
      exact flag_of_admits hFifo hAll hAdmits hParent

theorem Execution.termInv (h : Execution cfg ok g) (rank : Fin n) :
    TermMainInv cfg rank (g rank) := by
  refine h.forall_rank (L := TermMainInv cfg) ?_ ?_ rank
  · intro rank start
    show TermInv _ _ start.state.term (cfg.termTree && false) _ _
    rw [Bool.and_false]
    exact termInv_start start
  · intro g rank input state out hReach hAll hAdmits hStep
    exact TermMainInv.step hReach.fifo hAll (hReach.control rank).fits hAdmits hStep

end Executions

/-- What it means that the rounds of the termination reduction are well
separated. -/
structure TermSeparated (cfg : Config n) (g : World n) : Prop where
  /-- The rounds that a rank has closed are those in which it has returned
  TERMINATE: one, once it has left the work loop. -/
  closed_eq : ∀ r, (g r).state.term.wave.closed = if (g r).state.cleanup then 1 else 0
  /-- Each round that is closed has taken one message up and one down. -/
  once : ∀ r p, cfg.tree.parent r = some p →
    (g r).state.term.wave.closed ≤ ((g r).rcvd p .term).length ∧
      ((g r).rcvd p .term).length ≤ ((g r).sent p .term).length ∧
        ((g r).sent p .term).length ≤ (g r).state.term.wave.closed + 1
  /-- A message that is sent has the number of the round, and goes to the parent
  or to a child. -/
  sentNumber : ∀ r input state dst msg,
    FifoNet.Fires (mainLoop cfg) g r input state (some ⟨dst, .term, msg⟩) →
      ((g r).sent dst .term).length = (g r).state.term.wave.closed ∧
        (cfg.tree.parent r = some dst ∨ dst ∈ cfg.tree.children r)
  /-- So has a message that is received.  The replies that are counted are those
  of children; the other messages are those of the parent. -/
  rcvdNumber : ∀ r src msg state out,
    FifoNet.Fires (mainLoop cfg) g r (.recv src .term msg) state out →
      ((g r).rcvd src .term).length = (g r).state.term.wave.closed ∧
        ((g r).state.term.phase = .children ∧ src ∈ cfg.tree.children r ∨
          (g r).state.term.phase ≠ .children ∧ cfg.tree.parent r = some src ∧
            state.term.termReplies = (g r).state.term.termReplies)
  /-- What a rank that counts replies sees of other ranks than the children it
  has not counted is nothing. -/
  probed : ∀ r src, (g r).state.term.termReplies < (cfg.tree.children r).length →
    inFlight g src r .term ≠ [] →
      src ∈ cfg.tree.children r ∧
        ((g r).rcvd src .term).length = (g r).state.term.wave.closed
  /-- All ranks have the same result in a round, which is 1. -/
  results : ∀ r p, cfg.tree.parent r = some p →
    (g r).rcvd p .term = List.replicate (g r).state.term.wave.done (.flag true)
  result : ∀ r flag, (g r).state.term.phase = .down flag → flag = true
  /-- A rank that has returned TERMINATE has nothing outstanding, and no message
  of the reduction is under way to it. -/
  terminated : ∀ r, (g r).state.cleanup = true →
    (g r).state.work.workOutstanding = 0 ∧ Acknowledged g r ∧ ∀ src, inFlight g src r .term = []
  /-- None will be sent to it. -/
  later : ∀ r, (g r).state.cleanup = true → ∀ events g',
    FifoNet.run (mainLoop cfg) g events = some g' → ∀ src, (g' src).sent r .term = (g src).sent r .term

section Results

variable {g : World n}

/-- The number of a message that goes out. -/
theorem TermInv.sent_number {t : Term n} {ended : Bool} {sent rcvd : Log (Fin n) Tag Msg}
    (h : TermInv cfg rank t ended sent rcvd) {workOutstanding : Nat} {turn : Turn n (Term n) Bool}
    (hTurn : TermTurn cfg rank workOutstanding t input turn) {dst : Fin n} {msg : Msg}
    (hOut : turn.out = some ⟨dst, .term, msg⟩) :
    (sent dst .term).length = t.wave.closed ∧
      (cfg.tree.parent rank = some dst ∨ dst ∈ cfg.tree.children rank) := by
  have hTracks := h.tracks
  cases hTurn
  case contribute parentRank hPhase hWork hUp hFull hParent =>
    cases hOut
    have hOpen := hTracks.up_eq
    rw [hUp] at hOpen
    exact ⟨(hTracks.inv.sent_parent _ hParent).trans hOpen, Or.inl hParent⟩
  case tell flag child rest hPhase hTodo =>
    cases hOut
    have hDone := hTracks.done_eq
    rw [hPhase] at hDone
    have hSent := hTracks.inv.sent_todo dst (by simp [hTodo])
    refine ⟨?_, Or.inr (hTracks.inv.todo_child dst (by simp [hTodo]))⟩
    simp only [TermPhase.isDown, if_true] at hDone
    show counts sent .term dst = _
    omega
  all_goals cases hOut

/-- Once a rank has terminated, what is ever sent to it has been received. -/
theorem sent_eq_of_terminated (hTree : cfg.termTree = true) (h : Execution cfg FifoNet.always g)
    {r : Fin n} (hCleanup : (g r).state.cleanup = true) {g' : World n}
    {events : List (Fin n × Event n)} (hRun : FifoNet.run (mainLoop cfg) g events = some g')
    (src : Fin n) : (g' src).sent r .term = (g r).rcvd src .term := by
  have hClosed := (h.termInv r).closed_eq
  simp only [hTree, hCleanup, Bool.true_and, if_true] at hClosed
  have hLater : Execution cfg FifoNet.always g' := FifoNet.Reachable.run h hRun
  have hUp := (hLater.termInv src).up_le_one
  have hLe : counts (g' src).sent .term r ≤ counts (g r).rcvd .term src := by
    refine Wave.sent_le_rcvd (hLater.termInv src).tracks.inv (h.termInv r).tracks.inv ?_
    rw [hClosed]
    exact hUp
  have hPrefix : (g r).rcvd src .term <+: (g' src).sent r .term :=
    (h.fifo src r .term).trans (FifoNet.run_sent_prefix hRun src r .term)
  exact (hPrefix.eq_of_length_le hLe).symm

/-- The rounds of the termination reduction are well separated. -/
theorem Execution.termSeparated (h : Execution cfg FifoNet.always g) (hTree : cfg.termTree = true) :
    TermSeparated cfg g := by
  have hInv := h.termInv
  have hWave := fun r => (hInv r).tracks.inv
  have hClosed (r : Fin n) :
      (g r).state.term.wave.closed = if (g r).state.cleanup then 1 else 0 := by
    have hEq := (hInv r).closed_eq
    rwa [hTree, Bool.true_and] at hEq
  exact {
    closed_eq := hClosed
    once := by
      intro r p hParent
      -- the counts follow one another: rounds closed, results taken in, contributions sent
      have hSent := (hWave r).sent_parent p hParent
      have hRcvd := (hWave r).rcvd_parent p hParent
      have hLow := (hWave r).closed_le_done
      have hDone := (hWave r).done_le_up
      have hUp := (hWave r).up_le
      simp only [counts] at hSent hRcvd
      omega
    sentNumber := by
      intro r input state dst msg hFires
      have hStep := termStep_of_mainStep (h.control r).fits (mainStep_of_mainLoop hFires.acts)
      generalize hOut : some (⟨dst, .term, msg⟩ : Packet n) = out at hStep
      cases hStep
      case other hSilent => exact (hSilent.out _ hOut.symm rfl).elim
      case turn hOpen hTree hTurn hTerm hCleanup => exact (hInv r).sent_number hTurn hOut.symm
    rcvdNumber := by
      intro r src msg state out hFires
      have hAdmits := hFires.admits
      have hStep := termStep_of_mainStep (h.control r).fits (mainStep_of_mainLoop hFires.acts)
      generalize hInput : (.recv src .term msg : Input n) = input at hStep
      cases hStep
      case other hSilent => exact (hSilent.input src msg hInput.symm).elim
      case turn turn hOpen hTree hTurn hTerm hCleanup =>
        rw [hTerm]
        cases hTurn
        case collect hPhase hPending =>
          cases hInput
          obtain ⟨hChild, hFirst⟩ := child_of_admits h.fifo hWave hAdmits hPending
          exact ⟨hFirst, Or.inl ⟨hPhase, hChild⟩⟩
        case learn own result hPhase hUp hParent =>
          cases hInput
          have hDone := (hInv r).tracks.done_eq
          rw [hPhase] at hDone
          exact ⟨((hWave r).rcvd_parent src hParent).trans hDone,
            Or.inr ⟨by simp [hPhase], hParent, rfl⟩⟩
        all_goals cases hInput
    probed := by
      intro r src hPending hFlight
      -- the first message in flight is one that the rank can take in now
      obtain ⟨msg, rest, hRest⟩ := List.exists_cons_of_ne_nil hFlight
      have hAdmits : FifoNet.Admits g r (.recv src .term msg : Input n) := ⟨rest, hRest⟩
      exact child_of_admits h.fifo hWave hAdmits hPending
    results := by
      intro r p hParent
      rw [List.eq_replicate_iff]
      exact ⟨(hWave r).rcvd_parent p hParent, (hInv r).rcvd_flag p hParent⟩
    result := fun r => (hInv r).down_flag
    terminated := by
      intro r hCleanup
      refine ⟨(h.retired r).outstanding (Or.inr ⟨hTree, hCleanup⟩),
        h.acknowledged_of_cleanup hTree hCleanup, fun src => ?_⟩
      rw [h.fifo.inFlight_eq_nil_iff]
      have hRun : FifoNet.run (mainLoop cfg) g [] = some g := rfl
      exact (sent_eq_of_terminated hTree h hCleanup hRun src).symm
    later := by
      intro r hCleanup events g' hRun src
      have hNow : FifoNet.run (mainLoop cfg) g [] = some g := rfl
      rw [sent_eq_of_terminated hTree h hCleanup hRun src,
        sent_eq_of_terminated hTree h hCleanup hNow src] }

end Results

/-- Rank 1 of two has no work and contributes; rank 0 empties its queue, closes
the round and terminates. -/
def closingTurns : List (Fin 2 × Event 2) :=
  idleTurns 1 ++ [(1, .tick (.next (some 0))), (1, .tick .go), (1, .tick .go)] ++
    idleTurns 0 ++ [(0, .tick (.callback [.pop [], .pop []]))] ++ idleTurns 0 ++
      [(0, .tick (.next (some 1))), (0, .tick .go), (0, .recv 1 .term), (0, .tick .go),
        (0, .tick .go), (0, .tick .go), (0, .tick .go)]

theorem termSeparated_pairWorld : ∃ g,
    FifoNet.run (mainLoop (pairConfig true false)) pairWorld closingTurns = some g ∧
    (g 0).state.cleanup = true ∧ TermSeparated (pairConfig true false) g := by
  have hEnd : (FifoNet.run (mainLoop (pairConfig true false)) pairWorld closingTurns).map
      (fun g => (g 0).state.cleanup) = some true := by
    decide +kernel
  obtain ⟨g, hRun, hCleanup⟩ := Option.map_eq_some_iff.mp hEnd
  exact ⟨g, hRun, hCleanup,
    Execution.termSeparated (FifoNet.Reachable.run (execution_pairWorld _ _) hRun) rfl⟩

end Circle
