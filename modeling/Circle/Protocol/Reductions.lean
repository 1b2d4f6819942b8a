import Circle.Protocol.Books

/-!
# Reductions in an execution

What every rank knows about the reductions (`ReduceInv`), and that a round of a
rank has been answered by each of its children before the child gives its
report of the last reduction.  No message is taken for another one: no rank
fails.
-/

namespace Circle

open FifoNet (Log inFlight)

variable {n : Nat} {cfg : Config n} {rank : Fin n} {input : Input n} {s s' : State n}
  {out : Option (Packet n)}

/-- What a rank knows about the reductions. -/
structure ReduceInv (cfg : Config n) (rank : Fin n) (node : Rank n) : Prop where
  running : node.state.pc ≠ .failed
  upward : ∀ p, cfg.tree.parent rank = some p →
    Upward node.state.reduce (node.sent p .reduce) (node.rcvd p .reduce)
  downward : Downward cfg rank node.state.reduce node.sent
  nowhere : ∀ d, d ∉ cfg.neighbours rank → node.sent d .reduce = []
  gathers : ∃ order,
    Gathers cfg rank node.state.localObjectsProcessed node.state.reduce node.rcvd order
  books : Books cfg rank node.state.localObjectsProcessed node.state.reduce node.rcvd

theorem reduceInv_start (start : Start rank) :
    ReduceInv cfg rank { state := start.state, sent := fun _ _ => [], rcvd := fun _ _ => [] } where
  running := by simp [Start.state]
  upward := by
    intro p _
    constructor <;>
      simp [Start.state, Reduce.unsent, Reduce.unsaid, Reduce.spoken, Reduce.responses,
        Reduce.sendsReport, Reduce.isTaken, Reduce.isOpen]
    split <;> rfl
  downward := by
    intro c _
    simp [Start.state, Reduce.startsTo, Reduce.isOpen]
  nowhere := fun _ _ => rfl
  gathers := by
    refine ⟨[], ?_⟩
    constructor <;>
      simp [Start.state, Reduce.isOpen, Reduce.syncRest, Reduce.current, heard]
  books := by
    constructor <;> simp [Start.state, Reduce.delivered]

/-- Each round of a rank has an answer of each child. -/
def Answered (cfg : Config n) (g : World n) : Prop :=
  ∀ p c, cfg.tree.parent c = some p →
    (g p).state.reduce.rounds.length ≤ (g c).state.reduce.responses.length

section Channels

variable {ok : World n → Fin n → Event n → Prop} {g : World n} {p c : Fin n}

/-- A parent has sent a start for each answer of a child. -/
theorem responses_le (hReach : Execution cfg ok g) (hInv : ∀ r, ReduceInv cfg r (g r))
    (hParent : cfg.tree.parent c = some p) :
    (g c).state.reduce.responses.length + (if (g c).state.reduce.isTaken then 1 else 0) ≤
      (g p).state.reduce.startsTo c := by
  have hFifo := hReach.fifo.length_le p c .reduce
  have hRcvd := ((hInv c).upward p hParent).starts
  have hSent := (hInv p).downward c (cfg.tree.mem_children hParent)
  rw [hRcvd, hSent, List.length_replicate, List.length_replicate] at hFifo
  exact hFifo

/-- A rank that has made its report of the last reduction has left the
barrier. -/
theorem ReduceShape.leftBarrier (h : ReduceShape cfg rank s) (hLast : s.reduce.last ≠ none) :
    s.pc.leftBarrier = true := by
  rcases h.last hLast with hLate | hPhase
  · revert hLate
    cases s.pc <;> decide
  · rw [h.syncPlace (by simp [hPhase, ReducePhase.isSync])]
    rfl

/-- Once a rank has left the barrier, no rank is in a round. -/
theorem noRound_of_left (hReach : Execution cfg ok g) (hInv : ∀ r, ReduceInv cfg r (g r))
    (hLeft : (g c).state.pc.leftBarrier = true) (r : Fin n) :
    (g r).state.cleanup = true ∧ (g r).state.reduce.reduceOutstanding = false :=
  hReach.noRound_of_started r (hReach.all_started hLeft r) (hInv r).running

theorem isOpen_eq_false {r : Reduce n} (h : r.reduceOutstanding = false) : r.isOpen = false := by
  simp [Reduce.isOpen, h]

/-- The header that comes next begins a report that has not been read. -/
theorem heard_lt_spoken (hReach : Execution cfg ok g) (hInv : ∀ r, ReduceInv cfg r (g r))
    (hParent : cfg.tree.parent c = some p) {msg : Msg}
    (hAdmits : FifoNet.Admits g p (.recv c .reduce msg : Input n)) (hHeader : msg.isHeader = true)
    (hAfter : reports.after none ((g p).rcvd c .reduce) = none) :
    (heard (g p).rcvd c).length + 1 ≤ (g c).state.reduce.spoken.length := by
  have hPrefix := hReach.fifo.of_admits_recv hAdmits
  have hUp := (hInv c).upward p hParent
  have hAccepts := (hUp.accepts.of_prefix hPrefix)
  have hCount := hPrefix.sublist.countP_le (p := Msg.isHeader)
  have hHeard := countP_isHeader (reports.accepts_snoc.mp hAccepts).1
  rw [hUp.countP_isHeader, List.countP_append, hHeard, hAfter] at hCount
  simpa [hHeader, heard] using hCount

/-- A child is at most one report ahead of the rounds of its parent. -/
theorem spoken_le (hReach : Execution cfg ok g) (hInv : ∀ r, ReduceInv cfg r (g r))
    (hParent : cfg.tree.parent c = some p) :
    (g c).state.reduce.spoken.length ≤ (g p).state.reduce.rounds.length + 1 := by
  have hStarts := responses_le hReach hInv hParent
  rw [Reduce.spoken, List.length_append]
  cases hLast : (g c).state.reduce.last with
  | none =>
      have hSplit : (g p).state.reduce.startsTo c ≤ (g p).state.reduce.rounds.length + 1 := by
        unfold Reduce.startsTo
        split <;> omega
      simp only [Option.map_none, Option.toList_none, List.length_nil]
      omega
  | some x =>
      -- the last report is not made while the parent is in a round
      have hShape := hReach.reduceShape c (hInv c).running
      have hLeft := hShape.leftBarrier (by simp [hLast])
      have hClosed := isOpen_eq_false (noRound_of_left hReach hInv hLeft p).2
      simp only [Reduce.startsTo, hClosed] at hStarts
      simp only [Option.map_some, Option.toList_some, List.length_singleton]
      simp at hStarts
      omega

/-- A message that can be received from a child is one that may come next, and
belongs to the round at hand. -/
theorem child_admits (hReach : Execution cfg ok g) (hInv : ∀ r, ReduceInv cfg r (g r))
    (hParent : cfg.tree.parent c = some p) {msg : Msg}
    (hAdmits : FifoNet.Admits g p (.recv c .reduce msg : Input n)) :
    reports.Ok (reports.after none ((g p).rcvd c .reduce)) msg ∧
      (heard (g p).rcvd c).length = (g p).state.reduce.rounds.length := by
  have hMem := cfg.tree.mem_children hParent
  have hOk := ((hInv c).upward p hParent).accepts.next_ok (hReach.fifo.of_admits_recv hAdmits)
  obtain ⟨order, hGathers⟩ := (hInv p).gathers
  refine ⟨hOk, ?_⟩
  have hLength := hGathers.length_eq c hMem
  by_cases hCurrent : ∃ bytes, (g p).state.reduce.current = some (c, bytes)
  · obtain ⟨bytes, hCurrent⟩ := hCurrent
    rw [hLength, if_neg (hGathers.current c bytes hCurrent).1, Nat.add_zero]
  · have hAfter := hGathers.whole c hMem fun bytes hSome => hCurrent ⟨bytes, hSome⟩
    rw [hAfter] at hOk
    obtain ⟨valid, count, bytes, rfl, -⟩ := reports_ok_none hOk
    have hHeard := heard_lt_spoken hReach hInv hParent hAdmits rfl hAfter
    have hSpoken := spoken_le hReach hInv hParent
    omega

/-- In the last reduction a child reports what it has put into it. -/
theorem valid_of_closed (hReach : Execution cfg ok g) (hInv : ∀ r, ReduceInv cfg r (g r))
    (hAnswered : Answered cfg g) (hParent : cfg.tree.parent c = some p)
    (hClosed : (g p).state.reduce.isOpen = false) {valid : Bool} {count bytes : Int}
    (hAdmits : FifoNet.Admits g p (.recv c .reduce (.longs valid count bytes) : Input n)) :
    valid = true := by
  obtain ⟨hOk, hLength⟩ := child_admits hReach hInv hParent hAdmits
  have hPrefix := hReach.fifo.of_admits_recv hAdmits
  have hRead := ((hInv c).upward p hParent).read_initial hPrefix
  have hStarts := responses_le hReach hInv hParent
  have hAnswers := hAnswered p c hParent
  -- all answers have been read
  have hAll : (g c).state.reduce.responses.length = (heard (g p).rcvd c).length := by
    simp only [Reduce.startsTo, hClosed] at hStarts
    simp at hStarts
    omega
  cases hAfter : reports.after none ((g p).rcvd c .reduce) with
  | some header =>
      rw [hAfter] at hOk
      obtain ⟨value, hEq, -⟩ := reports_ok_some hOk
      cases hEq
  | none =>
      cases valid with
      | true => rfl
      | false =>
          -- an invalid report would be the last one
          rw [reports.read_snoc, hAfter, Reduce.spoken] at hRead
          obtain ⟨rest, hRest⟩ := hRead
          rw [List.append_assoc] at hRest
          have hLast := (List.append_inj hRest hAll.symm).2
          cases hSome : (g c).state.reduce.last with
          | none => simp [hSome, reports] at hLast
          | some x =>
              have hValid := ((hInv c).books.last x hSome).1
              simp [hSome, reports, Round.report, hValid] at hLast

end Channels

/-! ## One turn -/

section Turns

variable {r : Reduce n} {rcvd : Log (Fin n) Tag Msg} {sample : Int} {cleanup : Bool}
  {order : List (Fin n)} {turn : Turn n (Reduce n) Outcome}

/-- Where every message is one that may come next, `reduceCheck` does not
fail. -/
theorem ReduceTurn.runs (hTurn : ReduceTurn cfg rank sample cleanup r input turn)
    (hFits : r.Fits cfg rank cleanup) (hGathers : Gathers cfg rank sample r rcvd order)
    (hStart : ∀ p msg, input = .recv p .reduce msg → cfg.tree.parent rank = some p → msg = .empty)
    (hOk : ∀ c msg, input = .recv c .reduce msg → c ∈ cfg.tree.children rank →
      reports.Ok (reports.after none (rcvd c .reduce)) msg) :
    turn.result ≠ some .failed := by
  unfold Reduce.Fits at hFits
  cases hTurn
  case badStart hParent hBad => exact (hBad (hStart _ _ rfl hParent)).elim
  case badHeader child rest msg r' hPhase hBad =>
    rw [hPhase] at hFits
    have hMem := hFits.2.subset List.mem_cons_self
    have hNext := hOk _ _ rfl hMem
    rw [hGathers.whole child hMem (by simp [Reduce.current, hPhase])] at hNext
    obtain ⟨valid, count, bytes, rfl, hPos⟩ := reports_ok_none hNext
    obtain ⟨hValid, hNone⟩ := hBad _ _ _ rfl
    have hBytes := hPos hValid
    omega
  case badData child bytes rest msg hPhase hBad =>
    rw [hPhase] at hFits
    have hMem := hFits.2.subset List.mem_cons_self
    have hNext := hOk _ _ rfl hMem
    obtain ⟨-, count, hAfter⟩ := hGathers.current child bytes (by simp [Reduce.current, hPhase])
    rw [hAfter] at hNext
    obtain ⟨value, rfl, hBytes⟩ := reports_ok_some hNext
    exact (hBad value rfl hBytes).elim
  all_goals simp [Turn.stays, Turn.sends, Turn.returns, Turn.sendsAndReturns]

theorem SyncTurn.runs (hTurn : SyncTurn cfg rank sample r input turn)
    (hFits : r.Fits cfg rank true) (hGathers : Gathers cfg rank sample r rcvd order)
    (hOk : ∀ c msg, input = .recv c .reduce msg → c ∈ cfg.tree.children rank →
      reports.Ok (reports.after none (rcvd c .reduce)) msg ∧
        ∀ valid count bytes, msg = .longs valid count bytes → valid = true) :
    turn.result ≠ some .failed := by
  unfold Reduce.Fits at hFits
  cases hTurn
  case badHeader child rest msg r' hPhase hBad =>
    rw [hPhase] at hFits
    have hMem := hFits.2.subset List.mem_cons_self
    obtain ⟨hNext, hValid⟩ := hOk _ _ rfl hMem
    rw [hGathers.whole child hMem (by simp [Reduce.current, hPhase])] at hNext
    obtain ⟨valid, count, bytes, rfl, hPos⟩ := reports_ok_none hNext
    have hBytes := hPos (hValid _ _ _ rfl)
    have hNone := hBad _ _ _ rfl
    omega
  case badData child bytes rest msg hPhase hBad =>
    rw [hPhase] at hFits
    have hMem := hFits.2.subset List.mem_cons_self
    have hNext := (hOk _ _ rfl hMem).1
    obtain ⟨-, count, hAfter⟩ := hGathers.current child bytes (by simp [Reduce.current, hPhase])
    rw [hAfter] at hNext
    obtain ⟨value, rfl, hBytes⟩ := reports_ok_some hNext
    exact (hBad value rfl hBytes).elim
  all_goals simp [Turn.stays, Turn.sends, Turn.returns, Turn.sendsAndReturns]

/-- A rank talks to its parent and its children only. -/
theorem ReduceTurn.neighbour (hTurn : ReduceTurn cfg rank sample cleanup r input turn)
    (hFits : r.Fits cfg rank cleanup) (packet : Packet n) (hOut : turn.out = some packet) :
    packet.dst ∈ cfg.neighbours rank := by
  rw [mem_neighbours_iff]
  unfold Reduce.Fits at hFits
  cases hTurn
  case kick child rest hPhase =>
    cases hOut
    rw [hPhase] at hFits
    exact Or.inr (hFits.2.2.subset List.mem_cons_self)
  case refuse hParent _ | report hParent _ | reportBare hParent _ | sendData hParent _ =>
    cases hOut
    exact Or.inl hParent
  all_goals cases hOut

theorem SyncTurn.neighbour (hTurn : SyncTurn cfg rank sample r input turn) (packet : Packet n)
    (hOut : turn.out = some packet) : packet.dst ∈ cfg.neighbours rank := by
  rw [mem_neighbours_iff]
  cases hTurn
  case send hParent _ | sendBare hParent _ | sendData hParent _ =>
    cases hOut
    exact Or.inl hParent
  all_goals cases hOut

/-- Nothing goes to ranks that are not neighbours. -/
theorem nowhere_step {sent : Log (Fin n) Tag Msg}
    (h : ∀ d, d ∉ cfg.neighbours rank → sent d .reduce = [])
    (hOut : ∀ packet, out = some packet → packet.dst ∈ cfg.neighbours rank) (d : Fin n)
    (hFar : d ∉ cfg.neighbours rank) : sent.send out d .reduce = [] := by
  cases out with
  | none => exact h d hFar
  | some packet =>
      obtain ⟨dst, tag, msg⟩ := packet
      have hDst := hOut _ rfl
      rw [FifoNet.Log.send_some, sent.add_of_peer_ne, h d hFar]
      rintro rfl
      exact hFar hDst

end Turns

/-- `requestWork` does not fail. -/
theorem requestWork_runs {ok : World n → Fin n → Event n → Prop} {g : World n}
    (hReach : Execution cfg ok g) (hAdmits : FifoNet.Admits g rank input)
    (hStep : MainStep cfg rank input (g rank).state s' out)
    (hPc : (g rank).state.pc = .requestWork) : s'.pc ≠ .failed := by
  cases hStep
  case raise =>
    rw [hPc]
    decide
  case requestWork turn pc _ hTurn hNext =>
    have hFits := (hReach.control rank).fits
    simp only [State.Fits, hPc] at hFits
    have hRuns := ((hReach.workInv rank).requestWork hFits
      (replies_ok_of_admits hReach.fifo hReach.workInv hAdmits) (requestTurn_of_eq hTurn)).1
    subst hNext
    rcases hResult : turn.result with _ | _ | _
    · simp
    · dsimp only
      split <;> simp
    · exact (hRuns hResult).elim
  all_goals simp_all

section Step

variable {ok : World n → Fin n → Event n → Prop} {g : World n}

/-- The parent sends starts only. -/
theorem start_of_admits (hInv : ∀ r, ReduceInv cfg r (g r)) {p : Fin n}
    {msg : Msg} (hAdmits : FifoNet.Admits g rank (.recv p .reduce msg : Input n))
    (hParent : cfg.tree.parent rank = some p) : msg = .empty := by
  have hMem := FifoNet.mem_sent_of_admits hAdmits
  rw [(hInv p).downward rank (cfg.tree.mem_children hParent)] at hMem
  exact List.eq_of_mem_replicate hMem

/-- What a turn of `reduceCheck` does to the part of a rank. -/
theorem ReduceInv.check (hReach : Execution cfg ok g) (hInv : ∀ r, ReduceInv cfg r (g r))
    (hAdmits : FifoNet.Admits g rank input) (hPc : (g rank).state.pc = .reduceCheck)
    {turn : Turn n (Reduce n) Outcome}
    (hTurn : ReduceTurn cfg rank (g rank).state.localObjectsProcessed (g rank).state.cleanup
      (g rank).state.reduce input turn)
    (hReduce : s'.reduce = turn.record)
    (hProcessed : s'.localObjectsProcessed = (g rank).state.localObjectsProcessed)
    (hFailed : turn.result = some .failed ↔ s'.pc = .failed) :
    ReduceInv cfg rank ((g rank).after input s' turn.out) := by
  have h := hInv rank
  obtain ⟨order, hGathers⟩ := h.gathers
  have hReady := (hReach.reduceShape rank h.running).checkReady hPc
  have hChild (c : Fin n) (msg : Msg) (hInput : input = .recv c .reduce msg)
      (hMem : c ∈ cfg.tree.children rank) :=
    child_admits hReach hInv (cfg.tree.parent_of_mem hMem) (hInput ▸ hAdmits)
  have hResult : turn.result ≠ some .failed := by
    refine hTurn.runs hReady.fits hGathers ?_ fun c msg hInput hMem => (hChild c msg hInput hMem).1
    intro p msg hInput hParent
    exact start_of_admits hInv (hInput ▸ hAdmits) hParent
  constructor
  case running => exact fun hEq => hResult (hFailed.mpr hEq)
  case upward =>
    intro p hParent
    show Upward s'.reduce _ _
    rw [hReduce]
    exact (h.upward p hParent).reduceTurn hParent hReady hTurn hResult
  case downward =>
    show Downward cfg rank s'.reduce _
    rw [hReduce]
    exact h.downward.reduceTurn hReady hTurn hResult
  case nowhere => exact nowhere_step h.nowhere (hTurn.neighbour hReady.fits)
  case gathers =>
    show ∃ order, Gathers cfg rank s'.localObjectsProcessed s'.reduce _ order
    rw [hReduce, hProcessed]
    exact hGathers.reduceTurn hReady hTurn hResult fun c msg hInput hMem =>
      (hChild c msg hInput hMem).2
  case books =>
    show Books cfg rank s'.localObjectsProcessed s'.reduce _
    rw [hReduce, hProcessed]
    exact h.books.reduceTurn hGathers hReady hTurn hResult

/-- What a turn of `reduceSync` does to the part of a rank. -/
theorem ReduceInv.sync (hReach : Execution cfg ok g) (hInv : ∀ r, ReduceInv cfg r (g r))
    (hAnswered : Answered cfg g) (hAdmits : FifoNet.Admits g rank input)
    (hPc : (g rank).state.pc = .reduceSync) {turn : Turn n (Reduce n) Outcome}
    (hTurn : SyncTurn cfg rank (g rank).state.localObjectsProcessed (g rank).state.reduce input turn)
    (hReduce : s'.reduce = turn.record)
    (hProcessed : s'.localObjectsProcessed = (g rank).state.localObjectsProcessed)
    (hFailed : s'.pc = .failed → turn.result = some .failed) :
    ReduceInv cfg rank ((g rank).after input s' turn.out) := by
  have h := hInv rank
  obtain ⟨order, hGathers⟩ := h.gathers
  have hLeft : (g rank).state.pc.leftBarrier = true := by
    rw [hPc]
    rfl
  obtain ⟨hCleanup, hClosed⟩ := noRound_of_left hReach hInv hLeft rank
  have hReady := (hReach.reduceShape rank h.running).syncReady hPc hCleanup hClosed
  have hChild (c : Fin n) (msg : Msg) (hInput : input = .recv c .reduce msg)
      (hMem : c ∈ cfg.tree.children rank) :=
    child_admits hReach hInv (cfg.tree.parent_of_mem hMem) (hInput ▸ hAdmits)
  have hValid (c : Fin n) (msg : Msg) (hInput : input = .recv c .reduce msg)
      (hMem : c ∈ cfg.tree.children rank) (valid : Bool) (count bytes : Int)
      (hMsg : msg = .longs valid count bytes) : valid = true :=
    valid_of_closed hReach hInv hAnswered (cfg.tree.parent_of_mem hMem) (isOpen_eq_false hClosed)
      (hMsg ▸ hInput ▸ hAdmits)
  have hResult : turn.result ≠ some .failed :=
    hTurn.runs hReady.fits hGathers fun c msg hInput hMem =>
      ⟨(hChild c msg hInput hMem).1, hValid c msg hInput hMem⟩
  constructor
  case running => exact fun hEq => hResult (hFailed hEq)
  case upward =>
    intro p hParent
    show Upward s'.reduce _ _
    rw [hReduce]
    exact (h.upward p hParent).syncTurn hParent hReady hTurn hResult
  case downward =>
    show Downward cfg rank s'.reduce _
    rw [hReduce]
    exact h.downward.syncTurn hReady hTurn hResult
  case nowhere => exact nowhere_step h.nowhere hTurn.neighbour
  case gathers =>
    show ∃ order, Gathers cfg rank s'.localObjectsProcessed s'.reduce _ order
    rw [hReduce, hProcessed]
    exact hGathers.syncTurn hReady hTurn hResult fun c msg hInput hMem =>
      ⟨(hChild c msg hInput hMem).2, hValid c msg hInput hMem⟩
  case books =>
    show Books cfg rank s'.localObjectsProcessed s'.reduce _
    rw [hReduce, hProcessed]
    exact h.books.syncTurn hGathers hReady hTurn hResult

/-- Where the reductions are left alone, so is what a rank knows of them. -/
theorem ReduceInv.frame (hReach : Execution cfg ok g) (h : ReduceInv cfg rank (g rank))
    (hStep : MainStep cfg rank input (g rank).state s' out) (hSilent : Silent .reduce input out)
    (hReduce : s'.reduce = (g rank).state.reduce)
    (hProcessed : (g rank).state.localObjectsProcessed ≤ s'.localObjectsProcessed)
    (hRunning : s'.pc ≠ .failed) : ReduceInv cfg rank ((g rank).after input s' out) := by
  have hShape := hReach.reduceShape rank h.running
  have hFits := (hReach.control rank).fits
  obtain ⟨order, hGathers⟩ := h.gathers
  -- no objects are processed once the last reduction has begun
  have hSame (hPc : (g rank).state.pc.leftBarrier = true) :
      s'.localObjectsProcessed = (g rank).state.localObjectsProcessed := by
    refine processed_of_step hStep fun hProcess => ?_
    rw [hProcess] at hPc
    cases hPc
  have hRcvd : ((g rank).after input s' out).rcvd = (g rank).rcvd.receive input := rfl
  constructor
  case running => exact hRunning
  case upward =>
    intro p hParent
    show Upward s'.reduce ((g rank).sent.send out p .reduce) ((g rank).rcvd.receive input p .reduce)
    rw [hReduce, hSilent.sent, hSilent.rcvd]
    exact h.upward p hParent
  case downward =>
    show Downward cfg rank s'.reduce ((g rank).sent.send out)
    rw [hReduce]
    exact h.downward.same (fun c _ => hSilent.sent _ c) fun _ _ => rfl
  case nowhere =>
    intro d hFar
    show (g rank).sent.send out d .reduce = []
    rw [hSilent.sent]
    exact h.nowhere d hFar
  case gathers =>
    refine ⟨order, ?_⟩
    show Gathers cfg rank s'.localObjectsProcessed s'.reduce ((g rank).rcvd.receive input) order
    rw [hReduce]
    refine hGathers.frame (hSilent.rcvd _) fun hRest => ?_
    have hSync : (g rank).state.reduce.phase.isSync = true := by
      unfold Reduce.syncRest at hRest
      split at hRest <;> simp_all [ReducePhase.isSync]
    rw [hSame (by rw [hShape.syncPlace hSync]; rfl)]
  case books =>
    show Books cfg rank s'.localObjectsProcessed s'.reduce ((g rank).rcvd.receive input)
    rw [hReduce]
    refine h.books.frame hGathers (fun c _ => (g rank).rcvd.prefix_receive input c .reduce) ?_ ?_
      rfl rfl rfl
    · exact_mod_cast hProcessed
    · intro hLast
      rw [hSame (hShape.leftBarrier hLast)]

/-- The functions that can fail. -/
theorem Pc.of_failed_mem_next {pc : Pc} (h : Pc.failed ∈ pc.next) :
    pc = .requestWork ∨ pc = .reduceCheck ∨ pc = .reduceSync ∨ pc = .failed := by
  revert h
  cases pc <;> decide

/-- What a turn does to what the rank that takes it knows. -/
theorem ReduceInv.step (hReach : Execution cfg ok g) (hInv : ∀ r, ReduceInv cfg r (g r))
    (hAnswered : Answered cfg g) (hAdmits : FifoNet.Admits g rank input)
    (hStep : MainStep cfg rank input (g rank).state s' out) :
    ReduceInv cfg rank ((g rank).after input s' out) := by
  have hReduceStep := reduceStep_of_mainStep hStep
  cases hReduceStep
  case other hReduce hProcessed hStays hSilent =>
    refine ReduceInv.frame hReach (hInv rank) hStep hSilent hReduce hProcessed fun hFailed => ?_
    have hNext := hStep.next
    rw [hFailed] at hNext
    rcases Pc.of_failed_mem_next hNext with hPc | hPlace
    · exact requestWork_runs hReach hAdmits hStep hPc hFailed
    · have hSame := (hStays hPlace).1
      exact (hInv rank).running (hSame ▸ hFailed)
  case check turn hPc hTurn hReduce hCleanup hProcessed hCheck hFailed =>
    exact ReduceInv.check hReach hInv hAdmits hPc hTurn hReduce hProcessed hFailed
  case sync turn hPc hTurn hReduce hCleanup hProcessed hNext =>
    refine ReduceInv.sync hReach hInv hAnswered hAdmits hPc hTurn hReduce hProcessed fun hEq => ?_
    rw [hNext] at hEq
    split at hEq <;> simp_all

/-- A turn of `reduceCheck` adds a round when all children have replied. -/
theorem ReduceTurn.rounds_cases {sample : Int} {cleanup : Bool} {r : Reduce n}
    {turn : Turn n (Reduce n) Outcome} (hTurn : ReduceTurn cfg rank sample cleanup r input turn)
    (hReady : CheckReady cfg rank cleanup r) (hResult : turn.result ≠ some .failed) :
    r.refused ≤ turn.record.refused ∧ (turn.record.rounds = r.rounds ∨
      r.phase = .children [] ∧ r.reduceReplies = (cfg.tree.children rank).length ∧
        ∃ x : Round, x.sample = sample ∧ turn.record.rounds = r.rounds ++ [x]) := by
  cases hTurn
  case badStart | badHeader | badData => exact (hResult rfl).elim
  case refuse => exact ⟨Nat.le_succ _, Or.inl rfl⟩
  case report hPhase hReplies _ _ | reportBare hPhase hReplies _ _ | deliver hPhase hReplies _ _ |
      discard hPhase hReplies _ _ =>
    obtain ⟨⟨init, hInit⟩, value, hBuf⟩ :=
      hReady.buffers (outstanding_of_children hReady.fits hPhase)
    refine ⟨?_, Or.inr ⟨hPhase, hReplies, ⟨init, sample, r.valid, r.count + sample, value⟩, rfl, ?_⟩⟩ <;>
      simp [Turn.sends, Turn.sendsAndReturns, Turn.returns, Reduce.endRound, Reduce.finalize,
        Reduce.round, hInit, hBuf]
  all_goals exact ⟨Nat.le_refl _, Or.inl rfl⟩

/-- What a turn does to the rounds of a rank: it may add one. -/
theorem rounds_step (hReach : Execution cfg ok g) (hInv : ∀ r, ReduceInv cfg r (g r))
    (hRunning : s'.pc ≠ .failed) (hStep : MainStep cfg rank input (g rank).state s' out) :
    (g rank).state.reduce.refused ≤ s'.reduce.refused ∧
      (s'.reduce.rounds = (g rank).state.reduce.rounds ∨
        (∀ c ∈ cfg.tree.children rank,
          (g rank).state.reduce.rounds.length + 1 ≤ (heard (g rank).rcvd c).length) ∧
        (g rank).state.reduce.isOpen = true ∧
        ∃ x : Round, x.sample = (g rank).state.localObjectsProcessed ∧
          s'.reduce.rounds = (g rank).state.reduce.rounds ++ [x]) := by
  have hReduceStep := reduceStep_of_mainStep hStep
  cases hReduceStep
  case other hReduce _ _ _ =>
    rw [hReduce]
    exact ⟨Nat.le_refl _, Or.inl rfl⟩
  case check turn hPc hTurn hReduce hCleanup hProcessed hCheck hFailed =>
    have hReady := (hReach.reduceShape rank (hInv rank).running).checkReady hPc
    obtain ⟨hRefused, hRounds⟩ :=
      hTurn.rounds_cases hReady fun hEq => hRunning (hFailed.mp hEq)
    rw [hReduce]
    refine ⟨hRefused, hRounds.imp_right ?_⟩
    rintro ⟨hPhase, hReplies, hAdded⟩
    have hOpen : (g rank).state.reduce.isOpen = true := by
      simp [Reduce.isOpen, hPhase, outstanding_of_children hReady.fits hPhase]
    refine ⟨fun c hMem => ?_, hOpen, hAdded⟩
    obtain ⟨order, hGathers⟩ := (hInv rank).gathers
    have hOrder := (hGathers.opened hOpen).1
    rw [hReplies] at hOrder
    have hPerm := hGathers.perm (by simpa [Reduce.current, hPhase] using hOrder.symm)
    rw [hGathers.length_eq c hMem, if_pos (hPerm.mem_iff.mpr hMem)]
  case sync turn hPc hTurn hReduce hCleanup hProcessed hNext =>
    have hResult : turn.result ≠ some .failed := by
      intro hEq
      rw [hEq] at hNext
      exact hRunning hNext
    obtain ⟨hRefused, -, hRounds⟩ := hTurn.refused_eq hResult
    rw [hReduce, hRefused, hRounds]
    exact ⟨Nat.le_refl _, Or.inl rfl⟩

/-- A round ends when all children have answered it. -/
theorem Answered.step (hReach : Execution cfg ok g) (hInv : ∀ r, ReduceInv cfg r (g r))
    (h : Answered cfg g) (hRunning : s'.pc ≠ .failed)
    (hStep : MainStep cfg rank input (g rank).state s' out) :
    Answered cfg (FifoNet.set g rank ((g rank).after input s' out)) := by
  obtain ⟨hRefused, hRounds⟩ := rounds_step hReach hInv hRunning hStep
  -- answers are never taken back
  have hResponses (c : Fin n) : (g c).state.reduce.responses.length ≤
      (FifoNet.set g rank ((g rank).after input s' out) c).state.reduce.responses.length := by
    by_cases hSelf : c = rank
    · subst hSelf
      rw [FifoNet.set_self, FifoNet.Node.after_state]
      simp only [Reduce.responses, List.length_append, List.length_map, List.length_replicate]
      rcases hRounds with hSame | ⟨-, -, x, -, hAdded⟩
      · rw [hSame]
        omega
      · rw [hAdded, List.length_append]
        omega
    · rw [FifoNet.set_of_ne _ _ hSelf]
  intro p c hParent
  refine Nat.le_trans ?_ (hResponses c)
  by_cases hSelf : p = rank
  · subst hSelf
    rw [FifoNet.set_self, FifoNet.Node.after_state]
    rcases hRounds with hSame | ⟨hHeard, hOpen, x, -, hAdded⟩
    · rw [hSame]
      exact h p c hParent
    · have hPrefix := ((hInv c).upward p hParent).read_initial (hReach.fifo c p .reduce)
      -- the child has not gone on to the last reduction
      have hLast : (g c).state.reduce.last = none := by
        by_contra hSome
        have hLeft := (hReach.reduceShape c (hInv c).running).leftBarrier hSome
        rw [isOpen_eq_false (noRound_of_left hReach hInv hLeft p).2] at hOpen
        cases hOpen
      have hLength := hHeard c (cfg.tree.mem_children hParent)
      have hSpoken := hPrefix.length_le
      simp only [Reduce.spoken, hLast, Option.map_none, Option.toList_none, List.append_nil]
        at hSpoken
      rw [hAdded, List.length_append, List.length_singleton]
      exact Nat.le_trans hLength hSpoken
  · rw [FifoNet.set_of_ne _ _ hSelf]
    exact h p c hParent

/-- What holds of the reductions in every execution. -/
theorem Execution.reductions (h : Execution cfg ok g) :
    (∀ r, ReduceInv cfg r (g r)) ∧ Answered cfg g := by
  refine FifoNet.Reachable.invariant
    (I := fun g => (∀ r, ReduceInv cfg r (g r)) ∧ Answered cfg g) ?_ ?_ h
  · rintro states ⟨start, hStates⟩
    refine ⟨fun r => ?_, fun p c _ => ?_⟩
    · rw [FifoNet.fresh, hStates r]
      exact reduceInv_start (start r)
    · rw [FifoNet.fresh, hStates p]
      exact Nat.zero_le _
  · rintro g rank event input s' out hReach ⟨hInv, hAnswered⟩ - - hFires
    have hStep := mainStep_of_mainLoop hFires.acts
    have hSelf := ReduceInv.step hReach hInv hAnswered hFires.admits hStep
    refine ⟨fun r => ?_, hAnswered.step hReach hInv hSelf.running hStep⟩
    by_cases hEq : r = rank
    · subst hEq
      rw [FifoNet.set_self]
      exact hSelf
    · rw [FifoNet.set_of_ne _ _ hEq]
      exact hInv r

/-- No rank stops the execution. -/
theorem Execution.running (h : Execution cfg ok g) (rank : Fin n) :
    (g rank).state.pc ≠ .failed :=
  (h.reductions.1 rank).running

theorem Execution.running_step (h : Execution cfg ok g) (hAdmits : FifoNet.Admits g rank input)
    (hStep : MainStep cfg rank input (g rank).state s' out) : s'.pc ≠ .failed := by
  obtain ⟨hInv, hAnswered⟩ := h.reductions
  exact (ReduceInv.step h hInv hAnswered hAdmits hStep).running

end Step

end Circle
