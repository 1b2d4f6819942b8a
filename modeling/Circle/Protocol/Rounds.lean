import Circle.Protocol.Reports

/-!
# The two ends of a round

What a rank has told its parent (`Upward`), and which of its children it has
started (`Downward`).  Each start of the parent is answered by one report, so
that the number of a report in the stream of a child is the number of the round
that it belongs to.
-/

namespace Circle

open FifoNet (Log inFlight)

variable {n : Nat} {cfg : Config n} {rank : Fin n} {input : Input n} {s s' : State n}
  {out : Option (Packet n)} {sent rcvd : Log (Fin n) Tag Msg} {sample : Int} {cleanup : Bool}
  {r r' : Reduce n} {turn : Turn n (Reduce n) Outcome}

/-! ## The parent -/

namespace Reduce

/-- The header of the report whose user data is not sent. -/
def unsent (r : Reduce n) : Option (Int × Int) :=
  if r.sendsReport then some (r.count, r.bytes) else none

/-- The report whose user data is not sent. -/
def unsaid (r : Reduce n) : List Report :=
  match r.reduceBuf with
  | some value => if r.sendsReport then [.valid r.count value] else []
  | none => []

theorem unsent_of_not (h : r.sendsReport = false) : r.unsent = none := by simp [unsent, h]

theorem unsaid_of_not (h : r.sendsReport = false) : r.unsaid = [] := by
  unfold unsaid
  split <;> simp [h]

end Reduce

/-- A report of which no user data is sent is a header only. -/
theorem isBare_of_size {init value : ReduceBuf} {count : Int} (hBuf : r.reduceBuf = some value)
    (sample : Int) (hBare : ¬ (0 < r.reduceBufSize ∧ r.valid = true)) :
    (Msg.longs r.valid count r.reduceBufSize).IsBare
      (Round.report ⟨init, sample, r.valid, count, value⟩) := by
  have hSize : r.reduceBufSize = (value.bytes.length : Int) := by
    rw [Reduce.reduceBufSize, hBuf]
  cases hValid : r.valid with
  | false => exact .invalid _ _
  | true =>
      have hNone : (value.bytes.length : Int) = 0 := by
        rw [hSize] at hBare
        by_contra hSome
        exact hBare ⟨by omega, hValid⟩
      rw [hSize, hNone, ReduceBuf.eq_null hNone]
      exact .valid count

/-- What a rank has exchanged with its parent. -/
structure Upward (r : Reduce n) (sent rcvd : List Msg) : Prop where
  accepts : reports.Accepts none sent
  after_eq : reports.after none sent = r.unsent
  said : reports.read none sent ++ r.unsaid = r.spoken
  bytes : r.sendsReport = true →
    ∃ value, r.reduceBuf = some value ∧ r.bytes = (value.bytes.length : Int)
  starts : rcvd = List.replicate (r.responses.length + if r.isTaken then 1 else 0) .empty

section Upward

variable {up down : List Msg}

/-- What is said when no user data is held back. -/
theorem Upward.read_eq (h : Upward r up down) (hNot : r.sendsReport = false) :
    reports.after none up = none ∧ reports.read none up = r.spoken := by
  have hSaid := h.said
  rw [Reduce.unsaid_of_not hNot, List.append_nil] at hSaid
  exact ⟨h.after_eq.trans (Reduce.unsent_of_not hNot), hSaid⟩

/-- Nothing is said. -/
theorem Upward.quiet (h : Upward r up down) (hNot : r.sendsReport = false)
    (hNot' : r'.sendsReport = false) (hSpoken : r'.spoken = r.spoken) {down' : List Msg}
    (hStarts : down' =
      List.replicate (r'.responses.length + if r'.isTaken then 1 else 0) .empty) :
    Upward r' up down' where
  accepts := h.accepts
  after_eq := by rw [(h.read_eq hNot).1, Reduce.unsent_of_not hNot']
  said := by
    rw [(h.read_eq hNot).2, Reduce.unsaid_of_not hNot', List.append_nil]
    exact hSpoken.symm
  bytes := fun hSends => by simp [hNot'] at hSends
  starts := hStarts

/-- No start is answered either. -/
theorem Upward.same (h : Upward r up down) (hNot : r.sendsReport = false)
    (hNot' : r'.sendsReport = false) (hSpoken : r'.spoken = r.spoken)
    (hResponses : r'.responses = r.responses) (hTaken : r'.isTaken = r.isTaken) :
    Upward r' up down := by
  refine h.quiet hNot hNot' hSpoken ?_
  rw [hResponses, hTaken]
  exact h.starts

/-- A report that is a header only. -/
theorem Upward.bare (h : Upward r up down) (hNot : r.sendsReport = false)
    (hNot' : r'.sendsReport = false) {msg : Msg} {report : Report} (hBare : msg.IsBare report)
    (hSpoken : r'.spoken = r.spoken ++ [report]) {down' : List Msg}
    (hStarts : down' =
      List.replicate (r'.responses.length + if r'.isTaken then 1 else 0) .empty) :
    Upward r' (up ++ [msg]) down' where
  accepts := by
    rw [reports.accepts_snoc, (h.read_eq hNot).1]
    exact ⟨h.accepts, hBare.ok⟩
  after_eq := by
    rw [reports.after_snoc, (h.read_eq hNot).1, Reduce.unsent_of_not hNot']
    exact hBare.next_eq
  said := by
    rw [reports.read_snoc, (h.read_eq hNot).1, (h.read_eq hNot).2, Reduce.unsaid_of_not hNot',
      List.append_nil, hBare.out_eq]
    exact hSpoken.symm
  bytes := fun hSends => by simp [hNot'] at hSends
  starts := hStarts

/-- The header of a report with user data. -/
theorem Upward.header (h : Upward r up down) (hNot : r.sendsReport = false)
    (hSends : r'.sendsReport = true) (value : ReduceBuf) (hBuf : r'.reduceBuf = some value)
    (hBytes : r'.bytes = (value.bytes.length : Int)) (hPos : 0 < r'.bytes)
    (hSpoken : r'.spoken = r.spoken ++ [.valid r'.count value]) {down' : List Msg}
    (hStarts : down' =
      List.replicate (r'.responses.length + if r'.isTaken then 1 else 0) .empty) :
    Upward r' (up ++ [.longs true r'.count r'.bytes]) down' where
  accepts := by
    rw [reports.accepts_snoc, (h.read_eq hNot).1]
    exact ⟨h.accepts, Int.le_of_lt hPos⟩
  after_eq := by
    rw [reports.after_snoc, (h.read_eq hNot).1, Reduce.unsent, if_pos hSends]
    exact if_neg (Int.ne_of_gt hPos)
  said := by
    rw [reports.read_snoc, (h.read_eq hNot).1, (h.read_eq hNot).2, hSpoken]
    simp [reports, Reduce.unsaid, hBuf, hSends, Int.ne_of_gt hPos]
  bytes := fun _ => ⟨value, hBuf, hBytes⟩
  starts := hStarts

/-- The user data of a report. -/
theorem Upward.data (h : Upward r up down) (hSends : r.sendsReport = true) {value : ReduceBuf}
    (hBuf : r.reduceBuf = some value) (hNot' : r'.sendsReport = false)
    (hSpoken : r'.spoken = r.spoken) {down' : List Msg}
    (hStarts : down' =
      List.replicate (r'.responses.length + if r'.isTaken then 1 else 0) .empty) :
    Upward r' (up ++ [.data value]) down' := by
  have hAfter : reports.after none up = some (r.count, r.bytes) := by
    rw [h.after_eq, Reduce.unsent, if_pos hSends]
  have hSaid := h.said
  simp only [Reduce.unsaid, hBuf, hSends, if_true] at hSaid
  constructor
  case accepts =>
    rw [reports.accepts_snoc, hAfter]
    obtain ⟨value', hBuf', hBytes⟩ := h.bytes hSends
    rw [hBuf, Option.some.injEq] at hBuf'
    subst hBuf'
    exact ⟨h.accepts, hBytes.symm⟩
  case after_eq =>
    rw [reports.after_snoc, hAfter, Reduce.unsent_of_not hNot']
    rfl
  case said =>
    rw [reports.read_snoc, hAfter, Reduce.unsaid_of_not hNot', List.append_nil, hSpoken]
    exact hSaid
  case bytes => exact fun hSends' => by simp [hNot'] at hSends'
  case starts => exact hStarts

/-- There is a header for each report, also for the one that is not complete. -/
theorem Upward.countP_isHeader (h : Upward r up down) :
    up.countP Msg.isHeader = r.spoken.length := by
  rw [Circle.countP_isHeader h.accepts, ← h.said, List.length_append, h.after_eq]
  cases hSends : r.sendsReport with
  | false => simp [Reduce.unsent_of_not hSends, Reduce.unsaid_of_not hSends]
  | true =>
      obtain ⟨value, hBuf, -⟩ := h.bytes hSends
      simp [Reduce.unsent, Reduce.unsaid, hSends, hBuf]

/-- What the parent has read is what has been said. -/
theorem Upward.read_initial (h : Upward r up down) {log : List Msg} (hPrefix : log <+: up) :
    reports.read none log <+: r.spoken := by
  rw [← h.said]
  exact (Reader.read_prefix none hPrefix).trans (List.prefix_append _ _)

end Upward

/-- What holds of the members when `reduceCheck` takes a turn. -/
structure CheckReady (cfg : Config n) (rank : Fin n) (cleanup : Bool) (r : Reduce n) : Prop where
  fits : r.Fits cfg rank cleanup
  buffers : r.reduceOutstanding = true →
    (∃ init, r.initial = some init) ∧ ∃ buf, r.reduceBuf = some buf
  refused : r.reduceOutstanding = true → r.refused = 0
  last : r.last = none

theorem ReduceShape.checkReady (h : ReduceShape cfg rank s) (hPc : s.pc = .reduceCheck) :
    CheckReady cfg rank s.cleanup s.reduce where
  fits := h.fits
  buffers := fun hOutstanding => h.buffers (Or.inl hOutstanding)
  refused := by
    intro hOutstanding
    by_contra hSome
    have hClosed := (h.refused (Nat.pos_of_ne_zero hSome)).2
    rw [hOutstanding] at hClosed
    cases hClosed
  last := by
    by_contra hLast
    rcases h.last hLast with hLate | hPhase
    · simp [hPc, Pc.early] at hLate
    · have hSync := h.syncPlace (by simp [hPhase, ReducePhase.isSync])
      simp [hPc] at hSync

theorem outstanding_of_children (h : r.Fits cfg rank cleanup) {rest : List (Fin n)}
    (hPhase : r.phase = .children rest) : r.reduceOutstanding = true := by
  simp only [Reduce.Fits, hPhase] at h
  exact h.1

section Cases

variable {up down : List Msg} {p : Fin n}

/-- Something from a child changes nothing between the rank and its parent. -/
theorem Upward.fromChild (h : Upward r (sent p .reduce) (rcvd p .reduce))
    (hParent : cfg.tree.parent rank = some p) {child : Fin n}
    (hMem : child ∈ cfg.tree.children rank) (msg : Msg) (hNot : r.sendsReport = false)
    (hNot' : r'.sendsReport = false) (hSpoken : r'.spoken = r.spoken)
    (hResponses : r'.responses = r.responses) (hTaken : r'.isTaken = r.isTaken) :
    Upward r' (sent p .reduce) (rcvd.receive (.recv child .reduce msg : Input n) p .reduce) := by
  have hNe : p ≠ child := by
    rintro rfl
    exact cfg.tree.not_mem_children_of_parent hParent hMem
  rw [FifoNet.Log.receive_recv, rcvd.add_of_peer_ne _ _ _ hNe]
  exact h.same hNot hNot' hSpoken hResponses hTaken

/-- A start from the parent is taken up. -/
theorem Upward.begin (h : Upward r up down) (hPhase : r.phase = .start)
    (hOutstanding : r.reduceOutstanding = false) :
    Upward ({ r with phase := .init } : Reduce n) up (down ++ [.empty]) := by
  refine h.quiet ?_ ?_ ?_ ?_
  · simp [Reduce.sendsReport, hPhase]
  · simp [Reduce.sendsReport]
  · rfl
  · rw [h.starts]
    simp [Reduce.isTaken, Reduce.isOpen, hPhase, hOutstanding, Reduce.responses,
      List.replicate_succ']

/-- A start from the parent is refused. -/
theorem Upward.refuse (h : Upward r up down) (hReady : CheckReady cfg rank cleanup r)
    (hPhase : r.phase = .start) (hOutstanding : r.reduceOutstanding = false) :
    Upward ({ r with valid := false, refused := r.refused + 1 } : Reduce n)
      (up ++ [.longs false r.count r.bytes]) (down ++ [.empty]) := by
  refine h.bare ?_ ?_ (.invalid _ _) ?_ ?_
  · simp [Reduce.sendsReport, hPhase]
  · simp [Reduce.sendsReport, hPhase]
  · simp [Reduce.spoken, Reduce.responses, hReady.last, List.replicate_succ']
  · rw [h.starts]
    simp [Reduce.isTaken, Reduce.isOpen, hPhase, hOutstanding, Reduce.responses,
      List.replicate_succ', ← add_assoc]

/-- The report of a round is the answer to a start. -/
theorem CheckReady.answers (hReady : CheckReady cfg rank cleanup r)
    (hOpen : r.reduceOutstanding = true) (r' : Reduce n) {x : Round} (hRounds : r'.rounds = r.rounds ++ [x])
    (hRefused : r'.refused = r.refused) (hLast : r'.last = r.last) :
    r'.spoken = r.spoken ++ [x.report] ∧ r'.responses.length = r.responses.length + 1 := by
  have hNone := hReady.refused hOpen
  simp [Reduce.spoken, Reduce.responses, hRounds, hRefused, hLast, hNone, hReady.last]

theorem Upward.starts_of_answer (h : Upward r up down) (hTaken : r.isTaken = true)
    (hTaken' : r'.isTaken = false) (hLength : r'.responses.length = r.responses.length + 1) :
    down = List.replicate (r'.responses.length + if r'.isTaken then 1 else 0) .empty := by
  rw [h.starts, hTaken, hTaken', hLength]
  rfl

/-- A report with user data. -/
theorem Upward.report (h : Upward r up down) (hReady : CheckReady cfg rank cleanup r)
    (hPhase : r.phase = .children []) (hData : 0 < r.reduceBufSize ∧ r.valid = true) :
    Upward ({ ({ r with count := r.count + sample, bytes := r.reduceBufSize } : Reduce n).endRound
        sample with phase := .sendData } : Reduce n)
      (up ++ [.longs r.valid (r.count + sample) r.reduceBufSize]) down := by
  have hOpen := outstanding_of_children hReady.fits hPhase
  obtain ⟨⟨init, hInit⟩, value, hBuf⟩ := hReady.buffers hOpen
  obtain ⟨hSpoken, hLength⟩ := hReady.answers hOpen
    { ({ r with count := r.count + sample, bytes := r.reduceBufSize } : Reduce n).endRound
      sample with phase := .sendData } (x := ⟨init, sample, true, r.count + sample, value⟩)
    (by simp [Reduce.endRound, Reduce.round, hInit, hBuf, hData.2]) rfl rfl
  rw [show Msg.longs r.valid (r.count + sample) r.reduceBufSize =
    .longs true (r.count + sample) r.reduceBufSize by rw [hData.2]]
  refine h.header ?_ ?_ value ?_ ?_ ?_ ?_ ?_
  · simp [Reduce.sendsReport, hPhase]
  · simp [Reduce.sendsReport]
  · exact hBuf
  · simp [Reduce.endRound, Reduce.reduceBufSize, hBuf]
  · exact hData.1
  · exact hSpoken
  · refine h.starts_of_answer ?_ ?_ hLength
    · simp [Reduce.isTaken, Reduce.isOpen, hPhase, hOpen]
    · simp [Reduce.isTaken, Reduce.isOpen]

/-- A report without user data. -/
theorem Upward.reportBare (h : Upward r up down) (hReady : CheckReady cfg rank cleanup r)
    (hPhase : r.phase = .children []) (hBare : ¬ (0 < r.reduceBufSize ∧ r.valid = true)) :
    Upward ({ ({ r with count := r.count + sample, bytes := r.reduceBufSize } : Reduce n).endRound
        sample with reduceOutstanding := false, phase := .start } : Reduce n)
      (up ++ [.longs r.valid (r.count + sample) r.reduceBufSize]) down := by
  have hOpen := outstanding_of_children hReady.fits hPhase
  obtain ⟨⟨init, hInit⟩, value, hBuf⟩ := hReady.buffers hOpen
  obtain ⟨hSpoken, hLength⟩ := hReady.answers hOpen
    { ({ r with count := r.count + sample, bytes := r.reduceBufSize } : Reduce n).endRound
      sample with reduceOutstanding := false, phase := .start }
    (x := ⟨init, sample, r.valid, r.count + sample, value⟩)
    (by simp [Reduce.endRound, Reduce.round, hInit, hBuf]) rfl rfl
  have hHeader : (Msg.longs r.valid (r.count + sample) r.reduceBufSize).IsBare
      (Round.report ⟨init, sample, r.valid, r.count + sample, value⟩) :=
    isBare_of_size hBuf _ hBare
  refine h.bare ?_ ?_ hHeader ?_ ?_
  · simp [Reduce.sendsReport, hPhase]
  · simp [Reduce.sendsReport]
  · exact hSpoken
  · refine h.starts_of_answer ?_ ?_ hLength
    · simp [Reduce.isTaken, Reduce.isOpen, hPhase, hOpen]
    · simp [Reduce.isTaken, Reduce.isOpen]

/-- The user data of a report. -/
theorem Upward.sendData (h : Upward r up down) (hPhase : r.phase = .sendData)
    {buf : ReduceBuf} (hBuf : r.reduceBuf = some buf) :
    Upward ({ r with reduceOutstanding := false, phase := .start } : Reduce n)
      (up ++ [.data buf]) down := by
  refine h.data ?_ hBuf ?_ ?_ ?_
  · simp [Reduce.sendsReport, hPhase]
  · simp [Reduce.sendsReport]
  · rfl
  · rw [h.starts]
    simp [Reduce.isTaken, Reduce.isOpen, hPhase, Reduce.responses]

end Cases

theorem Upward.reduceTurn {p : Fin n} (h : Upward r (sent p .reduce) (rcvd p .reduce))
    (hParent : cfg.tree.parent rank = some p) (hReady : CheckReady cfg rank cleanup r)
    (hTurn : ReduceTurn cfg rank sample cleanup r input turn)
    (hResult : turn.result ≠ some .failed) :
    Upward turn.record (sent.send turn.out p .reduce) (rcvd.receive input p .reduce) := by
  have hFits := hReady.fits
  unfold Reduce.Fits at hFits
  -- the parent that a turn talks to
  have hSameParent {q : Fin n} (hOther : cfg.tree.parent rank = some q) : q = p := by
    rw [hParent, Option.some.injEq] at hOther
    exact hOther.symm
  cases hTurn
  case badStart | badHeader | badData => exact (hResult rfl).elim
  case fire hRoot _ | deliver hRoot _ | discard hRoot _ =>
    rw [hParent] at hRoot
    cases hRoot
  case idle hPhase _ => exact h
  case resume hPhase _ | init hPhase | kicked hPhase | skip hPhase | wait hPhase _ =>
    rw [hPhase] at hFits
    refine h.same ?_ ?_ rfl rfl ?_ <;>
      simp [Reduce.sendsReport, Reduce.isTaken, Reduce.isOpen, Turn.stays, Turn.returns, hPhase]
  case kick child rest hPhase =>
    rw [hPhase] at hFits
    have hNe : p ≠ child := by
      rintro rfl
      exact cfg.tree.not_mem_children_of_parent hParent (hFits.2.2.subset List.mem_cons_self)
    simp only [Turn.sends, FifoNet.Log.send_some, FifoNet.Log.receive_tick,
      sent.add_of_peer_ne .reduce .empty .reduce hNe]
    refine h.same ?_ ?_ rfl rfl ?_ <;>
      simp [Reduce.sendsReport, Reduce.isTaken, Reduce.isOpen, hPhase]
  case header child rest count bytes hPhase _ | invalid child rest count bytes hPhase |
      bare child rest count hPhase | data child bytes rest inbuf hPhase _ =>
    rw [hPhase] at hFits
    refine h.fromChild hParent (hFits.2.subset List.mem_cons_self) _ ?_ ?_ rfl rfl ?_ <;>
      simp [Reduce.sendsReport, Reduce.isTaken, Reduce.isOpen, Reduce.combineIfValid, Turn.stays,
        hPhase]
  case begin hPhase hOutstanding hOther _ =>
    rw [hSameParent hOther, FifoNet.Log.receive_recv, FifoNet.Log.add_self]
    exact h.begin hPhase hOutstanding
  case refuse hPhase hOutstanding hOther _ =>
    rw [hSameParent hOther]
    simp only [Turn.sendsAndReturns, FifoNet.Log.send_some, FifoNet.Log.add_self,
      FifoNet.Log.receive_recv]
    exact h.refuse hReady hPhase hOutstanding
  case report hPhase _ hOther hData =>
    rw [hSameParent hOther]
    simp only [Turn.sends, FifoNet.Log.send_some, FifoNet.Log.add_self, FifoNet.Log.receive_tick]
    exact h.report hReady hPhase hData
  case reportBare hPhase _ hOther hBare =>
    rw [hSameParent hOther]
    simp only [Turn.sendsAndReturns, FifoNet.Log.send_some, FifoNet.Log.add_self,
      FifoNet.Log.receive_tick]
    exact h.reportBare hReady hPhase hBare
  case sendData hPhase hOther hBuf =>
    rw [hSameParent hOther]
    simp only [Turn.sendsAndReturns, FifoNet.Log.send_some, FifoNet.Log.add_self,
      FifoNet.Log.receive_tick]
    exact h.sendData hPhase hBuf

/-- What holds of the members when `reduceSync` takes a turn. -/
structure SyncReady (cfg : Config n) (rank : Fin n) (r : Reduce n) : Prop where
  fits : r.Fits cfg rank true
  place : r.phase = .start ∨ r.phase.isSync = true
  buffers : r.phase.isSync = true →
    (∃ init, r.initial = some init) ∧ ∃ buf, r.reduceBuf = some buf
  closed : r.reduceOutstanding = false
  last : r.last ≠ none → r.phase = .syncSendData

theorem ReduceShape.syncReady (h : ReduceShape cfg rank s) (hPc : s.pc = .reduceSync)
    (hCleanup : s.cleanup = true) (hClosed : s.reduce.reduceOutstanding = false) :
    SyncReady cfg rank s.reduce where
  fits := hCleanup ▸ h.fits
  place := h.checkPlace hPc
  buffers := fun hSync => h.buffers (Or.inr hSync)
  closed := hClosed
  last := by
    intro hLast
    rcases h.last hLast with hLate | hPhase
    · simp [hPc, Pc.early] at hLate
    · exact hPhase

theorem SyncReady.last_eq_none (h : SyncReady cfg rank r) (hPhase : r.phase ≠ .syncSendData) :
    r.last = none := by
  by_contra hLast
  exact hPhase (h.last hLast)

section SyncCases

variable {up down : List Msg}

/-- What is put into the last reduction is said after all answers. -/
theorem SyncReady.spoken_endLast (hReady : SyncReady cfg rank r) (hPhase : r.phase = .syncChildren [])
    {x : Round} (hLast : r'.last = some x)
    (hResponses : r'.responses = r.responses) : r'.spoken = r.spoken ++ [x.report] := by
  have hNone := hReady.last_eq_none (by simp [hPhase])
  simp [Reduce.spoken, hResponses, hLast, hNone]

/-- No start is answered in the last reduction. -/
theorem Upward.starts_closed (h : Upward r up down) (hPhase : r.phase ≠ .init)
    (hClosed : r.reduceOutstanding = false) (hPhase' : r'.phase ≠ .init)
    (hClosed' : r'.reduceOutstanding = false) (hResponses : r'.responses = r.responses) :
    down = List.replicate (r'.responses.length + if r'.isTaken then 1 else 0) .empty := by
  rw [h.starts, hResponses]
  simp [Reduce.isTaken, Reduce.isOpen, hPhase, hClosed, hPhase', hClosed']

/-- The last report with user data. -/
theorem Upward.syncSend (h : Upward r up down) (hReady : SyncReady cfg rank r)
    (hPhase : r.phase = .syncChildren []) (hBytes : 0 < r.reduceBufSize) :
    Upward ({ ({ r with bytes := r.reduceBufSize } : Reduce n).endLast sample with
        phase := .syncSendData } : Reduce n)
      (up ++ [.longs r.valid r.count r.reduceBufSize]) down := by
  have hFits := hReady.fits
  simp only [Reduce.Fits, hPhase] at hFits
  obtain ⟨⟨init, hInit⟩, value, hBuf⟩ := hReady.buffers (by simp [hPhase, ReducePhase.isSync])
  rw [show Msg.longs r.valid r.count r.reduceBufSize = .longs true r.count r.reduceBufSize by
    rw [hFits.1]]
  refine h.header ?_ ?_ value ?_ ?_ ?_ ?_ (h.starts_closed ?_ hReady.closed ?_ hReady.closed rfl)
  · simp [Reduce.sendsReport, hPhase]
  · simp [Reduce.sendsReport]
  · exact hBuf
  · simp [Reduce.endLast, Reduce.reduceBufSize, hBuf]
  · exact hBytes
  · refine hReady.spoken_endLast (x := ⟨init, sample, true, r.count, value⟩) hPhase ?_ rfl
    simp [Reduce.endLast, Reduce.round, hInit, hBuf, hFits.1]
  · simp [hPhase]
  · simp

/-- The last report without user data. -/
theorem Upward.syncSendBare (h : Upward r up down) (hReady : SyncReady cfg rank r)
    (hPhase : r.phase = .syncChildren []) (hBytes : r.reduceBufSize ≤ 0) :
    Upward ({ ({ r with bytes := r.reduceBufSize } : Reduce n).endLast sample with
        phase := .start } : Reduce n)
      (up ++ [.longs r.valid r.count r.reduceBufSize]) down := by
  obtain ⟨⟨init, hInit⟩, value, hBuf⟩ := hReady.buffers (by simp [hPhase, ReducePhase.isSync])
  have hHeader : (Msg.longs r.valid r.count r.reduceBufSize).IsBare
      (Round.report ⟨init, sample, r.valid, r.count, value⟩) :=
    isBare_of_size hBuf _ fun hSome => Int.not_lt.mpr hBytes hSome.1
  refine h.bare ?_ ?_ hHeader ?_ (h.starts_closed ?_ hReady.closed ?_ hReady.closed rfl)
  · simp [Reduce.sendsReport, hPhase]
  · simp [Reduce.sendsReport]
  · refine hReady.spoken_endLast (x := ⟨init, sample, r.valid, r.count, value⟩) hPhase ?_ rfl
    simp [Reduce.endLast, Reduce.round, hInit, hBuf]
  · simp [hPhase]
  · simp

/-- The user data of the last report. -/
theorem Upward.syncSendData (h : Upward r up down) (hReady : SyncReady cfg rank r)
    (hPhase : r.phase = .syncSendData) {buf : ReduceBuf} (hBuf : r.reduceBuf = some buf) :
    Upward ({ r with phase := .start } : Reduce n) (up ++ [.data buf]) down := by
  refine h.data ?_ hBuf ?_ ?_ (h.starts_closed ?_ hReady.closed ?_ hReady.closed rfl)
  · simp [Reduce.sendsReport, hPhase]
  · simp [Reduce.sendsReport]
  · rfl
  · simp [hPhase]
  · simp

end SyncCases

theorem Upward.syncTurn {p : Fin n} (h : Upward r (sent p .reduce) (rcvd p .reduce))
    (hParent : cfg.tree.parent rank = some p) (hReady : SyncReady cfg rank r)
    (hTurn : SyncTurn cfg rank sample r input turn) (hResult : turn.result ≠ some .failed) :
    Upward turn.record (sent.send turn.out p .reduce) (rcvd.receive input p .reduce) := by
  have hClosed := hReady.closed
  have hFits := hReady.fits
  unfold Reduce.Fits at hFits
  -- the parent that a turn talks to
  have hSameParent {q : Fin n} (hOther : cfg.tree.parent rank = some q) : q = p := by
    rw [hParent, Option.some.injEq] at hOther
    exact hOther.symm
  cases hTurn
  case badHeader | badData => exact (hResult rfl).elim
  case deliver hRoot =>
    rw [hParent] at hRoot
    cases hRoot
  case init hPhase =>
    refine h.same ?_ ?_ rfl rfl ?_ <;>
      simp [Reduce.sendsReport, Reduce.isTaken, Reduce.isOpen, Turn.stays, hPhase, hClosed]
  case header child rest valid count bytes hPhase _ | bare child rest valid count hPhase |
      data child bytes rest inbuf hPhase _ =>
    rw [hPhase] at hFits
    refine h.fromChild hParent (hFits.2.subset List.mem_cons_self) _ ?_ ?_ rfl rfl ?_ <;>
      simp [Reduce.sendsReport, Reduce.isTaken, Reduce.isOpen, Reduce.combine, Turn.stays, hPhase,
        hClosed]
  case send hPhase hOther hBytes =>
    rw [hSameParent hOther]
    simp only [Turn.sends, FifoNet.Log.send_some, FifoNet.Log.add_self, FifoNet.Log.receive_tick]
    exact h.syncSend hReady hPhase hBytes
  case sendBare hPhase hOther hBytes =>
    rw [hSameParent hOther]
    simp only [Turn.sendsAndReturns, FifoNet.Log.send_some, FifoNet.Log.add_self,
      FifoNet.Log.receive_tick]
    exact h.syncSendBare hReady hPhase hBytes
  case sendData hPhase hOther hBuf =>
    rw [hSameParent hOther]
    simp only [Turn.sendsAndReturns, FifoNet.Log.send_some, FifoNet.Log.add_self,
      FifoNet.Log.receive_tick]
    exact h.syncSendData hReady hPhase hBuf

/-! ## The children -/

/-- The number of starts that a child has been sent. -/
def Reduce.startsTo (r : Reduce n) (c : Fin n) : Nat :=
  r.rounds.length + if r.isOpen && !r.unstarted.contains c then 1 else 0

/-- The starts that a rank has sent its children. -/
def Downward (cfg : Config n) (rank : Fin n) (r : Reduce n) (sent : Log (Fin n) Tag Msg) : Prop :=
  ∀ c ∈ cfg.tree.children rank, sent c .reduce = List.replicate (r.startsTo c) .empty

/-- Nothing is sent to the children. -/
theorem Downward.same (h : Downward cfg rank r sent) {sent' : Log (Fin n) Tag Msg}
    (hSent : ∀ c ∈ cfg.tree.children rank, sent' c .reduce = sent c .reduce)
    (hStarts : ∀ c ∈ cfg.tree.children rank, r'.startsTo c = r.startsTo c) :
    Downward cfg rank r' sent' := by
  intro c hMem
  rw [hSent c hMem, hStarts c hMem]
  exact h c hMem

theorem Downward.reduceTurn (h : Downward cfg rank r sent) (hReady : CheckReady cfg rank cleanup r)
    (hTurn : ReduceTurn cfg rank sample cleanup r input turn)
    (hResult : turn.result ≠ some .failed) :
    Downward cfg rank turn.record (sent.send turn.out) := by
  have hFits := hReady.fits
  unfold Reduce.Fits at hFits
  -- what goes to the parent does not go to a child
  have hUp {p : Fin n} (hParent : cfg.tree.parent rank = some p) (msg : Msg) :
      ∀ c ∈ cfg.tree.children rank, sent.add p .reduce msg c .reduce = sent c .reduce := by
    intro c hMem
    refine sent.add_of_peer_ne _ _ _ ?_
    rintro rfl
    exact cfg.tree.not_mem_children_of_parent hParent hMem
  cases hTurn
  case badStart | badHeader | badData => exact (hResult rfl).elim
  case kick child rest hPhase =>
    rw [hPhase] at hFits
    -- the child was not told of this round yet, and is told now
    have hNodup := (hFits.2.2.sublist.nodup (cfg.tree.nodup_children rank))
    intro c hMem
    have hOld := h c hMem
    simp only [Turn.sends, FifoNet.Log.send_some, FifoNet.Log.add_same_tag]
    by_cases hSelf : c = child
    · subst hSelf
      rw [if_pos rfl, hOld]
      simp [Reduce.startsTo, Reduce.unstarted, Reduce.isOpen, hPhase, hFits.1,
        (List.nodup_cons.mp hNodup).1, List.replicate_succ']
    · rw [if_neg hSelf, hOld]
      simp [Reduce.startsTo, Reduce.unstarted, Reduce.isOpen, hPhase, hSelf]
  case refuse parentRank hPhase hOutstanding hParent hCleanup =>
    exact h.same (hUp hParent _) fun c _ => rfl
  case report parentRank hPhase hReplies hParent hData =>
    -- the round at hand becomes one of the finished rounds: the count of starts is the same
    have hOpen := outstanding_of_children hReady.fits hPhase
    obtain ⟨⟨init, hInit⟩, value, hBuf⟩ := hReady.buffers hOpen
    refine h.same (hUp hParent _) fun c _ => ?_
    simp [Turn.sends, Reduce.startsTo, Reduce.endRound, Reduce.round, hInit, hBuf, Reduce.isOpen,
      Reduce.unstarted, hPhase, hOpen]
  case reportBare parentRank hPhase hReplies hParent hBare =>
    have hOpen := outstanding_of_children hReady.fits hPhase
    obtain ⟨⟨init, hInit⟩, value, hBuf⟩ := hReady.buffers hOpen
    refine h.same (hUp hParent _) fun c _ => ?_
    simp [Turn.sendsAndReturns, Reduce.startsTo, Reduce.endRound, Reduce.round, hInit, hBuf,
      Reduce.isOpen, Reduce.unstarted, hPhase, hOpen]
  case deliver hPhase _ _ _ | discard hPhase _ _ _ =>
    have hOpen := outstanding_of_children hReady.fits hPhase
    obtain ⟨⟨init, hInit⟩, value, hBuf⟩ := hReady.buffers hOpen
    refine h.same (fun _ _ => rfl) fun c _ => ?_
    simp [Turn.returns, Reduce.startsTo, Reduce.endRound, Reduce.finalize, Reduce.round, hInit, hBuf,
      Reduce.isOpen, Reduce.unstarted, hPhase, hOpen]
  case sendData parentRank buf hPhase hParent hBuf =>
    refine h.same (hUp hParent _) fun c _ => ?_
    simp [Turn.sendsAndReturns, Reduce.startsTo, Reduce.isOpen, hPhase]
  case init hPhase =>
    rw [hPhase] at hFits
    refine h.same (fun _ _ => rfl) fun c hMem => ?_
    simp [Turn.stays, Reduce.startsTo, Reduce.isOpen, Reduce.unstarted, hFits.1, hMem]
  case idle hPhase _ | resume hPhase _ | fire hPhase _ _ _ | begin hPhase _ _ _ | kicked hPhase |
      header hPhase _ | invalid hPhase | bare hPhase | data hPhase _ | skip hPhase |
      wait hPhase _ =>
    refine h.same (fun _ _ => rfl) fun c hMem => ?_
    simp [Turn.stays, Turn.returns, Reduce.startsTo, Reduce.isOpen, Reduce.unstarted,
      Reduce.combineIfValid, hPhase]

theorem Downward.syncTurn (h : Downward cfg rank r sent) (hReady : SyncReady cfg rank r)
    (hTurn : SyncTurn cfg rank sample r input turn) (hResult : turn.result ≠ some .failed) :
    Downward cfg rank turn.record (sent.send turn.out) := by
  obtain ⟨-, hClosed, hRounds⟩ := hTurn.refused_eq hResult
  have hStarts (c : Fin n) : turn.record.startsTo c = r.startsTo c := by
    simp [Reduce.startsTo, Reduce.isOpen, hClosed, hReady.closed, hRounds]
  refine h.same (fun c hMem => ?_) fun c _ => hStarts c
  have hUp {p : Fin n} (hParent : cfg.tree.parent rank = some p) (msg : Msg) :
      sent.add p .reduce msg c .reduce = sent c .reduce := by
    refine sent.add_of_peer_ne _ _ _ ?_
    rintro rfl
    exact cfg.tree.not_mem_children_of_parent hParent hMem
  cases hTurn
  case send hParent _ | sendBare hParent _ | sendData hParent _ => exact hUp hParent _
  all_goals rfl

end Circle
