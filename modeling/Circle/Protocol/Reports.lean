import Circle.Base.Reader
import Circle.Protocol.Cleanup

/-!
# The reports of a reduction

In each round of a background reduction, and in the last one, a rank sends its
parent a report: a header that says it is invalid, or a header and the user
data, if there is any.  `reports` reads the reports that are complete in a stream, and `Tally`
is what comes of combining them.  `ReduceShape` says which of the members of the
reduction fit together.
-/

namespace Circle

open FifoNet (Log inFlight)

variable {n : Nat} {cfg : Config n} {rank : Fin n} {input : Input n} {s s' : State n}
  {out : Option (Packet n)}

/-! ## Reports -/

/-- What a rank tells its parent. -/
inductive Report where
  | invalid
  | valid (count : Int) (value : ReduceBuf)
  deriving DecidableEq, Repr

/-- Read the reports of a child.  Between its two messages a report is known by
its count and its number of bytes; without user data its header is all. -/
def reports : Reader (Option (Int × Int)) Msg Report where
  next
    | none, .longs true count bytes => if bytes = 0 then none else some (count, bytes)
    | _, _ => none
  out
    | none, .longs false _ _ => [.invalid]
    | none, .longs true count bytes => if bytes = 0 then [.valid count .null] else []
    | some header, .data value => [.valid header.1 value]
    | _, _ => []
  Ok
    | none, .longs true _ bytes => 0 ≤ bytes
    | none, .longs false _ _ => True
    | some header, .data value => (value.bytes.length : Int) = header.2
    | _, _ => False

theorem reports_ok_none {msg : Msg} (h : reports.Ok none msg) :
    ∃ valid count bytes, msg = .longs valid count bytes ∧ (valid = true → 0 ≤ bytes) := by
  cases msg with
  | longs valid count bytes =>
      refine ⟨valid, count, bytes, rfl, ?_⟩
      rintro rfl
      exact h
  | _ => exact h.elim

theorem reports_ok_some {header : Int × Int} {msg : Msg} (h : reports.Ok (some header) msg) :
    ∃ value, msg = .data value ∧ (value.bytes.length : Int) = header.2 := by
  cases msg with
  | data value => exact ⟨value, rfl, h⟩
  | _ => exact h.elim

/-- A header that is a whole report. -/
inductive Msg.IsBare : Msg → Report → Prop where
  | invalid (count bytes : Int) : IsBare (.longs false count bytes) .invalid
  | valid (count : Int) : IsBare (.longs true count 0) (.valid count .null)

section IsBare

variable {msg : Msg} {report : Report}

theorem Msg.IsBare.ok (h : msg.IsBare report) : reports.Ok none msg := by
  cases h with
  | invalid count bytes => exact trivial
  | valid count => exact Int.le_refl 0

theorem Msg.IsBare.next_eq (h : msg.IsBare report) : reports.next none msg = none := by
  cases h <;> rfl

theorem Msg.IsBare.out_eq (h : msg.IsBare report) : reports.out none msg = [report] := by
  cases h <;> rfl

end IsBare

/-- A message that begins a report. -/
def Msg.isHeader : Msg → Bool
  | .longs _ _ _ => true
  | _ => false

/-- The headers in a stream are those of the reports that are complete, and of
the one that is not. -/
theorem countP_isHeader {log : List Msg} (h : reports.Accepts none log) :
    log.countP Msg.isHeader =
      (reports.read none log).length + if (reports.after none log).isSome then 1 else 0 := by
  induction log using List.reverseRecOn with
  | nil => rfl
  | append_singleton front msg ih =>
      obtain ⟨hFront, hOk⟩ := reports.accepts_snoc.mp h
      have hCount := ih hFront
      rw [List.countP_append, hCount, reports.read_snoc, reports.after_snoc]
      cases hAfter : reports.after none front with
      | none =>
          rw [hAfter] at hOk
          obtain ⟨valid, count, bytes, rfl, -⟩ := reports_ok_none hOk
          cases valid with
          | false => simp [reports, Msg.isHeader]
          | true =>
              by_cases hBytes : bytes = 0 <;> simp [reports, Msg.isHeader, hBytes]
      | some header =>
          rw [hAfter] at hOk
          obtain ⟨value, rfl, -⟩ := reports_ok_some hOk
          simp [reports, Msg.isHeader]

/-- What a rank has so far: whether all reports are valid, the sum of their
counts and the user data. -/
structure Tally where
  valid : Bool
  count : Int
  value : ReduceBuf
  deriving DecidableEq, Repr

/-- Take in the report of a child, as `reduceCheck` does. -/
def Tally.absorb (op : ReduceBuf → ReduceBuf → ReduceBuf) (t : Tally) : Report → Tally
  | .invalid => { t with valid := false }
  | .valid count value =>
      { t with count := t.count + count, value := if t.valid then op t.value value else t.value }

/-- Take in reports one after the other. -/
def Tally.absorbAll (op : ReduceBuf → ReduceBuf → ReduceBuf) (t : Tally) (log : List Report) :
    Tally :=
  log.foldl (Tally.absorb op) t

@[simp] theorem Tally.absorbAll_nil (op : ReduceBuf → ReduceBuf → ReduceBuf) (t : Tally) :
    t.absorbAll op [] = t := rfl

@[simp] theorem Tally.absorbAll_snoc (op : ReduceBuf → ReduceBuf → ReduceBuf) (t : Tally)
    (log : List Report) (report : Report) :
    t.absorbAll op (log ++ [report]) = (t.absorbAll op log).absorb op report := by
  simp [Tally.absorbAll]

/-- What a rank tells its parent of a round. -/
def Round.report (x : Round) : Report := if x.valid then .valid x.count x.value else .invalid

namespace Reduce

/-- The answers to the starts of the parent. -/
def responses (r : Reduce n) : List Report :=
  r.rounds.map Round.report ++ List.replicate r.refused .invalid

/-- All that the parent has been told. -/
def spoken (r : Reduce n) : List Report := r.responses ++ (r.last.map Round.report).toList

/-- A round is under way: it is started, and not reported. -/
def isOpen (r : Reduce n) : Bool := r.reduceOutstanding && decide (r.phase ≠ .sendData)

/-- A start of the parent is not answered. -/
def isTaken (r : Reduce n) : Bool := r.isOpen || decide (r.phase = .init)

/-- The children that are still to be started. -/
def unstarted (r : Reduce n) : List (Fin n) :=
  match r.phase with
  | .kick rest => rest
  | _ => []

/-- The child whose user data is awaited. -/
def current (r : Reduce n) : Option (Fin n × Int) :=
  match r.phase with
  | .data child bytes _ | .syncData child bytes _ => some (child, bytes)
  | _ => none

/-- The header of the own report is sent, the user data is not. -/
def sendsReport (r : Reduce n) : Bool :=
  decide (r.phase = .sendData) || decide (r.phase = .syncSendData)

end Reduce

/-! ## Turns -/

/-- A phase of the last reduction. -/
def ReducePhase.isSync : ReducePhase n → Bool
  | .syncChildren _ | .syncData _ _ _ | .syncSendData => true
  | _ => false

/-- A turn leaves the reduction alone, or is one of `reduceCheck` or
`reduceSync`. -/
inductive ReduceStep (cfg : Config n) (rank : Fin n) (s : State n) :
    Input n → State n → Option (Packet n) → Prop where
  | other {input : Input n} {s' : State n} {out : Option (Packet n)}
      (hSilent : Silent .reduce input out) (hReduce : s'.reduce = s.reduce)
      (hProcessed : s.localObjectsProcessed ≤ s'.localObjectsProcessed)
      (hStays : s.pc = .reduceCheck ∨ s.pc = .reduceSync ∨ s.pc = .failed →
        s'.pc = s.pc ∧ s'.cleanup = s.cleanup ∧
          s'.localObjectsProcessed = s.localObjectsProcessed) :
      ReduceStep cfg rank s input s' out
  | check {input : Input n} {s' : State n} {turn : Turn n (Reduce n) Outcome}
      (hPc : s.pc = .reduceCheck)
      (hTurn : ReduceTurn cfg rank s.localObjectsProcessed s.cleanup s.reduce input turn)
      (hReduce : s'.reduce = turn.record) (hCleanup : s'.cleanup = s.cleanup)
      (hProcessed : s'.localObjectsProcessed = s.localObjectsProcessed)
      (hNext : turn.result = none → s'.pc = .reduceCheck)
      (hFailed : turn.result = some .failed ↔ s'.pc = .failed) :
      ReduceStep cfg rank s input s' turn.out
  | sync {input : Input n} {s' : State n} {turn : Turn n (Reduce n) Outcome}
      (hPc : s.pc = .reduceSync)
      (hTurn : SyncTurn cfg rank s.localObjectsProcessed s.reduce input turn)
      (hReduce : s'.reduce = turn.record) (hCleanup : s'.cleanup = s.cleanup)
      (hProcessed : s'.localObjectsProcessed = s.localObjectsProcessed)
      (hNext : s'.pc = match turn.result with
        | none => .reduceSync
        | some .failed => .failed
        | some .returned => .abortReduce) :
      ReduceStep cfg rank s input s' turn.out

theorem reduceStep_of_mainStep (hStep : MainStep cfg rank input s s' out) :
    ReduceStep cfg rank s input s' out := by
  have hSilent (hPc : s.pc ≠ .reduceCheck ∧ s.pc ≠ .reduceSync) : Silent .reduce input out := by
    apply hStep.silent
    cases hEq : s.pc <;> simp_all [Pc.tags]
  cases hStep
  case raise hInput =>
    subst hInput
    exact .other (silent_tick _ _) rfl le_rfl fun _ => ⟨rfl, rfl, rfl⟩
  case reduceCheck turn pc hPc hTurn hNext =>
    subst hNext
    refine .check hPc (reduceTurn_of_eq hTurn) rfl rfl rfl (fun hResult => by simp [hResult]) ?_
    rcases hResult : turn.result with _ | _ | _
    · simp
    · simp only [State.afterReduce]
      split
      · simp
      · split <;> simp
    · simp
  case reduceSync turn hPc hTurn => exact .sync hPc (syncTurn_of_eq hTurn) rfl rfl rfl rfl
  case callback hPc _ _ _ _ =>
    exact .other (hSilent (by simp [hPc])) rfl (Nat.le_succ _) (by simp [hPc])
  all_goals exact .other (hSilent (by simp [*])) rfl le_rfl (by simp [*])

/-! ## What fits together -/

/-- What holds of the members where `reduceCheck` or `reduceSync` is. -/
def Reduce.Fits (cfg : Config n) (rank : Fin n) (cleanup : Bool) (r : Reduce n) : Prop :=
  match r.phase with
  | .start => True
  | .init => r.reduceOutstanding = false ∧ cleanup = false
  | .kick rest =>
      r.reduceOutstanding = true ∧ cleanup = false ∧ rest <:+ cfg.tree.children rank
  | .children rest => r.reduceOutstanding = true ∧ rest <:+ cfg.tree.children rank
  | .data child _ rest => r.reduceOutstanding = true ∧ child :: rest <:+ cfg.tree.children rank
  | .sendData => r.reduceOutstanding = true ∧ r.valid = true
  | .syncChildren rest => r.valid = true ∧ rest <:+ cfg.tree.children rank
  | .syncData child _ rest => r.valid = true ∧ child :: rest <:+ cfg.tree.children rank
  | .syncSendData => r.valid = true

/-- The members of the reduction of a rank that has not failed. -/
structure ReduceShape (cfg : Config n) (rank : Fin n) (s : State n) : Prop where
  fits : s.reduce.Fits cfg rank s.cleanup
  syncPlace : s.reduce.phase.isSync = true → s.pc = .reduceSync
  checkPlace : s.pc = .reduceSync → s.reduce.phase = .start ∨ s.reduce.phase.isSync = true
  buffers : s.reduce.reduceOutstanding = true ∨ s.reduce.phase.isSync = true →
    (∃ init, s.reduce.initial = some init) ∧ ∃ buf, s.reduce.reduceBuf = some buf
  refused : 0 < s.reduce.refused → s.cleanup = true ∧ s.reduce.reduceOutstanding = false
  /-- The report of the last reduction is made in `reduceSync`. -/
  last : s.reduce.last ≠ none → s.pc.early = false ∨ s.reduce.phase = .syncSendData

theorem reduceShape_start (start : Start rank) : ReduceShape cfg rank start.state := by
  constructor <;> simp [Start.state, Reduce.Fits, ReducePhase.isSync]

theorem ReduceTurn.fits {sample : Int} {cleanup : Bool} {r : Reduce n}
    {turn : Turn n (Reduce n) Outcome} (hTurn : ReduceTurn cfg rank sample cleanup r input turn)
    (h : r.Fits cfg rank cleanup) (hResult : turn.result ≠ some .failed) :
    turn.record.Fits cfg rank cleanup ∧ turn.record.phase.isSync = false := by
  unfold Reduce.Fits at h
  cases hTurn
  case badStart | badHeader | badData => exact (hResult rfl).elim
  case kick child rest hPhase =>
    rw [hPhase] at h
    exact ⟨⟨h.1, h.2.1, (List.suffix_cons child rest).trans h.2.2⟩, rfl⟩
  case invalid child rest _ _ hPhase | bare child rest _ hPhase | skip child rest hPhase =>
    rw [hPhase] at h
    exact ⟨⟨h.1, (List.suffix_cons child rest).trans h.2⟩, rfl⟩
  case header child rest _ _ hPhase _ =>
    rw [hPhase] at h
    exact ⟨h, rfl⟩
  case data child _ rest inbuf hPhase _ =>
    rw [hPhase] at h
    exact ⟨⟨h.1, (List.suffix_cons child rest).trans h.2⟩, rfl⟩
  case report hPhase _ _ hData =>
    rw [hPhase] at h
    exact ⟨⟨h.1, hData.2⟩, rfl⟩
  case resume _ hOutstanding => exact ⟨⟨hOutstanding, List.suffix_refl _⟩, rfl⟩
  case fire _ hOutstanding _ hCleanup | begin _ hOutstanding _ hCleanup =>
    exact ⟨⟨hOutstanding, hCleanup⟩, rfl⟩
  case init hPhase =>
    rw [hPhase] at h
    exact ⟨⟨rfl, h.2, List.suffix_refl _⟩, rfl⟩
  case idle hPhase _ | refuse hPhase _ _ _ =>
    simp [Reduce.Fits, ReducePhase.isSync, Turn.returns, Turn.sendsAndReturns, hPhase]
  all_goals simp [Reduce.Fits, ReducePhase.isSync, Turn.returns, Turn.sendsAndReturns]

theorem SyncTurn.fits {sample : Int} {cleanup : Bool} {r : Reduce n}
    {turn : Turn n (Reduce n) Outcome} (hTurn : SyncTurn cfg rank sample r input turn)
    (h : r.Fits cfg rank cleanup) (hResult : turn.result ≠ some .failed) :
    turn.record.Fits cfg rank cleanup ∧
      (turn.result = none ∧ turn.record.phase.isSync = true ∨
        turn.result = some .returned ∧ turn.record.phase = .start) := by
  unfold Reduce.Fits at h
  cases hTurn
  case badHeader | badData => exact (hResult rfl).elim
  case init => exact ⟨⟨rfl, List.suffix_refl _⟩, Or.inl ⟨rfl, rfl⟩⟩
  case header hPhase _ =>
    rw [hPhase] at h
    exact ⟨h, Or.inl ⟨rfl, rfl⟩⟩
  case bare child rest _ _ hPhase =>
    rw [hPhase] at h
    exact ⟨⟨h.1, (List.suffix_cons child rest).trans h.2⟩, Or.inl ⟨rfl, rfl⟩⟩
  case data child _ rest inbuf hPhase _ =>
    rw [hPhase] at h
    exact ⟨⟨h.1, (List.suffix_cons child rest).trans h.2⟩, Or.inl ⟨rfl, rfl⟩⟩
  case send hPhase _ _ =>
    rw [hPhase] at h
    exact ⟨h.1, Or.inl ⟨rfl, rfl⟩⟩
  all_goals exact ⟨trivial, Or.inr ⟨rfl, rfl⟩⟩

theorem ReduceTurn.buffers {sample : Int} {cleanup : Bool} {r : Reduce n}
    {turn : Turn n (Reduce n) Outcome} (hTurn : ReduceTurn cfg rank sample cleanup r input turn)
    (h : r.reduceOutstanding = true →
      (∃ init, r.initial = some init) ∧ ∃ buf, r.reduceBuf = some buf)
    (hResult : turn.result ≠ some .failed) :
    turn.record.reduceOutstanding = true →
      (∃ init, turn.record.initial = some init) ∧ ∃ buf, turn.record.reduceBuf = some buf := by
  cases hTurn
  case badStart | badHeader | badData => exact (hResult rfl).elim
  case init buf _ => exact fun _ => ⟨⟨buf, rfl⟩, buf, rfl⟩
  case data | bare =>
    intro hOutstanding
    obtain ⟨hInit, buf, hBuf⟩ := h hOutstanding
    exact ⟨hInit, by simp [Turn.stays, Reduce.combineIfValid, hBuf]⟩
  case reportBare | discard | sendData => simp [Turn.returns, Turn.sendsAndReturns]
  case deliver => simp [Turn.returns]
  all_goals exact h

theorem SyncTurn.buffers {sample : Int} {r : Reduce n} {turn : Turn n (Reduce n) Outcome}
    (hTurn : SyncTurn cfg rank sample r input turn)
    (h : r.phase.isSync = true →
      (∃ init, r.initial = some init) ∧ ∃ buf, r.reduceBuf = some buf)
    (hResult : turn.result ≠ some .failed) :
    (∃ init, turn.record.initial = some init) ∧ ∃ buf, turn.record.reduceBuf = some buf := by
  cases hTurn
  case badHeader | badData => exact (hResult rfl).elim
  case init buf _ => exact ⟨⟨buf, rfl⟩, buf, rfl⟩
  case header hPhase _ => exact h (by simp [hPhase, ReducePhase.isSync])
  case data inbuf hPhase _ =>
    obtain ⟨hInit, buf, hBuf⟩ := h (by simp [hPhase, ReducePhase.isSync])
    exact ⟨hInit, cfg.op buf inbuf, by simp [Turn.stays, Reduce.combine, hBuf]⟩
  case bare hPhase =>
    obtain ⟨hInit, buf, hBuf⟩ := h (by simp [hPhase, ReducePhase.isSync])
    exact ⟨hInit, cfg.op buf .null, by simp [Turn.stays, Reduce.combine, hBuf]⟩
  case deliver hPhase _ =>
    simp only [Turn.returns, Reduce.endLast, Reduce.finalize]
    split <;> exact h (by simp [hPhase, ReducePhase.isSync])
  case send hPhase _ _ | sendBare hPhase _ _ | sendData hPhase _ _ =>
    exact h (by simp [hPhase, ReducePhase.isSync])

theorem ReduceTurn.last_eq {sample : Int} {cleanup : Bool} {r : Reduce n}
    {turn : Turn n (Reduce n) Outcome} (hTurn : ReduceTurn cfg rank sample cleanup r input turn)
    (hResult : turn.result ≠ some .failed) : turn.record.last = r.last := by
  cases hTurn
  case badStart | badHeader | badData => exact (hResult rfl).elim
  case deliver =>
    simp only [Turn.returns, Reduce.endRound, Reduce.finalize]
    split <;> rfl
  all_goals rfl

theorem ReduceTurn.refused {sample : Int} {cleanup : Bool} {r : Reduce n}
    {turn : Turn n (Reduce n) Outcome} (hTurn : ReduceTurn cfg rank sample cleanup r input turn)
    (hFits : r.Fits cfg rank cleanup)
    (h : 0 < r.refused → cleanup = true ∧ r.reduceOutstanding = false)
    (hResult : turn.result ≠ some .failed) :
    0 < turn.record.refused → cleanup = true ∧ turn.record.reduceOutstanding = false := by
  cases hTurn
  case badStart | badHeader | badData => exact (hResult rfl).elim
  case refuse hOutstanding _ hCleanup => exact fun _ => ⟨hCleanup, hOutstanding⟩
  case init hPhase =>
    intro hRefused
    simp only [Reduce.Fits, hPhase] at hFits
    have hCleanup := (h hRefused).1
    rw [hFits.2] at hCleanup
    cases hCleanup
  case deliver =>
    simp only [Turn.returns, Reduce.endRound, Reduce.finalize]
    split <;> exact fun hRefused => ⟨(h hRefused).1, trivial⟩
  case reportBare | discard | sendData => exact fun hRefused => ⟨(h hRefused).1, rfl⟩
  all_goals exact h

theorem SyncTurn.refused_eq {sample : Int} {r : Reduce n} {turn : Turn n (Reduce n) Outcome}
    (hTurn : SyncTurn cfg rank sample r input turn) (hResult : turn.result ≠ some .failed) :
    turn.record.refused = r.refused ∧ turn.record.reduceOutstanding = r.reduceOutstanding ∧
      turn.record.rounds = r.rounds := by
  cases hTurn
  case badHeader | badData => exact (hResult rfl).elim
  case deliver =>
    simp only [Turn.returns, Reduce.endLast, Reduce.finalize]
    split <;> exact ⟨rfl, rfl, rfl⟩
  all_goals exact ⟨rfl, rfl, rfl⟩

theorem SyncTurn.last_cases {sample : Int} {r : Reduce n} {turn : Turn n (Reduce n) Outcome}
    (hTurn : SyncTurn cfg rank sample r input turn) (hResult : turn.result = none)
    (h : r.last ≠ none → r.phase = .syncSendData) (hLast : turn.record.last ≠ none) :
    turn.record.phase = .syncSendData := by
  cases hTurn
  case init hPhase | header hPhase _ | bare hPhase | data hPhase _ => simp [h hLast] at hPhase
  case send => rfl
  all_goals cases hResult

/-- Where the reduction is left alone. -/
theorem ReduceShape.other (h : ReduceShape cfg rank s) (hPhases : Phases s)
    (hStep : MainStep cfg rank input s s' out) (hReduce : s'.reduce = s.reduce)
    (hStays : s.pc = .reduceCheck ∨ s.pc = .reduceSync ∨ s.pc = .failed →
      s'.pc = s.pc ∧ s'.cleanup = s.cleanup) : ReduceShape cfg rank s' := by
  have hStart : s.reduce.phase = .start ∨ s'.pc = s.pc ∧ s'.cleanup = s.cleanup := by
    by_cases hPhase : s.reduce.phase = .start
    · exact Or.inl hPhase
    · exact Or.inr (hStays (hPhases.reduce hPhase))
  constructor
  case fits =>
    rw [hReduce]
    rcases hStart with hPhase | ⟨-, hCleanup⟩
    · simp [Reduce.Fits, hPhase]
    · rw [hCleanup]
      exact h.fits
  case syncPlace =>
    intro hSync
    rw [hReduce] at hSync
    have hPc := h.syncPlace hSync
    exact (hStays (Or.inr (Or.inl hPc))).1.trans hPc
  case checkPlace =>
    intro hPc
    rw [hReduce]
    rcases hStart with hPhase | ⟨hSame, -⟩
    · exact Or.inl hPhase
    · exact h.checkPlace (hSame ▸ hPc)
  case buffers =>
    rw [hReduce]
    exact h.buffers
  case refused =>
    intro hRefused
    rw [hReduce] at hRefused ⊢
    obtain ⟨hCleanup, hOutstanding⟩ := h.refused hRefused
    exact ⟨cleanup_step hCleanup hStep, hOutstanding⟩
  case last =>
    intro hLast
    rw [hReduce] at hLast ⊢
    refine (h.last hLast).imp_left fun hLate => ?_
    rw [← Bool.not_eq_true] at hLate ⊢
    exact fun hEarly => hLate (early_of_step hStep hEarly)

/-- A turn of `reduceCheck`. -/
theorem ReduceShape.check (h : ReduceShape cfg rank s) (hNext : s'.pc ∈ s.pc.next)
    (hPc : s.pc = .reduceCheck) {turn : Turn n (Reduce n) Outcome}
    (hTurn : ReduceTurn cfg rank s.localObjectsProcessed s.cleanup s.reduce input turn)
    (hReduce : s'.reduce = turn.record) (hCleanup : s'.cleanup = s.cleanup)
    (hResult : turn.result ≠ some .failed) : ReduceShape cfg rank s' := by
  obtain ⟨hFits, hNotSync⟩ := hTurn.fits h.fits hResult
  have hLastNone : s.reduce.last = none := by
    by_contra hLast
    rcases h.last hLast with hLate | hPhase
    · simp [hPc, Pc.early] at hLate
    · have hSync := h.syncPlace (by simp [hPhase, ReducePhase.isSync])
      simp [hPc] at hSync
  constructor
  case fits =>
    rw [hReduce, hCleanup]
    exact hFits
  case syncPlace =>
    rw [hReduce, hNotSync]
    intro hSync
    cases hSync
  case checkPlace =>
    intro hSync
    simp [hPc, hSync, Pc.next] at hNext
  case buffers =>
    rw [hReduce, hNotSync]
    simpa using hTurn.buffers (fun hOutstanding => h.buffers (Or.inl hOutstanding)) hResult
  case refused =>
    rw [hReduce, hCleanup]
    exact hTurn.refused h.fits h.refused hResult
  case last =>
    intro hLast
    rw [hReduce, hTurn.last_eq hResult] at hLast
    exact (hLast hLastNone).elim

/-- A turn of `reduceSync`. -/
theorem ReduceShape.sync (h : ReduceShape cfg rank s) (hPc : s.pc = .reduceSync)
    {turn : Turn n (Reduce n) Outcome}
    (hTurn : SyncTurn cfg rank s.localObjectsProcessed s.reduce input turn)
    (hReduce : s'.reduce = turn.record) (hCleanup : s'.cleanup = s.cleanup)
    (hResult : turn.result ≠ some .failed) (hStays : turn.result = none → s'.pc = .reduceSync)
    (hReturns : turn.result = some .returned → s'.pc = .abortReduce) :
    ReduceShape cfg rank s' := by
  obtain ⟨hRefused, hOutstanding, -⟩ := hTurn.refused_eq hResult
  obtain ⟨hFits, hEnds⟩ := hTurn.fits h.fits hResult
  have hBuffers := hTurn.buffers (fun hPhase => h.buffers (Or.inr hPhase)) hResult
  have hLast (hSome : s.reduce.last ≠ none) : s.reduce.phase = .syncSendData := by
    rcases h.last hSome with hLate | hPhase
    · simp [hPc, Pc.early] at hLate
    · exact hPhase
  constructor
  case fits =>
    rw [hReduce, hCleanup]
    exact hFits
  case syncPlace =>
    rw [hReduce]
    intro hPhase
    rcases hEnds with ⟨hNone, -⟩ | ⟨-, hStart⟩
    · exact hStays hNone
    · simp [hStart, ReducePhase.isSync] at hPhase
  case checkPlace =>
    rw [hReduce]
    exact fun _ => hEnds.symm.imp And.right And.right
  case buffers =>
    rw [hReduce]
    exact fun _ => hBuffers
  case refused =>
    rw [hReduce, hCleanup, hRefused, hOutstanding]
    exact h.refused
  case last =>
    rw [hReduce]
    intro hSome
    rcases hEnds with ⟨hNone, -⟩ | ⟨hReturned, -⟩
    · exact Or.inr (hTurn.last_cases hNone hLast hSome)
    · left
      rw [hReturns hReturned]
      rfl

theorem ReduceShape.step (h : ReduceShape cfg rank s) (hPhases : Phases s)
    (hStep : MainStep cfg rank input s s' out) (hRunning : s'.pc ≠ .failed) :
    ReduceShape cfg rank s' := by
  have hReduceStep := reduceStep_of_mainStep hStep
  cases hReduceStep
  case other hReduce _ hStays _ =>
    exact h.other hPhases hStep hReduce fun hPlace => ⟨(hStays hPlace).1, (hStays hPlace).2.1⟩
  case check turn hPc hTurn hReduce hCleanup _ _ hFailed =>
    exact h.check hStep.next hPc hTurn hReduce hCleanup fun hEq => hRunning (hFailed.mp hEq)
  case sync turn hPc hTurn hReduce hCleanup _ hSync =>
    refine h.sync hPc hTurn hReduce hCleanup (fun hEq => ?_) (fun hEq => ?_) fun hEq => ?_ <;>
      rw [hEq] at hSync
    · exact hRunning hSync
    · exact hSync
    · exact hSync

theorem Execution.reduceShape {ok : World n → Fin n → Event n → Prop} {g : World n}
    (h : Execution cfg ok g) (rank : Fin n) (hRunning : (g rank).state.pc ≠ .failed) :
    ReduceShape cfg rank (g rank).state := by
  revert hRunning
  refine h.forall_rank (L := fun rank node =>
    node.state.pc ≠ .failed → ReduceShape cfg rank node.state) ?_ ?_ rank
  · intro rank start _
    exact reduceShape_start start
  · intro g rank input state out hReach hAll _ hStep hRunning
    refine (hAll rank fun hFailed => hRunning ?_).step (hReach.control rank).phases hStep hRunning
    have hNext := hStep.next
    simpa [hFailed, Pc.next] using hNext

/-- Objects are processed in `process` only. -/
theorem processed_of_step (hStep : MainStep cfg rank input s s' out) (hPc : s.pc ≠ .process) :
    s'.localObjectsProcessed = s.localObjectsProcessed := by
  cases hStep
  case callback hProcess _ _ _ _ => exact (hPc hProcess).elim
  all_goals rfl

/-- No turn of `reduceCheck` opens a round in cleanup. -/
theorem ReduceTurn.closed_of_cleanup {sample : Int} {r : Reduce n}
    {turn : Turn n (Reduce n) Outcome} (hTurn : ReduceTurn cfg rank sample true r input turn)
    (hFits : r.Fits cfg rank true) (hClosed : r.reduceOutstanding = false)
    (hResult : turn.result ≠ some .failed) : turn.record.reduceOutstanding = false := by
  unfold Reduce.Fits at hFits
  cases hTurn
  case badStart | badHeader | badData => exact (hResult rfl).elim
  case init hPhase =>
    rw [hPhase] at hFits
    cases hFits.2
  case deliver =>
    simp only [Turn.returns, Reduce.endRound, Reduce.finalize]
  case data hPhase _ | bare hPhase =>
    rw [hPhase, hClosed] at hFits
    cases hFits.1
  case reportBare | discard | sendData => rfl
  all_goals exact hClosed

/-- A rank that has started the barrier is in no round. -/
theorem Execution.noRound_of_started {ok : World n → Fin n → Event n → Prop} {g : World n}
    (h : Execution cfg ok g) (rank : Fin n) (hEntered : (g rank).state.barrier.Entered)
    (hRunning : (g rank).state.pc ≠ .failed) :
    (g rank).state.cleanup = true ∧ (g rank).state.reduce.reduceOutstanding = false := by
  have hStarted := h.of_started
    (P := fun s => s.pc ≠ .failed → s.reduce.reduceOutstanding = false) ?_ ?_ rank hEntered
  · exact ⟨hStarted.1, hStarted.2 hRunning⟩
  · intro s _ hReady _
    simp only [State.readyForBarrier, Bool.and_eq_true, Bool.not_eq_true'] at hReady
    exact hReady.1.1.2
  · intro g rank input s' out hReach hAdmits hStep hCleanup hClosed hRunning'
    have hOld : (g rank).state.pc ≠ .failed := by
      intro hFailed
      have hNext := hStep.next
      rw [hFailed] at hNext
      exact hRunning' (by simpa [Pc.next] using hNext)
    have hShape := hReach.reduceShape rank hOld
    have hReduceStep := reduceStep_of_mainStep hStep
    cases hReduceStep
    case other hReduce _ _ _ =>
      rw [hReduce]
      exact hClosed hOld
    case check turn hPc hTurn hReduce _ _ _ hFailed =>
      have hFits := hShape.fits
      rw [hCleanup] at hTurn hFits
      rw [hReduce]
      exact hTurn.closed_of_cleanup hFits (hClosed hOld) fun hEq => hRunning' (hFailed.mp hEq)
    case sync turn hPc hTurn hReduce _ _ hSync =>
      have hResult : turn.result ≠ some .failed := by
        intro hEq
        rw [hEq] at hSync
        exact hRunning' hSync
      rw [hReduce, (hTurn.refused_eq hResult).2.1]
      exact hClosed hOld

end Circle
