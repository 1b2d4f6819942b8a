import Circle.Queue.Checkpoint
import Circle.MainLoop

/-!
# Calls of `execute`

What a program does with its `Circle` object outside `mainLoop`, and
`CircleImpl::execute`: a new `State` takes over the queue and the reduction
data, the create callback fills the queue on rank 0 (or on all ranks), and
`mainLoop` runs.  At its end a rank that has aborted writes its checkpoint file.

The same object can be used for another call.
-/

namespace Circle

/-- The members of `CircleImpl` that outlive a call of `execute`, and the file
`circle<rank>.txt`. -/
structure CircleImpl where
  queue : Queue
  reduceBuf : Option ReduceBuf
  file : File

/-- A call of the program outside `execute`. -/
inductive ProgramCall where
  /-- `enqueue`, `dequeue` or `getLocalQueueSize`. -/
  | queue (op : QueueOp)
  /-- `reduce` with at least one byte. -/
  | reduce (buf : ReduceBuf) (some : 0 < buf.bytes.length)
  | checkpoint (ops : FileOps)
  | readRestarts

/-- What a program does up to and in a call of `execute`. -/
structure ExecuteCall (n : Nat) where
  before : List ProgramCall
  /-- What `getNextProc` picks first. -/
  next : Option (Fin n)
  /-- What the create callback does with the queue. -/
  create : List QueueOp
  /-- How the file operations of a checkpoint at the end of the last
  `mainLoop` turn out. -/
  files : FileOps

namespace CircleImpl

/-- The constructors, with what the rank's file holds. -/
def construct (file : File) : CircleImpl := { queue := .fresh, reduceBuf := none, file := file }

/-- Carry out one call. -/
def perform (page : PageSize) (impl : CircleImpl) : ProgramCall → Option CircleImpl
  | .queue op => (impl.queue.perform page op).map fun (_, queue) => { impl with queue := queue }
  | .reduce buf _ => some { impl with reduceBuf := some buf }
  | .checkpoint ops => (impl.queue.write ops impl.file).map fun (_, file, queue) =>
      { impl with queue := queue, file := file }
  | .readRestarts => (impl.queue.read page impl.file).map fun (_, queue) =>
      { impl with queue := queue }

def performAll (page : PageSize) : CircleImpl → List ProgramCall → Option CircleImpl
  | impl, [] => some impl
  | impl, call :: rest => (impl.perform page call).bind fun impl => performAll page impl rest

end CircleImpl

/-- What `getNextProc` can pick: another rank, if there is one. -/
def picks {n : Nat} (rank : Fin n) : Option (Fin n) → Bool
  | none => n = 1
  | some next => next ≠ rank

/-- The constructor `State::State`; the number of offsets has to fit an
`int32_t`. -/
def State.construct {n : Nat} (rank : Fin n) (impl : CircleImpl) (next : Option (Fin n)) :
    Option (State n) :=
  if impl.queue.strings.length ≤ intMax ∧ picks rank next then
    some {
      pc := .workreqCheck
      cleanup := false
      work := {
        queue := impl.queue
        requestors := []
        shares := []
        replying := false
        sending := none
        workRequested := false
        workRequestedRank := none
        nextProcessor := next
        receiving := none
        workOutstanding := 0
        offsetsCount := impl.queue.strings.length
        enqueued := impl.queue.items
        dequeued := [] }
      token := {
        tokenIsLocal := rank.val = 0
        tokenProc := .white
        tokenBuf := .black
        sendPending := false
        incoming := none }
      term := { termFlag := true, termUp := false, wave := .zero, phase := .children }
      barrier := { barrierStarted := false, barrierUp := false, wave := .zero, phase := .children }
      abort := {
        abortFlag := false
        abortState := false
        abortOutstanding := false
        toSend := []
        awaited := []
        phase := .start }
      abortReduce := { flag := false, phase := .parent }
      reduce := {
        reduceOutstanding := false
        reduceReplies := 0
        valid := false
        count := 0
        bytes := 0
        reduceBuf := impl.reduceBuf
        phase := .start
        initial := none
        rounds := []
        refused := 0
        last := none
        finalized := [] }
      localObjectsProcessed := 0 }
  else
    none

section Execute

variable {n : Nat}

namespace CircleImpl

/-- `execute`, up to `mainLoop`. -/
def execute (cfg : Config n) (createGlobal : Bool) (rank : Fin n) (call : ExecuteCall n)
    (impl : CircleImpl) : Option (State n) :=
  (State.construct rank impl call.next).bind fun s =>
    if rank.val = 0 ∨ createGlobal = true then
      (s.work.process cfg.page call.create).map fun work => { s with work := work }
    else
      some s

/-- A call of `execute`, with what the program does before it. -/
def enter (cfg : Config n) (createGlobal : Bool) (rank : Fin n) (call : ExecuteCall n)
    (impl : CircleImpl) : Option (State n × File) :=
  (impl.performAll cfg.page call.before).bind fun impl =>
    (impl.execute cfg createGlobal rank call).map fun s => (s, impl.file)

end CircleImpl

/-- The end of `mainLoop`, and of `execute`: a rank that has aborted writes a
checkpoint. -/
def State.leave (files : FileOps) (file : File) (s : State n) : Option CircleImpl :=
  match s.pc with
  | .checkpoint => (s.work.queue.write files file).map fun (_, file, queue) =>
      { queue := queue, reduceBuf := s.reduce.reduceBuf, file := file }
  | .done => some { queue := s.work.queue, reduceBuf := s.reduce.reduceBuf, file := file }
  | _ => none

/-- A rank leaves `execute` and calls it again. -/
def executeAgain (cfg : Config n) (createGlobal : Bool) (rank : Fin n) (call : ExecuteCall n)
    (file : File) (s : State n) : Option (State n × File) :=
  (s.leave call.files file).bind fun impl => impl.enter cfg createGlobal rank call

/-! ## What a call of `execute` starts with -/

/-- The queue holds items that fit it. -/
def Queue.Stocked (q : Queue) : Prop := ∃ items, q.Holds items ∧ Queue.Sized items

theorem Queue.stocked_fresh : Queue.fresh.Stocked := ⟨[], Queue.holds_fresh, Queue.sized_nil⟩

theorem Queue.Sized.front {front back : List Item} (h : Queue.Sized (front ++ back)) :
    Queue.Sized front := by
  have hCount := h.count_le
  rw [List.length_append] at hCount
  exact ⟨by omega, fun item hMem => h.length_lt item (List.mem_append_left _ hMem)⟩

/-- Whatever becomes of a `write`, the items left in the queue are the first
ones it had. -/
theorem Queue.Stocked.write {q q' : Queue} (h : q.Stocked) {ops : FileOps} {file file' : File}
    {rc : Int} (hWrite : q.write ops file = some (rc, file', q')) : q'.Stocked := by
  obtain ⟨items, hHolds, hSized⟩ := h
  unfold Queue.write at hWrite
  split at hWrite
  next =>
    cases hWrite
    exact ⟨items, hHolds, hSized⟩
  next =>
    split at hWrite
    next =>
      have hFuel : items.length < q.count + 1 := by rw [hHolds.count_eq]; omega
      rcases hHolds.writeLoop_cases ops.accepts (q.count + 1) 0 [] hFuel with
        ⟨q₁, hLoop, hEmpty, -⟩ | ⟨q₁, front, item, back, rfl, hLoop, hFront, -⟩
      · simp only [hLoop, Option.bind_eq_bind, Option.bind_some] at hWrite
        split at hWrite <;> cases hWrite <;> exact ⟨[], hEmpty, Queue.sized_nil⟩
      · simp only [hLoop, Option.bind_eq_bind, Option.bind_some] at hWrite
        split at hWrite <;> cases hWrite <;> exact ⟨front, hFront, hSized.front⟩
    next =>
      cases hWrite
      exact ⟨items, hHolds, hSized⟩

theorem Queue.Stocked.read {q q' : Queue} (h : q.Stocked) {page : PageSize} {file : File}
    {rc : Int} (hRead : q.read page file = some (rc, q')) : q'.Stocked := by
  unfold Queue.read at hRead
  split at hRead
  next =>
    cases hRead
    exact h
  next =>
    obtain ⟨items, hHolds, hSized⟩ := h
    obtain ⟨queue, hPush, hEq⟩ := Option.map_eq_some_iff.mp hRead
    cases hEq
    exact ⟨_, hHolds.pushAll_eq_some hSized hPush⟩

end Execute

end Circle
