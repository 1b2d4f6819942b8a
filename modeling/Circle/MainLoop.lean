import Circle.State.Abort
import Circle.State.Collective
import Circle.State.Reduce
import Circle.State.Token
import Circle.State.Work

/-!
# The main loop

`State::mainLoop`: the work loop, the cleanup loop, and the collectives that
follow.  A rank is in one function at a time (`Pc`); its turns are the steps of
a process on the channels of the communicator.
-/

namespace Circle

/-- The function that a rank is in. -/
inductive Pc where
  | workreqCheck
  | workreceiptCheck
  | abortCheck
  | reduceCheck
  | requestWork
  /-- The choice between processing an item and checking for termination. -/
  | process
  | checkForTerm
  | checkForTermAllReduce
  /-- The top of the cleanup loop. -/
  | barrierStart
  | barrierTest
  | tokenCheck
  | tokenTest
  | reduceSync
  | abortReduce
  /-- `mainLoop` is about to write a checkpoint. -/
  | checkpoint
  /-- `mainLoop` has returned. -/
  | done
  /-- `MPI_Abort`, or a message that does not match its receive. -/
  | failed
  deriving DecidableEq, Repr

/-- The state of a rank. -/
structure State (n : Nat) where
  pc : Pc
  cleanup : Bool
  work : Work n
  token : Token
  term : Term n
  barrier : Barrier n
  abort : Abort n
  abortReduce : AbortReduce n
  reduce : Reduce n
  localObjectsProcessed : Nat

namespace State

variable {n : Nat}

/-- After the reduction is looked after: an empty queue asks for work. -/
def afterReduce (s : State n) : Pc :=
  if s.work.queue.count = 0 then .requestWork else .process

/-- Where the loop goes on after `workreqCheck`. -/
def afterWorkreq (cfg : Config n) (s : State n) : Pc :=
  if s.cleanup then
    if cfg.reduceEnabled then .reduceCheck else .requestWork
  else
    .workreceiptCheck

/-- Where the loop goes on after `abortCheck`. -/
def afterAbort (cfg : Config n) (s : State n) : Pc :=
  if s.cleanup then
    if cfg.termTree then .barrierStart else .tokenCheck
  else if cfg.reduceEnabled then
    .reduceCheck
  else
    s.afterReduce

/-- The start of the cleanup loop, once the rank has terminated. -/
def leaveLoop (s : State n) : State n := { s with cleanup := true, pc := .barrierStart }

/-- The start of `abortReduce`. -/
def enterAbortReduce (cfg : Config n) (rank : Fin n) (s : State n) : State n :=
  { s with pc := .abortReduce, abortReduce := .enter (cfg.links rank) s.abort.abortFlag }

/-- What the cleanup loop waits for before it starts the barrier. -/
def readyForBarrier (s : State n) : Bool :=
  !s.work.workRequested && !s.reduce.reduceOutstanding && !s.abort.abortOutstanding &&
    !s.token.sendPending

end State

open State in
/-- One turn of a rank in `mainLoop`. -/
def mainLoop {n : Nat} (cfg : Config n) (rank : Fin n) (input : Input n) (s : State n) :
    Option (State n × Option (Packet n)) :=
  match input with
  | .tick .raiseAbort => some ({ s with abort := { s.abort with abortFlag := true } }, none)
  | _ =>
    match s.pc with
    | .workreqCheck =>
        (s.work.workreqCheck cfg rank s.cleanup s.abort.abortFlag s.token.tokenProc input).map
          fun turn =>
            let (work, tokenProc) := turn.record
            let s := { s with work := work, token := { s.token with tokenProc := tokenProc } }
            match turn.result with
            | none => (s, turn.out)
            | some () => ({ s with pc := s.afterWorkreq cfg }, turn.out)
    | .workreceiptCheck =>
        (s.work.workreceiptCheck s.term.termFlag input).map fun turn =>
          let (work, termFlag) := turn.record
          let s := { s with work := work, term := { s.term with termFlag := termFlag } }
          match turn.result with
          | none => (s, turn.out)
          | some () => ({ s with pc := .abortCheck }, turn.out)
    | .abortCheck =>
        (s.abort.abortCheck cfg rank s.cleanup input).map fun turn =>
          let s := { s with abort := turn.record }
          match turn.result with
          | none => (s, turn.out)
          | some () => ({ s with pc := s.afterAbort cfg }, turn.out)
    | .reduceCheck =>
        (s.reduce.reduceCheck cfg rank s.localObjectsProcessed s.cleanup input).map fun turn =>
          let s := { s with reduce := turn.record }
          match turn.result with
          | none => (s, turn.out)
          | some .failed => ({ s with pc := .failed }, turn.out)
          | some .returned =>
              ({ s with pc := if s.cleanup then .requestWork else s.afterReduce }, turn.out)
    | .requestWork =>
        (s.work.requestWork cfg rank s.cleanup s.abort.abortFlag input).map fun turn =>
          let (work, abortFlag) := turn.record
          let s := { s with work := work, abort := { s.abort with abortFlag := abortFlag } }
          match turn.result with
          | none => (s, turn.out)
          | some .failed => ({ s with pc := .failed }, turn.out)
          | some .returned =>
              ({ s with pc := if s.cleanup then .abortCheck else .process }, turn.out)
    | .process =>
        if s.work.queue.count > 0 ∧ ¬ s.abort.abortFlag then
          match input with
          | .tick (.callback ops) =>
              (s.work.process cfg.page ops).map fun work =>
                ({ s with
                    work := work
                    localObjectsProcessed := s.localObjectsProcessed + 1
                    pc := .workreqCheck }, none)
          | _ => none
        else
          match input with
          | .tick .go =>
              let pc := if cfg.termTree then Pc.checkForTermAllReduce else Pc.checkForTerm
              some ({ s with pc := pc }, none)
          | _ => none
    | .checkForTerm =>
        (s.token.checkForTerm rank s.abort.abortFlag input).map fun turn =>
          let s := { s with token := turn.record }
          match turn.result with
          | none => (s, turn.out)
          | some true => (s.leaveLoop, turn.out)
          | some false => ({ s with pc := .workreqCheck }, turn.out)
    | .checkForTermAllReduce =>
        (s.term.checkForTermAllReduce cfg rank s.work.workOutstanding input).map fun turn =>
          let s := { s with term := turn.record }
          match turn.result with
          | none => (s, turn.out)
          | some true => (s.leaveLoop, turn.out)
          | some false => ({ s with pc := .workreqCheck }, turn.out)
    | .barrierStart =>
        match input with
        | .tick .go =>
            let barrier := if s.readyForBarrier then s.barrier.barrierStart else s.barrier
            some ({ s with barrier := barrier, pc := .barrierTest }, none)
        | _ => none
    | .barrierTest =>
        (s.barrier.barrierTest cfg rank input).map fun turn =>
          let s := { s with barrier := turn.record }
          match turn.result with
          | none => (s, turn.out)
          | some false => ({ s with pc := .workreqCheck }, turn.out)
          | some true =>
              if cfg.reduceEnabled then
                ({ s with pc := .reduceSync }, turn.out)
              else
                (s.enterAbortReduce cfg rank, turn.out)
    | .tokenCheck =>
        (s.token.tokenCheck rank s.abort.abortFlag input).map fun turn =>
          let s := { s with token := turn.record }
          match turn.result with
          | none => (s, turn.out)
          | some () => ({ s with pc := .tokenTest }, turn.out)
    | .tokenTest =>
        (s.token.tokenTest rank input).map fun turn =>
          ({ s with token := turn.record, pc := .barrierStart }, turn.out)
    | .reduceSync =>
        (s.reduce.reduceSync cfg rank s.localObjectsProcessed input).map fun turn =>
          let s := { s with reduce := turn.record }
          match turn.result with
          | none => (s, turn.out)
          | some .failed => ({ s with pc := .failed }, turn.out)
          | some .returned => (s.enterAbortReduce cfg rank, turn.out)
    | .abortReduce =>
        (s.abortReduce.abortReduce (cfg.links rank) input).map fun turn =>
          let s := { s with abortReduce := turn.record }
          match turn.result with
          | none => (s, turn.out)
          | some flag =>
              let abort := { s.abort with abortFlag := flag, abortState := flag }
              ({ s with abort := abort, pc := if flag then .checkpoint else .done }, turn.out)
    | .checkpoint => none
    | .done => none
    | .failed => none

/-! ## Executions -/

variable {n : Nat}

abbrev Rank (n : Nat) := FifoNet.Node (Fin n) Tag Msg (State n)

abbrev World (n : Nat) := FifoNet.System (Fin n) Tag Msg (State n)

abbrev Event (n : Nat) := FifoNet.Event (Fin n) Tag (Choice n)

/-- What a rank starts with: a queue that the create callback has filled, the
capacity of the offset arrays, the rank that `getNextProc` picked, and the user
data of earlier reductions. -/
structure Start (rank : Fin n) where
  queue : Queue
  items : List Item
  holds : queue.Holds items
  sized : Queue.Sized items
  enqueued : List Item
  dequeued : List Item
  balanced : enqueued.Perm (dequeued ++ items)
  offsetsCount : Nat
  offsets_le : offsetsCount ≤ intMax
  nextProcessor : Option (Fin n)
  next_ne : ∀ next, nextProcessor = some next → next ≠ rank
  next_none : nextProcessor = none → n = 1
  reduceBuf : Option ReduceBuf

/-- The constructor `State::State`. -/
def Start.state {rank : Fin n} (start : Start rank) : State n where
  pc := .workreqCheck
  cleanup := false
  work := {
    queue := start.queue
    requestors := []
    shares := []
    replying := false
    sending := none
    workRequested := false
    workRequestedRank := none
    nextProcessor := start.nextProcessor
    receiving := none
    workOutstanding := 0
    offsetsCount := start.offsetsCount
    enqueued := start.enqueued
    dequeued := start.dequeued }
  token := {
    tokenIsLocal := rank.val = 0
    tokenProc := .white
    tokenBuf := .black
    sendPending := false
    incoming := none }
  term := { termFlag := true, termUp := false, wave := .zero, phase := .children }
  barrier := { barrierStarted := false, barrierUp := false, wave := .zero, phase := .children }
  abort := {
    abortFlag := false
    abortState := false
    abortOutstanding := false
    toSend := []
    awaited := []
    phase := .start }
  abortReduce := { flag := false, phase := .parent }
  reduce := {
    reduceOutstanding := false
    reduceReplies := 0
    valid := false
    count := 0
    bytes := 0
    reduceBuf := start.reduceBuf
    phase := .start
    initial := none
    rounds := []
    refused := 0
    last := none
    finalized := [] }
  localObjectsProcessed := 0

/-- Every rank has just been constructed. -/
def Initial (states : Fin n → State n) : Prop :=
  ∃ start : ∀ rank, Start rank, ∀ rank, states rank = (start rank).state

/-- The systems that executions lead to, when every turn is one that `ok`
allows. -/
abbrev Execution (cfg : Config n) (ok : World n → Fin n → Event n → Prop) : World n → Prop :=
  FifoNet.Reachable (mainLoop cfg) Initial ok

/-! ## Two ranks

A communicator of two ranks with a few items, on which the general results can
be evaluated. -/

/-- Ranks of two are written as numerals. -/
instance neZero_two : NeZero 2 := ⟨two_ne_zero⟩

/-- One byte of user data. -/
def byteBuf (byte : UInt8) : ReduceBuf where
  bytes := [byte]
  fits := by
    rw [List.length_singleton]
    unfold intMax
    omega

/-- Two ranks without user data to reduce. -/
def pairConfig (termTree reduceEnabled : Bool) : Config 2 where
  size_pos := by decide
  page := .usual
  width := 2
  width_pos := by decide
  termTree := termTree
  reduceEnabled := reduceEnabled
  splitEqual := true
  op := fun buf _ => buf

theorem holds_bytes (bytes : List UInt8) (hCount : bytes.length ≤ 8) :
    (Queue.packed (bytes.map fun byte => [byte])).Holds (bytes.map fun byte => [byte]) := by
  apply Queue.holds_packed
  · simp
  · rw [List.length_flatten, List.map_map]
    simp [Function.comp_def, sizeModulus]
    omega

theorem sized_bytes (bytes : List UInt8) (hCount : bytes.length ≤ 8) :
    Queue.Sized (bytes.map fun byte => [byte]) where
  count_le := by
    rw [List.length_map]
    unfold intMax
    omega
  length_lt := by simp

theorem ne_of_succ_eq (rank : Fin 2) : ∀ next, some (rank + 1) = some next → next ≠ rank := by
  rintro next ⟨rfl⟩
  revert rank
  decide

theorem succ_ne_none (rank : Fin 2) : some (rank + 1) = none → 2 = 1 := by simp

/-- A rank of two that starts with a few bytes as its items. -/
def pairStart (rank : Fin 2) (bytes : List UInt8) (hCount : bytes.length ≤ 8) : Start rank where
  queue := Queue.packed (bytes.map fun byte => [byte])
  items := bytes.map fun byte => [byte]
  holds := holds_bytes bytes hCount
  sized := sized_bytes bytes hCount
  enqueued := bytes.map fun byte => [byte]
  dequeued := []
  balanced := List.Perm.refl _
  offsetsCount := 0
  offsets_le := Nat.zero_le _
  nextProcessor := some (rank + 1)
  next_ne := ne_of_succ_eq rank
  next_none := succ_ne_none rank
  reduceBuf := none

/-- Two ranks of which the first has two items. -/
def pairWorld : World 2 :=
  FifoNet.fresh fun rank =>
    (pairStart rank (if rank = 0 then [1, 2] else []) (by split <;> decide)).state

theorem execution_pairWorld (cfg : Config 2) (ok : World 2 → Fin 2 → Event 2 → Prop) :
    Execution cfg ok pairWorld :=
  FifoNet.Reachable.start ⟨fun rank => pairStart rank _ _, fun _ => rfl⟩

/-- Each function of the loop in turn finds nothing to do, up to the choice
between processing and checking for termination. -/
def idleTurns (rank : Fin 2) : List (Fin 2 × Event 2) :=
  [(rank, .tick .go), (rank, .tick .go), (rank, .tick .go), (rank, .tick .go),
    (rank, .tick (.tested false))]

end Circle
