import Circle.State.Basic

/-!
# Reductions

`reduceCheck`, which makes progress on a reduction in the background, and
`reduceSync`, which carries out the last one.  Starts, headers and user data
all have the tag `CIRCLE_TAG_REDUCE`.

The lists `rounds` and `finalized` record the background rounds a rank has
taken part in and the results that the root has delivered, `refused` counts the
rounds it has answered from cleanup, and `last` is what it has put into the last
reduction; no function reads them.
-/

namespace Circle

variable {n : Nat}

/-- Where `reduceCheck` and `reduceSync` are. -/
inductive ReducePhase (n : Nat) where
  /-- At the start. -/
  | start
  /-- Before the initial callback of a round. -/
  | init
  /-- Starting the children that are left. -/
  | kick (rest : List (Fin n))
  /-- Probing the children that are left. -/
  | children (rest : List (Fin n))
  /-- The header of a child is received, its user data is not. -/
  | data (child : Fin n) (bytes : Int) (rest : List (Fin n))
  /-- The header for the parent is sent, the user data is not. -/
  | sendData
  /-- Receiving from the children that are left in `reduceSync`. -/
  | syncChildren (rest : List (Fin n))
  | syncData (child : Fin n) (bytes : Int) (rest : List (Fin n))
  | syncSendData
  deriving DecidableEq, Repr

/-- What a rank has put into a round, and the reply that came out of it. -/
structure Round where
  init : ReduceBuf
  sample : Int
  valid : Bool
  count : Int
  value : ReduceBuf
  deriving DecidableEq, Repr

/-- The members of the reduction, and the user data of the circle. -/
structure Reduce (n : Nat) where
  reduceOutstanding : Bool
  reduceReplies : Nat
  /-- `local_reduce_buf[0]` is `MSG_VALID`. -/
  valid : Bool
  /-- `local_reduce_buf[1]`. -/
  count : Int
  /-- `local_reduce_buf[2]`. -/
  bytes : Int
  /-- `reduce_buf`; `none` is a null pointer, before the first round. -/
  reduceBuf : Option ReduceBuf
  phase : ReducePhase n
  /-- What the initial callback left in the round at hand. -/
  initial : Option ReduceBuf
  rounds : List Round
  refused : Nat
  last : Option Round
  finalized : List (Int × ReduceBuf)
  deriving DecidableEq

namespace Reduce

/-- `reduce_buf_size`. -/
def reduceBufSize (r : Reduce n) : Int :=
  match r.reduceBuf with
  | none => 0
  | some buf => buf.bytes.length

/-- Call the operation with the data of a child. -/
def combine (cfg : Config n) (r : Reduce n) (inbuf : ReduceBuf) : Reduce n :=
  { r with reduceBuf := r.reduceBuf.map fun buf => cfg.op buf inbuf }

/-- The same where an invalid reply keeps the operation from being called. -/
def combineIfValid (cfg : Config n) (r : Reduce n) (inbuf : ReduceBuf) : Reduce n :=
  { r with reduceBuf := r.reduceBuf.map fun buf => if r.valid then cfg.op buf inbuf else buf }

/-- The round at hand, once all children have replied. -/
def round (r : Reduce n) (sample : Int) : Option Round :=
  match r.initial, r.reduceBuf with
  | some init, some value => some ⟨init, sample, r.valid, r.count, value⟩
  | _, _ => none

/-- The end of a background round. -/
def endRound (r : Reduce n) (sample : Int) : Reduce n :=
  { r with rounds := r.rounds ++ (r.round sample).toList }

/-- The end of the last reduction. -/
def endLast (r : Reduce n) (sample : Int) : Reduce n := { r with last := r.round sample }

/-- The root delivers a result. -/
def finalize (r : Reduce n) : Reduce n :=
  match r.reduceBuf with
  | some value => { r with finalized := r.finalized ++ [(r.count, value)] }
  | none => r

/-- What happens once `start_reduce` is set: in cleanup, the parent gets an
invalid message. -/
def startReduce (cfg : Config n) (rank : Fin n) (cleanup : Bool) (r : Reduce n) :
    Turn n (Reduce n) Outcome :=
  if cleanup then
    match cfg.tree.parent rank with
    | some parentRank =>
        let r := { r with valid := false, refused := r.refused + 1 }
        .sendsAndReturns r parentRank .reduce (.longs r.valid r.count r.bytes) .returned
    | none => .returns r .returned
  else
    .stays { r with phase := .init }

/-- All children have replied: add the own count, and pass the result on. -/
def finish (cfg : Config n) (rank : Fin n) (sample : Int) (r : Reduce n) :
    Turn n (Reduce n) Outcome :=
  let r := { r with count := r.count + sample }
  match cfg.tree.parent rank with
  | some parentRank =>
      let r : Reduce n := { r with bytes := r.reduceBufSize }
      let out := Msg.longs r.valid r.count r.bytes
      if 0 < r.bytes ∧ r.valid then
        .sends { r.endRound sample with phase := .sendData } parentRank .reduce out
      else
        .sendsAndReturns { r.endRound sample with reduceOutstanding := false, phase := .start }
          parentRank .reduce out .returned
  | none =>
      if r.valid then
        .returns { r.finalize.endRound sample with reduceOutstanding := false, phase := .start }
          .returned
      else
        .returns { r.endRound sample with reduceOutstanding := false, phase := .start } .returned

/-- A header from a child.  A negative number of bytes is a `size_t` for which
there is no memory. -/
def receiveHeader (cfg : Config n) (r : Reduce n) (child : Fin n) (rest : List (Fin n))
    (msg : Msg) : Turn n (Reduce n) Outcome :=
  match msg with
  | .longs valid count bytes =>
      let r := { r with reduceReplies := r.reduceReplies + 1 }
      if valid then
        let r := { r with count := r.count + count }
        if bytes > 0 then
          .stays { r with phase := .data child bytes rest }
        else if bytes = 0 then
          .stays { r.combineIfValid cfg .null with phase := .children rest }
        else
          .returns r .failed
      else
        .stays { r with valid := false, phase := .children rest }
  | _ => .returns r .failed

/-- `reduceCheck(count, cleanup)`. -/
def reduceCheck (cfg : Config n) (rank : Fin n) (sample : Int) (cleanup : Bool) (r : Reduce n)
    (input : Input n) : Option (Turn n (Reduce n) Outcome) :=
  match r.phase with
  | .start =>
      if r.reduceOutstanding then
        match input with
        | .tick .go => some (.stays { r with phase := .children (cfg.tree.children rank) })
        | _ => none
      else
        match cfg.tree.parent rank, input with
        | none, .tick (.time fired) =>
            if fired || cleanup then
              some (r.startReduce cfg rank cleanup)
            else
              some (.returns r .returned)
        | some _, .tick (.time _) => some (.returns r .returned)
        | some parentRank, .recv src .reduce msg =>
            if src = parentRank then
              match msg with
              | .empty => some (r.startReduce cfg rank cleanup)
              | _ => some (.returns r .failed)
            else
              none
        | _, _ => none
  | .init =>
      match input with
      | .tick (.init buf) =>
          some (.stays { r with
            reduceOutstanding := true
            reduceReplies := 0
            valid := true
            count := 0
            bytes := 0
            reduceBuf := some buf
            initial := some buf
            phase := .kick (cfg.tree.children rank) })
      | _ => none
  | .kick (child :: rest) =>
      match input with
      | .tick .go => some (.sends { r with phase := .kick rest } child .reduce .empty)
      | _ => none
  | .kick [] =>
      match input with
      | .tick .go => some (.returns { r with phase := .start } .returned)
      | _ => none
  | .children (child :: rest) =>
      match input with
      | .recv src .reduce msg =>
          if src = child then some (r.receiveHeader cfg child rest msg) else none
      | .tick .go => some (.stays { r with phase := .children rest })
      | _ => none
  | .children [] =>
      match input with
      | .tick .go =>
          if r.reduceReplies = (cfg.tree.children rank).length then
            some (r.finish cfg rank sample)
          else
            some (.returns { r with phase := .start } .returned)
      | _ => none
  | .data child bytes rest =>
      match input with
      | .recv src .reduce msg =>
          if src = child then
            match msg with
            | .data inbuf =>
                if (inbuf.bytes.length : Int) = bytes then
                  some (.stays { r.combineIfValid cfg inbuf with phase := .children rest })
                else
                  some (.returns r .failed)
            | _ => some (.returns r .failed)
          else
            none
      | _ => none
  | .sendData =>
      match input, cfg.tree.parent rank, r.reduceBuf with
      | .tick .go, some parentRank, some buf =>
          some (.sendsAndReturns { r with reduceOutstanding := false, phase := .start }
            parentRank .reduce (.data buf) .returned)
      | _, _, _ => none
  | _ => none

/-- `reduceSync(count)`. -/
def reduceSync (cfg : Config n) (rank : Fin n) (sample : Int) (r : Reduce n) (input : Input n) :
    Option (Turn n (Reduce n) Outcome) :=
  match r.phase with
  | .start =>
      match input with
      | .tick (.init buf) =>
          some (.stays { r with
            valid := true
            count := sample
            bytes := 0
            reduceBuf := some buf
            initial := some buf
            phase := .syncChildren (cfg.tree.children rank) })
      | _ => none
  | .syncChildren (child :: rest) =>
      match input with
      | .recv src .reduce msg =>
          if src = child then
            match msg with
            | .longs _ count bytes =>
                let r := { r with count := r.count + count }
                if bytes > 0 then
                  some (.stays { r with phase := .syncData child bytes rest })
                else if bytes = 0 then
                  some (.stays { r.combine cfg .null with phase := .syncChildren rest })
                else
                  some (.returns r .failed)
            | _ => some (.returns r .failed)
          else
            none
      | _ => none
  | .syncChildren [] =>
      match input, cfg.tree.parent rank with
      | .tick .go, some parentRank =>
          let r : Reduce n := { r with bytes := r.reduceBufSize }
          let out := Msg.longs r.valid r.count r.bytes
          if 0 < r.bytes then
            some (.sends { r.endLast sample with phase := .syncSendData } parentRank .reduce out)
          else
            some (.sendsAndReturns { r.endLast sample with phase := .start }
              parentRank .reduce out .returned)
      | .tick .go, none =>
          some (.returns { r.finalize.endLast sample with phase := .start } .returned)
      | _, _ => none
  | .syncData child bytes rest =>
      match input with
      | .recv src .reduce msg =>
          if src = child then
            match msg with
            | .data inbuf =>
                if (inbuf.bytes.length : Int) = bytes then
                  some (.stays { r.combine cfg inbuf with phase := .syncChildren rest })
                else
                  some (.returns r .failed)
            | _ => some (.returns r .failed)
          else
            none
      | _ => none
  | .syncSendData =>
      match input, cfg.tree.parent rank, r.reduceBuf with
      | .tick .go, some parentRank, some buf =>
          some (.sendsAndReturns { r with phase := .start } parentRank .reduce (.data buf) .returned)
      | _, _, _ => none
  | _ => none

end Reduce

/-! ## Turns -/

section Turns

variable {cfg : Config n} {rank : Fin n} {sample : Int} {cleanup : Bool} {r : Reduce n}
  {input : Input n}

/-- The turns of `reduceCheck`. -/
inductive ReduceTurn (cfg : Config n) (rank : Fin n) (sample : Int) (cleanup : Bool)
    (r : Reduce n) : Input n → Turn n (Reduce n) Outcome → Prop where
  | resume (hPhase : r.phase = .start) (hOutstanding : r.reduceOutstanding = true) :
      ReduceTurn cfg rank sample cleanup r (.tick .go)
        (.stays { r with phase := .children (cfg.tree.children rank) })
  | idle {fired : Bool} (hPhase : r.phase = .start) (hOutstanding : r.reduceOutstanding = false) :
      ReduceTurn cfg rank sample cleanup r (.tick (.time fired)) (.returns r .returned)
  | fire (hPhase : r.phase = .start) (hOutstanding : r.reduceOutstanding = false)
      (hRoot : cfg.tree.parent rank = none) (hCleanup : cleanup = false) :
      ReduceTurn cfg rank sample cleanup r (.tick (.time true)) (.stays { r with phase := .init })
  | begin {parentRank : Fin n} (hPhase : r.phase = .start)
      (hOutstanding : r.reduceOutstanding = false)
      (hParent : cfg.tree.parent rank = some parentRank) (hCleanup : cleanup = false) :
      ReduceTurn cfg rank sample cleanup r (.recv parentRank .reduce .empty)
        (.stays { r with phase := .init })
  | refuse {parentRank : Fin n} (hPhase : r.phase = .start)
      (hOutstanding : r.reduceOutstanding = false)
      (hParent : cfg.tree.parent rank = some parentRank) (hCleanup : cleanup = true) :
      ReduceTurn cfg rank sample cleanup r (.recv parentRank .reduce .empty)
        (.sendsAndReturns { r with valid := false, refused := r.refused + 1 } parentRank .reduce
          (.longs false r.count r.bytes) .returned)
  | badStart {parentRank : Fin n} {msg : Msg} (hPhase : r.phase = .start)
      (hOutstanding : r.reduceOutstanding = false)
      (hParent : cfg.tree.parent rank = some parentRank) (hBad : msg ≠ .empty) :
      ReduceTurn cfg rank sample cleanup r (.recv parentRank .reduce msg) (.returns r .failed)
  | init {buf : ReduceBuf} (hPhase : r.phase = .init) :
      ReduceTurn cfg rank sample cleanup r (.tick (.init buf)) (.stays { r with
        reduceOutstanding := true
        reduceReplies := 0
        valid := true
        count := 0
        bytes := 0
        reduceBuf := some buf
        initial := some buf
        phase := .kick (cfg.tree.children rank) })
  | kick {child : Fin n} {rest : List (Fin n)} (hPhase : r.phase = .kick (child :: rest)) :
      ReduceTurn cfg rank sample cleanup r (.tick .go)
        (.sends { r with phase := .kick rest } child .reduce .empty)
  | kicked (hPhase : r.phase = .kick []) :
      ReduceTurn cfg rank sample cleanup r (.tick .go) (.returns { r with phase := .start } .returned)
  | header {child : Fin n} {rest : List (Fin n)} {count bytes : Int}
      (hPhase : r.phase = .children (child :: rest)) (hBytes : 0 < bytes) :
      ReduceTurn cfg rank sample cleanup r (.recv child .reduce (.longs true count bytes))
        (.stays { r with
          reduceReplies := r.reduceReplies + 1
          count := r.count + count
          phase := .data child bytes rest })
  | invalid {child : Fin n} {rest : List (Fin n)} {count bytes : Int}
      (hPhase : r.phase = .children (child :: rest)) :
      ReduceTurn cfg rank sample cleanup r (.recv child .reduce (.longs false count bytes))
        (.stays { r with
          reduceReplies := r.reduceReplies + 1
          valid := false
          phase := .children rest })
  | bare {child : Fin n} {rest : List (Fin n)} {count : Int}
      (hPhase : r.phase = .children (child :: rest)) :
      ReduceTurn cfg rank sample cleanup r (.recv child .reduce (.longs true count 0))
        (.stays {
          ({ r with
            reduceReplies := r.reduceReplies + 1
            count := r.count + count } : Reduce n).combineIfValid cfg .null with
          phase := .children rest })
  | badHeader {child : Fin n} {rest : List (Fin n)} {msg : Msg} {r' : Reduce n}
      (hPhase : r.phase = .children (child :: rest))
      (hBad : ∀ valid count bytes, msg = .longs valid count bytes → valid = true ∧ bytes < 0) :
      ReduceTurn cfg rank sample cleanup r (.recv child .reduce msg) (.returns r' .failed)
  | skip {child : Fin n} {rest : List (Fin n)} (hPhase : r.phase = .children (child :: rest)) :
      ReduceTurn cfg rank sample cleanup r (.tick .go) (.stays { r with phase := .children rest })
  | wait (hPhase : r.phase = .children [])
      (hReplies : r.reduceReplies ≠ (cfg.tree.children rank).length) :
      ReduceTurn cfg rank sample cleanup r (.tick .go) (.returns { r with phase := .start } .returned)
  | report {parentRank : Fin n} (hPhase : r.phase = .children [])
      (hReplies : r.reduceReplies = (cfg.tree.children rank).length)
      (hParent : cfg.tree.parent rank = some parentRank)
      (hData : 0 < r.reduceBufSize ∧ r.valid = true) :
      ReduceTurn cfg rank sample cleanup r (.tick .go) (.sends
        { { r with count := r.count + sample, bytes := r.reduceBufSize }.endRound sample with
          phase := .sendData } parentRank .reduce
        (.longs r.valid (r.count + sample) r.reduceBufSize))
  | reportBare {parentRank : Fin n} (hPhase : r.phase = .children [])
      (hReplies : r.reduceReplies = (cfg.tree.children rank).length)
      (hParent : cfg.tree.parent rank = some parentRank)
      (hBare : ¬ (0 < r.reduceBufSize ∧ r.valid = true)) :
      ReduceTurn cfg rank sample cleanup r (.tick .go) (.sendsAndReturns
        { { r with count := r.count + sample, bytes := r.reduceBufSize }.endRound sample with
          reduceOutstanding := false
          phase := .start } parentRank .reduce
        (.longs r.valid (r.count + sample) r.reduceBufSize) .returned)
  | deliver (hPhase : r.phase = .children [])
      (hReplies : r.reduceReplies = (cfg.tree.children rank).length)
      (hRoot : cfg.tree.parent rank = none) (hValid : r.valid = true) :
      ReduceTurn cfg rank sample cleanup r (.tick .go) (.returns
        { { r with count := r.count + sample }.finalize.endRound sample with
          reduceOutstanding := false
          phase := .start } .returned)
  | discard (hPhase : r.phase = .children [])
      (hReplies : r.reduceReplies = (cfg.tree.children rank).length)
      (hRoot : cfg.tree.parent rank = none) (hValid : r.valid = false) :
      ReduceTurn cfg rank sample cleanup r (.tick .go) (.returns
        { { r with count := r.count + sample }.endRound sample with
          reduceOutstanding := false
          phase := .start } .returned)
  | data {child : Fin n} {bytes : Int} {rest : List (Fin n)} {inbuf : ReduceBuf}
      (hPhase : r.phase = .data child bytes rest) (hBytes : (inbuf.bytes.length : Int) = bytes) :
      ReduceTurn cfg rank sample cleanup r (.recv child .reduce (.data inbuf))
        (.stays { r.combineIfValid cfg inbuf with phase := .children rest })
  | badData {child : Fin n} {bytes : Int} {rest : List (Fin n)} {msg : Msg}
      (hPhase : r.phase = .data child bytes rest)
      (hBad : ∀ inbuf, msg = .data inbuf → (inbuf.bytes.length : Int) ≠ bytes) :
      ReduceTurn cfg rank sample cleanup r (.recv child .reduce msg) (.returns r .failed)
  | sendData {parentRank : Fin n} {buf : ReduceBuf} (hPhase : r.phase = .sendData)
      (hParent : cfg.tree.parent rank = some parentRank) (hBuf : r.reduceBuf = some buf) :
      ReduceTurn cfg rank sample cleanup r (.tick .go)
        (.sendsAndReturns { r with reduceOutstanding := false, phase := .start }
          parentRank .reduce (.data buf) .returned)

theorem reduceTurn_of_startReduce {msg : Msg} {parentRank : Fin n} (hPhase : r.phase = .start)
    (hOutstanding : r.reduceOutstanding = false)
    (hParent : cfg.tree.parent rank = some parentRank) (hEmpty : msg = .empty) :
    ReduceTurn cfg rank sample cleanup r (.recv parentRank .reduce msg)
      (r.startReduce cfg rank cleanup) := by
  subst hEmpty
  unfold Reduce.startReduce
  cases cleanup with
  | false => exact .begin hPhase hOutstanding hParent rfl
  | true =>
      simp only [if_true, hParent]
      exact .refuse hPhase hOutstanding hParent rfl

theorem reduceTurn_of_receiveHeader {child : Fin n} {rest : List (Fin n)} (msg : Msg)
    (hPhase : r.phase = .children (child :: rest)) :
    ReduceTurn cfg rank sample cleanup r (.recv child .reduce msg)
      (r.receiveHeader cfg child rest msg) := by
  unfold Reduce.receiveHeader
  split
  next valid count bytes =>
    cases valid with
    | false => exact .invalid hPhase
    | true =>
        dsimp only
        rw [if_pos rfl]
        split
        next hBytes => exact .header hPhase hBytes
        next hNone =>
          split
          next hBytes =>
            subst hBytes
            exact .bare hPhase
          next hBytes =>
            refine .badHeader hPhase fun valid' count' bytes' hEq => ?_
            cases hEq
            exact ⟨rfl, by omega⟩
  next hOther => exact .badHeader hPhase fun valid count bytes hEq => (hOther _ _ _ hEq).elim

theorem reduceTurn_of_finish (hPhase : r.phase = .children [])
    (hReplies : r.reduceReplies = (cfg.tree.children rank).length) :
    ReduceTurn cfg rank sample cleanup r (.tick .go) (r.finish cfg rank sample) := by
  unfold Reduce.finish
  dsimp only
  split
  next parentRank hParent =>
    split
    next hData => exact .report hPhase hReplies hParent hData
    next hBare => exact .reportBare hPhase hReplies hParent hBare
  next hRoot =>
    split
    next hValid => exact .deliver hPhase hReplies hRoot hValid
    next hValid => exact .discard hPhase hReplies hRoot (by simpa using hValid)

/-- Without a round at hand, or back in one. -/
theorem reduceTurn_of_start {turn : Turn n (Reduce n) Outcome} (hPhase : r.phase = .start)
    (h : r.reduceCheck cfg rank sample cleanup input = some turn) :
    ReduceTurn cfg rank sample cleanup r input turn := by
  simp only [Reduce.reduceCheck, hPhase] at h
  split at h
  next hOutstanding =>
    split at h
    next =>
      cases h
      exact .resume hPhase hOutstanding
    next => cases h
  next hOutstanding =>
    rw [Bool.not_eq_true] at hOutstanding
    split at h
    next fired hRoot =>
      split at h
      next hStart =>
        rw [Option.some.injEq] at h
        subst h
        unfold Reduce.startReduce
        cases hCleanup : cleanup with
        | true =>
            simp only [if_true, hRoot]
            exact .idle hPhase hOutstanding
        | false =>
            have hFired : fired = true := by simpa [hCleanup] using hStart
            subst hFired
            exact .fire hPhase hOutstanding hRoot rfl
      next =>
        cases h
        exact .idle hPhase hOutstanding
    next =>
      cases h
      exact .idle hPhase hOutstanding
    next parentRank src msg hParent =>
      split at h
      next hSrc =>
        subst hSrc
        split at h
        next =>
          cases h
          exact reduceTurn_of_startReduce hPhase hOutstanding hParent rfl
        next hBad =>
          cases h
          exact .badStart hPhase hOutstanding hParent hBad
      next => cases h
    next => cases h

/-- The user data of a child. -/
theorem reduceTurn_of_data {turn : Turn n (Reduce n) Outcome} {child : Fin n} {bytes : Int}
    {rest : List (Fin n)} (hPhase : r.phase = .data child bytes rest)
    (h : r.reduceCheck cfg rank sample cleanup input = some turn) :
    ReduceTurn cfg rank sample cleanup r input turn := by
  simp only [Reduce.reduceCheck, hPhase] at h
  split at h
  next src msg =>
    split at h
    next hSrc =>
      subst hSrc
      split at h
      next inbuf =>
        split at h
        next hBytes =>
          cases h
          exact .data hPhase hBytes
        next hBytes =>
          cases h
          refine .badData hPhase fun inbuf' hEq => ?_
          cases hEq
          exact hBytes
      next hOther =>
        cases h
        exact .badData hPhase fun inbuf hEq => (hOther _ hEq).elim
    next => cases h
  next => cases h

theorem reduceTurn_of_eq {turn : Turn n (Reduce n) Outcome}
    (h : r.reduceCheck cfg rank sample cleanup input = some turn) :
    ReduceTurn cfg rank sample cleanup r input turn := by
  have hCheck := h
  unfold Reduce.reduceCheck at h
  split at h
  next hPhase => exact reduceTurn_of_start hPhase hCheck
  next hPhase =>
    split at h
    next buf =>
      cases h
      exact .init hPhase
    next => cases h
  next child rest hPhase =>
    split at h
    next =>
      cases h
      exact .kick hPhase
    next => cases h
  next hPhase =>
    split at h
    next =>
      cases h
      exact .kicked hPhase
    next => cases h
  next child rest hPhase =>
    split at h
    next src msg =>
      split at h
      next hSrc =>
        cases h
        subst hSrc
        exact reduceTurn_of_receiveHeader msg hPhase
      next => cases h
    next =>
      cases h
      exact .skip hPhase
    next => cases h
  next hPhase =>
    split at h
    next =>
      split at h
      next hReplies =>
        cases h
        exact reduceTurn_of_finish hPhase hReplies
      next hReplies =>
        cases h
        exact .wait hPhase hReplies
    next => cases h
  next child bytes rest hPhase => exact reduceTurn_of_data hPhase hCheck
  next hPhase =>
    split at h
    next parentRank buf hParent hBuf =>
      cases h
      exact .sendData hPhase hParent hBuf
    next => cases h
  next => cases h

/-- The turns of `reduceSync`. -/
inductive SyncTurn (cfg : Config n) (rank : Fin n) (sample : Int) (r : Reduce n) :
    Input n → Turn n (Reduce n) Outcome → Prop where
  | init {buf : ReduceBuf} (hPhase : r.phase = .start) :
      SyncTurn cfg rank sample r (.tick (.init buf)) (.stays { r with
        valid := true
        count := sample
        bytes := 0
        reduceBuf := some buf
        initial := some buf
        phase := .syncChildren (cfg.tree.children rank) })
  | header {child : Fin n} {rest : List (Fin n)} {valid : Bool} {count bytes : Int}
      (hPhase : r.phase = .syncChildren (child :: rest)) (hBytes : 0 < bytes) :
      SyncTurn cfg rank sample r (.recv child .reduce (.longs valid count bytes))
        (.stays { r with count := r.count + count, phase := .syncData child bytes rest })
  | bare {child : Fin n} {rest : List (Fin n)} {valid : Bool} {count : Int}
      (hPhase : r.phase = .syncChildren (child :: rest)) :
      SyncTurn cfg rank sample r (.recv child .reduce (.longs valid count 0))
        (.stays { ({ r with count := r.count + count } : Reduce n).combine cfg .null with
          phase := .syncChildren rest })
  | badHeader {child : Fin n} {rest : List (Fin n)} {msg : Msg} {r' : Reduce n}
      (hPhase : r.phase = .syncChildren (child :: rest))
      (hBad : ∀ valid count bytes, msg = .longs valid count bytes → bytes < 0) :
      SyncTurn cfg rank sample r (.recv child .reduce msg) (.returns r' .failed)
  | data {child : Fin n} {bytes : Int} {rest : List (Fin n)} {inbuf : ReduceBuf}
      (hPhase : r.phase = .syncData child bytes rest)
      (hBytes : (inbuf.bytes.length : Int) = bytes) :
      SyncTurn cfg rank sample r (.recv child .reduce (.data inbuf))
        (.stays { r.combine cfg inbuf with phase := .syncChildren rest })
  | badData {child : Fin n} {bytes : Int} {rest : List (Fin n)} {msg : Msg}
      (hPhase : r.phase = .syncData child bytes rest)
      (hBad : ∀ inbuf, msg = .data inbuf → (inbuf.bytes.length : Int) ≠ bytes) :
      SyncTurn cfg rank sample r (.recv child .reduce msg) (.returns r .failed)
  | send {parentRank : Fin n} (hPhase : r.phase = .syncChildren [])
      (hParent : cfg.tree.parent rank = some parentRank) (hBytes : 0 < r.reduceBufSize) :
      SyncTurn cfg rank sample r (.tick .go)
        (.sends { { r with bytes := r.reduceBufSize }.endLast sample with phase := .syncSendData }
          parentRank .reduce (.longs r.valid r.count r.reduceBufSize))
  | sendBare {parentRank : Fin n} (hPhase : r.phase = .syncChildren [])
      (hParent : cfg.tree.parent rank = some parentRank) (hBytes : r.reduceBufSize ≤ 0) :
      SyncTurn cfg rank sample r (.tick .go)
        (.sendsAndReturns { { r with bytes := r.reduceBufSize }.endLast sample with phase := .start }
          parentRank .reduce (.longs r.valid r.count r.reduceBufSize) .returned)
  | deliver (hPhase : r.phase = .syncChildren []) (hRoot : cfg.tree.parent rank = none) :
      SyncTurn cfg rank sample r (.tick .go)
        (.returns { r.finalize.endLast sample with phase := .start } .returned)
  | sendData {parentRank : Fin n} {buf : ReduceBuf} (hPhase : r.phase = .syncSendData)
      (hParent : cfg.tree.parent rank = some parentRank) (hBuf : r.reduceBuf = some buf) :
      SyncTurn cfg rank sample r (.tick .go)
        (.sendsAndReturns { r with phase := .start } parentRank .reduce (.data buf) .returned)

theorem syncTurn_of_eq {turn : Turn n (Reduce n) Outcome}
    (h : r.reduceSync cfg rank sample input = some turn) : SyncTurn cfg rank sample r input turn := by
  unfold Reduce.reduceSync at h
  split at h
  next hPhase =>
    split at h
    next buf =>
      cases h
      exact .init hPhase
    next => cases h
  next child rest hPhase =>
    -- the header of the next child, with the user data still to come or without any
    split at h
    next src msg =>
      split at h
      next hSrc =>
        subst hSrc
        split at h
        next valid count bytes =>
          dsimp only at h
          split at h
          next hBytes =>
            cases h
            exact .header hPhase hBytes
          next hNone =>
            split at h
            next hBytes =>
              cases h
              -- without user data the operation gets a null buffer
              subst hBytes
              exact .bare hPhase
            next hBytes =>
              cases h
              refine .badHeader hPhase fun valid' count' bytes' hEq => ?_
              cases hEq
              omega
        next hOther =>
          cases h
          exact .badHeader hPhase fun valid count bytes hEq => (hOther _ _ _ hEq).elim
      next => cases h
    next => cases h
  next hPhase =>
    split at h
    next parentRank hParent =>
      -- all children have reported: the header goes to the parent
      dsimp only at h
      split at h
      next hBytes =>
        cases h
        exact .send hPhase hParent hBytes
      next hBytes =>
        cases h
        exact .sendBare hPhase hParent (Int.not_lt.mp hBytes)
    next hRoot =>
      cases h
      exact .deliver hPhase hRoot
    next => cases h
  next child bytes rest hPhase =>
    -- the user data must have the size that the header gave
    split at h
    next src msg =>
      split at h
      next hSrc =>
        subst hSrc
        split at h
        next inbuf =>
          dsimp only at h
          split at h
          next hBytes =>
            cases h
            exact .data hPhase hBytes
          next hBytes =>
            cases h
            refine .badData hPhase fun inbuf' hEq => ?_
            cases hEq
            exact hBytes
        next hOther =>
          cases h
          exact .badData hPhase fun inbuf hEq => (hOther _ hEq).elim
      next => cases h
    next => cases h
  next hPhase =>
    split at h
    next parentRank buf hParent hBuf =>
      cases h
      exact .sendData hPhase hParent hBuf
    next => cases h
  next => cases h

theorem ReduceTurn.silent {turn : Turn n (Reduce n) Outcome}
    (h : ReduceTurn cfg rank sample cleanup r input turn) {tag : Tag} (hTag : tag ≠ .reduce) :
    Silent tag input turn.out := by
  cases h
  case begin | badStart | header | invalid | bare | badHeader | data | badData =>
    exact silent_recv _ _ hTag
  case refuse => exact silent_recv_send _ _ _ _ hTag hTag
  case kick | report | reportBare | sendData => exact silent_tick_send _ _ _ hTag
  all_goals exact silent_tick _ _

theorem SyncTurn.silent {turn : Turn n (Reduce n) Outcome}
    (h : SyncTurn cfg rank sample r input turn) {tag : Tag} (hTag : tag ≠ .reduce) :
    Silent tag input turn.out := by
  cases h
  case header | bare | badHeader | data | badData => exact silent_recv _ _ hTag
  case send | sendBare | sendData => exact silent_tick_send _ _ _ hTag
  all_goals exact silent_tick _ _

end Turns

end Circle
