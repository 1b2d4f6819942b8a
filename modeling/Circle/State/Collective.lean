import Circle.State.Basic
import Circle.Base.Wave

/-!
# The collectives on the tree

`checkForTermAllReduce`, `barrierTest` and `abortReduce`.  The counters of the
first two also tell how many rounds a rank has contributed to, has the result
of, and has closed; no function reads these three numbers.
-/

namespace Circle

variable {n : Nat}

/-! ## The termination reduction -/

/-- Where `checkForTermAllReduce` is: probing for its children, probing for its
parent with the value of its local `term_flag`, or telling its children. -/
inductive TermPhase where
  | children
  | parent (termFlag : Bool)
  | down (termFlag : Bool)
  deriving DecidableEq, Repr

/-- The members of the termination reduction. -/
structure Term (n : Nat) where
  termFlag : Bool
  termUp : Bool
  wave : Wave.Counters (Fin n)
  phase : TermPhase

namespace Term

/-- `term_replies`. -/
def termReplies (t : Term n) : Nat := t.wave.replies

/-- `checkForTermAllReduce`, which returns whether the rank has terminated.
The local variable `term_flag`, declared after the first loop, hides the member
of the same name for the rest of the function. -/
def checkForTermAllReduce (cfg : Config n) (rank : Fin n) (workOutstanding : Nat) (t : Term n)
    (input : Input n) : Option (Turn n (Term n) Bool) :=
  match t.phase with
  | .children =>
      match input with
      | .recv _ .term (.flag childFlag) =>
          if t.termReplies < (cfg.tree.children rank).length then
            some (.stays { t with
              termFlag := t.termFlag && childFlag
              wave := { t.wave with replies := t.wave.replies + 1 } })
          else
            none
      | .tick .go =>
          if workOutstanding > 0 then
            some (.returns t false)
          else if !t.termUp && t.termReplies = (cfg.tree.children rank).length then
            let t := { t with
              termUp := true
              wave := { t.wave with up := t.wave.up + 1 }
              phase := .parent true }
            match cfg.tree.parent rank with
            | some parentRank => some (.sends t parentRank .term (.flag false))
            | none => some (.stays t)
          else
            some (.stays { t with phase := .parent false })
      | _ => none
  | .parent termFlag =>
      let learnt (termFlag : Bool) : Term n := { t with
        wave := { t.wave with done := t.wave.done + 1, todo := cfg.tree.children rank }
        phase := .down termFlag }
      if t.termUp then
        match cfg.tree.parent rank, input with
        | some parentRank, .recv src .term (.flag result) =>
            if src = parentRank then some (.stays (learnt result)) else none
        | some _, .tick .go => some (.returns { t with phase := .children } false)
        | none, .tick .go => some (.stays (learnt termFlag))
        | _, _ => none
      else
        match input with
        | .tick .go => some (.returns { t with phase := .children } false)
        | _ => none
  | .down termFlag =>
      match input, t.wave.todo with
      | .tick .go, child :: rest =>
          some (.sends { t with wave := { t.wave with todo := rest } } child .term (.flag termFlag))
      | .tick .go, [] =>
          some (.returns { t with
            termUp := false
            wave := { t.wave with closed := t.wave.closed + 1, replies := 0 }
            phase := .children } termFlag)
      | _, _ => none

end Term

/-! ## The cleanup barrier -/

/-- Where `barrierTest` is: at its start, past the probe for its children,
probing for its parent, or telling its children. -/
inductive BarrierPhase where
  | children
  | up
  | parent
  | down
  deriving DecidableEq, Repr

/-- The members of the barrier. -/
structure Barrier (n : Nat) where
  barrierStarted : Bool
  barrierUp : Bool
  wave : Wave.Counters (Fin n)
  phase : BarrierPhase

namespace Barrier

/-- `barrier_replies`. -/
def barrierReplies (b : Barrier n) : Nat := b.wave.replies

/-- `barrierStart`. -/
def barrierStart (b : Barrier n) : Barrier n := { b with barrierStarted := true }

/-- `barrierTest`, which returns whether the barrier is complete. -/
def barrierTest (cfg : Config n) (rank : Fin n) (b : Barrier n) (input : Input n) :
    Option (Turn n (Barrier n) Bool) :=
  let nchildren := (cfg.tree.children rank).length
  match b.phase with
  | .children =>
      match input with
      | .recv _ .barrier _ =>
          if b.barrierStarted ∧ b.barrierReplies < nchildren then
            some (.stays { b with
              wave := { b.wave with replies := b.wave.replies + 1 }
              phase := .up })
          else
            none
      | .tick .go =>
          if b.barrierStarted then
            some (.stays { b with phase := .up })
          else
            some (.returns b false)
      | _ => none
  | .up =>
      match input with
      | .tick .go =>
          if !b.barrierUp && b.barrierReplies = nchildren then
            let b := { b with
              barrierUp := true
              wave := { b.wave with up := b.wave.up + 1 }
              phase := .parent }
            match cfg.tree.parent rank with
            | some parentRank => some (.sends b parentRank .barrier .empty)
            | none => some (.stays b)
          else
            some (.stays { b with phase := .parent })
      | _ => none
  | .parent =>
      let complete : Barrier n := { b with
        wave := { b.wave with done := b.wave.done + 1, todo := cfg.tree.children rank }
        phase := .down }
      if b.barrierUp then
        match cfg.tree.parent rank, input with
        | some parentRank, .recv src .barrier _ =>
            if src = parentRank then some (.stays complete) else none
        | some _, .tick .go => some (.returns { b with phase := .children } false)
        | none, .tick .go => some (.stays complete)
        | _, _ => none
      else
        match input with
        | .tick .go => some (.returns { b with phase := .children } false)
        | _ => none
  | .down =>
      match input, b.wave.todo with
      | .tick .go, child :: rest =>
          some (.sends { b with wave := { b.wave with todo := rest } } child .barrier .empty)
      | .tick .go, [] =>
          some (.returns { b with
            barrierStarted := false
            barrierUp := false
            wave := { b.wave with closed := b.wave.closed + 1, replies := 0 }
            phase := .children } true)
      | _, _ => none

end Barrier

/-! ## The abort reduction -/

/-- Where `abortReduce` is: receiving from the children that are left, sending
to its parent, waiting for its parent, or telling the children that are left. -/
inductive AbortReducePhase (n : Nat) where
  | children (rest : List (Fin n))
  | parent
  | down (rest : List (Fin n))
  deriving DecidableEq, Repr

/-- The local variables of `abortReduce`. -/
structure AbortReduce (n : Nat) where
  flag : Bool
  phase : AbortReducePhase n
  deriving DecidableEq, Repr

namespace AbortReduce

/-- The start of `abortReduce`. -/
def enter (links : Links n) (abortFlag : Bool) : AbortReduce n :=
  { flag := abortFlag, phase := .children links.childrenRanks }

/-- `abortReduce`, which returns the flag of all ranks. -/
def abortReduce (links : Links n) (a : AbortReduce n) (input : Input n) :
    Option (Turn n (AbortReduce n) Bool) :=
  match a.phase with
  | .children (child :: rest) =>
      match input with
      | .recv src .abortReduce (.flag childFlag) =>
          if src = child then
            some (.stays { flag := a.flag || childFlag, phase := .children rest })
          else
            none
      | _ => none
  | .children [] =>
      if links.whole then
        match input, links.parentRank with
        | .tick .go, some parentRank =>
            some (.sends { a with phase := .parent } parentRank .abortReduce (.flag a.flag))
        | .tick .go, none => some (.stays { a with phase := .down links.childrenRanks })
        | _, _ => none
      else
        -- a receive from a number that is no rank gets no message
        none
  | .parent =>
      match input with
      | .recv src .abortReduce (.flag result) =>
          if links.parentRank = some src then
            some (.stays { flag := result, phase := .down links.childrenRanks })
          else
            none
      | _ => none
  | .down (child :: rest) =>
      match input with
      | .tick .go =>
          some (.sends { a with phase := .down rest } child .abortReduce (.flag a.flag))
      | _ => none
  | .down [] =>
      match input with
      | .tick .go => some (.returns a a.flag)
      | _ => none

end AbortReduce

/-! ## Turns -/

section Turns

variable {cfg : Config n} {rank : Fin n} {input : Input n}

/-- The turns of `checkForTermAllReduce`. -/
inductive TermTurn (cfg : Config n) (rank : Fin n) (workOutstanding : Nat) (t : Term n) :
    Input n → Turn n (Term n) Bool → Prop where
  | collect {src : Fin n} {childFlag : Bool} (hPhase : t.phase = .children)
      (hOpen : t.wave.replies < (cfg.tree.children rank).length) :
      TermTurn cfg rank workOutstanding t (.recv src .term (.flag childFlag)) (.stays { t with
        termFlag := t.termFlag && childFlag
        wave := { t.wave with replies := t.wave.replies + 1 } })
  | busy (hPhase : t.phase = .children) (hWork : 0 < workOutstanding) :
      TermTurn cfg rank workOutstanding t (.tick .go) (.returns t false)
  | contribute {parentRank : Fin n} (hPhase : t.phase = .children) (hWork : workOutstanding = 0)
      (hUp : t.termUp = false) (hFull : t.wave.replies = (cfg.tree.children rank).length)
      (hParent : cfg.tree.parent rank = some parentRank) :
      TermTurn cfg rank workOutstanding t (.tick .go) (.sends { t with
        termUp := true
        wave := { t.wave with up := t.wave.up + 1 }
        phase := .parent true } parentRank .term (.flag false))
  | gather (hPhase : t.phase = .children) (hWork : workOutstanding = 0)
      (hUp : t.termUp = false) (hFull : t.wave.replies = (cfg.tree.children rank).length)
      (hRoot : cfg.tree.parent rank = none) :
      TermTurn cfg rank workOutstanding t (.tick .go) (.stays { t with
        termUp := true
        wave := { t.wave with up := t.wave.up + 1 }
        phase := .parent true })
  | look (hPhase : t.phase = .children) (hWork : workOutstanding = 0)
      (hSkip : t.termUp = true ∨ t.wave.replies ≠ (cfg.tree.children rank).length) :
      TermTurn cfg rank workOutstanding t (.tick .go) (.stays { t with phase := .parent false })
  | learn {parentRank : Fin n} {termFlag result : Bool} (hPhase : t.phase = .parent termFlag)
      (hUp : t.termUp = true) (hParent : cfg.tree.parent rank = some parentRank) :
      TermTurn cfg rank workOutstanding t (.recv parentRank .term (.flag result)) (.stays { t with
        wave := { t.wave with done := t.wave.done + 1, todo := cfg.tree.children rank }
        phase := .down result })
  | decide {termFlag : Bool} (hPhase : t.phase = .parent termFlag) (hUp : t.termUp = true)
      (hRoot : cfg.tree.parent rank = none) :
      TermTurn cfg rank workOutstanding t (.tick .go) (.stays { t with
        wave := { t.wave with done := t.wave.done + 1, todo := cfg.tree.children rank }
        phase := .down termFlag })
  | wait {termFlag : Bool} (hPhase : t.phase = .parent termFlag)
      (hWait : t.termUp = false ∨ cfg.tree.parent rank ≠ none) :
      TermTurn cfg rank workOutstanding t (.tick .go) (.returns { t with phase := .children } false)
  | tell {termFlag : Bool} {child : Fin n} {rest : List (Fin n)}
      (hPhase : t.phase = .down termFlag) (hTodo : t.wave.todo = child :: rest) :
      TermTurn cfg rank workOutstanding t (.tick .go)
        (.sends { t with wave := { t.wave with todo := rest } } child .term (.flag termFlag))
  | close {termFlag : Bool} (hPhase : t.phase = .down termFlag) (hTodo : t.wave.todo = []) :
      TermTurn cfg rank workOutstanding t (.tick .go) (.returns { t with
        termUp := false
        wave := { t.wave with closed := t.wave.closed + 1, replies := 0 }
        phase := .children } termFlag)

theorem termTurn_of_eq {workOutstanding : Nat} {t : Term n} {turn : Turn n (Term n) Bool}
    (h : t.checkForTermAllReduce cfg rank workOutstanding input = some turn) :
    TermTurn cfg rank workOutstanding t input turn := by
  unfold Term.checkForTermAllReduce Term.termReplies at h
  split at h
  next hPhase =>
    split at h
    next src childFlag =>
      split at h
      next hOpen =>
        -- a flag of a child, while children are missing
        cases h
        exact .collect hPhase hOpen
      next => cases h
    next =>
      split at h
      next hWork =>
        -- items given away are not acknowledged yet: the rank does not contribute
        cases h
        exact .busy hPhase hWork
      next hWork =>
        have hWork : workOutstanding = 0 := by omega
        split at h
        next hReady =>
          -- all children are in: tell the parent, or take the root's turn
          simp only [Bool.and_eq_true, Bool.not_eq_true', decide_eq_true_eq] at hReady
          obtain ⟨hUp, hFull⟩ := hReady
          dsimp only at h
          split at h
          next parentRank hParent =>
            cases h
            exact .contribute hPhase hWork hUp hFull hParent
          next hRoot =>
            cases h
            exact .gather hPhase hWork hUp hFull hRoot
        next hSkip =>
          cases h
          refine .look hPhase hWork ?_
          simpa [Classical.or_iff_not_imp_left] using hSkip
    next => cases h
  next termFlag hPhase =>
    dsimp only at h
    split at h
    next hUp =>
      split at h
      next parentRank src result hParent =>
        -- the result of the parent is the result here
        split at h
        next hSrc =>
          cases h
          subst hSrc
          exact .learn hPhase hUp hParent
        next => cases h
      next parentRank hParent =>
        cases h
        exact .wait hPhase (Or.inr (by simp [hParent]))
      next hRoot =>
        cases h
        exact .decide hPhase hUp hRoot
      next => cases h
    next hUp =>
      split at h
      next =>
        cases h
        exact .wait hPhase (Or.inl (by simpa using hUp))
      next => cases h
  next termFlag hPhase =>
    split at h
    next child rest hTodo =>
      cases h
      exact .tell hPhase hTodo
    next hTodo =>
      cases h
      exact .close hPhase hTodo
    next => cases h

theorem TermTurn.silent {workOutstanding : Nat} {t : Term n} {turn : Turn n (Term n) Bool}
    (h : TermTurn cfg rank workOutstanding t input turn) {tag : Tag} (hTag : tag ≠ .term) :
    Silent tag input turn.out := by
  cases h
  case collect | learn => exact silent_recv _ _ hTag
  case contribute | tell => exact silent_tick_send _ _ _ hTag
  all_goals exact silent_tick _ _

/-- The turns of `barrierTest`. -/
inductive BarrierTurn (cfg : Config n) (rank : Fin n) (b : Barrier n) :
    Input n → Turn n (Barrier n) Bool → Prop where
  | collect {src : Fin n} {msg : Msg} (hPhase : b.phase = .children)
      (hStarted : b.barrierStarted = true)
      (hOpen : b.wave.replies < (cfg.tree.children rank).length) :
      BarrierTurn cfg rank b (.recv src .barrier msg) (.stays { b with
        wave := { b.wave with replies := b.wave.replies + 1 }
        phase := .up })
  | look (hPhase : b.phase = .children) (hStarted : b.barrierStarted = true) :
      BarrierTurn cfg rank b (.tick .go) (.stays { b with phase := .up })
  | inactive (hPhase : b.phase = .children) (hStarted : b.barrierStarted = false) :
      BarrierTurn cfg rank b (.tick .go) (.returns b false)
  | contribute {parentRank : Fin n} (hPhase : b.phase = .up) (hUp : b.barrierUp = false)
      (hFull : b.wave.replies = (cfg.tree.children rank).length)
      (hParent : cfg.tree.parent rank = some parentRank) :
      BarrierTurn cfg rank b (.tick .go) (.sends { b with
        barrierUp := true
        wave := { b.wave with up := b.wave.up + 1 }
        phase := .parent } parentRank .barrier .empty)
  | gather (hPhase : b.phase = .up) (hUp : b.barrierUp = false)
      (hFull : b.wave.replies = (cfg.tree.children rank).length)
      (hRoot : cfg.tree.parent rank = none) :
      BarrierTurn cfg rank b (.tick .go) (.stays { b with
        barrierUp := true
        wave := { b.wave with up := b.wave.up + 1 }
        phase := .parent })
  | skip (hPhase : b.phase = .up)
      (hSkip : b.barrierUp = true ∨ b.wave.replies ≠ (cfg.tree.children rank).length) :
      BarrierTurn cfg rank b (.tick .go) (.stays { b with phase := .parent })
  | learn {parentRank : Fin n} {msg : Msg} (hPhase : b.phase = .parent) (hUp : b.barrierUp = true)
      (hParent : cfg.tree.parent rank = some parentRank) :
      BarrierTurn cfg rank b (.recv parentRank .barrier msg) (.stays { b with
        wave := { b.wave with done := b.wave.done + 1, todo := cfg.tree.children rank }
        phase := .down })
  | decide (hPhase : b.phase = .parent) (hUp : b.barrierUp = true)
      (hRoot : cfg.tree.parent rank = none) :
      BarrierTurn cfg rank b (.tick .go) (.stays { b with
        wave := { b.wave with done := b.wave.done + 1, todo := cfg.tree.children rank }
        phase := .down })
  | wait (hPhase : b.phase = .parent) (hWait : b.barrierUp = false ∨ cfg.tree.parent rank ≠ none) :
      BarrierTurn cfg rank b (.tick .go) (.returns { b with phase := .children } false)
  | tell {child : Fin n} {rest : List (Fin n)} (hPhase : b.phase = .down)
      (hTodo : b.wave.todo = child :: rest) :
      BarrierTurn cfg rank b (.tick .go)
        (.sends { b with wave := { b.wave with todo := rest } } child .barrier .empty)
  | close (hPhase : b.phase = .down) (hTodo : b.wave.todo = []) :
      BarrierTurn cfg rank b (.tick .go) (.returns { b with
        barrierStarted := false
        barrierUp := false
        wave := { b.wave with closed := b.wave.closed + 1, replies := 0 }
        phase := .children } true)

theorem barrierTurn_of_eq {b : Barrier n} {turn : Turn n (Barrier n) Bool}
    (h : b.barrierTest cfg rank input = some turn) : BarrierTurn cfg rank b input turn := by
  unfold Barrier.barrierTest Barrier.barrierReplies at h
  dsimp only at h
  split at h
  next hPhase =>
    split at h
    next =>
      split at h
      next hOpen =>
        -- a message of a child, while children are missing
        cases h
        exact .collect hPhase hOpen.1 hOpen.2
      next => cases h
    next =>
      split at h
      next hStarted =>
        cases h
        exact .look hPhase hStarted
      next hStarted =>
        cases h
        exact .inactive hPhase (by simpa using hStarted)
    next => cases h
  next hPhase =>
    split at h
    next =>
      split at h
      next hReady =>
        -- all children are in: tell the parent, or take the root's turn
        simp only [Bool.and_eq_true, Bool.not_eq_true', decide_eq_true_eq] at hReady
        obtain ⟨hUp, hFull⟩ := hReady
        split at h
        next parentRank hParent =>
          cases h
          exact .contribute hPhase hUp hFull hParent
        next hRoot =>
          cases h
          exact .gather hPhase hUp hFull hRoot
      next hSkip =>
        cases h
        refine .skip hPhase ?_
        simpa [Classical.or_iff_not_imp_left] using hSkip
    next => cases h
  next hPhase =>
    split at h
    next hUp =>
      split at h
      next parentRank src msg hParent =>
        -- the message of the parent: all ranks have come to the barrier
        split at h
        next hSrc =>
          cases h
          subst hSrc
          exact .learn hPhase hUp hParent
        next => cases h
      next parentRank hParent =>
        cases h
        exact .wait hPhase (Or.inr (by simp [hParent]))
      next hRoot =>
        cases h
        exact .decide hPhase hUp hRoot
      next => cases h
    next hUp =>
      split at h
      next =>
        cases h
        exact .wait hPhase (Or.inl (by simpa using hUp))
      next => cases h
  next hPhase =>
    split at h
    next child rest hTodo =>
      cases h
      exact .tell hPhase hTodo
    next hTodo =>
      cases h
      exact .close hPhase hTodo
    next => cases h

theorem BarrierTurn.silent {b : Barrier n} {turn : Turn n (Barrier n) Bool}
    (h : BarrierTurn cfg rank b input turn) {tag : Tag} (hTag : tag ≠ .barrier) :
    Silent tag input turn.out := by
  cases h
  case collect | learn => exact silent_recv _ _ hTag
  case contribute | tell => exact silent_tick_send _ _ _ hTag
  all_goals exact silent_tick _ _

/-- The turns of `abortReduce`. -/
inductive AbortReduceTurn (links : Links n) (a : AbortReduce n) :
    Input n → Turn n (AbortReduce n) Bool → Prop where
  | collect {child : Fin n} {rest : List (Fin n)} {childFlag : Bool}
      (hPhase : a.phase = .children (child :: rest)) :
      AbortReduceTurn links a (.recv child .abortReduce (.flag childFlag))
        (.stays { flag := a.flag || childFlag, phase := .children rest })
  | contribute (hWhole : links.whole = true) {parentRank : Fin n} (hPhase : a.phase = .children [])
      (hParent : links.parentRank = some parentRank) :
      AbortReduceTurn links a (.tick .go)
        (.sends { a with phase := .parent } parentRank .abortReduce (.flag a.flag))
  | decide (hWhole : links.whole = true) (hPhase : a.phase = .children [])
      (hRoot : links.parentRank = none) :
      AbortReduceTurn links a (.tick .go)
        (.stays { a with phase := .down links.childrenRanks })
  | learn {parentRank : Fin n} {result : Bool} (hPhase : a.phase = .parent)
      (hParent : links.parentRank = some parentRank) :
      AbortReduceTurn links a (.recv parentRank .abortReduce (.flag result))
        (.stays { flag := result, phase := .down links.childrenRanks })
  | tell {child : Fin n} {rest : List (Fin n)} (hPhase : a.phase = .down (child :: rest)) :
      AbortReduceTurn links a (.tick .go)
        (.sends { a with phase := .down rest } child .abortReduce (.flag a.flag))
  | finish (hPhase : a.phase = .down []) :
      AbortReduceTurn links a (.tick .go) (.returns a a.flag)

theorem abortReduceTurn_of_eq {links : Links n} {a : AbortReduce n} {turn : Turn n (AbortReduce n) Bool}
    (h : a.abortReduce links input = some turn) : AbortReduceTurn links a input turn := by
  unfold AbortReduce.abortReduce at h
  split at h
  next child rest hPhase =>
    split at h
    next src childFlag =>
      split at h
      next hSrc =>
        cases h
        subst hSrc
        exact .collect hPhase
      next => cases h
    next => cases h
  next hPhase =>
    by_cases hWhole : links.whole = true
    · rw [if_pos hWhole] at h
      split at h
      next parentRank hParent =>
        cases h
        exact .contribute hWhole hPhase hParent
      next hRoot =>
        cases h
        exact .decide hWhole hPhase hRoot
      next => cases h
    · rw [if_neg hWhole] at h
      cases h
  next hPhase =>
    split at h
    next src result =>
      split at h
      next hParent =>
        cases h
        exact .learn hPhase hParent
      next => cases h
    next => cases h
  next child rest hPhase =>
    split at h
    next =>
      cases h
      exact .tell hPhase
    next => cases h
  next hPhase =>
    split at h
    next =>
      cases h
      exact .finish hPhase
    next => cases h

theorem AbortReduceTurn.silent {links : Links n} {a : AbortReduce n} {turn : Turn n (AbortReduce n) Bool}
    (h : AbortReduceTurn links a input turn) {tag : Tag} (hTag : tag ≠ .abortReduce) :
    Silent tag input turn.out := by
  cases h
  case collect | learn => exact silent_recv _ _ hTag
  case contribute | tell => exact silent_tick_send _ _ _ hTag
  all_goals exact silent_tick _ _

end Turns

end Circle
