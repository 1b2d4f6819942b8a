import Circle.State.Basic

/-!
# The abort flood

`abortCheck` and `abortStart`.  A rank that enters the abort state sends a
request to each neighbour in the tree; every request is answered with a reply,
which completes the `MPI_Irecv` posted for it.
-/

namespace Circle

/-- Where `abortCheck` is: at its start, probing for a request, or testing the
replies.  The requests of `abortStart` go out before the probe and the test. -/
inductive AbortPhase where
  | start
  | probe
  | test
  deriving DecidableEq, Repr

/-- `ABORT_FLAG` and the members of the abort flood. -/
structure Abort (n : Nat) where
  abortFlag : Bool
  abortState : Bool
  abortOutstanding : Bool
  /-- The neighbours that `abortStart` has still to send a request to. -/
  toSend : List (Fin n)
  /-- The neighbours whose reply has not arrived. -/
  awaited : List (Fin n)
  phase : AbortPhase
  deriving DecidableEq, Repr

namespace Abort

variable {n : Nat}

/-- `abortStart`, up to the first request. -/
def abortStart (cfg : Config n) (rank : Fin n) (cleanup : Bool) (a : Abort n) : Abort n :=
  let a := { a with abortFlag := true }
  if a.abortState then
    a
  else
    let a := { a with abortState := true }
    if cleanup then
      a
    else
      { a with toSend := cfg.neighbours rank, abortOutstanding := !(cfg.neighbours rank).isEmpty }

/-- `abortCheck`. -/
def abortCheck (cfg : Config n) (rank : Fin n) (cleanup : Bool) (a : Abort n) (input : Input n) :
    Option (Turn n (Abort n) Unit) :=
  match a.toSend with
  | neighbour :: rest =>
      match input with
      | .tick .go =>
          some (.sends { a with toSend := rest, awaited := neighbour :: a.awaited }
            neighbour .abortRequest .empty)
      | _ => none
  | [] =>
      match a.phase, input with
      | .start, .tick .go =>
          let a := { a with phase := .probe }
          some (.stays (if a.abortFlag then a.abortStart cfg rank cleanup else a))
      | .probe, .recv src .abortRequest _ =>
          some (.sends ({ a with phase := .test }.abortStart cfg rank cleanup)
            src .abortReply .empty)
      | .probe, .tick .go => some (.stays { a with phase := .test })
      | .test, .recv src .abortReply _ =>
          if src ∈ a.awaited then
            some (.stays { a with awaited := a.awaited.erase src })
          else
            none
      | .test, .tick (.tested flag) =>
          if flag ∧ a.abortOutstanding ∧ a.awaited = [] then
            some (.returns { a with abortOutstanding := false, phase := .start } ())
          else
            some (.returns { a with phase := .start } ())
      | _, _ => none

end Abort

/-! ## Turns -/

section Turns

variable {n : Nat} {cfg : Config n} {rank : Fin n} {cleanup : Bool} {a : Abort n} {input : Input n}

/-- The turns of `abortCheck`. -/
inductive AbortTurn (cfg : Config n) (rank : Fin n) (cleanup : Bool) (a : Abort n) :
    Input n → Turn n (Abort n) Unit → Prop where
  | request {neighbour : Fin n} {rest : List (Fin n)} (hToSend : a.toSend = neighbour :: rest) :
      AbortTurn cfg rank cleanup a (.tick .go)
        (.sends { a with toSend := rest, awaited := neighbour :: a.awaited }
          neighbour .abortRequest .empty)
  | enter (hToSend : a.toSend = []) (hPhase : a.phase = .start) (hFlag : a.abortFlag = true) :
      AbortTurn cfg rank cleanup a (.tick .go)
        (.stays ({ a with phase := .probe }.abortStart cfg rank cleanup))
  | pass (hToSend : a.toSend = []) (hPhase : a.phase = .start) (hFlag : a.abortFlag = false) :
      AbortTurn cfg rank cleanup a (.tick .go) (.stays { a with phase := .probe })
  | answer {src : Fin n} {msg : Msg} (hToSend : a.toSend = []) (hPhase : a.phase = .probe) :
      AbortTurn cfg rank cleanup a (.recv src .abortRequest msg)
        (.sends ({ a with phase := .test }.abortStart cfg rank cleanup) src .abortReply .empty)
  | noRequest (hToSend : a.toSend = []) (hPhase : a.phase = .probe) :
      AbortTurn cfg rank cleanup a (.tick .go) (.stays { a with phase := .test })
  | reply {src : Fin n} {msg : Msg} (hToSend : a.toSend = []) (hPhase : a.phase = .test)
      (hSrc : src ∈ a.awaited) :
      AbortTurn cfg rank cleanup a (.recv src .abortReply msg)
        (.stays { a with awaited := a.awaited.erase src })
  | complete (hToSend : a.toSend = []) (hPhase : a.phase = .test)
      (hOutstanding : a.abortOutstanding = true) (hAwaited : a.awaited = []) :
      AbortTurn cfg rank cleanup a (.tick (.tested true))
        (.returns { a with abortOutstanding := false, phase := .start } ())
  | wait {flag : Bool} (hToSend : a.toSend = []) (hPhase : a.phase = .test) :
      AbortTurn cfg rank cleanup a (.tick (.tested flag)) (.returns { a with phase := .start } ())

theorem abortTurn_of_eq {turn : Turn n (Abort n) Unit}
    (h : a.abortCheck cfg rank cleanup input = some turn) :
    AbortTurn cfg rank cleanup a input turn := by
  unfold Abort.abortCheck at h
  split at h
  next neighbour rest hToSend =>
    split at h
    next =>
      cases h
      exact .request hToSend
    next => cases h
  next hToSend =>
    split at h
    next hPhase =>
      cases h
      by_cases hFlag : a.abortFlag = true
      · simpa only [hFlag, if_true] using
          (AbortTurn.enter hToSend hPhase hFlag : AbortTurn cfg rank cleanup a _ _)
      · rw [Bool.not_eq_true] at hFlag
        simpa only [hFlag, Bool.false_eq_true, if_false] using
          (AbortTurn.pass hToSend hPhase hFlag : AbortTurn cfg rank cleanup a _ _)
    next src msg hPhase =>
      cases h
      exact .answer hToSend hPhase
    next hPhase =>
      cases h
      exact .noRequest hToSend hPhase
    next src msg hPhase =>
      split at h
      next hSrc =>
        cases h
        exact .reply hToSend hPhase hSrc
      next => cases h
    next flag hPhase =>
      split at h
      next hDone =>
        cases h
        obtain ⟨rfl, hOutstanding, hAwaited⟩ := hDone
        exact .complete hToSend hPhase hOutstanding hAwaited
      next =>
        cases h
        exact .wait hToSend hPhase
    next => cases h

theorem AbortTurn.silent {turn : Turn n (Abort n) Unit}
    (h : AbortTurn cfg rank cleanup a input turn) {tag : Tag} (hRequest : tag ≠ .abortRequest)
    (hReply : tag ≠ .abortReply) : Silent tag input turn.out := by
  cases h
  case request => exact silent_tick_send _ _ _ hRequest
  case answer => exact silent_recv_send _ _ _ _ hRequest hReply
  case reply => exact silent_recv _ _ hReply
  all_goals exact silent_tick _ _

end Turns

end Circle
