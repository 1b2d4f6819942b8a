import Circle.State.Basic

/-!
# The token ring

`checkForTerm` and the functions it calls.  A token is sent with `MPI_Issend`,
so that the request `token_send_req` completes once the token is received; the
completion reaches the rank as a `synced` input, in the `MPI_Wait` of
`tokenRecv` or in the `MPI_Test` of the cleanup loop.
-/

namespace Circle

/-- The token members of `State`. -/
structure Token where
  tokenIsLocal : Bool
  tokenProc : Color
  tokenBuf : Color
  /-- `token_send_req` is pending. -/
  sendPending : Bool
  /-- The token that `tokenRecv` has received while it waits for its own send. -/
  incoming : Option Color
  deriving DecidableEq, Repr

namespace Token

variable {n : Nat}

/-- `tokenIsSend`: with `ABORT_FLAG` set nothing is sent. -/
def tokenIsSend (rank : Fin n) (abortFlag : Bool) (t : Token) : Token × Option (Packet n) :=
  if abortFlag then
    (t, none)
  else
    ({ t with sendPending := true, tokenIsLocal := false },
      some ⟨tokenDest rank, .token, .color t.tokenBuf⟩)

/-- The rest of `tokenRecv`, once no send is pending. -/
def accept (rank : Fin n) (abortFlag : Bool) (t : Token) (token : Color) :
    Token × Option (Packet n) :=
  let t := { t with
    incoming := none
    tokenBuf := token
    tokenProc := if t.tokenProc = .black ∧ token = .black then .white else t.tokenProc }
  if (rank.val = 0 ∧ token = .white) ∨ token = .terminate then
    let t := { t with tokenBuf := .terminate }
    let (t, out) :=
      if rank.val + 1 < n then tokenIsSend rank abortFlag t else (t, none)
    ({ t with tokenProc := .terminate }, out)
  else
    (t, none)

/-- `tokenCheck`, and `tokenRecv` if there is a token to receive. -/
def tokenCheck (rank : Fin n) (abortFlag : Bool) (t : Token) (input : Input n) :
    Option (Turn n Token Unit) :=
  match t.incoming with
  | none =>
      match input with
      | .recv src .token (.color token) =>
          if src = tokenSrc rank then
            some (.stays { t with tokenIsLocal := true, incoming := some token })
          else
            none
      | .tick .go => some (.returns t ())
      | _ => none
  | some token =>
      if t.sendPending then
        match input with
        | .synced dst .token =>
            if dst = tokenDest rank then some (.stays { t with sendPending := false }) else none
        | _ => none
      else
        match input with
        | .tick .go =>
            let (t, out) := t.accept rank abortFlag token
            some ⟨t, out, some ()⟩
        | _ => none

/-- The colour of a token that an idle rank passes on: the master starts a
white one, and others blacken it when they are black. -/
def passedColor (rank : Fin n) (t : Token) : Color :=
  if rank.val = 0 then .white else if t.tokenProc = .black then .black else t.tokenBuf

/-- `checkForTerm`, which returns whether the rank has terminated. -/
def checkForTerm (rank : Fin n) (abortFlag : Bool) (t : Token) (input : Input n) :
    Option (Turn n Token Bool) :=
  if t.incoming.isNone ∧ t.tokenProc = .terminate then
    match input with
    | .tick .go => some (.returns t true)
    | _ => none
  else if t.incoming.isNone ∧ t.tokenIsLocal then
    match input with
    | .tick .go =>
        let (t, out) := tokenIsSend rank abortFlag { t with tokenBuf := passedColor rank t }
        some ⟨{ t with tokenProc := .white }, out, some false⟩
    | _ => none
  else
    (t.tokenCheck rank abortFlag input).map fun turn =>
      { turn with result := turn.result.map fun _ => decide (turn.record.tokenProc = .terminate) }

/-- The `MPI_Test` of the cleanup loop. -/
def tokenTest (rank : Fin n) (t : Token) (input : Input n) : Option (Turn n Token Unit) :=
  match input with
  | .synced dst .token =>
      if t.sendPending ∧ dst = tokenDest rank then
        some (.returns { t with sendPending := false } ())
      else
        none
  | .tick .go => some (.returns t ())
  | _ => none

end Token

/-! ## Turns -/

section Turns

variable {n : Nat} {rank : Fin n} {abortFlag : Bool} {t : Token} {input : Input n}

/-- The turns of `tokenCheck`. -/
inductive TokenTurn (rank : Fin n) (abortFlag : Bool) (t : Token) :
    Input n → Turn n Token Unit → Prop where
  | arrive {token : Color} (hIncoming : t.incoming = none) :
      TokenTurn rank abortFlag t (.recv (tokenSrc rank) .token (.color token))
        (.stays { t with tokenIsLocal := true, incoming := some token })
  | nothing (hIncoming : t.incoming = none) :
      TokenTurn rank abortFlag t (.tick .go) (.returns t ())
  | sent {token : Color} (hIncoming : t.incoming = some token) (hPending : t.sendPending = true) :
      TokenTurn rank abortFlag t (.synced (tokenDest rank) .token)
        (.stays { t with sendPending := false })
  | accept {token : Color} (hIncoming : t.incoming = some token) (hPending : t.sendPending = false)
      (hToken : token ≠ .terminate) (hMaster : rank.val = 0 → token ≠ .white) :
      TokenTurn rank abortFlag t (.tick .go) (.returns { t with
        incoming := none
        tokenBuf := token
        tokenProc := if t.tokenProc = .black ∧ token = .black then .white else t.tokenProc } ())
  | forward {token : Color} (hIncoming : t.incoming = some token)
      (hPending : t.sendPending = false)
      (hToken : token = .terminate ∨ rank.val = 0 ∧ token = .white)
      (hRank : rank.val + 1 < n) (hAbort : abortFlag = false) :
      TokenTurn rank abortFlag t (.tick .go) (.sendsAndReturns { t with
        incoming := none
        tokenBuf := .terminate
        tokenProc := .terminate
        sendPending := true
        tokenIsLocal := false } (tokenDest rank) .token (.color .terminate) ())
  | stop {token : Color} (hIncoming : t.incoming = some token) (hPending : t.sendPending = false)
      (hToken : token = .terminate ∨ rank.val = 0 ∧ token = .white)
      (hLast : n ≤ rank.val + 1 ∨ abortFlag = true) :
      TokenTurn rank abortFlag t (.tick .go) (.returns { t with
        incoming := none
        tokenBuf := .terminate
        tokenProc := .terminate } ())

theorem accept_other (t : Token) {token : Color}
    (hToken : ¬ ((rank.val = 0 ∧ token = .white) ∨ token = .terminate)) :
    t.accept rank abortFlag token = ({ t with
      incoming := none
      tokenBuf := token
      tokenProc := if t.tokenProc = .black ∧ token = .black then .white else t.tokenProc }, none) := by
  simp only [Token.accept, hToken, if_false]

theorem accept_forward (t : Token) {token : Color}
    (hToken : (rank.val = 0 ∧ token = .white) ∨ token = .terminate)
    (hForward : rank.val + 1 < n ∧ abortFlag = false) :
    t.accept rank abortFlag token = ({ t with
      incoming := none
      tokenBuf := .terminate
      tokenProc := .terminate
      sendPending := true
      tokenIsLocal := false }, some ⟨tokenDest rank, .token, .color .terminate⟩) := by
  obtain ⟨hRank, rfl⟩ := hForward
  simp [Token.accept, hToken, hRank, Token.tokenIsSend]

theorem accept_stop (t : Token) {token : Color}
    (hToken : (rank.val = 0 ∧ token = .white) ∨ token = .terminate)
    (hStop : ¬ (rank.val + 1 < n ∧ abortFlag = false)) :
    t.accept rank abortFlag token = ({ t with
      incoming := none
      tokenBuf := .terminate
      tokenProc := .terminate }, none) := by
  by_cases hRank : rank.val + 1 < n
  · have hAbort : abortFlag = true := by simpa [hRank] using hStop
    simp [Token.accept, hToken, hRank, hAbort, Token.tokenIsSend]
  · simp [Token.accept, hToken, hRank]

theorem tokenTurn_of_eq {turn : Turn n Token Unit}
    (h : t.tokenCheck rank abortFlag input = some turn) :
    TokenTurn rank abortFlag t input turn := by
  unfold Token.tokenCheck at h
  split at h
  next hIncoming =>
    split at h
    next src token =>
      split at h
      next hSrc =>
        cases h
        subst hSrc
        exact .arrive hIncoming
      next => cases h
    next =>
      cases h
      exact .nothing hIncoming
    next => cases h
  next token hIncoming =>
    split at h
    next hPending =>
      split at h
      next dst =>
        split at h
        next hDst =>
          cases h
          subst hDst
          exact .sent hIncoming hPending
        next => cases h
      next => cases h
    next hPending =>
      rw [Bool.not_eq_true] at hPending
      split at h
      next =>
        rw [Option.some.injEq] at h
        subst h
        by_cases hToken : (rank.val = 0 ∧ token = .white) ∨ token = .terminate
        · by_cases hForward : rank.val + 1 < n ∧ abortFlag = false
          · rw [accept_forward t hToken hForward]
            exact .forward hIncoming hPending hToken.symm hForward.1 hForward.2
          · rw [accept_stop t hToken hForward]
            refine .stop hIncoming hPending hToken.symm ?_
            by_cases hRank : rank.val + 1 < n
            · exact Or.inr (by simpa [hRank] using hForward)
            · exact Or.inl (by omega)
        · rw [accept_other t hToken]
          exact .accept hIncoming hPending (fun hEq => hToken (Or.inr hEq))
            (fun hRank hEq => hToken (Or.inl ⟨hRank, hEq⟩))
      next => cases h

theorem TokenTurn.silent {turn : Turn n Token Unit} (h : TokenTurn rank abortFlag t input turn)
    {tag : Tag} (hTag : tag ≠ .token) : Silent tag input turn.out := by
  cases h
  case arrive => exact silent_recv _ _ hTag
  case forward => exact silent_tick_send _ _ _ hTag
  case sent => exact silent_synced _ _ _
  all_goals exact silent_tick _ _

/-- The turns of `checkForTerm`. -/
inductive CheckTurn (rank : Fin n) (abortFlag : Bool) (t : Token) :
    Input n → Turn n Token Bool → Prop where
  | terminated (hIncoming : t.incoming = none) (hProc : t.tokenProc = .terminate) :
      CheckTurn rank abortFlag t (.tick .go) (.returns t true)
  | pass (hIncoming : t.incoming = none) (hProc : t.tokenProc ≠ .terminate)
      (hLocal : t.tokenIsLocal = true) (hAbort : abortFlag = false) :
      CheckTurn rank abortFlag t (.tick .go) (.sendsAndReturns { t with
        tokenBuf := t.passedColor rank
        tokenProc := .white
        sendPending := true
        tokenIsLocal := false } (tokenDest rank) .token (.color (t.passedColor rank)) false)
  | keep (hIncoming : t.incoming = none) (hProc : t.tokenProc ≠ .terminate)
      (hLocal : t.tokenIsLocal = true) (hAbort : abortFlag = true) :
      CheckTurn rank abortFlag t (.tick .go) (.returns { t with
        tokenBuf := t.passedColor rank
        tokenProc := .white } false)
  | check {input : Input n} {turn : Turn n Token Unit}
      (hBusy : t.incoming = none → t.tokenProc ≠ .terminate ∧ t.tokenIsLocal = false)
      (hTurn : TokenTurn rank abortFlag t input turn) :
      CheckTurn rank abortFlag t input ⟨turn.record, turn.out,
        turn.result.map fun _ => decide (turn.record.tokenProc = .terminate)⟩

theorem checkTurn_of_eq {turn : Turn n Token Bool}
    (h : t.checkForTerm rank abortFlag input = some turn) :
    CheckTurn rank abortFlag t input turn := by
  unfold Token.checkForTerm at h
  simp only [Option.isNone_iff_eq_none] at h
  split at h
  next hTerminated =>
    split at h
    next =>
      cases h
      exact .terminated hTerminated.1 hTerminated.2
    next => cases h
  next hRunning =>
    split at h
    next hHeld =>
      split at h
      next =>
        cases h
        have hProc : t.tokenProc ≠ .terminate := fun hEq => hRunning ⟨hHeld.1, hEq⟩
        cases hAbort : abortFlag with
        | false => exact .pass hHeld.1 hProc hHeld.2 rfl
        | true => exact .keep hHeld.1 hProc hHeld.2 rfl
      next => cases h
    next hIdle =>
      obtain ⟨turn', hTurn, rfl⟩ := Option.map_eq_some_iff.mp h
      refine .check (fun hIncoming => ⟨fun hEq => hRunning ⟨hIncoming, hEq⟩, ?_⟩)
        (tokenTurn_of_eq hTurn)
      simpa [hIncoming] using hIdle

theorem CheckTurn.silent {turn : Turn n Token Bool} (h : CheckTurn rank abortFlag t input turn)
    {tag : Tag} (hTag : tag ≠ .token) : Silent tag input turn.out := by
  cases h
  case pass => exact silent_tick_send _ _ _ hTag
  case check hTurn => exact hTurn.silent hTag
  all_goals exact silent_tick _ _

/-- The turns of the `MPI_Test` in the cleanup loop. -/
inductive TestTurn (rank : Fin n) (t : Token) : Input n → Turn n Token Unit → Prop where
  | sent (hPending : t.sendPending = true) :
      TestTurn rank t (.synced (tokenDest rank) .token)
        (.returns { t with sendPending := false } ())
  | nothing : TestTurn rank t (.tick .go) (.returns t ())

theorem testTurn_of_eq {turn : Turn n Token Unit} (h : t.tokenTest rank input = some turn) :
    TestTurn rank t input turn := by
  unfold Token.tokenTest at h
  split at h
  next dst =>
    split at h
    next hSent =>
      cases h
      obtain ⟨hPending, rfl⟩ := hSent
      exact .sent hPending
    next => cases h
  next =>
    cases h
    exact .nothing
  next => cases h

theorem TestTurn.silent {turn : Turn n Token Unit} (h : TestTurn rank t input turn) (tag : Tag) :
    Silent tag input turn.out := by
  cases h
  case sent => exact silent_synced _ _ _
  case nothing => exact silent_tick _ _

end Turns

end Circle
