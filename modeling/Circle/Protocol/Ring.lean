import Circle.Protocol.Control

/-!
# The token ring

There is one token: it is with one rank, or on its way around the ring.  Every
rank knows how many tokens it has received and sent (`TokenInv`); summed over
the ring this leaves one.
-/

namespace Circle

open FifoNet (Log inFlight)

variable {n : Nat} {cfg : Config n} {rank : Fin n} {input : Input n} {s s' : State n}
  {out : Option (Packet n)}

/-! ## The ring -/

theorem tokenDest_tokenSrc (rank : Fin n) : tokenDest (tokenSrc rank) = rank := by
  have hRank := rank.isLt
  ext
  simp only [tokenDest, tokenSrc]
  rcases Nat.eq_zero_or_pos rank.val with hZero | hPos
  · have hLast : (rank.val + n - 1) % n = n - 1 := by
      rw [hZero, Nat.zero_add]
      exact Nat.mod_eq_of_lt (by omega)
    rw [hLast, show n - 1 + 1 + n = n + n by omega, Nat.add_mod_right, Nat.mod_self]
    exact hZero.symm
  · have hBefore : (rank.val + n - 1) % n = rank.val - 1 := by
      rw [show rank.val + n - 1 = rank.val - 1 + n by omega, Nat.add_mod_right]
      exact Nat.mod_eq_of_lt (by omega)
    rw [hBefore, show rank.val - 1 + 1 + n = rank.val + n by omega, Nat.add_mod_right]
    exact Nat.mod_eq_of_lt hRank

theorem tokenSrc_tokenDest (rank : Fin n) : tokenSrc (tokenDest rank) = rank := by
  have hInjective : Function.Injective (tokenSrc (n := n)) :=
    Function.LeftInverse.injective tokenDest_tokenSrc
  have hSurjective := Finite.surjective_of_injective hInjective
  obtain ⟨next, rfl⟩ := hSurjective rank
  rw [tokenDest_tokenSrc]

/-- The ring, as a permutation of the ranks. -/
def ring (n : Nat) : Equiv.Perm (Fin n) where
  toFun := tokenDest
  invFun := tokenSrc
  left_inv := tokenSrc_tokenDest
  right_inv := tokenDest_tokenSrc

/-! ## Turns -/

/-- What a turn does to the token members. -/
inductive TokenStep (cfg : Config n) (rank : Fin n) (s : State n) :
    Input n → Token → Option (Packet n) → Prop where
  | other {input : Input n} {out : Option (Packet n)} (hSilent : Silent .token input out)
      (hReply : ∀ packet, out = some packet → packet.tag ≠ .workReply) :
      TokenStep cfg rank s input s.token out
  | workreq {input : Input n} {turn : Turn n (Work n × Color) Unit}
      (hTurn : WorkreqTurn cfg rank s.cleanup s.abort.abortFlag s.work s.token.tokenProc input
        turn) :
      TokenStep cfg rank s input { s.token with tokenProc := turn.record.2 } turn.out
  | pass (hIncoming : s.token.incoming = none) (hProc : s.token.tokenProc ≠ .terminate)
      (hLocal : s.token.tokenIsLocal = true) :
      TokenStep cfg rank s (.tick .go) { s.token with
        tokenBuf := s.token.passedColor rank
        tokenProc := .white
        sendPending := true
        tokenIsLocal := false } (some ⟨tokenDest rank, .token, .color (s.token.passedColor rank)⟩)
  | keep (hIncoming : s.token.incoming = none) (hProc : s.token.tokenProc ≠ .terminate)
      (hLocal : s.token.tokenIsLocal = true) :
      TokenStep cfg rank s (.tick .go) { s.token with
        tokenBuf := s.token.passedColor rank
        tokenProc := .white } none
  | turn {input : Input n} {turn : Turn n Token Unit}
      (hTurn : TokenTurn rank s.abort.abortFlag s.token input turn) :
      TokenStep cfg rank s input turn.record turn.out
  | test {input : Input n} {turn : Turn n Token Unit}
      (hTurn : TestTurn rank s.token input turn) :
      TokenStep cfg rank s input turn.record turn.out

theorem RequestTurn.tag_ne_reply {cleanup : Bool} {w : Work n} {abortFlag : Bool}
    {turn : Turn n (Work n × Bool) Outcome}
    (h : RequestTurn cfg rank cleanup w abortFlag input turn) :
    ∀ packet, turn.out = some packet → packet.tag ≠ .workReply := by
  cases h <;> simp [Turn.returns, Turn.stays, Turn.sendsAndReturns]

theorem tokenStep_of_mainStep (hStep : MainStep cfg rank input s s' out) :
    TokenStep cfg rank s input s'.token out := by
  have hOther {pc : Pc} (hPc : s.pc = pc)
      (hTags : Tag.token ∉ pc.tags ∧ Tag.workReply ∉ pc.tags) :
      TokenStep cfg rank s input s.token out := by
    subst hPc
    exact .other (hStep.silent hTags.1) (hStep.silent hTags.2).out
  cases hStep
  case raise hInput =>
    subst hInput
    exact .other (silent_tick _ _) (by simp)
  case workreqCheck hTurn _ => exact .workreq (workreqTurn_of_eq hTurn)
  case requestWork hTurn _ =>
    have hTurn := requestTurn_of_eq hTurn
    exact .other (hTurn.silent (by decide) (by decide) (by decide)) hTurn.tag_ne_reply
  case checkForTerm hEq =>
    cases checkTurn_of_eq hEq
    case terminated => exact .other (silent_tick _ _) (by simp [Turn.returns])
    case pass hIncoming hProc hLocal _ => exact .pass hIncoming hProc hLocal
    case keep hIncoming hProc hLocal _ => exact .keep hIncoming hProc hLocal
    case check hTurn => exact .turn hTurn
  case tokenCheck hTurn => exact .turn (tokenTurn_of_eq hTurn)
  case tokenTest hTurn => exact .test (testTurn_of_eq hTurn)
  case workreceiptCheck hPc _ _ | abortCheck hPc _ _ | reduceCheck hPc _ _ | callback hPc _ _ _ _ |
      idle hPc _ _ | checkForTermAllReduce hPc _ | barrierStart hPc _ | barrierTest hPc _ _ |
      leaveBarrier hPc _ _ | reduceSync hPc _ | abortReduce hPc _ _ | leaveAbortReduce hPc _ _ =>
    exact hOther hPc (by decide)

/-! ## What a rank knows -/

/-- What a rank knows about the tokens that it has received and sent. -/
structure TokenInv (rank : Fin n) (t : Token) (sent rcvd : Log (Fin n) Tag Msg) : Prop where
  sent_other : ∀ d, d ≠ tokenDest rank → sent d .token = []
  colors : ∀ msg ∈ sent (tokenDest rank) .token, ∃ color, msg = .color color
  /-- Rank 0 starts with the token. -/
  balance : (rcvd (tokenSrc rank) .token).length + (if rank.val = 0 then 1 else 0) =
    (sent (tokenDest rank) .token).length + if t.tokenIsLocal then 1 else 0
  incoming : t.incoming ≠ none → t.tokenIsLocal = true
  /-- A rank that has the token has no send pending. -/
  ready : t.tokenIsLocal = true → t.incoming = none → t.sendPending = false
  /-- The buffer of a pending send has what was sent. -/
  buffer : t.sendPending = true →
    (sent (tokenDest rank) .token).getLast? = some (.color t.tokenBuf)

theorem tokenInv_start (start : Start rank) :
    TokenInv rank start.state.token (fun _ _ => []) (fun _ _ => []) where
  sent_other := fun _ _ => rfl
  colors := by simp
  balance := by simp [Start.state]
  incoming := by simp [Start.state]
  ready := by simp [Start.state]
  buffer := by simp [Start.state]

section Turns

variable {t : Token} {sent rcvd : Log (Fin n) Tag Msg}

theorem TokenInv.frame (h : TokenInv rank t sent rcvd) {sent' rcvd' : Log (Fin n) Tag Msg}
    (hSent : ∀ peer, sent' peer .token = sent peer .token)
    (hRcvd : ∀ peer, rcvd' peer .token = rcvd peer .token) : TokenInv rank t sent' rcvd' := by
  obtain ⟨hOther, hColors, hBalance, hIncoming, hReady, hBuffer⟩ := h
  constructor <;> simpa [hSent, hRcvd]

/-- The colour of a rank is not a matter of these books. -/
theorem TokenInv.recolor (h : TokenInv rank t sent rcvd) (proc : Color) :
    TokenInv rank { t with tokenProc := proc } sent rcvd :=
  { h with }

/-- A token goes out. -/
theorem TokenInv.send (h : TokenInv rank t sent rcvd) (hLocal : t.tokenIsLocal = true)
    (color proc : Color) :
    TokenInv rank { t with
        incoming := none
        tokenBuf := color
        tokenProc := proc
        sendPending := true
        tokenIsLocal := false } (sent.add (tokenDest rank) .token (.color color)) rcvd where
  sent_other := by
    intro d hd
    rw [Log.add_of_peer_ne _ _ _ _ hd]
    exact h.sent_other d hd
  colors := by
    intro msg hMem
    rw [Log.add_self, List.mem_append, List.mem_singleton] at hMem
    rcases hMem with hOld | rfl
    · exact h.colors msg hOld
    · exact ⟨color, rfl⟩
  balance := by
    have hBalance := h.balance
    rw [hLocal] at hBalance
    rw [Log.add_self, List.length_append, List.length_singleton, hBalance]
    simp
  incoming := fun hSome => (hSome rfl).elim
  ready := by simp
  buffer := by simp

/-- A token arrives. -/
theorem TokenInv.arrive (h : TokenInv rank t sent rcvd) (hLocal : t.tokenIsLocal = false)
    (color : Color) :
    TokenInv rank { t with tokenIsLocal := true, incoming := some color } sent
      (rcvd.add (tokenSrc rank) .token (.color color)) where
  sent_other := h.sent_other
  colors := h.colors
  balance := by
    have hBalance := h.balance
    rw [hLocal] at hBalance
    rw [Log.add_self, List.length_append, List.length_singleton]
    simp only [if_true]
    simp only [Bool.false_eq_true, if_false] at hBalance
    omega
  incoming := fun _ => rfl
  ready := by simp
  buffer := h.buffer

theorem TokenInv.tokenTurn (h : TokenInv rank t sent rcvd) {abortFlag : Bool}
    (hArrive : ∀ msg, input = .recv (tokenSrc rank) .token msg → t.tokenIsLocal = false)
    {turn : Turn n Token Unit} (hTurn : TokenTurn rank abortFlag t input turn) :
    TokenInv rank turn.record (sent.send turn.out) (rcvd.receive input) := by
  cases hTurn
  case arrive token hIncoming => exact h.arrive (hArrive _ rfl) token
  case nothing => exact h
  case sent token hIncoming hPending =>
    exact { h with ready := fun _ _ => rfl, buffer := by simp [Turn.stays] }
  case accept token hIncoming hPending _ _ =>
    exact { h with
      incoming := fun hSome => (hSome rfl).elim
      ready := fun _ _ => hPending
      buffer := by simp [Turn.returns, hPending] }
  case forward token hIncoming hPending _ _ _ =>
    exact h.send (h.incoming (by simp [hIncoming])) .terminate .terminate
  case stop token hIncoming hPending _ _ =>
    exact { h with
      incoming := fun hSome => (hSome rfl).elim
      ready := fun _ _ => hPending
      buffer := by simp [Turn.returns, hPending] }

end Turns

theorem TokenInv.step {node : Rank n} (h : TokenInv rank node.state.token node.sent node.rcvd)
    (hArrive : ∀ msg, input = .recv (tokenSrc rank) .token msg →
      node.state.token.tokenIsLocal = false)
    (hStep : MainStep cfg rank input node.state s' out) :
    TokenInv rank s'.token (node.sent.send out) (node.rcvd.receive input) := by
  have hToken := tokenStep_of_mainStep hStep
  generalize s'.token = next at hToken ⊢
  cases hToken
  case other hSilent => exact h.frame (hSilent.sent _) (hSilent.rcvd _)
  case workreq hTurn =>
    have hSilent : Silent .token input _ := hTurn.silent (by decide) (by decide)
    exact (h.recolor _).frame (hSilent.sent _) (hSilent.rcvd _)
  case pass hIncoming hProc hLocal =>
    have hSent := h.send hLocal (node.state.token.passedColor rank) .white
    rw [← hIncoming] at hSent
    exact hSent
  case keep hIncoming hProc hLocal =>
    exact { h with buffer := by simp [h.ready hLocal hIncoming] }
  case turn hTurn => exact h.tokenTurn hArrive hTurn
  case test hTurn =>
    cases hTurn
    case sent hPending =>
      exact { h with ready := fun _ _ => rfl, buffer := by simp [Turn.returns] }
    case nothing => exact h

/-! ## The whole ring -/

section Global

variable {g : World n}

/-- The tokens with ranks and the tokens in flight are one. -/
theorem sum_tokens (hFifo : FifoNet.Fifo g) (hSize : 0 < n)
    (hInv : ∀ r, TokenInv r (g r).state.token (g r).sent (g r).rcvd) :
    (∑ r, if (g r).state.token.tokenIsLocal then 1 else 0) +
      ∑ r, (inFlight g r (tokenDest r) .token).length = 1 := by
  have hChannel (r : Fin n) : ((g r).sent (tokenDest r) .token).length =
      ((g (tokenDest r)).rcvd (tokenSrc (tokenDest r)) .token).length +
        (inFlight g r (tokenDest r) .token).length := by
    rw [tokenSrc_tokenDest, ← hFifo.append_inFlight r (tokenDest r) .token, List.length_append]
  have hSent := Finset.sum_congr (rfl : (Finset.univ : Finset (Fin n)) = Finset.univ)
    fun r _ => hChannel r
  have hAround : ∑ r, ((g (tokenDest r)).rcvd (tokenSrc (tokenDest r)) .token).length =
      ∑ r, ((g r).rcvd (tokenSrc r) .token).length :=
    Equiv.sum_comp (ring n) fun r => ((g r).rcvd (tokenSrc r) .token).length
  rw [Finset.sum_add_distrib, hAround] at hSent
  have hBalance := Finset.sum_congr (rfl : (Finset.univ : Finset (Fin n)) = Finset.univ)
    fun r _ => (hInv r).balance
  rw [Finset.sum_add_distrib, Finset.sum_add_distrib] at hBalance
  have hStart : (∑ r : Fin n, if r.val = 0 then 1 else 0) = 1 := by
    rw [Finset.sum_eq_single (⟨0, hSize⟩ : Fin n)]
    · simp
    · intro r _ hNe
      exact if_neg fun hZero => hNe (Fin.ext hZero)
    · simp
  omega

/-- A sum of one has one summand. -/
theorem exists_of_sum_eq_one {f : Fin n → Nat} (hSum : ∑ r, f r = 1) :
    ∃ r, f r = 1 ∧ ∀ other, other ≠ r → f other = 0 := by
  obtain ⟨r, -, hSome⟩ := Finset.exists_ne_zero_of_sum_ne_zero
    (show ∑ r, f r ≠ 0 by rw [hSum]; exact one_ne_zero)
  have hSplit := Finset.add_sum_erase Finset.univ f (Finset.mem_univ r)
  have hRest : ∑ other ∈ Finset.univ.erase r, f other = 0 := by omega
  refine ⟨r, by omega, fun other hOther => ?_⟩
  exact Finset.sum_eq_zero_iff.mp hRest other (by simp [hOther])

/-- The token is with rank `r`. -/
structure TokenHeld (g : World n) (r : Fin n) : Prop where
  held : ∀ other, (g other).state.token.tokenIsLocal = true ↔ other = r
  flight : ∀ src dst, inFlight g src dst .token = []

/-- A token of a colour is in flight from rank `r` to the next. -/
structure TokenFlying (g : World n) (r : Fin n) (color : Color) : Prop where
  held : ∀ other, (g other).state.token.tokenIsLocal = false
  flight : ∀ src dst,
    inFlight g src dst .token = if src = r ∧ dst = tokenDest r then [.color color] else []

theorem inFlight_off_ring (hInv : ∀ r, TokenInv r (g r).state.token (g r).sent (g r).rcvd)
    {src dst : Fin n} (hOff : dst ≠ tokenDest src) : inFlight g src dst .token = [] := by
  rw [inFlight, (hInv src).sent_other dst hOff, List.drop_nil]

/-- Tokens in flight have a colour. -/
theorem color_of_inFlight (hFifo : FifoNet.Fifo g)
    (hInv : ∀ r, TokenInv r (g r).state.token (g r).sent (g r).rcvd) {r : Fin n} {msg : Msg}
    (hMem : msg ∈ inFlight g r (tokenDest r) .token) : ∃ color, msg = .color color := by
  apply (hInv r).colors
  rw [← hFifo.append_inFlight r (tokenDest r) .token]
  exact List.mem_append_right _ hMem

theorem tokenHeld_or_tokenFlying (hFifo : FifoNet.Fifo g) (hSize : 0 < n)
    (hInv : ∀ r, TokenInv r (g r).state.token (g r).sent (g r).rcvd) :
    (∃ r, TokenHeld g r) ∨ ∃ r color, TokenFlying g r color := by
  have hTotal := sum_tokens hFifo hSize hInv
  rcases Nat.eq_zero_or_pos (∑ r, if (g r).state.token.tokenIsLocal then 1 else 0) with hZero | hPos
  · -- no rank has the token: one edge has it
    right
    rw [hZero, Nat.zero_add] at hTotal
    obtain ⟨r, hFlight, hOthers⟩ := exists_of_sum_eq_one hTotal
    obtain ⟨msg, hMsg⟩ := List.length_eq_one_iff.mp hFlight
    obtain ⟨color, rfl⟩ := color_of_inFlight hFifo hInv (by rw [hMsg]; exact List.mem_singleton_self msg)
    refine ⟨r, color, fun other => ?_, fun src dst => ?_⟩
    · have hOther := (Finset.sum_eq_zero_iff.mp hZero) other (Finset.mem_univ _)
      simpa using hOther
    · split
      next hEdge =>
        obtain ⟨rfl, rfl⟩ := hEdge
        exact hMsg
      next hEdge =>
        by_cases hRing : dst = tokenDest src
        · subst hRing
          refine List.length_eq_zero_iff.mp (hOthers src ?_)
          rintro rfl
          exact hEdge ⟨rfl, rfl⟩
        · exact inFlight_off_ring hInv hRing
  · -- a rank has the token: no edge has it
    left
    have hHeld : ∑ r, (if (g r).state.token.tokenIsLocal then 1 else 0) = 1 := by omega
    have hFlight : ∑ r, (inFlight g r (tokenDest r) .token).length = 0 := by omega
    obtain ⟨r, hLocal, hOthers⟩ := exists_of_sum_eq_one hHeld
    refine ⟨r, fun other => ⟨fun hOther => ?_, ?_⟩, fun src dst => ?_⟩
    · by_contra hNe
      have hZero := hOthers other hNe
      simp [hOther] at hZero
    · rintro rfl
      by_contra hNot
      simp [hNot] at hLocal
    · by_cases hRing : dst = tokenDest src
      · subst hRing
        exact List.length_eq_zero_iff.mp (Finset.sum_eq_zero_iff.mp hFlight src (Finset.mem_univ _))
      · exact inFlight_off_ring hInv hRing

/-- While a token is in flight, no rank has it. -/
theorem not_local_of_admits (hFifo : FifoNet.Fifo g) (hSize : 0 < n)
    (hInv : ∀ r, TokenInv r (g r).state.token (g r).sent (g r).rcvd) {r src : Fin n} {msg : Msg}
    (hAdmits : FifoNet.Admits g r (.recv src .token msg : Input n)) (other : Fin n) :
    (g other).state.token.tokenIsLocal = false := by
  obtain ⟨rest, hRest⟩ := hAdmits
  rcases tokenHeld_or_tokenFlying hFifo hSize hInv with ⟨owner, hHeld⟩ | ⟨sender, color, hFlying⟩
  · rw [hHeld.flight] at hRest
    cases hRest
  · exact hFlying.held other

end Global

/-! ## Executions -/

variable {ok : World n → Fin n → Event n → Prop} {g : World n}

theorem Execution.tokenInv (h : Execution cfg ok g) (rank : Fin n) :
    TokenInv rank (g rank).state.token (g rank).sent (g rank).rcvd := by
  refine h.forall_rank (L := fun rank node => TokenInv rank node.state.token node.sent node.rcvd)
    ?_ ?_ rank
  · intro rank start
    exact tokenInv_start start
  · intro g rank input state out hReach hAll hAdmits hStep
    refine (hAll rank).step (fun msg hInput => ?_) hStep
    subst hInput
    exact not_local_of_admits hReach.fifo cfg.size_pos hAll hAdmits rank

/-- A rank that has received the token has sent no other. -/
theorem Execution.received_of_incoming (h : Execution cfg ok g) (r : Fin n)
    (hIncoming : (g r).state.token.incoming ≠ none) : inFlight g r (tokenDest r) .token = [] := by
  have hLocal := (h.tokenInv r).incoming hIncoming
  rcases tokenHeld_or_tokenFlying h.fifo cfg.size_pos h.tokenInv with
    ⟨owner, hHeld⟩ | ⟨sender, color, hFlying⟩
  · exact hHeld.flight r _
  · simp [hFlying.held r] at hLocal

/-- What it means that there is one token, and that its sends do not get in
each other's way. -/
structure SoleToken (cfg : Config n) (g : World n) : Prop where
  place : (∃ r, TokenHeld g r) ∨ ∃ r color, TokenFlying g r color
  /-- `tokenRecv` is entered without the token. -/
  arrives : ∀ r src msg state out,
    FifoNet.Fires (mainLoop cfg) g r (.recv src .token msg) state out →
      (g r).state.token.tokenIsLocal = false
  /-- `token_send_req` is not overwritten. -/
  sends : ∀ r input state packet, FifoNet.Fires (mainLoop cfg) g r input state (some packet) →
    packet.tag = .token → (g r).state.token.sendPending = false
  /-- The buffer of a pending send keeps what was sent. -/
  buffer : ∀ r, (g r).state.token.sendPending = true →
    ((g r).sent (tokenDest r) .token).getLast? = some (.color (g r).state.token.tokenBuf)
  keeps : ∀ r input state out, FifoNet.Fires (mainLoop cfg) g r input state out →
    (g r).state.token.sendPending = true → state.token.tokenBuf = (g r).state.token.tokenBuf
  /-- The `MPI_Wait` of `tokenRecv` is for a send that is received. -/
  waits : ∀ r, (g r).state.token.incoming ≠ none → inFlight g r (tokenDest r) .token = []

theorem TokenStep.pending_of_send {t : Token} {packet : Packet n}
    (h : TokenStep cfg rank s input t (some packet)) (hTag : packet.tag = .token)
    (hReady : s.token.tokenIsLocal = true → s.token.incoming = none →
      s.token.sendPending = false) : s.token.sendPending = false := by
  generalize hOut : some packet = out at h
  cases h
  case other hSilent => exact (hSilent.out packet hOut.symm hTag).elim
  case workreq hTurn =>
    exact ((hTurn.silent (by decide) (by decide)).out packet hOut.symm hTag).elim
  case pass hIncoming _ hLocal => exact hReady hLocal hIncoming
  case keep => cases hOut
  case turn hTurn =>
    cases hTurn
    case forward hPending _ _ _ => exact hPending
    all_goals cases hOut
  case test hTurn => cases hTurn <;> cases hOut

theorem TokenStep.tokenBuf_of_pending {t : Token} (h : TokenStep cfg rank s input t out)
    (hReady : s.token.tokenIsLocal = true → s.token.incoming = none →
      s.token.sendPending = false) (hPending : s.token.sendPending = true) :
    t.tokenBuf = s.token.tokenBuf := by
  cases h
  case other => rfl
  case workreq => rfl
  case pass hIncoming _ hLocal => simp [hReady hLocal hIncoming] at hPending
  case keep hIncoming _ hLocal => simp [hReady hLocal hIncoming] at hPending
  case turn hTurn =>
    cases hTurn
    case accept hNot _ _ | forward hNot _ _ _ | stop hNot _ _ => simp [hNot] at hPending
    all_goals rfl
  case test hTurn => cases hTurn <;> rfl

/-- In every execution there is one token. -/
theorem Execution.soleToken (h : Execution cfg FifoNet.always g) : SoleToken cfg g where
  place := tokenHeld_or_tokenFlying h.fifo cfg.size_pos h.tokenInv
  arrives := fun r _ _ _ _ hFires =>
    not_local_of_admits h.fifo cfg.size_pos h.tokenInv hFires.admits r
  sends := fun r _ _ _ hFires hTag =>
    (tokenStep_of_mainStep (mainStep_of_mainLoop hFires.acts)).pending_of_send hTag
      (h.tokenInv r).ready
  buffer := fun r => (h.tokenInv r).buffer
  keeps := fun r _ _ _ hFires =>
    (tokenStep_of_mainStep (mainStep_of_mainLoop hFires.acts)).tokenBuf_of_pending
      (h.tokenInv r).ready
  waits := fun r hIncoming => h.received_of_incoming r hIncoming

/-- Rank 0 of two empties its queue and passes the token on. -/
def passingTurns : List (Fin 2 × Event 2) :=
  idleTurns 0 ++ [(0, .tick (.callback [.pop [], .pop []]))] ++ idleTurns 0 ++
    [(0, .tick (.next (some 1))), (0, .tick .go), (0, .tick .go)]

theorem soleToken_pairWorld : ∃ g,
    FifoNet.run (mainLoop (pairConfig false false)) pairWorld passingTurns = some g ∧
    (g 0).state.token.sendPending = true ∧ SoleToken (pairConfig false false) g := by
  have hEnd : (FifoNet.run (mainLoop (pairConfig false false)) pairWorld passingTurns).map
      (fun g => (g 0).state.token.sendPending) = some true := by
    decide +kernel
  obtain ⟨g, hRun, hPending⟩ := Option.map_eq_some_iff.mp hEnd
  exact ⟨g, hRun, hPending,
    Execution.soleToken (FifoNet.Reachable.run (execution_pairWorld _ _) hRun)⟩

end Circle
