import Circle.Protocol.Ring

/-!
# Blackening is not lost

A rank that sends items to a lower rank turns black, and blackens the token
when it sends it on.  A `Watch` remembers, along an execution, which ranks owe
a black token and whether one has been sent on in this round; no rank reads it.
-/

namespace Circle

open FifoNet (inFlight)

variable {n : Nat} {cfg : Config n} {rank : Fin n} {input : Input n} {s s' : State n}
  {out : Option (Packet n)}

/-- What is remembered of the token's rounds. -/
structure Watch (n : Nat) where
  /-- Rank 0 has launched the token and has not received it back. -/
  launched : Bool
  /-- The rank has sent items to a lower rank since it last sent the token on. -/
  dirty : Fin n → Bool
  /-- Such a rank has sent the token on since rank 0 last launched it. -/
  tainted : Bool

namespace Watch

/-- Before the first turn. -/
def start : Watch n := { launched := false, dirty := fun _ => false, tainted := false }

/-- A round ends when rank 0 receives the token. -/
def heard (w : Watch n) (rank : Fin n) : Input n → Watch n
  | .recv _ .token _ => { w with launched := w.launched && decide (rank.val ≠ 0) }
  | _ => w

/-- A rank sends: the header of some items, or a token.  A terminating token is
not part of a round. -/
def spoken (w : Watch n) (rank : Fin n) : Option (Packet n) → Watch n
  | some ⟨_, .token, .color color⟩ =>
      if color = .terminate then
        w
      else if rank.val = 0 then
        { launched := true, dirty := Function.update w.dirty rank false, tainted := false }
      else
        { w with
          dirty := Function.update w.dirty rank false
          tainted := w.tainted || (w.launched && w.dirty rank) }
  | some ⟨dst, .workReply, .ints (items :: _)⟩ =>
      if 0 < items ∧ dst < rank then
        { w with dirty := Function.update w.dirty rank true }
      else
        w
  | _ => w

/-- What is remembered after a turn. -/
def next (w : Watch n) (rank : Fin n) (input : Input n) (out : Option (Packet n)) : Watch n :=
  (w.heard rank input).spoken rank out

variable (w : Watch n)

/-- Only items for a lower rank make a rank owe a black token. -/
theorem dirty_of_spoken {r : Fin n} (hDirty : (w.spoken rank out).dirty r = true) :
    w.dirty r = true ∨ r = rank ∧ ∃ dst items rest,
      out = some ⟨dst, .workReply, .ints (items :: rest)⟩ ∧ 0 < items ∧ dst < rank := by
  unfold spoken at hDirty
  split at hDirty
  next =>
    left
    by_cases hRank : r = rank
    · subst hRank
      split at hDirty
      · exact hDirty
      · split at hDirty <;> simp at hDirty
    · split at hDirty
      · exact hDirty
      · split at hDirty <;> simpa [hRank] using hDirty
  next dst items rest =>
    split at hDirty
    next hBelow =>
      by_cases hRank : r = rank
      · exact Or.inr ⟨hRank, dst, items, rest, rfl, hBelow.1, hBelow.2⟩
      · exact Or.inl (by simpa [hRank] using hDirty)
    next => exact Or.inl hDirty
  next => exact Or.inl hDirty

@[simp] theorem heard_dirty : (w.heard rank input).dirty = w.dirty := by
  unfold heard
  split <;> rfl

@[simp] theorem heard_tainted : (w.heard rank input).tainted = w.tainted := by
  unfold heard
  split <;> rfl

theorem dirty_of_next {r : Fin n} (hDirty : (w.next rank input out).dirty r = true) :
    w.dirty r = true ∨ r = rank ∧ ∃ dst items rest,
      out = some ⟨dst, .workReply, .ints (items :: rest)⟩ ∧ 0 < items ∧ dst < rank := by
  simpa using (w.heard rank input).dirty_of_spoken hDirty

/-- A round goes on, or rank 0 launches the token. -/
theorem launched_of_next (hLaunched : (w.next rank input out).launched = true) :
    w.launched = true ∨ ∃ dst color, out = some ⟨dst, .token, .color color⟩ := by
  unfold next spoken at hLaunched
  split at hLaunched
  next dst color => exact Or.inr ⟨dst, color, rfl⟩
  all_goals
    left
    unfold heard at hLaunched
    split at hLaunched <;> try split at hLaunched
    all_goals simp_all

/-- The terminating token is not part of a round. -/
theorem launched_of_terminate {dst : Fin n}
    (hLaunched :
      (w.next rank input (some ⟨dst, .token, .color .terminate⟩)).launched = true) :
    w.launched = true := by
  simp only [next, spoken, if_true] at hLaunched
  unfold heard at hLaunched
  split at hLaunched <;> simp_all

/-- Rank 0 ends the round when it receives the token. -/
theorem rank_ne_zero_of_recv {src : Fin n} {msg : Msg}
    (hLaunched : (w.next rank (.recv src .token msg) none).launched = true) : rank.val ≠ 0 := by
  simpa [next, spoken, heard] using fun hZero => by
    simp [next, spoken, heard, hZero] at hLaunched

/-- A rank that sends the token on owes nothing. -/
theorem color_of_dirty {dst : Fin n} {color : Color}
    (hDirty : (w.next rank input (some ⟨dst, .token, .color color⟩)).dirty rank = true) :
    color = .terminate := by
  by_contra hColor
  simp only [next, spoken, if_neg hColor] at hDirty
  split at hDirty <;> simp at hDirty

/-- How a round becomes tainted. -/
theorem tainted_of_next (hTainted : (w.next rank input out).tainted = true) :
    w.tainted = true ∨ rank.val ≠ 0 ∧ w.dirty rank = true ∧
      ∃ dst color, out = some ⟨dst, .token, .color color⟩ ∧ color ≠ .terminate := by
  unfold next spoken at hTainted
  split at hTainted
  next dst color =>
    split at hTainted
    next => exact Or.inl (by simpa using hTainted)
    next hColor =>
      split at hTainted
      next => cases hTainted
      next hRank =>
        simp only [heard_tainted, heard_dirty, Bool.or_eq_true, Bool.and_eq_true] at hTainted
        rcases hTainted with hOld | ⟨-, hDirty⟩
        · exact Or.inl hOld
        · exact Or.inr ⟨hRank, hDirty, dst, color, rfl, hColor⟩
  next =>
    left
    split at hTainted <;> simpa using hTainted
  next => exact Or.inl (by simpa using hTainted)

/-- Rank 0 launches a token that is not tainted. -/
theorem rank_ne_zero_of_tainted {dst : Fin n} {color : Color} (hColor : color ≠ .terminate)
    (hTainted : (w.next rank input (some ⟨dst, .token, .color color⟩)).tainted = true) :
    rank.val ≠ 0 := by
  intro hZero
  simp only [next, spoken, if_neg hColor, if_pos hZero] at hTainted
  cases hTainted

end Watch

/-- An execution with what is remembered of it. -/
inductive Watched (cfg : Config n) : World n → Watch n → Prop where
  | start {states : Fin n → State n} (hInit : Initial states) :
      Watched cfg (FifoNet.fresh states) .start
  | turn {g : World n} {w : Watch n} {rank : Fin n} {input : Input n} {state : State n}
      {out : Option (Packet n)} (h : Watched cfg g w)
      (hFires : FifoNet.Fires (mainLoop cfg) g rank input state out) :
      Watched cfg (FifoNet.set g rank ((g rank).after input state out)) (w.next rank input out)

theorem Watched.execution {g : World n} {w : Watch n} (h : Watched cfg g w) :
    Execution cfg FifoNet.always g := by
  induction h with
  | start hInit => exact .start hInit
  | turn _ hFires ih => exact FifoNet.Reachable.fires ih hFires

/-- Every execution can be watched. -/
theorem Execution.exists_watched {g : World n} {ok : World n → Fin n → Event n → Prop}
    (h : Execution cfg ok g) : ∃ w, Watched cfg g w := by
  refine FifoNet.Reachable.invariant (I := fun g => ∃ w, Watched cfg g w) ?_ ?_ h
  · intro states hInit
    exact ⟨.start, .start hInit⟩
  · rintro g rank event input state out - ⟨w, hWatched⟩ - - hFires
    exact ⟨_, hWatched.turn hFires⟩

/-! ## Colours -/

/-- The colour of the token that a rank has. -/
def Token.heldColor (t : Token) : Color := t.incoming.getD t.tokenBuf

/-- The rank will send on a black token, if it sends one on that is not the
terminating one. -/
def Token.Dark (t : Token) : Prop :=
  t.tokenProc = .black ∨ t.tokenProc = .terminate ∨
    (t.tokenIsLocal = true ∧ t.incoming = none ∧ t.tokenBuf = .black)

theorem passedColor_of_rank_ne_zero {t : Token} (hRank : rank.val ≠ 0) :
    t.passedColor rank = .black ∨ t.passedColor rank = t.tokenBuf := by
  unfold Token.passedColor
  rw [if_neg hRank]
  split
  · exact Or.inl rfl
  · exact Or.inr rfl

theorem Token.Dark.passedColor {t : Token} (h : t.Dark) (hRank : rank.val ≠ 0)
    (hProc : t.tokenProc ≠ .terminate) : t.passedColor rank = .black := by
  unfold Token.passedColor
  rw [if_neg hRank]
  rcases h with hBlack | hTerminate | ⟨-, -, hBuf⟩
  · rw [if_pos hBlack]
  · exact (hProc hTerminate).elim
  · rw [hBuf, ite_self]

/-- Answering requests, a rank keeps its colour or turns black. -/
theorem WorkreqTurn.proc_or_black {cleanup abortFlag : Bool} {w : Work n} {proc : Color}
    {turn : Turn n (Work n × Color) Unit}
    (h : WorkreqTurn cfg rank cleanup abortFlag w proc input turn) :
    turn.record.2 = proc ∨ turn.record.2 = .black := by
  cases h
  case header dest _ _ _ _ _ _ _ _ _ _ _ =>
    show Work.colorAfterSend rank dest proc = proc ∨ Work.colorAfterSend rank dest proc = .black
    unfold Work.colorAfterSend
    split
    · exact Or.inr rfl
    · exact Or.inl rfl
  all_goals exact Or.inl rfl

/-- A rank that sends items to a lower rank turns black. -/
theorem WorkreqTurn.black_of_header {cleanup abortFlag : Bool} {w : Work n} {proc : Color}
    {turn : Turn n (Work n × Color) Unit}
    (h : WorkreqTurn cfg rank cleanup abortFlag w proc input turn) {dst : Fin n} {items : Int}
    {rest : List Int} (hOut : turn.out = some ⟨dst, .workReply, .ints (items :: rest)⟩)
    (hItems : 0 < items) (hBelow : dst < rank) : turn.record.2 = .black := by
  cases h
  case noWork =>
    exfalso
    simp only [Turn.sends, Option.some.injEq, FifoNet.Packet.mk.injEq, Msg.ints.injEq,
      List.cons.injEq] at hOut
    obtain ⟨-, -, hHead, -⟩ := hOut
    unfold payloadAbort at hHead
    split at hHead <;> omega
  case header =>
    simp only [Turn.sends, Option.some.injEq, FifoNet.Packet.mk.injEq] at hOut
    obtain ⟨rfl, -⟩ := hOut
    exact if_pos (Or.inl hBelow)
  case payload => simp [Turn.sends] at hOut
  all_goals cases hOut

/-- A dark rank stays dark until it sends the token on. -/
theorem Token.Dark.step {t : Token} (h : s.token.Dark) (hRank : rank.val ≠ 0)
    (hIncoming : s.token.incoming ≠ none → s.token.tokenIsLocal = true)
    (hArrive : ∀ msg, input = .recv (tokenSrc rank) .token msg → s.token.tokenIsLocal = false)
    (hStep : TokenStep cfg rank s input t out) :
    t.Dark ∨ ∃ color, color ≠ .terminate ∧ out = some ⟨tokenDest rank, .token, .color color⟩ := by
  cases hStep
  case other => exact Or.inl h
  case workreq hTurn =>
    left
    rcases hTurn.proc_or_black with hSame | hBlack
    · rw [hSame]
      exact h
    · exact Or.inl hBlack
  case pass hNone hProc hLocal =>
    exact Or.inr ⟨_, by rw [h.passedColor hRank hProc]; decide, rfl⟩
  case keep hNone hProc hLocal =>
    exact Or.inl (Or.inr (Or.inr ⟨hLocal, hNone, h.passedColor hRank hProc⟩))
  case turn hTurn =>
    left
    cases hTurn
    case arrive hNone =>
      rcases h with hBlack | hTerminate | ⟨hLocal, -, hBuf⟩
      · exact Or.inl hBlack
      · exact Or.inr (Or.inl hTerminate)
      · simp [hArrive _ rfl] at hLocal
    case nothing => exact h
    case sent token hSome hPending =>
      rcases h with hBlack | hTerminate | ⟨-, hNone, -⟩
      · exact Or.inl hBlack
      · exact Or.inr (Or.inl hTerminate)
      · rw [hSome] at hNone
        cases hNone
    case accept token hSome hPending hToken hMaster =>
      rcases h with hBlack | hTerminate | ⟨-, hNone, -⟩
      · -- a black token takes over the colour
        by_cases hColor : token = .black
        · exact Or.inr (Or.inr ⟨hIncoming (by simp [hSome]), rfl, hColor⟩)
        · exact Or.inl (by simpa [hColor, Turn.returns] using hBlack)
      · exact Or.inr (Or.inl (by simp [hTerminate, Turn.returns]))
      · rw [hSome] at hNone
        cases hNone
    case forward => exact Or.inr (Or.inl rfl)
    case stop => exact Or.inr (Or.inl rfl)
  case test hTurn =>
    left
    cases hTurn <;> exact h

/-! ## What holds while an execution is watched -/

/-- What is remembered agrees with the colours of ranks and token. -/
structure WatchInv (g : World n) (w : Watch n) : Prop where
  dark : ∀ r : Fin n, r.val ≠ 0 → w.dirty r = true → (g r).state.token.Dark
  /-- In a round, the token is not the terminating one. -/
  flying : w.launched = true → ∀ src dst color,
    .color color ∈ inFlight g src dst .token → color ≠ .terminate
  held : w.launched = true → ∀ r, (g r).state.token.tokenIsLocal = true →
    r.val ≠ 0 ∧ (g r).state.token.heldColor ≠ .terminate
  /-- Once a dirty rank has sent the token on, it is black, up to the end of
  the round. -/
  blackFlying : w.tainted = true → ∀ src dst color,
    .color color ∈ inFlight g src dst .token → color = .black
  blackHeld : w.tainted = true → ∀ r, (g r).state.token.tokenIsLocal = true →
    r.val ≠ 0 ∨ (g r).state.token.incoming ≠ none → (g r).state.token.heldColor = .black

theorem heldColor_of_none {t : Token} (hNone : t.incoming = none) : t.heldColor = t.tokenBuf := by
  simp [Token.heldColor, hNone]

theorem heldColor_of_some {t : Token} {color : Color} (hSome : t.incoming = some color) :
    t.heldColor = color := by
  simp [Token.heldColor, hSome]

theorem watchInv_start (states : Fin n → State n) :
    WatchInv (FifoNet.fresh states) .start := by
  constructor <;> simp [Watch.start]

section Step

variable {g : World n} {w : Watch n}

/-- A rank that owes a black token, or has a tainted one, sends on a black
one. -/
theorem WatchInv.passedColor (h : WatchInv g w) (hRank : rank.val ≠ 0)
    (hIncoming : (g rank).state.token.incoming = none)
    (hProc : (g rank).state.token.tokenProc ≠ .terminate)
    (hLocal : (g rank).state.token.tokenIsLocal = true)
    (hOwes : w.dirty rank = true ∨ w.tainted = true) :
    (g rank).state.token.passedColor rank = .black := by
  rcases hOwes with hDirty | hTainted
  · exact (h.dark rank hRank hDirty).passedColor hRank hProc
  · have hHeld := h.blackHeld hTainted rank hLocal (Or.inl hRank)
    rw [heldColor_of_none hIncoming] at hHeld
    rcases passedColor_of_rank_ne_zero (t := (g rank).state.token) hRank with hBlack | hSame
    · exact hBlack
    · rw [hSame, hHeld]

/-- In a round, no rank sends on the terminating token. -/
theorem WatchInv.passedColor_ne (h : WatchInv g w) (hLaunched : w.launched = true)
    (hIncoming : (g rank).state.token.incoming = none)
    (hLocal : (g rank).state.token.tokenIsLocal = true) :
    rank.val ≠ 0 ∧ (g rank).state.token.passedColor rank ≠ .terminate := by
  obtain ⟨hRank, hColor⟩ := h.held hLaunched rank hLocal
  rw [heldColor_of_none hIncoming] at hColor
  refine ⟨hRank, ?_⟩
  rcases passedColor_of_rank_ne_zero (t := (g rank).state.token) hRank with hBlack | hSame
  · rw [hBlack]
    decide
  · rwa [hSame]

/-- How a rank sends a token. -/
theorem TokenStep.of_send {t : Token} {dst : Fin n} {msg : Msg}
    (hStep : TokenStep cfg rank s input t (some ⟨dst, .token, msg⟩))
    (hIncoming : s.token.incoming ≠ none → s.token.tokenIsLocal = true) :
    s.token.tokenIsLocal = true ∧ t.tokenIsLocal = false ∧
      (s.token.incoming = none ∧ s.token.tokenProc ≠ .terminate ∧
          msg = .color (s.token.passedColor rank) ∨
        ∃ token, s.token.incoming = some token ∧
          (token = .terminate ∨ rank.val = 0 ∧ token = .white) ∧ msg = .color .terminate) := by
  generalize hOut : some (⟨dst, .token, msg⟩ : Packet n) = out at hStep
  cases hStep
  case other hReply hSilent => exact (hSilent.out _ hOut.symm rfl).elim
  case workreq hTurn =>
    have hSilent : Silent .token _ _ := hTurn.silent (by decide) (by decide)
    exact (hSilent.out _ hOut.symm rfl).elim
  case pass hNone hProc hLocal =>
    cases hOut
    exact ⟨hLocal, rfl, Or.inl ⟨hNone, hProc, rfl⟩⟩
  case keep => cases hOut
  case turn hTurn =>
    cases hTurn
    case forward token hSome _ hToken _ _ =>
      cases hOut
      exact ⟨hIncoming (by simp [hSome]), rfl, Or.inr ⟨token, hSome, hToken, rfl⟩⟩
    all_goals cases hOut
  case test hTurn => cases hTurn <;> cases hOut

/-- A header for a lower rank is sent by a rank that turns black. -/
theorem TokenStep.black_of_header {t : Token} {dst : Fin n} {items : Int} {rest : List Int}
    (hStep : TokenStep cfg rank s input t (some ⟨dst, .workReply, .ints (items :: rest)⟩))
    (hItems : 0 < items) (hBelow : dst < rank) : t.tokenProc = .black := by
  generalize hOut : some (⟨dst, .workReply, .ints (items :: rest)⟩ : Packet n) = out at hStep
  cases hStep
  case other hReply hSilent => exact (hReply _ hOut.symm rfl).elim
  case workreq hTurn => exact hTurn.black_of_header hOut.symm hItems hBelow
  case pass => cases hOut
  case keep => cases hOut
  case turn hTurn => cases hTurn <;> cases hOut
  case test hTurn => cases hTurn <;> cases hOut

/-- A rank that sends a token leaves none in flight but that one, and no other
rank has one. -/
theorem held_of_send (hWatched : Watched cfg g w) {state : State n} {dst : Fin n} {msg : Msg}
    (hStep : TokenStep cfg rank (g rank).state input state.token (some ⟨dst, .token, msg⟩)) :
    TokenHeld g rank := by
  have hExec := hWatched.execution
  obtain ⟨hLocal, -, -⟩ := hStep.of_send (hExec.tokenInv rank).incoming
  rcases tokenHeld_or_tokenFlying hExec.fifo cfg.size_pos hExec.tokenInv with
    ⟨owner, hHeld⟩ | ⟨sender, color, hFlying⟩
  · obtain rfl := (hHeld.held rank).mp hLocal
    exact hHeld
  · simp [hFlying.held rank] at hLocal

/-- What the token that a rank has looks like after its turn, in a round. -/
theorem WatchInv.held_step (h : WatchInv g w) {state : State n}
    (hStep : TokenStep cfg rank (g rank).state input state.token out)
    (hAdmits : FifoNet.Admits g rank input)
    (hLaunched : (w.next rank input out).launched = true)
    (hLocal : state.token.tokenIsLocal = true) :
    rank.val ≠ 0 ∧ state.token.heldColor ≠ .terminate := by
  have hBefore : out = none ∨ (∀ dst color, out ≠ some ⟨dst, .token, .color color⟩) →
      w.launched = true := by
    intro hOut
    rcases w.launched_of_next hLaunched with hOld | ⟨dst, color, rfl⟩
    · exact hOld
    · rcases hOut with hNone | hOther
      · cases hNone
      · exact (hOther dst color rfl).elim
  generalize state.token = t at hStep hLocal ⊢
  cases hStep
  case other hReply hSilent =>
    refine h.held (hBefore (Or.inr ?_)) rank hLocal
    rintro dst color rfl
    exact hSilent.out _ rfl rfl
  case workreq hTurn =>
    refine h.held (hBefore (Or.inr fun dst color hOut => ?_)) rank hLocal
    have hSilent : Silent .token _ _ := hTurn.silent (by decide) (by decide)
    exact hSilent.out _ hOut rfl
  case pass => cases hLocal
  case keep hNone _ _ =>
    obtain ⟨hRank, hPassed⟩ := h.passedColor_ne (hBefore (Or.inl rfl)) hNone hLocal
    refine ⟨hRank, ?_⟩
    simpa [Token.heldColor, hNone] using hPassed
  case turn hTurn =>
    cases hTurn
    case arrive color hNone =>
      obtain ⟨rest, hRest⟩ := hAdmits
      refine ⟨w.rank_ne_zero_of_recv hLaunched, ?_⟩
      exact h.flying (hBefore (Or.inl rfl)) _ _ color (by rw [hRest]; exact List.mem_cons_self)
    case nothing => exact h.held (hBefore (Or.inl rfl)) rank hLocal
    case sent hSome _ => exact h.held (hBefore (Or.inl rfl)) rank hLocal
    case accept token hSome _ hToken _ =>
      obtain ⟨hRank, -⟩ := h.held (hBefore (Or.inl rfl)) rank hLocal
      exact ⟨hRank, hToken⟩
    case forward => cases hLocal
    case stop token hSome _ hToken _ =>
      -- in a round, no rank but rank 0 turns the token into the terminating one
      obtain ⟨hRank, hColor⟩ := h.held (hBefore (Or.inl rfl)) rank hLocal
      rw [heldColor_of_some hSome] at hColor
      rcases hToken with hTerminate | ⟨hZero, -⟩
      · exact (hColor hTerminate).elim
      · exact (hRank hZero).elim
  case test hTurn =>
    cases hTurn <;> exact h.held (hBefore (Or.inl rfl)) rank hLocal

/-- What the token that a rank has looks like after its turn, once it is
tainted. -/
theorem WatchInv.blackHeld_step (h : WatchInv g w) {state : State n}
    (hStep : TokenStep cfg rank (g rank).state input state.token out)
    (hAdmits : FifoNet.Admits g rank input)
    (hTainted : (w.next rank input out).tainted = true)
    (hLocal : state.token.tokenIsLocal = true)
    (hPlace : rank.val ≠ 0 ∨ state.token.incoming ≠ none) : state.token.heldColor = .black := by
  have hBefore : out = none ∨ (∀ dst color, out ≠ some ⟨dst, .token, .color color⟩) →
      w.tainted = true := by
    intro hOut
    rcases w.tainted_of_next hTainted with hOld | ⟨-, -, dst, color, rfl, -⟩
    · exact hOld
    · rcases hOut with hNone | hOther
      · cases hNone
      · exact (hOther dst color rfl).elim
  generalize state.token = t at hStep hLocal hPlace ⊢
  cases hStep
  case other hReply hSilent =>
    refine h.blackHeld (hBefore (Or.inr ?_)) rank hLocal hPlace
    rintro dst color rfl
    exact hSilent.out _ rfl rfl
  case workreq hTurn =>
    refine h.blackHeld (hBefore (Or.inr fun dst color hOut => ?_)) rank hLocal hPlace
    have hSilent : Silent .token _ _ := hTurn.silent (by decide) (by decide)
    exact hSilent.out _ hOut rfl
  case pass => cases hLocal
  case keep hNone hProc _ =>
    have hRank : rank.val ≠ 0 := by
      rcases hPlace with hRank | hSome
      · exact hRank
      · exact (hSome hNone).elim
    have hPassed := h.passedColor hRank hNone hProc hLocal (Or.inr (hBefore (Or.inl rfl)))
    simpa [Token.heldColor, hNone] using hPassed
  case turn hTurn =>
    cases hTurn
    case arrive color hNone =>
      obtain ⟨rest, hRest⟩ := hAdmits
      exact h.blackFlying (hBefore (Or.inl rfl)) _ _ color (by rw [hRest]; exact List.mem_cons_self)
    case nothing => exact h.blackHeld (hBefore (Or.inl rfl)) rank hLocal hPlace
    case sent hSome _ =>
      exact h.blackHeld (hBefore (Or.inl rfl)) rank hLocal (Or.inr (by simp [hSome]))
    case accept token hSome _ _ _ =>
      have hBlack := h.blackHeld (hBefore (Or.inl rfl)) rank hLocal (Or.inr (by simp [hSome]))
      rwa [heldColor_of_some hSome] at hBlack
    case forward => cases hLocal
    case stop token hSome _ hToken _ =>
      have hBlack := h.blackHeld (hBefore (Or.inl rfl)) rank hLocal (Or.inr (by simp [hSome]))
      rw [heldColor_of_some hSome] at hBlack
      subst hBlack
      simp at hToken
  case test hTurn =>
    cases hTurn <;> exact h.blackHeld (hBefore (Or.inl rfl)) rank hLocal hPlace

/-- The colour of a token that goes out in a round. -/
theorem WatchInv.sent_step (h : WatchInv g w) {t : Token} {dst : Fin n} {color : Color}
    (hStep : TokenStep cfg rank (g rank).state input t (some ⟨dst, .token, .color color⟩))
    (hIncoming : (g rank).state.token.incoming ≠ none → (g rank).state.token.tokenIsLocal = true) :
    ((w.next rank input (some ⟨dst, .token, .color color⟩)).launched = true → color ≠ .terminate) ∧
      ((w.next rank input (some ⟨dst, .token, .color color⟩)).tainted = true → color = .black) := by
  obtain ⟨hLocal, -, ⟨hNone, hProc, hColor⟩ | ⟨token, hSome, hToken, hColor⟩⟩ :=
    hStep.of_send hIncoming
  · injection hColor with hColor
    constructor
    · rintro hLaunched rfl
      have hPassed := h.passedColor_ne (w.launched_of_terminate hLaunched) hNone hLocal
      exact hPassed.2 hColor.symm
    · intro hTainted
      rw [hColor]
      rcases w.tainted_of_next hTainted with hOld | ⟨hRank, hDirty, -⟩
      · by_cases hZero : rank.val = 0
        · have hWhite : color = .white := by rw [hColor, Token.passedColor, if_pos hZero]
          exact (w.rank_ne_zero_of_tainted (by rw [hWhite]; decide) hTainted hZero).elim
        · exact h.passedColor hZero hNone hProc hLocal (Or.inr hOld)
      · exact h.passedColor hRank hNone hProc hLocal (Or.inl hDirty)
  · injection hColor with hColor
    subst hColor
    constructor
    · intro hLaunched
      obtain ⟨hRank, hHeld⟩ := h.held (w.launched_of_terminate hLaunched) rank hLocal
      rw [heldColor_of_some hSome] at hHeld
      rcases hToken with hTerminate | ⟨hZero, -⟩
      · exact (hHeld hTerminate).elim
      · exact (hRank hZero).elim
    · intro hTainted
      exfalso
      rcases w.tainted_of_next hTainted with hOld | ⟨-, -, _, color, hOut, hColor⟩
      · have hHeld := h.blackHeld hOld rank hLocal (Or.inr (by simp [hSome]))
        rw [heldColor_of_some hSome] at hHeld
        subst hHeld
        simp at hToken
      · cases hOut
        exact hColor rfl

/-- Rank 0 neither takes up a tainted token as a white one nor terminates. -/
theorem WatchInv.no_terminate (h : WatchInv g w) (hTainted : w.tainted = true) {t : Token}
    (hStep : TokenStep cfg rank (g rank).state input t out)
    (hIncoming : (g rank).state.token.incoming ≠ none → (g rank).state.token.tokenIsLocal = true)
    (hNew : t.tokenProc = .terminate) : (g rank).state.token.tokenProc = .terminate := by
  have hBlack {token : Color} (hSome : (g rank).state.token.incoming = some token) :
      token = .black := by
    have hHeld := h.blackHeld hTainted rank (hIncoming (by simp [hSome])) (Or.inr (by simp [hSome]))
    rwa [heldColor_of_some hSome] at hHeld
  cases hStep
  case other => exact hNew
  case workreq hTurn =>
    rcases hTurn.proc_or_black with hSame | hBlack
    · rwa [hSame] at hNew
    · simp [hBlack] at hNew
  case pass => cases hNew
  case keep => cases hNew
  case turn hTurn =>
    cases hTurn
    case accept token hSome _ _ _ =>
      simp only [Turn.returns] at hNew
      split at hNew
      · cases hNew
      · exact hNew
    case forward token hSome _ hToken _ _ =>
      rw [hBlack hSome] at hToken
      simp at hToken
    case stop token hSome _ hToken _ =>
      rw [hBlack hSome] at hToken
      simp at hToken
    all_goals exact hNew
  case test hTurn => cases hTurn <;> exact hNew

/-- What is remembered stays in agreement with the colours. -/
theorem watchInv_turn (h : WatchInv g w) (hWatched : Watched cfg g w) {state : State n}
    (hFires : FifoNet.Fires (mainLoop cfg) g rank input state out) :
    WatchInv (FifoNet.set g rank ((g rank).after input state out)) (w.next rank input out) := by
  have hExec := hWatched.execution
  have hInv := hExec.tokenInv rank
  have hStep := tokenStep_of_mainStep (mainStep_of_mainLoop hFires.acts)
  -- the other ranks are as before, and if one has the token, this rank sends none
  have hOther : ∀ r, r ≠ rank → (g r).state.token.tokenIsLocal = true →
      ∀ dst msg, out ≠ some ⟨dst, .token, msg⟩ := by
    rintro r hRank hLocal dst msg rfl
    exact hRank (((held_of_send hWatched hStep).held r).mp hLocal)
  have hFlight : ∀ src dst color,
      .color color ∈ inFlight (FifoNet.set g rank ((g rank).after input state out)) src dst .token →
        (.color color ∈ inFlight g src dst .token ∧ ∀ d msg, out ≠ some ⟨d, .token, msg⟩) ∨
          out = some ⟨dst, .token, .color color⟩ := by
    intro src dst color hMem
    rcases FifoNet.mem_inFlight_set hMem with hOld | ⟨-, hNew⟩
    · refine Or.inl ⟨hOld, ?_⟩
      rintro d msg rfl
      rw [(held_of_send hWatched hStep).flight] at hOld
      cases hOld
    · exact Or.inr hNew
  constructor
  case dark =>
    intro r hRank hDirty
    by_cases hSelf : r = rank
    · subst hSelf
      rw [FifoNet.set_self, FifoNet.Node.after_state]
      -- the rank was dirty already, or it gives work to a lower rank in this turn
      rcases w.dirty_of_next hDirty with hOld | ⟨-, dst, items, rest, rfl, hItems, hBelow⟩
      · rcases (h.dark r hRank hOld).step hRank hInv.incoming (fun msg hInput => by
            subst hInput
            exact not_local_of_admits hExec.fifo cfg.size_pos hExec.tokenInv hFires.admits r)
            hStep with hDark | ⟨color, hColor, rfl⟩
        · exact hDark
        · exact (hColor (w.color_of_dirty hDirty)).elim
      · exact Or.inl (hStep.black_of_header hItems hBelow)
    · rw [FifoNet.set_of_ne _ _ hSelf]
      rcases w.dirty_of_next hDirty with hOld | ⟨hSame, -⟩
      · exact h.dark r hRank hOld
      · exact (hSelf hSame).elim
  case flying =>
    intro hLaunched src dst color hMem
    rcases hFlight src dst color hMem with ⟨hOld, hSilent⟩ | rfl
    · rcases w.launched_of_next hLaunched with hBefore | ⟨d, c, hOut⟩
      · exact h.flying hBefore src dst color hOld
      · exact (hSilent d _ hOut).elim
    · exact (h.sent_step hStep hInv.incoming).1 hLaunched
  case held =>
    intro hLaunched r hLocal
    by_cases hSelf : r = rank
    · subst hSelf
      rw [FifoNet.set_self, FifoNet.Node.after_state] at hLocal ⊢
      exact h.held_step hStep hFires.admits hLaunched hLocal
    · rw [FifoNet.set_of_ne _ _ hSelf] at hLocal ⊢
      rcases w.launched_of_next hLaunched with hBefore | ⟨d, c, hOut⟩
      · exact h.held hBefore r hLocal
      · exact (hOther r hSelf hLocal d _ hOut).elim
  case blackFlying =>
    intro hTainted src dst color hMem
    rcases hFlight src dst color hMem with ⟨hOld, hSilent⟩ | rfl
    · rcases w.tainted_of_next hTainted with hBefore | ⟨-, -, d, c, hOut, -⟩
      · exact h.blackFlying hBefore src dst color hOld
      · exact (hSilent d _ hOut).elim
    · exact (h.sent_step hStep hInv.incoming).2 hTainted
  case blackHeld =>
    intro hTainted r hLocal hPlace
    by_cases hSelf : r = rank
    · subst hSelf
      rw [FifoNet.set_self, FifoNet.Node.after_state] at hLocal hPlace ⊢
      exact h.blackHeld_step hStep hFires.admits hTainted hLocal hPlace
    · rw [FifoNet.set_of_ne _ _ hSelf] at hLocal hPlace ⊢
      rcases w.tainted_of_next hTainted with hBefore | ⟨-, -, d, c, hOut, -⟩
      · exact h.blackHeld hBefore r hLocal hPlace
      · exact (hOther r hSelf hLocal d _ hOut).elim

end Step

theorem Watched.inv {g : World n} {w : Watch n} (h : Watched cfg g w) : WatchInv g w := by
  induction h with
  | start hInit => exact watchInv_start _
  | turn hWatched hFires ih => exact watchInv_turn ih hWatched hFires

/-- What it means that blackening is not lost. -/
structure KeepsBlack (cfg : Config n) (g : World n) (w : Watch n) : Prop where
  /-- In a round, a rank that owes a black token sends on a black one, and so
  does every rank after it. -/
  forwards : ∀ (r : Fin n) input state dst msg, r.val ≠ 0 →
    FifoNet.Fires (mainLoop cfg) g r input state (some ⟨dst, .token, msg⟩) →
      w.launched = true → w.dirty r = true ∨ w.tainted = true → msg = .color .black
  /-- Rank 0 receives a black token at the end of the round. -/
  returns : ∀ (r : Fin n) src msg state out, r.val = 0 → w.tainted = true →
    FifoNet.Fires (mainLoop cfg) g r (.recv src .token msg) state out → msg = .color .black
  /-- It does not start termination with it. -/
  goesOn : ∀ (r : Fin n) input state out, r.val = 0 → w.tainted = true →
    FifoNet.Fires (mainLoop cfg) g r input state out →
      (g r).state.token.tokenProc ≠ .terminate →
        state.token.tokenProc ≠ .terminate ∧ ∀ dst, out ≠ some ⟨dst, .token, .color .terminate⟩

/-- In every watched execution, blackening is not lost. -/
theorem Watched.keepsBlack {g : World n} {w : Watch n} (h : Watched cfg g w) :
    KeepsBlack cfg g w where
  forwards := by
    intro r input state dst msg hRank hFires hLaunched hOwes
    have hStep := tokenStep_of_mainStep (mainStep_of_mainLoop hFires.acts)
    obtain ⟨hLocal, -, ⟨hNone, hProc, rfl⟩ | ⟨token, hSome, hToken, -⟩⟩ :=
      hStep.of_send (h.execution.tokenInv r).incoming
    · rw [h.inv.passedColor hRank hNone hProc hLocal hOwes]
    · -- in a round, the token is not the terminating one
      obtain ⟨-, hHeld⟩ := h.inv.held hLaunched r hLocal
      rw [heldColor_of_some hSome] at hHeld
      rcases hToken with hTerminate | ⟨hZero, -⟩
      · exact (hHeld hTerminate).elim
      · exact (hRank hZero).elim
  returns := by
    intro r src msg state out _ hTainted hFires
    obtain ⟨rest, hRest⟩ := hFires.admits
    have hMem : msg ∈ inFlight g src r .token := by
      rw [hRest]
      exact List.mem_cons_self
    have hExec := h.execution
    by_cases hRing : r = tokenDest src
    · subst hRing
      obtain ⟨color, rfl⟩ := color_of_inFlight hExec.fifo hExec.tokenInv hMem
      rw [h.inv.blackFlying hTainted _ _ color hMem]
    · rw [inFlight_off_ring hExec.tokenInv hRing] at hMem
      cases hMem
  goesOn := by
    intro r input state out hZero hTainted hFires hProc
    have hStep := tokenStep_of_mainStep (mainStep_of_mainLoop hFires.acts)
    have hIncoming := (h.execution.tokenInv r).incoming
    have hKeeps : state.token.tokenProc ≠ .terminate := fun hNew =>
      hProc (h.inv.no_terminate hTainted hStep hIncoming hNew)
    refine ⟨hKeeps, ?_⟩
    rintro dst rfl
    obtain ⟨hLocal, -, ⟨hNone, -, hColor⟩ | ⟨token, hSome, hToken, -⟩⟩ := hStep.of_send hIncoming
    · rw [Token.passedColor, if_pos hZero] at hColor
      cases hColor
    · have hBlack := h.inv.blackHeld hTainted r hLocal (Or.inr (by simp [hSome]))
      rw [heldColor_of_some hSome] at hBlack
      subst hBlack
      simp at hToken

/-! ## A watched run -/

/-- A run with what is remembered of it. -/
def watchedRun (cfg : Config n) :
    World n → Watch n → List (Fin n × Event n) → Option (World n × Watch n)
  | g, w, [] => some (g, w)
  | g, w, (rank, event) :: rest =>
      (event.input g rank).bind fun input =>
        (mainLoop cfg rank input (g rank).state).bind fun (state, out) =>
          watchedRun cfg (FifoNet.set g rank ((g rank).after input state out))
            (w.next rank input out) rest

theorem Watched.run {g g' : World n} {w w' : Watch n} {events : List (Fin n × Event n)}
    (h : Watched cfg g w) (hRun : watchedRun cfg g w events = some (g', w')) :
    Watched cfg g' w' := by
  induction events generalizing g w with
  | nil =>
      simp only [watchedRun, Option.some.injEq, Prod.mk.injEq] at hRun
      obtain ⟨rfl, rfl⟩ := hRun
      exact h
  | cons first rest ih =>
      obtain ⟨input, hInput, hTail⟩ := Option.bind_eq_some_iff.mp hRun
      obtain ⟨⟨state, out⟩, hActs, hRest⟩ := Option.bind_eq_some_iff.mp hTail
      exact ih (h.turn ⟨FifoNet.admits_of_input hInput, hActs⟩) hRest

/-- Two ranks of which the second has two items. -/
def mirroredWorld : World 2 :=
  FifoNet.fresh fun rank =>
    (pairStart rank (if rank = 1 then [1, 2] else []) (by split <;> decide)).state

/-- Rank 0 asks for work and launches the token; rank 1 sends an item. -/
def owingTurns : List (Fin 2 × Event 2) :=
  idleTurns 0 ++ [(0, .tick (.next (some 1))), (0, .tick .go), (0, .tick .go),
    (1, .recv 0 .workRequest), (1, .tick (.draw 0)), (1, .tick .go)]

theorem keepsBlack_mirroredWorld : ∃ g w,
    watchedRun (pairConfig false false) mirroredWorld .start owingTurns = some (g, w) ∧
    w.launched = true ∧ w.dirty 1 = true ∧ KeepsBlack (pairConfig false false) g w := by
  have hEnd : (watchedRun (pairConfig false false) mirroredWorld .start owingTurns).map
      (fun (_, w) => w.launched && w.dirty 1) = some true := by
    decide +kernel
  obtain ⟨⟨g, w⟩, hRun, hOwes⟩ := Option.map_eq_some_iff.mp hEnd
  simp only [Bool.and_eq_true] at hOwes
  have hStart : Watched (pairConfig false false) mirroredWorld .start :=
    .start ⟨fun rank => pairStart rank _ _, fun _ => rfl⟩
  exact ⟨g, w, hRun, hOwes.1, hOwes.2, Watched.keepsBlack (hStart.run hRun)⟩

end Circle
