import Circle.Protocol.Blackening
import Circle.Protocol.Conservation
import Circle.Protocol.Quiescence

/-!
# Termination by the ring

Behind the token the ranks are idle, or a rank before it is black and will
blacken it (`Swept`).  A rank that sends items back turns black, and one that
has passed the token on gets items from a rank before the token only.  The
argument needs that a rank which passes on a white token is owed no items: a
reply that is still under way to it was paid for in an earlier round, so that
nothing need blacken the token any more.
-/

namespace Circle

open FifoNet (inFlight)

variable {n : Nat} {cfg : Config n} {rank : Fin n} {input : Input n} {s s' : State n}
  {out : Option (Packet n)}

/-- A rank is about to pass the token on as a white one. -/
def State.passesWhite (rank : Fin n) (s : State n) : Prop :=
  s.pc = .checkForTerm ∧ s.token.incoming = none ∧ s.token.tokenIsLocal = true ∧
    s.token.tokenProc ≠ .terminate ∧ s.token.passedColor rank = .white

instance (rank : Fin n) (s : State n) : Decidable (s.passesWhite rank) :=
  inferInstanceAs (Decidable (_ ∧ _))

/-- No rank to which items are under way passes on a white token, unless a rank
after it in the ring is black. -/
def PassesCovered (g : World n) (rank : Fin n) (event : Event n) : Prop :=
  match event with
  | .tick .raiseAbort => False
  | .tick .go =>
      (g rank).state.passesWhite rank →
        (∀ src, ∀ msg ∈ inFlight g src rank .workReply, msg.Refuses) ∨
          ∃ r, rank < r ∧ (g r).state.token.tokenProc = .black
  | _ => True

instance (g : World n) (rank : Fin n) (event : Event n) :
    Decidable (PassesCovered g rank event) :=
  match event with
  | .tick .raiseAbort => inferInstanceAs (Decidable False)
  | .tick .go => inferInstanceAs (Decidable (_ → _))
  | .tick (.tested _) | .tick (.draw _) | .tick (.next _) | .tick (.callback _)
  | .tick (.time _) | .tick (.init _) | .recv _ _ | .synced _ _ => inferInstanceAs (Decidable True)

theorem PassesCovered.noAbort {g : World n} {event : Event n} (h : PassesCovered g rank event) :
    event ≠ .tick .raiseAbort := by
  rintro rfl
  exact h

/-! ## What is behind the token -/

/-- The ranks that the token has passed are idle, or one that it has still to
pass is black. -/
def Swept (g : World n) (passed : Fin n → Prop) : Prop :=
  (∀ r, passed r → Idle g r) ∨ ∃ r, ¬ passed r ∧ (g r).state.token.tokenProc = .black

/-- What the colour of a token says. -/
def Cleared (g : World n) (passed : Fin n → Prop) : Color → Prop
  | .white => Swept g passed
  | .black => True
  | .terminate => ∀ r, Idle g r

/-- What the place and the colour of the token say about the ranks. -/
structure RingInv (g : World n) : Prop where
  flying : ∀ src dst color, .color color ∈ inFlight g src dst .token → Cleared g (· ≤ src) color
  held : ∀ r : Fin n, r.val ≠ 0 → (g r).state.token.tokenIsLocal = true →
    Cleared g (· < r) (g r).state.token.heldColor
  /-- The round is over when the token is back. -/
  back : ∀ r : Fin n, r.val = 0 → ∀ color, (g r).state.token.incoming = some color →
    Cleared g (fun _ => True) color
  ended : ∀ r, (g r).state.token.tokenProc = .terminate ∨
    (g r).state.token.tokenBuf = .terminate → ∀ other, Idle g other

theorem Swept.all {g : World n} (h : Swept g fun _ => True) (r : Fin n) : Idle g r := by
  rcases h with hIdle | ⟨other, hNot, -⟩
  · exact hIdle r trivial
  · exact (hNot trivial).elim

section Step

variable {ok : World n → Fin n → Event n → Prop} {g : World n}

/-- A turn that keeps the colours of the ranks before the token keeps what is
behind it. -/
theorem Swept.step {passed : Fin n → Prop} (h : Swept g passed) (hReach : Execution cfg ok g)
    (hFires : FifoNet.Fires (mainLoop cfg) g rank input s' out)
    (hOrder : ∀ r other, passed r → ¬ passed other → r < other)
    (hKeeps : ¬ passed rank → (g rank).state.token.tokenProc = .black →
      s'.token.tokenProc = .black) :
    Swept (FifoNet.set g rank ((g rank).after input s' out)) passed := by
  rcases h with hIdle | ⟨other, hNot, hBlack⟩
  · by_cases hStill : ∀ r, passed r → Idle (FifoNet.set g rank ((g rank).after input s' out)) r
    · exact Or.inl hStill
    · push Not at hStill
      obtain ⟨r, hPassed, hNew⟩ := hStill
      -- the rank that sends items is before the token
      rcases (hIdle r hPassed).step hReach hFires with hSame | ⟨hBusy, items, rest, rfl, hItems⟩
      · exact (hNew hSame).elim
      · have hBefore : ¬ passed rank := fun hRank => hBusy (hIdle rank hRank).empty
        have hStep := tokenStep_of_mainStep (mainStep_of_mainLoop hFires.acts)
        refine Or.inr ⟨rank, hBefore, ?_⟩
        rw [FifoNet.set_self, FifoNet.Node.after_state]
        exact hStep.black_of_header hItems (hOrder r rank hPassed hBefore)
  · refine Or.inr ⟨other, hNot, ?_⟩
    by_cases hSelf : other = rank
    · subst hSelf
      rw [FifoNet.set_self, FifoNet.Node.after_state]
      exact hKeeps hNot hBlack
    · rw [FifoNet.set_of_ne _ _ hSelf]
      exact hBlack

theorem Cleared.step {passed : Fin n → Prop} {color : Color} (h : Cleared g passed color)
    (hReach : Execution cfg ok g) (hFires : FifoNet.Fires (mainLoop cfg) g rank input s' out)
    (hOrder : ∀ r other, passed r → ¬ passed other → r < other)
    (hKeeps : color = .white → ¬ passed rank → (g rank).state.token.tokenProc = .black →
      s'.token.tokenProc = .black) :
    Cleared (FifoNet.set g rank ((g rank).after input s' out)) passed color := by
  cases color with
  | white => exact Swept.step h hReach hFires hOrder (hKeeps rfl)
  | black => trivial
  | terminate => exact idle_step hReach h hFires

/-- A black rank stays black as long as it does not have the token. -/
theorem TokenStep.keeps_black {t : Token} (h : TokenStep cfg rank s input t out)
    (hLocal : s.token.tokenIsLocal = false)
    (hIncoming : s.token.incoming ≠ none → s.token.tokenIsLocal = true)
    (hBlack : s.token.tokenProc = .black) : t.tokenProc = .black := by
  cases h
  case other => exact hBlack
  case workreq hTurn =>
    rcases hTurn.proc_or_black with hSame | hNew
    · exact hSame.trans hBlack
    · exact hNew
  case pass hHeld | keep hHeld => simp [hLocal] at hHeld
  case turn hTurn =>
    cases hTurn
    case accept hSome _ _ _ | forward hSome _ _ _ _ | stop hSome _ _ _ =>
      simp [hIncoming (by simp [hSome])] at hLocal
    all_goals exact hBlack
  case test hTurn => cases hTurn <;> exact hBlack

/-- `checkForTerm` sends a token that has been taken up before. -/
theorem checkForTerm_of_pass {dst : Fin n} {msg : Msg}
    (hStep : MainStep cfg rank input s s' (some ⟨dst, .token, msg⟩))
    (hIncoming : s.token.incoming = none) : s.pc = .checkForTerm ∧ input = .tick .go := by
  have hTag : Tag.token ∈ s.pc.tags := by
    by_contra hNot
    exact (hStep.silent hNot).out _ rfl rfl
  generalize hOut : some (⟨dst, .token, msg⟩ : Packet n) = out at hStep
  have hForward {token : Color} (hSome : s.token.incoming = some token) : False := by
    rw [hIncoming] at hSome
    cases hSome
  cases hStep
  case checkForTerm turn hPc hEq =>
    refine ⟨hPc, ?_⟩
    have hTurn := checkTurn_of_eq hEq
    clear hEq
    cases hTurn
    case check hTurn =>
      cases hTurn
      case forward hSome _ _ _ _ => exact (hForward hSome).elim
      all_goals cases hOut
    all_goals rfl
  case tokenCheck turn hPc hEq =>
    have hTurn := tokenTurn_of_eq hEq
    clear hEq
    cases hTurn
    case forward hSome _ _ _ _ => exact (hForward hSome).elim
    all_goals cases hOut
  case tokenTest turn hPc hEq => exact ((testTurn_of_eq hEq).silent .token).out _ hOut.symm rfl |>.elim
  all_goals simp_all [Pc.tags]

theorem le_tokenSrc_iff (hRank : rank.val ≠ 0) : (· ≤ tokenSrc rank) = (· < rank) := by
  have hBefore : (tokenSrc rank).val = rank.val - 1 := by
    have hLess := rank.isLt
    show (rank.val + n - 1) % n = rank.val - 1
    rw [show rank.val + n - 1 = rank.val - 1 + n by omega, Nat.add_mod_right]
    exact Nat.mod_eq_of_lt (by omega)
  funext r
  rw [eq_iff_iff, Fin.le_def, Fin.lt_def, hBefore]
  omega

theorem le_tokenSrc_zero (hRank : rank.val = 0) : (· ≤ tokenSrc rank) = fun _ => True := by
  have hLast : (tokenSrc rank).val = n - 1 := by
    have hLess := rank.isLt
    show (rank.val + n - 1) % n = n - 1
    rw [hRank, Nat.zero_add]
    exact Nat.mod_eq_of_lt (by omega)
  funext r
  rw [eq_iff_iff, Fin.le_def, hLast, iff_true]
  omega

/-! ## Turns -/

/-- A rank does not make the token that it passes on the terminating one. -/
theorem tokenBuf_of_passedColor {t : Token} (hColor : t.passedColor rank = .terminate) :
    t.tokenBuf = .terminate := by
  unfold Token.passedColor at hColor
  split at hColor
  · cases hColor
  · split at hColor
    · cases hColor
    · exact hColor

/-- If some other rank has the token, or it is in flight, a black rank stays
black. -/
theorem keeps_of_not_local (hReach : Execution cfg ok g)
    (hFires : FifoNet.Fires (mainLoop cfg) g rank input s' out)
    (hLocal : (g rank).state.token.tokenIsLocal = false)
    (hBlack : (g rank).state.token.tokenProc = .black) : s'.token.tokenProc = .black :=
  (tokenStep_of_mainStep (mainStep_of_mainLoop hFires.acts)).keeps_black hLocal
    (hReach.tokenInv rank).incoming hBlack

theorem tokenHeld_of_local (hReach : Execution cfg ok g)
    (hLocal : (g rank).state.token.tokenIsLocal = true) : TokenHeld g rank := by
  rcases tokenHeld_or_tokenFlying hReach.fifo cfg.size_pos hReach.tokenInv with
    ⟨owner, hHeld⟩ | ⟨sender, color, hFlying⟩
  · obtain rfl := (hHeld.held rank).mp hLocal
    exact hHeld
  · simp [hFlying.held rank] at hLocal

theorem not_local_of_mem (hReach : Execution cfg ok g) {src dst : Fin n} {msg : Msg}
    (hMem : msg ∈ inFlight g src dst .token) (r : Fin n) :
    (g r).state.token.tokenIsLocal = false := by
  rw [← Bool.not_eq_true]
  intro hLocal
  rw [(tokenHeld_of_local hReach hLocal).flight] at hMem
  cases hMem

/-- What the token that a rank has received says, before it is taken up. -/
theorem RingInv.incoming (h : RingInv g) (hReach : Execution cfg ok g) {token : Color}
    (hSome : (g rank).state.token.incoming = some token)
    (hToken : token = .terminate ∨ rank.val = 0 ∧ token = .white) (r : Fin n) : Idle g r := by
  by_cases hRank : rank.val = 0
  · have hBack := h.back rank hRank token hSome
    rcases hToken with rfl | ⟨-, rfl⟩
    · exact hBack r
    · exact Swept.all hBack r
  · have hLocal := (hReach.tokenInv rank).incoming (by simp [hSome])
    have hHeld := h.held rank hRank hLocal
    rw [heldColor_of_some hSome] at hHeld
    rcases hToken with rfl | ⟨hZero, -⟩
    · exact hHeld r
    · exact (hRank hZero).elim

/-- A rank that checks for termination has no items. -/
theorem idle_of_checkForTerm (hReach : Execution cfg ok g)
    (hCalm : Calm (g rank).state (g rank).sent) (hPc : (g rank).state.pc = .checkForTerm)
    (hRefused : ∀ src, ∀ msg ∈ inFlight g src rank .workReply, msg.Refuses) : Idle g rank := by
  have hControl := hReach.control rank
  have hFits := hControl.fits
  simp only [State.Fits, hPc, hCalm.flag (by simp [hPc, Pc.early]), Bool.false_eq_true,
    or_false] at hFits
  refine ⟨hFits.2.2, ?_, hRefused⟩
  by_contra hSome
  rcases hControl.phases.receiving hSome with hOther | hOther <;> simp [hPc] at hOther

/-- A rank that passes the token on leaves idle ranks behind it, or a black
rank is still to come. -/
theorem RingInv.pass (h : RingInv g) (hReach : Execution cfg ok g) (hCalm : ∀ r, Calm (g r).state (g r).sent)
    (hFires : FifoNet.Fires (mainLoop cfg) g rank input s' out)
    (hPc : (g rank).state.pc = .checkForTerm) (hNone : (g rank).state.token.incoming = none)
    (hLocal : (g rank).state.token.tokenIsLocal = true)
    (hCovered : (g rank).state.token.passedColor rank = .white →
      (∀ src, ∀ msg ∈ inFlight g src rank .workReply, msg.Refuses) ∨
        ∃ r, rank < r ∧ (g r).state.token.tokenProc = .black) :
    Cleared (FifoNet.set g rank ((g rank).after input s' out)) (· ≤ rank)
      ((g rank).state.token.passedColor rank) := by
  have hOrder : ∀ r other : Fin n, r ≤ rank → ¬ other ≤ rank → r < other := by
    intro r other hPassed hNot
    omega
  refine Cleared.step ?_ hReach hFires hOrder fun _ hNot => (hNot le_rfl).elim
  have hHeld (hRank : rank.val ≠ 0) : Cleared g (· < rank) (g rank).state.token.tokenBuf := by
    rw [← heldColor_of_none hNone]
    exact h.held rank hRank hLocal
  cases hColor : (g rank).state.token.passedColor rank with
  | black => trivial
  | terminate =>
      exact h.ended rank (Or.inr (tokenBuf_of_passedColor hColor))
  | white =>
      -- the rank is idle itself, and a black rank that is to come is not this one
      rcases hCovered hColor with hRefused | ⟨r, hAfter, hBlack⟩
      · have hSelf := idle_of_checkForTerm hReach (hCalm rank) hPc hRefused
        by_cases hRank : rank.val = 0
        · refine Or.inl fun r hPassed => ?_
          obtain rfl : r = rank := Fin.ext (by have := Fin.le_def.mp hPassed; omega)
          exact hSelf
        · have hBuf := hHeld hRank
          unfold Token.passedColor at hColor
          rw [if_neg hRank] at hColor
          split at hColor
          next => cases hColor
          next hNot =>
            rw [hColor] at hBuf
            rcases hBuf with hIdle | ⟨r, hAfter, hBlack⟩
            · refine Or.inl fun r hPassed => ?_
              rcases lt_or_eq_of_le hPassed with hLess | rfl
              · exact hIdle r hLess
              · exact hSelf
            · refine Or.inr ⟨r, fun hPassed => ?_, hBlack⟩
              rcases lt_or_eq_of_le hPassed with hLess | rfl
              · exact hAfter hLess
              · exact hNot hBlack
      · exact Or.inr ⟨r, not_le_of_gt hAfter, hBlack⟩

/-- The token that a rank has after its turn. -/
theorem RingInv.held_step (h : RingInv g) (hReach : Execution cfg ok g)
    (hFires : FifoNet.Fires (mainLoop cfg) g rank input s' out) (hRank : rank.val ≠ 0)
    (hLocal : s'.token.tokenIsLocal = true) :
    Cleared (FifoNet.set g rank ((g rank).after input s' out)) (· < rank) s'.token.heldColor := by
  have hOrder : ∀ r other : Fin n, r < rank → ¬ other < rank → r < other := by
    intro r other hPassed hNot
    omega
  have hInv := hReach.tokenInv rank
  have hStep := tokenStep_of_mainStep (mainStep_of_mainLoop hFires.acts)
  -- what was said of the rank's token is still true
  have hKept (color : Color) (hColor : s'.token.heldColor = color)
      (hHeld : Cleared g (· < rank) color)
      (hKeeps : color = .white → (g rank).state.token.tokenProc = .black →
        s'.token.tokenProc = .black) :
      Cleared (FifoNet.set g rank ((g rank).after input s' out)) (· < rank) s'.token.heldColor := by
    rw [hColor]
    exact hHeld.step hReach hFires hOrder fun hWhite _ => hKeeps hWhite
  generalize s'.token = t at hStep hLocal hKept ⊢
  cases hStep
  case other => exact hKept _ rfl (h.held rank hRank hLocal) fun _ hBlack => hBlack
  case workreq hTurn =>
    refine hKept _ rfl (h.held rank hRank hLocal) fun _ hBlack => ?_
    rcases hTurn.proc_or_black with hSame | hNew
    · exact hSame.trans hBlack
    · exact hNew
  case pass => cases hLocal
  case keep hNone hProc hHeld =>
    have hBuf := h.held rank hRank hHeld
    rw [heldColor_of_none hNone] at hBuf
    refine hKept ((g rank).state.token.passedColor rank) ?_ ?_ ?_
    · simp [Token.heldColor, hNone]
    · rcases passedColor_of_rank_ne_zero (t := (g rank).state.token) hRank with hBlack | hSame
      · rw [hBlack]
        trivial
      · rwa [hSame]
    · intro hWhite hBlack
      simp [Token.passedColor, hRank, hBlack] at hWhite
  case turn hTurn =>
    cases hTurn
    case arrive color hNone =>
      have hFlying := h.flying _ _ color (FifoNet.mem_inFlight_of_admits hFires.admits)
      rw [le_tokenSrc_iff hRank] at hFlying
      exact hKept _ rfl hFlying fun _ hBlack => hBlack
    case nothing => exact hKept _ rfl (h.held rank hRank hLocal) fun _ hBlack => hBlack
    case sent => exact hKept _ rfl (h.held rank hRank hLocal) fun _ hBlack => hBlack
    case accept token hSome hPending hToken hMaster =>
      have hHeld := h.held rank hRank (hInv.incoming (by simp [hSome]))
      rw [heldColor_of_some hSome] at hHeld
      refine hKept _ rfl hHeld ?_
      rintro rfl hBlack
      simpa [Turn.returns] using hBlack
    case forward => cases hLocal
    case stop token hSome hPending hToken hLast =>
      exact hKept .terminate rfl (h.incoming hReach hSome hToken) (by simp)
  case test hTurn =>
    cases hTurn <;> exact hKept _ rfl (h.held rank hRank hLocal) fun _ hBlack => hBlack

theorem ringInv_turn (h : RingInv g) (hReach : Execution cfg ok g)
    (hCalm : ∀ r, Calm (g r).state (g r).sent)
    (hFires : FifoNet.Fires (mainLoop cfg) g rank input s' out)
    (hCovered : input = .tick .go → (g rank).state.passesWhite rank →
      (∀ src, ∀ msg ∈ inFlight g src rank .workReply, msg.Refuses) ∨
        ∃ r, rank < r ∧ (g r).state.token.tokenProc = .black) :
    RingInv (FifoNet.set g rank ((g rank).after input s' out)) := by
  have hInv := hReach.tokenInv rank
  have hMain := mainStep_of_mainLoop hFires.acts
  have hStep := tokenStep_of_mainStep hMain
  constructor
  case flying =>
    intro src dst color hMem
    rcases FifoNet.mem_inFlight_set hMem with hOld | ⟨rfl, rfl⟩
    · refine (h.flying src dst color hOld).step hReach hFires (fun r other hPassed hNot => by omega)
        fun _ _ => keeps_of_not_local hReach hFires (not_local_of_mem hReach hOld rank)
    · -- the token is sent by a rank that passes its color on, or that forwards a terminate token
      obtain ⟨hLocal, -, ⟨hNone, hProc, hColor⟩ | ⟨token, hSome, hToken, hColor⟩⟩ :=
        hStep.of_send hInv.incoming
      · obtain ⟨hPc, rfl⟩ := checkForTerm_of_pass hMain hNone
        injection hColor with hColor
        subst hColor
        exact h.pass hReach hCalm hFires hPc hNone hLocal fun hWhite =>
          hCovered rfl ⟨hPc, hNone, hLocal, hProc, hWhite⟩
      · injection hColor with hColor
        subst hColor
        exact idle_step hReach (h.incoming hReach hSome hToken) hFires
  case held =>
    intro r hRank hLocal
    by_cases hSelf : r = rank
    · subst hSelf
      rw [FifoNet.set_self, FifoNet.Node.after_state] at hLocal ⊢
      exact h.held_step hReach hFires hRank hLocal
    · rw [FifoNet.set_of_ne _ _ hSelf] at hLocal ⊢
      -- another rank has the token, so the acting rank does not
      have hOther : (g rank).state.token.tokenIsLocal = false := by
        rw [← Bool.not_eq_true]
        exact fun hTrue => hSelf (((tokenHeld_of_local hReach hTrue).held r).mp hLocal)
      exact (h.held r hRank hLocal).step hReach hFires (fun a b hPassed hNot => by omega)
        fun _ _ => keeps_of_not_local hReach hFires hOther
  case back =>
    intro r hRank color hSome
    by_cases hSelf : r = rank
    · subst hSelf
      rw [FifoNet.set_self, FifoNet.Node.after_state] at hSome
      -- the token arrives, or is there already
      have hBack : Cleared g (fun _ => True) color := by
        generalize s'.token = t at hStep hSome
        cases hStep
        case turn hTurn =>
          cases hTurn
          case arrive token hNone =>
            injection hSome with hColor
            subst hColor
            have hFlying := h.flying _ _ token (FifoNet.mem_inFlight_of_admits hFires.admits)
            rwa [le_tokenSrc_zero hRank] at hFlying
          case nothing | sent => exact h.back r hRank color hSome
          all_goals cases hSome
        case test hTurn => cases hTurn <;> exact h.back r hRank color hSome
        all_goals exact h.back r hRank color hSome
      exact hBack.step hReach hFires (fun _ _ _ hNot => (hNot trivial).elim)
        fun _ hNot => (hNot trivial).elim
    · rw [FifoNet.set_of_ne _ _ hSelf] at hSome
      exact (h.back r hRank color hSome).step hReach hFires
        (fun _ _ _ hNot => (hNot trivial).elim) fun _ hNot => (hNot trivial).elim
  case ended =>
    intro r hEnded
    refine idle_step hReach ?_ hFires
    by_cases hSelf : r = rank
    · subst hSelf
      rw [FifoNet.set_self, FifoNet.Node.after_state] at hEnded
      generalize s'.token = t at hStep hEnded
      cases hStep
      case other => exact h.ended r hEnded
      case workreq hTurn =>
        rcases hTurn.proc_or_black with hSame | hBlack
        · rw [hSame] at hEnded
          exact h.ended r hEnded
        · rw [hBlack] at hEnded
          exact h.ended r (Or.inr (by simpa using hEnded))
      case pass | keep =>
        exact h.ended r (Or.inr (tokenBuf_of_passedColor (by simpa using hEnded)))
      case turn hTurn =>
        cases hTurn
        case arrive | nothing | sent => exact h.ended r hEnded
        case accept token hSome hPending hToken hMaster =>
          refine h.ended r (Or.inl ?_)
          simp only [Turn.returns, hToken, or_false] at hEnded
          split at hEnded
          · cases hEnded
          · exact hEnded
        case forward hSome _ hToken _ _ | stop hSome _ hToken _ =>
          exact h.incoming hReach hSome hToken
      case test hTurn => cases hTurn <;> exact h.ended r hEnded
    · rw [FifoNet.set_of_ne _ _ hSelf] at hEnded
      exact h.ended r hEnded

end Step

/-! ## Executions -/

/-- What it means that the ring terminates safely. -/
structure RingSafe (g : World n) : Prop where
  /-- In `tokenRecv`, rank 0 has received a white token. -/
  accepts : ∀ r : Fin n, r.val = 0 → (g r).state.token.incoming = some .white → Quiescent g
  /-- Rank 0 has started the terminating token, or another rank has it. -/
  terminated : ∀ r, (g r).state.token.tokenProc = .terminate → Quiescent g
  /-- A rank has left the main loop. -/
  left : ∀ r, (g r).state.cleanup = true → Quiescent g

section Results

variable {g : World n}

theorem ringInv_start {states : Fin n → State n} (hInit : Initial states) :
    RingInv (FifoNet.fresh states) := by
  obtain ⟨start, hStates⟩ := hInit
  constructor
  case flying => simp [inFlight, FifoNet.fresh]
  case held =>
    intro r hRank hLocal
    simp [FifoNet.fresh, hStates, Start.state, hRank] at hLocal
  case back => simp [FifoNet.fresh, hStates, Start.state]
  case ended => simp [FifoNet.fresh, hStates, Start.state]

theorem Execution.ringInv (h : Execution cfg PassesCovered g) : RingInv g := by
  refine FifoNet.Reachable.invariant (I := RingInv) (fun _ hInit => ringInv_start hInit) ?_ h
  intro g rank event input state out hReach hInv hOk hInput hFires
  have hReach : Execution cfg PassesCovered g := hReach
  refine ringInv_turn hInv hReach (hReach.calm fun _ _ _ hOk => hOk.noAbort) hFires ?_
  rintro rfl
  rw [FifoNet.event_of_input_tick hInput] at hOk
  exact hOk

/-- A rank that has terminated keeps its colour. -/
theorem WorkreqTurn.proc_eq_of_retired {cleanup abortFlag : Bool} {w : Work n} {proc : Color}
    {turn : Turn n (Work n × Color) Unit}
    (h : WorkreqTurn cfg rank cleanup abortFlag w proc input turn)
    (hShares : w.replying = true → ∀ count ∈ w.shares, count = 0) : turn.record.2 = proc := by
  cases h
  case header hReplying hRequestors hEq hSending hCount _ _ =>
    exact (hCount (hShares hReplying _ (by simp [hEq]))).elim
  all_goals rfl

theorem CheckTurn.proc_of_true {abortFlag : Bool} {t : Token} {turn : Turn n Token Bool}
    (h : CheckTurn rank abortFlag t input turn) (hResult : turn.result = some true) :
    turn.record.tokenProc = .terminate := by
  cases h
  case terminated hProc => exact hProc
  case check =>
    simp only [Option.map_eq_some_iff, decide_eq_true_eq] at hResult
    obtain ⟨-, -, hProc⟩ := hResult
    exact hProc
  all_goals cases hResult

/-- In ring mode, a rank leaves the main loop with the terminating token. -/
theorem terminate_step (hRing : cfg.termTree = false) (hControl : Control cfg s)
    (hRetired : Retired cfg s) (hOld : s.cleanup = true → s.token.tokenProc = .terminate)
    (hStep : MainStep cfg rank input s s' out) (hCleanup : s'.cleanup = true) :
    s'.token.tokenProc = .terminate := by
  cases hBefore : s.cleanup with
  | true =>
      have hProc := hOld hBefore
      have hToken := tokenStep_of_mainStep hStep
      generalize s'.token = t at hToken ⊢
      cases hToken
      case other => exact hProc
      case workreq hTurn =>
        rw [hTurn.proc_eq_of_retired fun hReplying => (hRetired.shares hBefore hReplying).2]
        exact hProc
      case pass hNot _ | keep hNot _ => exact (hNot hProc).elim
      case turn hTurn =>
        cases hTurn
        case accept => simp [Turn.returns, hProc]
        case forward | stop => rfl
        all_goals exact hProc
      case test hTurn => cases hTurn <;> exact hProc
  | false =>
      have hFits := hControl.fits
      cases hStep
      case checkForTerm turn hPc hTurn =>
        rw [hBefore, Bool.or_false, decide_eq_true_eq] at hCleanup
        exact (checkTurn_of_eq hTurn).proc_of_true hCleanup
      case checkForTermAllReduce hPc hTurn =>
        simp only [State.Fits, hPc] at hFits
        rw [hRing] at hFits
        cases hFits.2.1
      all_goals simp_all

theorem Execution.terminate_of_cleanup {ok : World n → Fin n → Event n → Prop}
    (h : Execution cfg ok g) (hRing : cfg.termTree = false) (r : Fin n)
    (hCleanup : (g r).state.cleanup = true) : (g r).state.token.tokenProc = .terminate := by
  revert hCleanup
  refine h.forall_rank (L := fun _ node =>
    node.state.cleanup = true → node.state.token.tokenProc = .terminate) ?_ ?_ r
  · intro r start hCleanup
    cases hCleanup
  · intro g r input state out hReach hAll _ hStep
    exact terminate_step hRing (hReach.control r) (hReach.retired r) (hAll r) hStep

/-- In ring mode without an abort, termination is safe as long as every pass of
a white token is covered. -/
theorem Execution.ringSafe (h : Execution cfg PassesCovered g) (hRing : cfg.termTree = false) :
    RingSafe g := by
  have hInv := h.ringInv
  have hTerminated (r : Fin n) (hProc : (g r).state.token.tokenProc = .terminate) : Quiescent g :=
    quiescent_of_idle h (hInv.ended r (Or.inl hProc))
  exact {
    accepts := fun r hRank hSome =>
      quiescent_of_idle h (hInv.incoming h hSome (Or.inr ⟨hRank, rfl⟩))
    terminated := hTerminated
    left := fun r hCleanup => hTerminated r (h.terminate_of_cleanup hRing r hCleanup) }

end Results

/-! ## Two ranks -/

/-- Rank 0 of two empties its queue, and both pass on a white token. -/
def roundTurns : List (Fin 2 × Event 2) :=
  passingTurns ++ idleTurns 1 ++
    [(1, .tick (.next (some 0))), (1, .tick .go), (1, .recv 0 .token), (1, .tick .go)] ++
    idleTurns 1 ++ [(1, .tick .go), (1, .tick .go), (1, .tick .go)] ++
    idleTurns 0 ++
    [(0, .tick .go), (0, .tick .go), (0, .recv 1 .token), (0, .synced 1 .token), (0, .tick .go)]

theorem ringSafe_pairWorld : ∃ g,
    FifoNet.runWhile (mainLoop (pairConfig false false)) PassesCovered pairWorld roundTurns =
      some g ∧
    (g 0).state.token.tokenProc = .terminate ∧ RingSafe g := by
  have hEnd : (FifoNet.runWhile (mainLoop (pairConfig false false)) PassesCovered pairWorld
      roundTurns).map (fun g => (g 0).state.token.tokenProc) = some .terminate := by
    decide +kernel
  obtain ⟨g, hRun, hProc⟩ := Option.map_eq_some_iff.mp hEnd
  have hReach : Execution (pairConfig false false) PassesCovered g :=
    FifoNet.Reachable.runWhile (execution_pairWorld _ _) hRun
  exact ⟨g, hRun, hProc, hReach.ringSafe rfl⟩

/-- Rank 0 sends an item to rank 1 and launches the token, which rank 1 passes
on while the item is still under way to it. -/
def losingTurns : List (Fin 2 × Event 2) :=
  givingTurns ++ idleTurns 0 ++ [(0, .tick (.callback [.pop []]))] ++ idleTurns 0 ++
    [(0, .tick (.next (some 1))), (0, .tick .go), (0, .tick .go), (1, .tick .go), (1, .tick .go)] ++
    idleTurns 1 ++ [(1, .tick .go), (1, .tick .go), (1, .recv 0 .token), (1, .tick .go)] ++
    idleTurns 1 ++ [(1, .tick .go), (1, .tick .go), (1, .tick .go)] ++
    idleTurns 0 ++
    [(0, .tick .go), (0, .tick .go), (0, .recv 1 .token), (0, .synced 1 .token), (0, .tick .go)]

/-- Rank 0 terminates, and an item is under way. -/
theorem not_ringSafe_pairWorld : ∃ g, Execution (pairConfig false false) NoAbort g ∧
    (g 0).state.token.tokenProc = .terminate ∧
    inFlight g 0 1 .workReply = [.ints [1, 1, 0], .chars [2]] ∧ ¬ RingSafe g := by
  have hEnd : (FifoNet.runWhile (mainLoop (pairConfig false false)) NoAbort pairWorld
      losingTurns).map (fun g => ((g 0).state.token.tokenProc, inFlight g 0 1 .workReply)) =
      some (.terminate, [.ints [1, 1, 0], .chars [2]]) := by
    decide +kernel
  obtain ⟨g, hRun, hBoth⟩ := Option.map_eq_some_iff.mp hEnd
  rw [Prod.mk.injEq] at hBoth
  obtain ⟨hProc, hFlight⟩ := hBoth
  refine ⟨g, FifoNet.Reachable.runWhile (execution_pairWorld _ _) hRun, hProc, hFlight, ?_⟩
  intro hSafe
  have hRefuses := (hSafe.terminated 0 hProc).refused 0 1 (.ints [1, 1, 0]) (by simp [hFlight])
  revert hRefuses
  decide

end Circle
