import Circle.Base.FifoNet

/-!
# Processes that begin again

A process that has ended can begin again, on the channels it has used before
and while others have not ended.  Nobody tells the others, and a message does not
say which round it belongs to.

The rounds stay apart all the same when a process ends only after all have
begun and nothing is under way to it, and when those that are still in the old
round do not take the messages of the next one.  Every system is then made of
separate runs, one for each round.
-/

namespace FifoNet

variable {ι τ μ σ χ ρ κ : Type}

/-- A process, the number of times that it has begun again, and what it keeps
from round to round without using it in a round. -/
structure Repeated (σ κ : Type) where
  round : Nat
  state : σ
  kept : κ

/-- A process that has just begun. -/
def Node.new (state : σ) : Node ι τ μ σ :=
  { state := state, sent := fun _ _ => [], rcvd := fun _ _ => [] }

/-- What an input is for: the program, or the choice to begin again. -/
def Input.part : Input ι τ μ (χ ⊕ ρ) → Input ι τ μ χ ⊕ ρ
  | .tick (.inl choice) => .inl (.tick choice)
  | .tick (.inr choice) => .inr choice
  | .recv src tag msg => .inl (.recv src tag msg)
  | .synced dst tag => .inl (.synced dst tag)

/-- The program of a process that can begin again. -/
def again (prog : Program ι τ μ σ χ) (restart : ι → ρ → κ → σ → Option (σ × κ)) :
    Program ι τ μ (Repeated σ κ) (χ ⊕ ρ) := fun i input s =>
  match input.part with
  | .inl input => (prog i input s.state).map fun (state, out) => ({ s with state := state }, out)
  | .inr choice =>
      (restart i choice s.kept s.state).map fun (state, kept) => (⟨s.round + 1, state, kept⟩, none)

/-- What a turn of a process that can begin again is. -/
theorem again_cases {prog : Program ι τ μ σ χ} {restart : ι → ρ → κ → σ → Option (σ × κ)} {i : ι}
    {input : Input ι τ μ (χ ⊕ ρ)} {s s' : Repeated σ κ} {out : Option (Packet ι τ μ)}
    (h : again prog restart i input s = some (s', out)) :
    (∃ input' state, input.part = .inl input' ∧ prog i input' s.state = some (state, out) ∧
        s' = { s with state := state }) ∨
      ∃ choice state kept, input = .tick (.inr choice) ∧
        restart i choice s.kept s.state = some (state, kept) ∧
        s' = ⟨s.round + 1, state, kept⟩ ∧ out = none := by
  unfold again at h
  split at h
  next input' hPart =>
    obtain ⟨⟨state, out'⟩, hActs, hEq⟩ := Option.map_eq_some_iff.mp h
    cases hEq
    exact Or.inl ⟨input', state, hPart, hActs, rfl⟩
  next choice hPart =>
    obtain ⟨⟨state, kept⟩, hRestart, hEq⟩ := Option.map_eq_some_iff.mp h
    cases hEq
    refine Or.inr ⟨choice, state, kept, ?_, hRestart, rfl, rfl⟩
    -- only the choice to begin again has this part
    cases input with
    | tick other =>
        cases other with
        | inl other => cases hPart
        | inr other =>
            cases hPart
            rfl
    | recv src tag msg => cases hPart
    | synced dst tag => cases hPart

/-- A message more at the end of a history. -/
theorem Log.send_append [DecidableEq ι] [DecidableEq τ] {log log' : Log ι τ μ} {front : List μ}
    {p : ι} {t : τ} (h : log p t = front ++ log' p t) (out : Option (Packet ι τ μ)) :
    log.send out p t = front ++ log'.send out p t := by
  cases out with
  | none => exact h
  | some packet =>
      show log.add packet.dst packet.tag packet.msg p t =
        front ++ log'.add packet.dst packet.tag packet.msg p t
      unfold Log.add
      split
      · rw [h, List.append_assoc]
      · exact h

theorem Log.receive_append [DecidableEq ι] [DecidableEq τ] {log log' : Log ι τ μ} {front : List μ}
    {p : ι} {t : τ} (h : log p t = front ++ log' p t) (input : Input ι τ μ χ) :
    log.receive input p t = front ++ log'.receive input p t := by
  cases input with
  | recv src tag msg => exact Log.send_append h (some ⟨src, tag, msg⟩)
  | tick choice => exact h
  | synced dst tag => exact h

theorem receive_part [DecidableEq ι] [DecidableEq τ] {input : Input ι τ μ (χ ⊕ ρ)}
    {input' : Input ι τ μ χ} (hPart : input.part = .inl input') (log : Log ι τ μ) :
    log.receive input = log.receive input' := by
  cases input with
  | tick choice =>
      cases choice with
      | inl choice =>
          cases hPart
          rfl
      | inr choice => cases hPart
  | recv src tag msg =>
      cases hPart
      rfl
  | synced dst tag =>
      cases hPart
      rfl

/-- Every process has just begun. -/
def Begins (first : ι → σ → Prop) (states : ι → σ) : Prop := ∀ i, first i (states i)

/-- Every process takes only turns that its own state allows. -/
def Allows (allowed : ι → σ → Prop) (g : System ι τ μ σ) (i : ι) (_ : Event ι τ χ) : Prop :=
  allowed i (g i).state

/-- A round, in which those that have not come to it have just begun. -/
def during (G : System ι τ μ (Repeated σ κ)) (f : Nat → System ι τ μ σ) (k : Nat) (rest : ι → σ) :
    System ι τ μ σ :=
  fun i => if k ≤ (G i).state.round then f k i else Node.new (rest i)

theorem during_of_le {G : System ι τ μ (Repeated σ κ)} (f : Nat → System ι τ μ σ) {k : Nat}
    (rest : ι → σ) {i : ι} (hRound : k ≤ (G i).state.round) : during G f k rest i = f k i :=
  if_pos hRound

theorem during_of_lt {G : System ι τ μ (Repeated σ κ)} (f : Nat → System ι τ μ σ) {k : Nat}
    (rest : ι → σ) {i : ι} (hRound : (G i).state.round < k) :
    during G f k rest i = Node.new (rest i) :=
  if_neg (Nat.not_le.mpr hRound)

/-- What a process has sent, or received, in its first rounds. -/
def history (log : Nat → List μ) (rounds : Nat) : List μ := (List.range rounds).flatMap log

theorem history_succ (log : Nat → List μ) (rounds : Nat) :
    history log (rounds + 1) = history log rounds ++ log rounds := by
  simp [history, List.range_succ]

theorem history_congr {log log' : Nat → List μ} {rounds : Nat}
    (hSame : ∀ k, k < rounds → log k = log' k) : history log rounds = history log' rounds := by
  unfold history
  exact List.flatMap_congr fun k hMem => hSame k (List.mem_range.mp hMem)

section Rounds

variable [DecidableEq ι] [DecidableEq τ]

/-- What keeps the rounds of a program apart. -/
structure KeepsRounds (prog : Program ι τ μ σ χ) (restart : ι → ρ → κ → σ → Option (σ × κ))
    (first : ι → σ → Prop) (allowed : ι → σ → Prop) (ended : σ → Prop) : Prop where
  /-- A process begins again when it has ended, -/
  restarts : ∀ g i choice kept state kept', Reachable prog (Begins first) (Allows allowed) g →
    restart i choice kept (g i).state = some (state, kept') → ended (g i).state ∧ first i state
  /-- it ends when all have begun, -/
  begun : ∀ g i j state, Reachable prog (Begins first) (Allows allowed) g →
    ended (g i).state → first j state → g j ≠ Node.new state
  /-- and when nothing is under way to it. -/
  drained : ∀ g i src tag, Reachable prog (Begins first) (Allows allowed) g →
    ended (g i).state → inFlight g src i tag = []
  /-- Once one has ended, nobody takes a message of a run that he has not
  begun. -/
  deaf : ∀ g h i src state tag msg, Reachable prog (Begins first) (Allows allowed) g →
    Reachable prog (Begins first) (Allows allowed) h → ended (g src).state → first i state →
    h i = Node.new state → msg ∈ (h src).sent i tag →
    prog i (.recv src tag msg) (g i).state = none

variable {prog : Program ι τ μ σ χ} {restart : ι → ρ → κ → σ → Option (σ × κ)} {first : ι → σ → Prop}
  {allowed : ι → σ → Prop} {ended : σ → Prop} {G : System ι τ μ (Repeated σ κ)}
  {f : Nat → System ι τ μ σ}

/-- A system is made of the rounds `f`. -/
structure Splits (prog : Program ι τ μ σ χ) (first : ι → σ → Prop) (allowed : ι → σ → Prop)
    (ended : σ → Prop) (G : System ι τ μ (Repeated σ κ)) (f : Nat → System ι τ μ σ) : Prop where
  begins : ∀ i, ∃ state, first i state
  /-- Every round is a run, however those begin that have not come to it. -/
  reachable : ∀ k rest, Begins first rest →
    Reachable prog (Begins first) (Allows allowed) (during G f k rest)
  current : ∀ i, (f (G i).state.round i).state = (G i).state.state
  ended : ∀ i k, k < (G i).state.round → ended (f k i).state
  sent : ∀ i dst tag,
    (G i).sent dst tag = history (fun k => (f k i).sent dst tag) ((G i).state.round + 1)
  rcvd : ∀ i src tag,
    (G i).rcvd src tag = history (fun k => (f k i).rcvd src tag) ((G i).state.round + 1)

namespace Splits

variable (hKeeps : KeepsRounds prog restart first allowed ended)
  (h : Splits prog first allowed ended G f)

include hKeeps h

/-- No process is two rounds behind another. -/
theorem round_le (i j : ι) : (G i).state.round ≤ (G j).state.round + 1 := by
  by_contra hFar
  rw [Nat.not_le] at hFar
  choose rest hRest using h.begins
  refine hKeeps.begun _ i j (rest j) (h.reachable ((G j).state.round + 1) rest hRest) ?_ (hRest j)
    (during_of_lt f rest (Nat.lt_succ_self _))
  rw [during_of_le f rest hFar.le]
  exact h.ended i _ hFar

/-- In the rounds that a process has ended, it has received everything. -/
theorem rcvd_eq_sent {k : Nat} {dst : ι} (hPast : k < (G dst).state.round) (src : ι) (tag : τ) :
    (f k dst).rcvd src tag = (f k src).sent dst tag := by
  choose rest hRest using h.begins
  have hReach := h.reachable k rest hRest
  have hSrc : k ≤ (G src).state.round := by
    have hBound := h.round_le hKeeps dst src
    omega
  have hDrained := hKeeps.drained _ dst src tag hReach (by
    rw [during_of_le f rest hPast.le]
    exact h.ended dst k hPast)
  have hEq := (hReach.fifo.inFlight_eq_nil_iff src dst tag).mp hDrained
  rwa [during_of_le f rest hPast.le, during_of_le f rest hSrc] at hEq

/-- What is under way to a process is what is under way in its own round, then
what those have sent that are in the next one. -/
theorem inFlight_eq {rest : ι → σ} (hRest : Begins first rest) (src dst : ι) (tag : τ) :
    inFlight G src dst tag =
      inFlight (during G f (G dst).state.round rest) src dst tag ++
        if (G src).state.round = (G dst).state.round + 1 then
          (f (G src).state.round src).sent dst tag
        else [] := by
  have hFifo := (h.reachable (G dst).state.round rest hRest).fifo src dst tag
  have hPast : history (fun k => (f k dst).rcvd src tag) (G dst).state.round =
      history (fun k => (f k src).sent dst tag) (G dst).state.round :=
    history_congr fun k hk => h.rcvd_eq_sent hKeeps hk src tag
  have hLow := h.round_le hKeeps src dst
  have hHigh := h.round_le hKeeps dst src
  rw [during_of_le f rest (Nat.le_refl _)] at hFifo
  rw [inFlight, inFlight, h.sent, h.rcvd, history_succ _ (G dst).state.round, hPast,
    during_of_le f rest (Nat.le_refl (G dst).state.round)]
  rcases Nat.lt_trichotomy (G src).state.round (G dst).state.round with hLess | hSame | hMore
  · -- the sender has not begun this round
    have hEq : (G dst).state.round = (G src).state.round + 1 := by omega
    rw [during_of_lt f rest hLess] at hFifo ⊢
    have hNone : (f (G dst).state.round dst).rcvd src tag = [] := List.prefix_nil.mp hFifo
    rw [if_neg (by omega), hNone, ← hEq]
    simp [Node.new]
  · rw [during_of_le f rest hSame.ge] at hFifo ⊢
    rw [if_neg (by omega), hSame, history_succ, List.length_append, ← List.drop_drop,
      List.drop_left, List.append_nil]
  · have hEq : (G src).state.round = (G dst).state.round + 1 := by omega
    rw [during_of_le f rest hMore.le] at hFifo ⊢
    rw [if_pos hEq, hEq, history_succ, history_succ, List.append_assoc, List.length_append,
      ← List.drop_drop, List.drop_left, List.drop_append_of_le_length hFifo.length_le]

/-- An input that a process takes is one of its own round. -/
theorem admits_during {rest : ι → σ} (hRest : Begins first rest) {i : ι}
    {input : Input ι τ μ (χ ⊕ ρ)} {input' : Input ι τ μ χ} (hPart : input.part = .inl input')
    (hAdmits : Admits G i input) (hActs : prog i input' (G i).state.state ≠ none) :
    Admits (during G f (G i).state.round rest) i input' := by
  have hReach := h.reachable (G i).state.round rest hRest
  cases input with
  | tick choice =>
      cases choice with
      | inl choice =>
          cases hPart
          exact True.intro
      | inr choice => cases hPart
  | recv src tag msg =>
      cases hPart
      obtain ⟨later, hLater⟩ := hAdmits
      rw [h.inFlight_eq hKeeps hRest src i tag] at hLater
      cases hFlight : inFlight (during G f (G i).state.round rest) src i tag with
      | cons head tail =>
          rw [hFlight, List.cons_append] at hLater
          cases hLater
          exact ⟨tail, hFlight⟩
      | nil =>
          -- the message is one of the next round, and the process does not take it
          rw [hFlight, List.nil_append] at hLater
          split at hLater
          next hNext =>
            have hPast : (G i).state.round < (G src).state.round := by omega
            have hDeaf := hKeeps.deaf _ _ i src (rest i) tag msg hReach
              (h.reachable (G src).state.round rest hRest) (by
                rw [during_of_le f rest hPast.le]
                exact h.ended src _ hPast)
              (hRest i) (during_of_lt f rest hPast) (by
                rw [during_of_le f rest (Nat.le_refl _), hLater]
                exact List.mem_cons_self)
            rw [during_of_le f rest (Nat.le_refl _), h.current i] at hDeaf
            exact (hActs hDeaf).elim
          next => cases hLater
  | synced dst tag =>
      cases hPart
      have hNone : inFlight G i dst tag = [] := hAdmits
      rw [h.inFlight_eq hKeeps hRest i dst tag, List.append_eq_nil_iff] at hNone
      have hLow := h.round_le hKeeps i dst
      have hHigh := h.round_le hKeeps dst i
      show inFlight (during G f (G i).state.round rest) i dst tag = []
      rcases Nat.lt_trichotomy (G i).state.round (G dst).state.round with hLess | hSame | hMore
      · -- the receiver has ended this round, and has received everything
        refine hKeeps.drained _ dst i tag hReach ?_
        rw [during_of_le f rest hLess.le]
        exact h.ended dst _ hLess
      · rw [hSame]
        exact hNone.1
      · -- nothing has been sent in this round
        have hSent := hNone.2
        rw [if_pos (by omega)] at hSent
        rw [inFlight, during_of_le f rest (Nat.le_refl _), hSent, List.drop_nil]

/-- A turn is one of the round that the process is in, or begins the next
one. -/
theorem fires_during {rest : ι → σ} (hRest : Begins first rest) {i : ι}
    {input : Input ι τ μ (χ ⊕ ρ)} {s' : Repeated σ κ} {out : Option (Packet ι τ μ)}
    (hFires : Fires (again prog restart) G i input s' out) :
    (∃ input', input.part = .inl input' ∧ s'.round = (G i).state.round ∧
        Fires prog (during G f (G i).state.round rest) i input' s'.state out) ∨
      ∃ choice, input = .tick (.inr choice) ∧ s'.round = (G i).state.round + 1 ∧
        ended (G i).state.state ∧ first i s'.state ∧ out = none := by
  have hState : (during G f (G i).state.round rest i).state = (G i).state.state := by
    rw [during_of_le f rest (Nat.le_refl _), h.current i]
  rcases again_cases hFires.acts with
    ⟨input', state, hPart, hActs, rfl⟩ | ⟨choice, state, kept, rfl, hRestart, rfl, rfl⟩
  · refine Or.inl ⟨input', hPart, rfl, ?_, by rw [hState, hActs]⟩
    exact h.admits_during hKeeps hRest hPart hFires.admits (by simp [hActs])
  · obtain ⟨hEnded, hFirst⟩ := hKeeps.restarts _ i choice _ state kept
      (h.reachable (G i).state.round rest hRest) (by rw [hState, hRestart])
    rw [hState] at hEnded
    exact Or.inr ⟨choice, rfl, rfl, hEnded, hFirst, rfl⟩

omit hKeeps in
/-- The round of a process goes on. -/
theorem reachable_goOn {i : ι} {input : Input ι τ μ χ} {state : σ} {out : Option (Packet ι τ μ)}
    (hAllowed : allowed i (G i).state.state)
    (hAdmits : ∀ rest, Begins first rest → Admits (during G f (G i).state.round rest) i input)
    (hActs : prog i input (G i).state.state = some (state, out)) {rest : ι → σ}
    (hRest : Begins first rest) :
    Reachable prog (Begins first) (Allows allowed)
      (set (during G f (G i).state.round rest) i
        ((f (G i).state.round i).after input state out)) := by
  have hNode := during_of_le f rest (Nat.le_refl (G i).state.round)
  have hState : (during G f (G i).state.round rest i).state = (G i).state.state := by
    rw [hNode, h.current i]
  have hFires : Fires prog (during G f (G i).state.round rest) i input state out :=
    ⟨hAdmits rest hRest, by rw [hState, hActs]⟩
  obtain ⟨event, hStep⟩ := hFires.exists_step
  rw [hNode] at hStep
  refine (h.reachable _ rest hRest).step ?_ hStep
  show allowed i (during G f (G i).state.round rest i).state
  rwa [hState]

/-- A turn of the program. -/
theorem goOn {i : ι} {input : Input ι τ μ (χ ⊕ ρ)} {input' : Input ι τ μ χ} {state : σ}
    {out : Option (Packet ι τ μ)} (hPart : input.part = .inl input')
    (hAllowed : allowed i (G i).state.state) (hAdmits : Admits G i input)
    (hActs : prog i input' (G i).state.state = some (state, out)) :
    Splits prog first allowed ended
      (set G i ((G i).after input { (G i).state with state := state } out))
      (Function.update f (G i).state.round
        (set (f (G i).state.round) i ((f (G i).state.round i).after input' state out))) := by
  generalize hG : set G i ((G i).after input { (G i).state with state := state } out) = G'
  generalize hf : Function.update f (G i).state.round
    (set (f (G i).state.round) i ((f (G i).state.round i).after input' state out)) = f'
  -- no process changes its round, and only the process at hand its state in it
  have hRound (j : ι) : (G' j).state.round = (G j).state.round := by
    subst hG
    by_cases hSelf : j = i
    · subst hSelf
      rw [set_self, Node.after_state]
    · rw [set_of_ne _ _ hSelf]
  have hSame (k : Nat) (j : ι) (hNe : ¬ (k = (G i).state.round ∧ j = i)) : f' k j = f k j := by
    subst hf
    by_cases hk : k = (G i).state.round
    · rw [hk, Function.update_self, set_of_ne _ _ fun hSelf => hNe ⟨hk, hSelf⟩]
    · rw [Function.update_of_ne hk]
  have hOwn : f' (G i).state.round i = (f (G i).state.round i).after input' state out := by
    subst hf
    rw [Function.update_self, set_self]
  exact {
    begins := h.begins
    reachable := by
      intro k rest hRest
      by_cases hk : k = (G i).state.round
      · subst hk
        -- the run of this round takes the same step
        convert h.reachable_goOn hAllowed
          (fun rest hRest => h.admits_during hKeeps hRest hPart hAdmits (by simp [hActs]))
          hActs hRest using 1
        funext j
        by_cases hSelf : j = i
        · subst hSelf
          rw [set_self, during, hRound, if_pos (Nat.le_refl _), hOwn]
        · rw [set_of_ne _ _ hSelf, during, during, hRound, hSame _ _ fun hBoth => hSelf hBoth.2]
      · convert h.reachable k rest hRest using 1
        funext j
        rw [during, during, hRound, hSame _ _ fun hBoth => hk hBoth.1]
    current := by
      intro j
      rw [hRound]
      by_cases hSelf : j = i
      · subst hSelf
        rw [hOwn, ← hG, set_self, Node.after_state, Node.after_state]
      · rw [hSame _ _ fun hBoth => hSelf hBoth.2, h.current, ← hG, set_of_ne _ _ hSelf]
    ended := by
      intro j k hk
      rw [hRound] at hk
      rw [hSame]
      · exact h.ended j k hk
      · rintro ⟨rfl, rfl⟩
        exact Nat.lt_irrefl _ hk
    sent := by
      intro j dst tag
      rw [hRound, history_succ, history_congr fun k hk => by
        rw [hSame k j (by rintro ⟨rfl, rfl⟩; exact Nat.lt_irrefl _ hk)]]
      by_cases hSelf : j = i
      · subst hSelf
        rw [hOwn, ← hG, set_self, Node.after_sent, Node.after_sent]
        exact Log.send_append (by rw [h.sent, history_succ]) out
      · rw [hSame _ _ fun hBoth => hSelf hBoth.2, ← hG, set_of_ne _ _ hSelf, h.sent, history_succ]
    rcvd := by
      intro j src tag
      rw [hRound, history_succ, history_congr fun k hk => by
        rw [hSame k j (by rintro ⟨rfl, rfl⟩; exact Nat.lt_irrefl _ hk)]]
      by_cases hSelf : j = i
      · subst hSelf
        rw [hOwn, ← hG, set_self, Node.after_rcvd, Node.after_rcvd, receive_part hPart]
        exact Log.receive_append (by rw [h.rcvd, history_succ]) input'
      · rw [hSame _ _ fun hBoth => hSelf hBoth.2, ← hG, set_of_ne _ _ hSelf, h.rcvd,
          history_succ] }

omit hKeeps in
/-- A process begins again. -/
theorem beginAgain {i : ι} (choice : ρ) {state : σ} (kept : κ) (hEnded : ended (G i).state.state)
    (hFirst : first i state) :
    Splits prog first allowed ended
      (set G i ((G i).after (.tick (.inr choice) : Input ι τ μ (χ ⊕ ρ))
        ⟨(G i).state.round + 1, state, kept⟩ none))
      (Function.update f ((G i).state.round + 1)
        (set (f ((G i).state.round + 1)) i (Node.new state))) := by
  generalize hG : set G i ((G i).after (.tick (.inr choice) : Input ι τ μ (χ ⊕ ρ))
    ⟨(G i).state.round + 1, state, kept⟩ none) = G'
  generalize hf : Function.update f ((G i).state.round + 1)
    (set (f ((G i).state.round + 1)) i (Node.new state)) = f'
  -- only the process at hand changes, and only in the round that it enters
  have hOther {j : ι} (hSelf : j ≠ i) : G' j = G j := by
    subst hG
    rw [set_of_ne _ _ hSelf]
  have hNode : G' i = { (G i) with state := ⟨(G i).state.round + 1, state, kept⟩ } := by
    subst hG
    rw [set_self]
    rfl
  have hSame (k : Nat) (j : ι) (hNe : ¬ (k = (G i).state.round + 1 ∧ j = i)) : f' k j = f k j := by
    subst hf
    by_cases hk : k = (G i).state.round + 1
    · rw [hk, Function.update_self, set_of_ne _ _ fun hSelf => hNe ⟨hk, hSelf⟩]
    · rw [Function.update_of_ne hk]
  have hOwn : f' ((G i).state.round + 1) i = Node.new state := by
    subst hf
    rw [Function.update_self, set_self]
  exact {
    begins := h.begins
    reachable := by
      intro k rest hRest
      by_cases hk : k = (G i).state.round + 1
      · -- this is the run in which the process has begun with its new state
        subst hk
        convert h.reachable ((G i).state.round + 1) (Function.update rest i state) ?_ using 1
        · funext j
          by_cases hSelf : j = i
          · subst hSelf
            rw [during, hNode, if_pos (Nat.le_refl _), hOwn,
              during_of_lt f _ (Nat.lt_succ_self _), Function.update_self]
          · rw [during, during, hOther hSelf, hSame _ _ fun hBoth => hSelf hBoth.2,
              Function.update_of_ne hSelf]
        · intro j
          by_cases hSelf : j = i
          · subst hSelf
            rwa [Function.update_self]
          · rw [Function.update_of_ne hSelf]
            exact hRest j
      · convert h.reachable k rest hRest using 1
        funext j
        rw [during, during, hSame _ _ fun hBoth => hk hBoth.1]
        by_cases hSelf : j = i
        · subst hSelf
          have hRange : k ≤ (G j).state.round + 1 ↔ k ≤ (G j).state.round := by omega
          simp only [hNode, hRange]
        · rw [hOther hSelf]
    current := by
      intro j
      by_cases hSelf : j = i
      · subst hSelf
        rw [hNode, hOwn]
        rfl
      · rw [hOther hSelf, hSame _ _ fun hBoth => hSelf hBoth.2, h.current]
    ended := by
      intro j k hk
      by_cases hSelf : j = i
      · subst hSelf
        rw [hNode] at hk
        rw [hSame _ _ fun hBoth => (Nat.ne_of_lt hk) hBoth.1]
        rcases Nat.lt_succ_iff_lt_or_eq.mp hk with hPast | rfl
        · exact h.ended j k hPast
        · rwa [h.current]
      · rw [hOther hSelf] at hk
        rw [hSame _ _ fun hBoth => hSelf hBoth.2]
        exact h.ended j k hk
    sent := by
      intro j dst tag
      by_cases hSelf : j = i
      · subst hSelf
        rw [hNode, history_succ, hOwn, history_congr fun k hk => by
          rw [hSame k j fun hBoth => (Nat.ne_of_lt hk) hBoth.1]]
        show (G j).sent dst tag = _ ++ []
        rw [List.append_nil, h.sent]
      · rw [hOther hSelf, h.sent]
        exact history_congr fun k _ => by rw [hSame _ _ fun hBoth => hSelf hBoth.2]
    rcvd := by
      intro j src tag
      by_cases hSelf : j = i
      · subst hSelf
        rw [hNode, history_succ, hOwn, history_congr fun k hk => by
          rw [hSame k j fun hBoth => (Nat.ne_of_lt hk) hBoth.1]]
        show (G j).rcvd src tag = _ ++ []
        rw [List.append_nil, h.rcvd]
      · rw [hOther hSelf, h.rcvd]
        exact history_congr fun k _ => by rw [hSame _ _ fun hBoth => hSelf hBoth.2] }

end Splits

/-- Every process is in its first round, and has just begun. -/
def BeginsFirst (first : ι → σ → Prop) (states : ι → Repeated σ κ) : Prop :=
  ∀ i, (states i).round = 0 ∧ first i (states i).state

/-- The rounds of a program that keeps them apart do not mix. -/
theorem Reachable.splits (hKeeps : KeepsRounds prog restart first allowed ended)
    {init : (ι → Repeated σ κ) → Prop} (hInit : ∀ states, init states → BeginsFirst first states)
    (h : Reachable (again prog restart) init (Allows fun i s => allowed i s.state) G) :
    ∃ f, Splits prog first allowed ended G f := by
  refine h.invariant (I := fun G => ∃ f, Splits prog first allowed ended G f) ?_ ?_
  · intro states hStart
    have hBegins := hInit states hStart
    refine ⟨fun _ i => Node.new (states i).state, ?_⟩
    have hRound (i : ι) : (fresh states i : Node ι τ μ (Repeated σ κ)).state.round = 0 :=
      (hBegins i).1
    exact {
      begins := fun i => ⟨_, (hBegins i).2⟩
      reachable := by
        intro k rest hRest
        have hMixed : Begins first fun i => if k ≤ 0 then (states i).state else rest i := by
          intro i
          dsimp only
          split
          · exact (hBegins i).2
          · exact hRest i
        have hStart : Reachable prog (Begins first) (Allows allowed)
            (fresh fun i => if k ≤ 0 then (states i).state else rest i) := .start hMixed
        convert hStart using 1
        funext i
        rw [during, hRound]
        split <;> rfl
      current := fun i => rfl
      ended := fun i k hk => by
        rw [hRound] at hk
        exact (Nat.not_lt_zero _ hk).elim
      sent := fun i dst tag => by
        rw [hRound]
        rfl
      rcvd := fun i src tag => by
        rw [hRound]
        rfl }
  · rintro G i event input s' out - ⟨f, hSplits⟩ hOk - hFires
    rcases again_cases hFires.acts with
      ⟨input', state, hPart, hActs, rfl⟩ | ⟨choice, state, kept, rfl, hRestart, rfl, rfl⟩
    · exact ⟨_, hSplits.goOn hKeeps hPart hOk hFires.admits hActs⟩
    · choose rest hRest using hSplits.begins
      have hReach := hSplits.reachable (G i).state.round rest hRest
      have hState : (during G f (G i).state.round rest i).state = (G i).state.state := by
        rw [during_of_le f rest (Nat.le_refl _), hSplits.current i]
      obtain ⟨hEnded, hFirst⟩ := hKeeps.restarts _ i choice _ state kept hReach
        (by rw [hState, hRestart])
      rw [hState] at hEnded
      exact ⟨_, hSplits.beginAgain choice kept hEnded hFirst⟩

end Rounds

end FifoNet
