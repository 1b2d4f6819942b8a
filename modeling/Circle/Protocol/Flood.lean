import Circle.Protocol.Cleanup
import Circle.Protocol.Quiescence

/-!
# The abort flood

A rank that aborts outside cleanup asks each of its neighbours once, and waits
for their replies before it joins the barrier (`AbortLedger`).  Every request
is answered.  So the flood is over, and its two channels are empty, before a
rank leaves the barrier.
-/

namespace Circle

open FifoNet (Log inFlight)

variable {n : Nat} {cfg : Config n} {rank : Fin n} {input : Input n} {s s' : State n}
  {out : Option (Packet n)} {sent rcvd : Log (Fin n) Tag Msg} {a : Abort n} {early : Bool}

/-- The parent is no child. -/
theorem nodup_neighbours (cfg : Config n) (r : Fin n) : (cfg.neighbours r).Nodup := by
  unfold Config.neighbours
  refine List.nodup_append.mpr ⟨?_, cfg.tree.nodup_children r, ?_⟩
  · cases cfg.tree.parent r <;> simp
  · intro p hParent c hChild hSame
    subst hSame
    have hUp := cfg.tree.order_lt (Option.mem_toList.mp hParent)
    have hDown := cfg.tree.order_lt (cfg.tree.parent_of_mem hChild)
    omega

/-! ## What a rank knows -/

/-- How far the requests of a rank are: none is meant to be sent, or each
neighbour has been sent one or is still to be sent one. -/
inductive Asked (cfg : Config n) (rank : Fin n) (a : Abort n) (early : Bool)
    (sent : Log (Fin n) Tag Msg) : Prop where
  | nobody (hSent : ∀ q, sent q .abortRequest = []) (hToSend : a.toSend = [])
  | everybody (hState : early = true → a.abortState = true)
      (hEach : ∀ q, (sent q .abortRequest).length + a.toSend.count q =
        (cfg.neighbours rank).count q)

/-- What a rank knows about its part of the flood; `early` tells whether it is
before `abortReduce`. -/
structure AbortLedger (cfg : Config n) (rank : Fin n) (a : Abort n) (early : Bool)
    (sent rcvd : Log (Fin n) Tag Msg) : Prop where
  asked : Asked cfg rank a early sent
  awaited : ∀ q, (sent q .abortRequest).length =
    (rcvd q .abortReply).length + a.awaited.count q
  answered : ∀ q, (sent q .abortReply).length = (rcvd q .abortRequest).length
  outstanding : a.abortOutstanding = false → a.toSend = [] ∧ a.awaited = []

theorem abortLedger_start (start : Start rank) :
    AbortLedger cfg rank start.state.abort true (fun _ _ => []) (fun _ _ => []) where
  asked := .nobody (fun _ => rfl) rfl
  awaited := fun _ => rfl
  answered := fun _ => rfl
  outstanding := fun _ => ⟨rfl, rfl⟩

/-- Turns that leave the requests alone, and do not leave the abort state
before `abortReduce`. -/
theorem AbortLedger.frame (h : AbortLedger cfg rank a early sent rcvd) {a' : Abort n}
    {early' : Bool} {sent' rcvd' : Log (Fin n) Tag Msg}
    (hState : early' = true → early = true ∧ (a.abortState = true → a'.abortState = true))
    (hToSend : a'.toSend = a.toSend) (hAwaited : a'.awaited = a.awaited)
    (hOutstanding : a'.abortOutstanding = false → a.abortOutstanding = false ∨
      a.toSend = [] ∧ a.awaited = [])
    (hRequests : ∀ q, sent' q .abortRequest = sent q .abortRequest)
    (hReplies : ∀ q, rcvd' q .abortReply = rcvd q .abortReply)
    (hAnswered : ∀ q, (sent' q .abortReply).length = (rcvd' q .abortRequest).length) :
    AbortLedger cfg rank a' early' sent' rcvd' where
  asked := by
    cases h.asked with
    | nobody hSent hNone =>
        exact .nobody (fun q => (hRequests q).trans (hSent q)) (hToSend.trans hNone)
    | everybody hBegun hEach =>
        refine .everybody (fun hEarly => (hState hEarly).2 (hBegun (hState hEarly).1)) fun q => ?_
        rw [hRequests, hToSend]
        exact hEach q
  awaited := by
    intro q
    rw [hRequests, hReplies, hAwaited]
    exact h.awaited q
  answered := hAnswered
  outstanding := by
    intro hNone
    rw [hToSend, hAwaited]
    rcases hOutstanding hNone with hBefore | hDone
    · exact h.outstanding hBefore
    · exact hDone

/-- `abortStart` sets the flag and, where the flood is to begin, plans a
request to each neighbour. -/
theorem AbortLedger.abortStart (h : AbortLedger cfg rank a true sent rcvd) (cleanup : Bool) :
    AbortLedger cfg rank (a.abortStart cfg rank cleanup) true sent rcvd := by
  have hSame {a' : Abort n} (hState : a.abortState = true → a'.abortState = true)
      (hToSend : a'.toSend = a.toSend) (hAwaited : a'.awaited = a.awaited)
      (hOutstanding : a'.abortOutstanding = a.abortOutstanding) :
      AbortLedger cfg rank a' true sent rcvd :=
    h.frame (fun _ => ⟨rfl, hState⟩) hToSend hAwaited
      (fun hNone => Or.inl (hOutstanding.symm.trans hNone)) (fun _ => rfl) (fun _ => rfl) h.answered
  by_cases hBegun : a.abortState = true
  · have hStart : a.abortStart cfg rank cleanup = { a with abortFlag := true } := by
      simp [Abort.abortStart, hBegun]
    rw [hStart]
    exact hSame (fun _ => hBegun) rfl rfl rfl
  · by_cases hCleanup : cleanup = true
    · have hStart : a.abortStart cfg rank cleanup =
          { a with abortFlag := true, abortState := true } := by
        simp [Abort.abortStart, hBegun, hCleanup]
      rw [hStart]
      exact hSame (fun _ => rfl) rfl rfl rfl
    · have hStart : a.abortStart cfg rank cleanup =
          { a with
            abortFlag := true
            abortState := true
            toSend := cfg.neighbours rank
            abortOutstanding := !(cfg.neighbours rank).isEmpty } := by
        simp [Abort.abortStart, hBegun, hCleanup]
      rw [hStart]
      cases h.asked with
      | everybody hState => exact absurd (hState rfl) hBegun
      | nobody hSent hToSend =>
          have hAwaited : a.awaited = [] := by
            refine List.eq_nil_iff_forall_not_mem.mpr fun q hMem => ?_
            have hCount := h.awaited q
            have hPositive := List.count_pos_iff.mpr hMem
            rw [hSent q, List.length_nil] at hCount
            omega
          refine ⟨.everybody (fun _ => rfl) fun q => ?_, h.awaited, h.answered, fun hNone => ?_⟩
          · rw [hSent q, List.length_nil, Nat.zero_add]
          · exact ⟨by simpa using hNone, hAwaited⟩

/-- A turn of `abortCheck`. -/
theorem AbortLedger.turn (h : AbortLedger cfg rank a true sent rcvd) {cleanup : Bool}
    {turn : Turn n (Abort n) Unit} (hTurn : AbortTurn cfg rank cleanup a input turn) :
    AbortLedger cfg rank turn.record true (sent.send turn.out) (rcvd.receive input) := by
  have hPhase {a' : Abort n} (hState : a'.abortState = a.abortState)
      (hToSend : a'.toSend = a.toSend) (hAwaited : a'.awaited = a.awaited)
      (hOutstanding : a'.abortOutstanding = false → a.abortOutstanding = false ∨
        a.toSend = [] ∧ a.awaited = []) : AbortLedger cfg rank a' true sent rcvd :=
    h.frame (fun _ => ⟨rfl, fun hBegun => hState.trans hBegun⟩) hToSend hAwaited hOutstanding
      (fun _ => rfl) (fun _ => rfl) h.answered
  cases hTurn
  case request neighbour rest hToSend =>
    -- the neighbour goes from those still to be asked to those that owe a reply
    have hCons (peers : List (Fin n)) (q : Fin n) :
        (neighbour :: peers).count q = peers.count q + if q = neighbour then 1 else 0 := by
      rw [List.count_cons]
      by_cases hSelf : q = neighbour
      · simp [hSelf]
      · simp [hSelf, Ne.symm hSelf]
    refine ⟨?_, fun q => ?_, fun q => ?_, fun hNone => ?_⟩
    · cases h.asked with
      | nobody hSent hNone => exact absurd (hToSend.symm.trans hNone) (List.cons_ne_nil _ _)
      | everybody hState hEach =>
          refine .everybody hState fun q => ?_
          have hBefore := hEach q
          rw [hToSend, hCons] at hBefore
          simp only [Turn.sends, Log.send_some, Log.length_add_same_tag]
          omega
    · have hBefore := h.awaited q
      simp only [Turn.sends, Log.send_some, Log.length_add_same_tag, Log.receive_tick, hCons]
      omega
    · rw [Turn.sends, Log.send_some, Log.add_of_tag_ne _ _ _ _ (by decide)]
      exact h.answered q
    · have hDone := (h.outstanding hNone).1
      exact absurd (hToSend.symm.trans hDone) (List.cons_ne_nil _ _)
  case enter =>
    have hProbe : AbortLedger cfg rank { a with phase := .probe } true sent rcvd :=
      hPhase rfl rfl rfl Or.inl
    exact hProbe.abortStart cleanup
  case pass | noRequest => exact hPhase rfl rfl rfl Or.inl
  case answer src msg hToSend hProbe =>
    -- the reply goes out in the turn in which the request comes in
    have hTest : AbortLedger cfg rank { a with phase := .test } true sent rcvd :=
      hPhase rfl rfl rfl Or.inl
    have hTags : Tag.abortRequest ≠ .abortReply := by decide
    refine (hTest.abortStart cleanup).frame (fun _ => ⟨rfl, fun hState => hState⟩) rfl rfl Or.inl
      (fun q => Log.add_of_tag_ne _ _ _ _ hTags) (fun q => Log.add_of_tag_ne _ _ _ _ hTags.symm)
      fun q => ?_
    · have hBefore := h.answered q
      simp only [Turn.sends, Log.send_some, Log.receive_recv, Log.length_add_same_tag]
      omega
  case reply src msg hToSend hTest hSrc =>
    refine ⟨?_, fun q => ?_, fun q => ?_, fun hNone => ?_⟩
    · cases h.asked with
      | nobody hSent hNone => exact .nobody hSent hNone
      | everybody hState hEach => exact .everybody hState hEach
    · have hBefore := h.awaited q
      -- a reply is only taken in from a neighbour that owes one
      have hPositive := List.count_pos_iff.mpr hSrc
      simp only [Turn.stays, Log.send_none, Log.receive_recv, Log.length_add_same_tag]
      by_cases hSelf : q = src
      · subst hSelf
        rw [if_pos rfl, List.count_erase_self]
        omega
      · rw [if_neg hSelf, List.count_erase_of_ne hSelf]
        omega
    · rw [Turn.stays, Log.send_none, Log.receive_recv, Log.add_of_tag_ne _ _ _ _ (by decide)]
      exact h.answered q
    · have hDone := (h.outstanding hNone).2
      exact absurd (hDone ▸ hSrc) List.not_mem_nil
  case complete hToSend hTest hOutstanding hAwaited =>
    exact hPhase rfl rfl rfl fun _ => Or.inr ⟨hToSend, hAwaited⟩
  case wait => exact hPhase rfl rfl rfl Or.inl

theorem AbortLedger.weaken (h : AbortLedger cfg rank a true sent rcvd) (early : Bool) :
    AbortLedger cfg rank a early sent rcvd where
  asked := by
    cases h.asked with
    | nobody hSent hToSend => exact .nobody hSent hToSend
    | everybody hState hEach => exact .everybody (fun _ => hState rfl) hEach
  awaited := h.awaited
  answered := h.answered
  outstanding := h.outstanding

theorem AbortLedger.step (h : AbortLedger cfg rank s.abort s.pc.early sent rcvd)
    (hStep : MainStep cfg rank input s s' out) :
    AbortLedger cfg rank s'.abort s'.pc.early (sent.send out) (rcvd.receive input) := by
  have hEarly := early_of_step hStep
  have hFlood := floodStep_of_mainStep hStep
  generalize s'.abort = a', s'.pc.early = early' at hEarly hFlood ⊢
  have hSilent {a' : Abort n} {input : Input n} {out : Option (Packet n)}
      (hState : early' = true → s.abort.abortState = true → a'.abortState = true)
      (hToSend : a'.toSend = s.abort.toSend) (hAwaited : a'.awaited = s.abort.awaited)
      (hOutstanding : a'.abortOutstanding = s.abort.abortOutstanding)
      (hRequest : Silent .abortRequest input out) (hReply : Silent .abortReply input out) :
      AbortLedger cfg rank a' early' (sent.send out) (rcvd.receive input) :=
    h.frame (fun hLate => ⟨hEarly hLate, hState hLate⟩) hToSend hAwaited
      (fun hNone => Or.inl (hOutstanding.symm.trans hNone)) (hRequest.sent _) (hReply.rcvd _)
      fun q => by
        rw [hReply.sent, hRequest.rcvd]
        exact h.answered q
  cases hFlood
  case other hRequest hReply => exact hSilent (fun _ hState => hState) rfl rfl rfl hRequest hReply
  case raise =>
    exact hSilent (fun _ hState => hState) rfl rfl rfl (silent_tick _ _) (silent_tick _ _)
  case request hPc hTurn =>
    exact hSilent (fun _ hState => hState) rfl rfl rfl
      (hTurn.silent (by decide) (by decide) (by decide))
      (hTurn.silent (by decide) (by decide) (by decide))
  case turn hPc hTurn =>
    rw [hPc] at h
    exact AbortLedger.weaken (AbortLedger.turn h hTurn) early'
  case agree flag hPc hRequest hReply =>
    refine hSilent (fun hLate => ?_) rfl rfl rfl hRequest hReply
    have hBefore := hEarly hLate
    rw [hPc] at hBefore
    cases hBefore

/-- In cleanup no request is planned. -/
theorem FloodStep.toSend_of_cleanup {a' : Abort n} (h : FloodStep cfg rank s input a' out)
    (hCleanup : s.cleanup = true) (hToSend : a'.toSend ≠ []) : s.abort.toSend ≠ [] := by
  cases h
  case turn hPc hTurn =>
    rw [hCleanup] at hTurn
    have hStart (a : Abort n) : (a.abortStart cfg rank true).toSend = a.toSend := by
      unfold Abort.abortStart
      by_cases hState : a.abortState = true <;> simp [hState]
    cases hTurn
    case request hPlanned => exact hPlanned ▸ List.cons_ne_nil _ _
    case enter =>
      rw [Turn.stays, hStart] at hToSend
      exact hToSend
    case answer =>
      rw [Turn.sends, hStart] at hToSend
      exact hToSend
    all_goals exact hToSend
  all_goals exact hToSend

/-- Where no request is planned, none is sent. -/
theorem FloodStep.requests_eq {a' : Abort n} (h : FloodStep cfg rank s input a' out)
    (hToSend : s.abort.toSend = []) (sent : Log (Fin n) Tag Msg) (q : Fin n) :
    sent.send out q .abortRequest = sent q .abortRequest := by
  cases h
  case other hRequest hReply => exact hRequest.sent _ _
  case raise => rfl
  case request hPc hTurn => exact (hTurn.silent (by decide) (by decide) (by decide)).sent _ _
  case turn hPc hTurn =>
    cases hTurn
    case request hPlanned => exact absurd (hPlanned.symm.trans hToSend) (List.cons_ne_nil _ _)
    case answer =>
      have hTags : Tag.abortRequest ≠ .abortReply := by decide
      exact Log.add_of_tag_ne _ _ _ _ hTags
    all_goals rfl
  case agree => rfl

/-! ## Executions -/

section Executions

variable {ok : World n → Fin n → Event n → Prop} {g g' : World n}

theorem Execution.abortLedger (h : Execution cfg ok g) (rank : Fin n) :
    AbortLedger cfg rank (g rank).state.abort (g rank).state.pc.early (g rank).sent
      (g rank).rcvd := by
  refine h.forall_rank (L := fun rank node =>
    AbortLedger cfg rank node.state.abort node.state.pc.early node.sent node.rcvd) ?_ ?_ rank
  · intro rank start
    exact abortLedger_start start
  · intro g rank input s' out _ hAll _ hStep
    exact (hAll rank).step hStep

/-- Requests are planned outside cleanup only. -/
theorem Execution.cleanup_of_toSend (h : Execution cfg ok g) (rank : Fin n) :
    (g rank).state.abort.toSend ≠ [] → (g rank).state.cleanup = false := by
  refine h.forall_rank (L := fun _ node => node.state.abort.toSend ≠ [] →
    node.state.cleanup = false) ?_ ?_ rank
  · intro rank start hToSend
    exact absurd rfl hToSend
  · intro g rank input s' out hReach hAll _ hStep hToSend
    rw [FifoNet.Node.after_state] at hToSend ⊢
    rw [← Bool.not_eq_true]
    intro hCleanup
    have hPc := (control_step (hReach.control rank) hStep).phases.abort (Or.inr hToSend)
    rcases cleanup_of_step hStep hCleanup with hBefore | hTop
    · have hOld := hAll rank ((floodStep_of_mainStep hStep).toSend_of_cleanup hBefore hToSend)
      rw [hBefore] at hOld
      cases hOld
    · rw [hPc] at hTop
      cases hTop

/-- A rank that has started the barrier waits for no reply to a request. -/
theorem Execution.abortOutstanding_of_started (h : Execution cfg ok g) (rank : Fin n)
    (hEntered : (g rank).state.barrier.Entered) :
    (g rank).state.abort.abortOutstanding = false := by
  refine (h.of_started (P := fun s => s.abort.abortOutstanding = false) ?_ ?_ rank hEntered).2
  · intro s _ hReady
    simp only [State.readyForBarrier, Bool.and_eq_true, Bool.not_eq_true'] at hReady
    exact hReady.1.2
  · intro g rank input s' out hReach hAdmits hStep hCleanup hNone
    have hFlood := floodStep_of_mainStep hStep
    generalize s'.abort = a' at hFlood ⊢
    have hStart (a : Abort n) : (a.abortStart cfg rank true).abortOutstanding =
        a.abortOutstanding := by
      unfold Abort.abortStart
      by_cases hState : a.abortState = true <;> simp [hState]
    cases hFlood
    case turn hPc hTurn =>
      rw [hCleanup] at hTurn
      cases hTurn
      case enter | answer => exact (hStart _).trans hNone
      case complete => rfl
      all_goals exact hNone
    all_goals exact hNone

/-- A rank in cleanup sends no request any more. -/
theorem Execution.requests_of_cleanup (h : Execution cfg ok g) {rank : Fin n}
    (hCleanup : (g rank).state.cleanup = true) {events : List (Fin n × Event n)}
    (hRun : FifoNet.run (mainLoop cfg) g events = some g') (q : Fin n) :
    (g' rank).sent q .abortRequest = (g rank).sent q .abortRequest := by
  have hAlways : Execution cfg FifoNet.always g :=
    FifoNet.Reachable.weaken h fun _ _ _ _ => trivial
  clear h
  rename Execution cfg FifoNet.always g => h
  induction events generalizing g with
  | nil =>
      cases hRun
      rfl
  | cons first rest ih =>
      obtain ⟨next, hNext, hRest⟩ := Option.bind_eq_some_iff.mp hRun
      have hReach : Execution cfg FifoNet.always next := h.step trivial hNext
      obtain ⟨input, s', out, -, hFires, rfl⟩ := FifoNet.step_cases hNext
      by_cases hSelf : rank = first.1
      · have hStep := mainStep_of_mainLoop hFires.acts
        rw [← hSelf] at hStep hReach hRest
        have hToSend : (g rank).state.abort.toSend = [] := by
          by_contra hPlanned
          have hBefore := h.cleanup_of_toSend rank hPlanned
          rw [hCleanup] at hBefore
          cases hBefore
        rw [ih (by rw [FifoNet.set_self]; exact cleanup_step hCleanup hStep) hRest hReach,
          FifoNet.set_self, FifoNet.Node.after_sent]
        exact (floodStep_of_mainStep hStep).requests_eq hToSend _ q
      · rw [ih (by rwa [FifoNet.set_of_ne _ _ hSelf]) hRest hReach, FifoNet.set_of_ne _ _ hSelf]

/-- The abort flood is answered and drained. -/
structure AnsweredAndDrained (cfg : Config n) (g : World n) : Prop where
  /-- Requests go to neighbours only, -/
  neighbour : ∀ r q, (g r).sent q .abortRequest ≠ [] → q ∈ cfg.neighbours r
  /-- to each of them at most once, -/
  once : ∀ r q, ((g r).sent q .abortRequest).length ≤ 1
  /-- and to all of them, once `abortStart` has sent what it began to send. -/
  all : ∀ r, (∃ q, (g r).sent q .abortRequest ≠ []) → (g r).state.abort.toSend = [] →
    ∀ q ∈ cfg.neighbours r, ((g r).sent q .abortRequest).length = 1
  /-- From cleanup or the start of the barrier on, a rank sends no request. -/
  outside : ∀ r, (g r).state.cleanup = true ∨ (g r).state.barrier.Entered →
    ∀ events g', FifoNet.run (mainLoop cfg) g events = some g' →
      ∀ q, (g' r).sent q .abortRequest = (g r).sent q .abortRequest
  /-- Every request is answered once, to its sender. -/
  answered : ∀ r q, ((g r).sent q .abortReply).length = ((g r).rcvd q .abortRequest).length
  /-- A rank that has asked and is not waiting has been heard and answered. -/
  completed : ∀ r, (∃ q, (g r).sent q .abortRequest ≠ []) →
    (g r).state.abort.abortOutstanding = false → ∀ q ∈ cfg.neighbours r,
      ((g q).rcvd r .abortRequest).length = 1 ∧ ((g r).rcvd q .abortReply).length = 1
  /-- Nothing is under way when a rank leaves the barrier. -/
  drained : ∀ r, (g r).state.pc.leftBarrier = true → ∀ p q,
    inFlight g p q .abortRequest = [] ∧ inFlight g p q .abortReply = []

/-- The numbers of messages between two ranks, of which one has asked. -/
theorem Execution.abort_counts (h : Execution cfg ok g) (r q : Fin n) :
    ((g r).rcvd q .abortReply).length ≤ ((g q).sent r .abortReply).length ∧
      ((g q).sent r .abortReply).length = ((g q).rcvd r .abortRequest).length ∧
      ((g q).rcvd r .abortRequest).length ≤ ((g r).sent q .abortRequest).length :=
  ⟨h.fifo.length_le q r .abortReply, (h.abortLedger q).answered r,
    h.fifo.length_le r q .abortRequest⟩

/-- A rank that does not wait has heard from all it has asked. -/
theorem Execution.abort_replied (h : Execution cfg ok g) {r : Fin n}
    (hNone : (g r).state.abort.abortOutstanding = false) (q : Fin n) :
    ((g r).rcvd q .abortReply).length = ((g r).sent q .abortRequest).length := by
  have hAwaited := (h.abortLedger r).awaited q
  rw [((h.abortLedger r).outstanding hNone).2, List.count_nil, Nat.add_zero] at hAwaited
  exact hAwaited.symm

/-- In every execution, whoever sets an `ABORT_FLAG` and whenever, the abort
flood is answered, and drained before a rank leaves the barrier. -/
theorem Execution.answeredAndDrained (h : Execution cfg ok g) : AnsweredAndDrained cfg g where
  neighbour := by
    intro r q hSent
    cases (h.abortLedger r).asked with
    | nobody hNone hToSend => exact absurd (hNone q) hSent
    | everybody hState hEach =>
        have hCount := hEach q
        have hPositive := List.length_pos_iff.mpr hSent
        exact List.count_pos_iff.mp (by omega)
  once := by
    intro r q
    cases (h.abortLedger r).asked with
    | nobody hNone hToSend => simp [hNone q]
    | everybody hState hEach =>
        have hCount := hEach q
        have hOnce := List.nodup_iff_count_le_one.mp (nodup_neighbours cfg r) q
        omega
  all := by
    rintro r ⟨p, hSent⟩ hToSend q hMem
    cases (h.abortLedger r).asked with
    | nobody hNone _ => exact absurd (hNone p) hSent
    | everybody hState hEach =>
        have hCount := hEach q
        rwa [hToSend, List.count_nil, Nat.add_zero,
          List.count_eq_one_of_mem (nodup_neighbours cfg r) hMem] at hCount
  outside := by
    intro r hLate events g' hRun q
    refine h.requests_of_cleanup ?_ hRun q
    rcases hLate with hCleanup | hEntered
    · exact hCleanup
    · exact (h.of_started (P := fun _ => True) (fun _ _ _ => trivial)
        (fun _ _ _ _ _ _ _ _ _ _ => trivial) r hEntered).1
  answered := fun r q => (h.abortLedger r).answered q
  completed := by
    rintro r ⟨p, hSent⟩ hNone q hMem
    cases (h.abortLedger r).asked with
    | nobody hNobody _ => exact absurd (hNobody p) hSent
    | everybody hState hEach =>
        have hCount := hEach q
        rw [((h.abortLedger r).outstanding hNone).1, List.count_nil, Nat.add_zero,
          List.count_eq_one_of_mem (nodup_neighbours cfg r) hMem] at hCount
        have hReplied := h.abort_replied hNone q
        obtain ⟨hReply, hAnswer, hRequest⟩ := h.abort_counts r q
        omega
  drained := by
    intro r hLeft p q
    have hAsker := h.abort_replied (h.abortOutstanding_of_started p (h.all_started hLeft p)) q
    have hOther := h.abort_replied (h.abortOutstanding_of_started q (h.all_started hLeft q)) p
    obtain ⟨hReply, hAnswer, hRequest⟩ := h.abort_counts p q
    obtain ⟨hReply', hAnswer', hRequest'⟩ := h.abort_counts q p
    constructor
    · rw [h.fifo.inFlight_eq_nil_iff]
      exact (h.fifo p q .abortRequest).eq_of_length (by omega)
    · rw [h.fifo.inFlight_eq_nil_iff]
      exact (h.fifo p q .abortReply).eq_of_length (by omega)

end Executions

/-- Rank 0 aborts, asks rank 1 and hears from it. -/
def floodTurns : List (Fin 2 × Event 2) :=
  [(0, .tick .raiseAbort), (0, .tick .go), (0, .tick .go), (0, .tick .go), (0, .tick .go),
    (0, .tick .go), (1, .tick .go), (1, .tick .go), (1, .tick .go), (1, .recv 0 .abortRequest),
    (0, .recv 1 .abortReply), (0, .tick (.tested true))]

theorem answeredAndDrained_pairWorld : ∃ g,
    FifoNet.run (mainLoop (pairConfig true false)) pairWorld floodTurns = some g ∧
    (g 0).state.abort.abortState = true ∧ (g 0).state.abort.abortOutstanding = false ∧
    AnsweredAndDrained (pairConfig true false) g := by
  have hEnd : (FifoNet.run (mainLoop (pairConfig true false)) pairWorld floodTurns).map
      (fun g => ((g 0).state.abort.abortState, (g 0).state.abort.abortOutstanding)) =
        some (true, false) := by
    decide +kernel
  obtain ⟨g, hRun, hAnswered⟩ := Option.map_eq_some_iff.mp hEnd
  rw [Prod.mk.injEq] at hAnswered
  exact ⟨g, hRun, hAnswered.1, hAnswered.2,
    Execution.answeredAndDrained (FifoNet.Reachable.run (execution_pairWorld _ FifoNet.always) hRun)⟩

end Circle
