import Circle.Protocol.Drained

/-!
# What an execution costs

The number of messages of an execution that has finished, by tag.  The barrier,
the abort reduction and, in tree mode, the reduction for termination each send
one message over every edge of the tree in either direction.  The abort flood
sends at most that, and as many replies as requests.  In the ring the token
goes round a whole number of times, up to the last rank.  The replies to
requests for work are one message each, or two where they carry items.
-/

namespace Circle

open FifoNet (Log inFlight)

variable {n : Nat} {cfg : Config n} {ok : World n → Fin n → Event n → Prop} {g : World n}

/-- The number of messages that all ranks have sent with a tag. -/
def total (g : World n) (tag : Tag) : Nat := ∑ src, ∑ dst, ((g src).sent dst tag).length

/-- What the messages of an execution come to. -/
structure MessageCount (cfg : Config n) (g : World n) : Prop where
  barrier : total g .barrier = 2 * (n - 1)
  abortReduce : total g .abortReduce = 2 * (n - 1)
  /-- There is one reduction for termination in which all ranks contribute. -/
  term : total g .term = if cfg.termTree then 2 * (n - 1) else 0
  /-- The token makes a number of laps, but for the last send of the last one. -/
  token : if cfg.termTree then total g .token = 0 else
    ∃ laps, 0 < laps ∧ total g .token + 1 = n * laps
  flood : total g .abortReply = total g .abortRequest ∧ total g .abortRequest ≤ 2 * (n - 1)
  /-- Each request is answered, by one message or by two and a receipt. -/
  work : total g .workReply = total g .workRequest + total g .workReceipt

/-! ## Over the edges of the tree -/

theorem Execution.barrier_total (h : Execution cfg ok g) (hLate : Late g) :
    total g .barrier = 2 * (n - 1) := by
  have hClosed (r : Fin n) :
      (g r).state.barrier.wave.closed = 1 ∧ (g r).state.barrier.wave.up = 1 := by
    have hOnce := h.unconstrained.closed_eq r
    have hUp := (h.barrierInv r).up_eq
    rw [hLate.leftBarrier r, if_pos rfl] at hOnce
    rw [h.barrierUp_of_left r (hLate.leftBarrier r), hOnce] at hUp
    exact ⟨hOnce, hUp⟩
  have hSum := Wave.sum_sent (fun r => (h.barrierInv r).wave) hClosed
  rwa [Fintype.card_fin, Nat.mul_one] at hSum

theorem Execution.term_total (h : Execution cfg ok g) (hLate : Late g)
    (hTree : cfg.termTree = true) : total g .term = 2 * (n - 1) := by
  have hClosed (r : Fin n) :
      (g r).state.term.wave.closed = 1 ∧ (g r).state.term.wave.up = 1 := by
    have hInv := h.termInv r
    have hOnce := hInv.closed_eq
    have hUp := hInv.tracks.up_eq
    have hEnded : (cfg.termTree && (g r).state.cleanup) = true := by
      rw [hTree, hLate.cleanup h r]
      rfl
    rw [hEnded, if_pos rfl] at hOnce
    rw [hInv.ended_rests hEnded, hOnce] at hUp
    exact ⟨hOnce, hUp⟩
  have hSum := Wave.sum_sent (fun r => (h.termInv r).tracks.inv) hClosed
  rwa [Fintype.card_fin, Nat.mul_one] at hSum

theorem Execution.abortReduce_total (h : Execution cfg ok g) (hDone : Finished g) :
    total g .abortReduce = 2 * (n - 1) := by
  choose entry hInv using h.abortMainInv
  have hAfter (r : Fin n) : ∃ flag, (g r).state.abortStage = .after flag := by
    rcases hDone r with hPc | hPc <;> simp [State.abortStage, hPc]
  choose flag hStage using hAfter
  have hSum := cfg.tree.sum_edges (fun r d => ((g r).sent d .abortReduce).length) 1 ?_ ?_ ?_
  · rwa [Fintype.card_fin, smul_eq_mul, Nat.mul_one] at hSum
  · intro r p hParent
    have hSent := (hInv r).sent_parent p hParent
    rw [hStage r] at hSent
    rw [hSent]
    rfl
  · intro r c hChild
    have hSent := (hInv r).sent_child c hChild
    rw [hStage r] at hSent
    rw [hSent]
    rfl
  · intro r d hNotUp hNotDown
    have hFar : d ∉ cfg.neighbours r := fun hNear =>
      (mem_neighbours_iff.mp hNear).elim hNotUp hNotDown
    rw [h.abortReduce_far r d hFar]
    rfl

/-! ## The abort flood -/

/-- A rank asks each of its neighbours once, or nobody. -/
theorem AbortLedger.requests_le {rank : Fin n} {a : Abort n} {early : Bool}
    {sent rcvd : Log (Fin n) Tag Msg} (h : AbortLedger cfg rank a early sent rcvd) (q : Fin n) :
    (sent q .abortRequest).length ≤ if q ∈ cfg.neighbours rank then 1 else 0 := by
  cases h.asked with
  | nobody hSent _ => simp [hSent q]
  | everybody _ hEach =>
      have hCount := hEach q
      split
      case isTrue hNear =>
        rw [List.count_eq_one_of_mem (nodup_neighbours cfg rank) hNear] at hCount
        omega
      case isFalse hFar =>
        rw [List.count_eq_zero_of_not_mem hFar] at hCount
        omega

theorem Execution.flood_total (h : Execution cfg ok g) (hLate : Late g) :
    total g .abortReply = total g .abortRequest ∧ total g .abortRequest ≤ 2 * (n - 1) := by
  constructor
  · unfold total
    rw [Finset.sum_comm]
    refine Finset.sum_congr rfl fun r _ => Finset.sum_congr rfl fun q _ => ?_
    have hReplied := h.abort_replied
      (h.abortOutstanding_of_started r (h.all_started (hLate.leftBarrier r) r)) q
    obtain ⟨hReply, hAnswer, hRequest⟩ := h.abort_counts r q
    omega
  · have hSum := cfg.tree.sum_edges (fun r q => if q ∈ cfg.neighbours r then 1 else 0) 1
      (fun r p hParent => if_pos (mem_neighbours_iff.mpr (Or.inl hParent)))
      (fun r c hChild => if_pos (mem_neighbours_iff.mpr (Or.inr hChild)))
      (fun r q hNotUp hNotDown => if_neg fun hNear =>
        (mem_neighbours_iff.mp hNear).elim hNotUp hNotDown)
    rw [Fintype.card_fin, smul_eq_mul, Nat.mul_one] at hSum
    calc total g .abortRequest
        ≤ ∑ r, ∑ q, if q ∈ cfg.neighbours r then 1 else 0 :=
          Finset.sum_le_sum fun r _ => Finset.sum_le_sum fun q _ =>
            (h.abortLedger r).requests_le q
      _ = 2 * (n - 1) := hSum

/-! ## Requests for work -/

/-- A reply with items takes two messages, and one without takes one; a header
that is known before, or without its bytes in the end, is half a reply. -/
theorem length_replies {k : Option (List Int)} {log : List Msg} (hAccepts : replies.Accepts k log) :
    log.length + k.toList.length =
      (replies.read k log).length + (replies.read k log).countP (fun items => !items.isEmpty) +
        (replies.after k log).toList.length := by
  induction log generalizing k with
  | nil => simp
  | cons msg rest ih =>
      obtain ⟨hOk, hRest⟩ := hAccepts
      have hNext := ih hRest
      show rest.length + 1 + k.toList.length =
        (replies.out k msg ++ replies.read (replies.next k msg) rest).length +
          (replies.out k msg ++ replies.read (replies.next k msg) rest).countP
            (fun items => !items.isEmpty) +
          (replies.after (replies.next k msg) rest).toList.length
      rw [List.length_append, List.countP_append]
      cases k with
      | none =>
          obtain ⟨items, tail, rfl⟩ := replies_ok_none hOk
          rw [replies_next_none] at hNext ⊢
          rw [replies_out_none]
          by_cases hItems : 0 < items
          · simp only [hItems, if_true, Option.toList_some, Option.toList_none, List.length_cons,
              List.length_nil, List.countP_nil] at hNext ⊢
            omega
          · simp only [hItems, if_false, Option.toList_none, List.length_nil] at hNext ⊢
            simp only [List.length_cons, List.length_nil, List.countP_singleton,
              List.isEmpty_nil, Bool.not_true, Bool.false_eq_true, if_false]
            omega
      | some header =>
          obtain ⟨items, hItems, rfl, rfl⟩ := replies_ok_some hOk
          have hClosed : replies.next (some (encodeHeader items)) (.chars items.flatten) = none :=
            rfl
          rw [hClosed] at hNext ⊢
          rw [replies_out_payload hItems, List.countP_singleton, if_pos (by simp [hItems.ne_nil])]
          simp only [Option.toList_none, Option.toList_some, List.length_cons,
            List.length_nil] at hNext ⊢
          omega

/-- The replies of a rank to another are the requests of the other, and a message
more for each receipt. -/
theorem Execution.replies_length (h : Execution cfg ok g) (hLate : Late g) (src dst : Fin n) :
    ((g src).sent dst .workReply).length =
      ((g dst).sent src .workRequest).length + ((g dst).sent src .workReceipt).length := by
  have hOpened : (g src).state.work.opened dst = none :=
    Work.opened_of_none (h.sending_of_cleanup (hLate.cleanup h src)) dst
  have hSource := (h.workInv src).ledger dst
  have hTarget := (h.workInv dst).ledger src
  obtain ⟨hRequest, hQueued, -, hReply⟩ := h.noRequest hLate dst src
  rw [h.fifo.inFlight_eq_nil_iff] at hRequest hReply
  have hLength := length_replies hSource.accepts
  have hAnswers := hSource.answers
  have hReceipts := hTarget.receipts
  rw [hSource.opened_eq, hOpened] at hLength
  rw [List.count_eq_zero_of_not_mem hQueued, hRequest] at hAnswers
  rw [hReply, transfers] at hReceipts
  simp only [Option.toList_none, List.length_nil] at hLength
  omega

theorem Execution.work_total (h : Execution cfg ok g) (hLate : Late g) :
    total g .workReply = total g .workRequest + total g .workReceipt := by
  unfold total
  rw [Finset.sum_comm, ← Finset.sum_add_distrib]
  refine Finset.sum_congr rfl fun dst _ => ?_
  rw [← Finset.sum_add_distrib]
  exact Finset.sum_congr rfl fun src _ => h.replies_length hLate src dst

/-! ## The token -/

theorem Execution.total_unused (h : Execution cfg ok g) {tag : Tag}
    (hUnused : ∀ s : State n, s.Fits cfg → tag ∉ s.pc.tags) : total g tag = 0 :=
  Finset.sum_eq_zero fun src _ => Finset.sum_eq_zero fun dst _ => by
    rw [h.sent_unused hUnused, List.length_nil]

/-- Once all ranks have terminated, the last one has the token. -/
theorem Execution.token_at_last (h : Execution cfg ok g) (hRing : cfg.termTree = false)
    (hDone : ∀ r, (g r).state.cleanup = true) (r : Fin n) :
    (g r).state.token.tokenIsLocal = true ↔ r.val + 1 = n := by
  have hTerminated (r : Fin n) : (g.token r).tokenProc = .terminate :=
    h.terminate_of_cleanup hRing r (hDone r)
  cases h.ringStage with
  | before hProc _ _ _ => exact (hProc r (hTerminated r)).elim
  | passing d hProc _ _ => exact (Fin.lt_irrefl d ((hProc d).mp (hTerminated d))).elim
  | kept k hProc hLocal _ =>
      have hLast (r : Fin n) : r ≤ k := (hProc r).mp (hTerminated r)
      rw [(tokenHeld_of_local h hLocal).held r]
      constructor
      · rintro rfl
        have hEnd := Fin.le_def.mp (hLast ⟨n - 1, by have := r.isLt; omega⟩)
        have hBound := r.isLt
        simp only at hEnd
        omega
      · intro hEnd
        have hLe := Fin.le_def.mp (hLast r)
        have hBound := k.isLt
        ext
        omega

/-- Each rank has passed the token on as often as the others, but the last one has
kept it in the end. -/
theorem Execution.token_laps (h : Execution cfg ok g) (hRing : cfg.termTree = false)
    (hDone : ∀ r, (g r).state.cleanup = true) :
    ∃ laps, 0 < laps ∧ ∀ r, ((g r).sent (tokenDest r) .token).length +
      (if r.val + 1 = n then 1 else 0) = laps := by
  have hSize : 0 < n := cfg.tree.root.pos
  have hBalance (r : Fin n) : ((g (tokenSrc r)).sent r .token).length +
      (if r.val = 0 then 1 else 0) = ((g r).sent (tokenDest r) .token).length +
        if r.val + 1 = n then 1 else 0 := by
    have hReceived := (h.fifo.inFlight_eq_nil_iff (tokenSrc r) r .token).mp
      (h.token_received hRing hDone _ _)
    have hOwn := (h.tokenInv r).balance
    rw [hReceived] at hOwn
    rw [hOwn]
    simp only [h.token_at_last hRing hDone r]
  let last : Fin n := ⟨n - 1, by omega⟩
  refine ⟨((g last).sent (tokenDest last) .token).length + 1, Nat.succ_pos _, fun r => ?_⟩
  -- from rank 0, which the last rank sends to, along the ring
  obtain ⟨k, hk⟩ := r
  induction k with
  | zero =>
      have hFirst := hBalance ⟨0, hk⟩
      have hSrc : tokenSrc (⟨0, hk⟩ : Fin n) = last := by
        ext
        simp only [tokenSrc, last, Nat.zero_add]
        exact Nat.mod_eq_of_lt (by omega)
      have hDest : (⟨0, hk⟩ : Fin n) = tokenDest last := by
        rw [← hSrc, tokenDest_tokenSrc]
      rw [hSrc, if_pos rfl] at hFirst
      rw [← hFirst, ← hDest]
  | succ k ih =>
      have hBefore := ih (by omega)
      have hNext := hBalance ⟨k + 1, hk⟩
      have hDest : tokenDest (⟨k, by omega⟩ : Fin n) = ⟨k + 1, hk⟩ := by
        ext
        simp only [tokenDest]
        rw [Nat.add_mod_right]
        exact Nat.mod_eq_of_lt hk
      have hSrc : tokenSrc (⟨k + 1, hk⟩ : Fin n) = ⟨k, by omega⟩ := by
        rw [← hDest, tokenSrc_tokenDest]
      rw [hSrc, if_neg (Nat.succ_ne_zero k), ← hDest] at hNext
      rw [if_neg (by simp only; omega)] at hBefore
      rw [← hDest, ← hNext]
      exact hBefore

theorem Execution.token_total (h : Execution cfg ok g) (hRing : cfg.termTree = false)
    (hDone : ∀ r, (g r).state.cleanup = true) :
    ∃ laps, 0 < laps ∧ total g .token + 1 = n * laps := by
  obtain ⟨laps, hPos, hLaps⟩ := h.token_laps hRing hDone
  have hSize : 0 < n := cfg.tree.root.pos
  let last : Fin n := ⟨n - 1, by omega⟩
  have hEach (r : Fin n) : ∑ d, ((g r).sent d .token).length =
      ((g r).sent (tokenDest r) .token).length :=
    Finset.sum_eq_single _ (fun d _ hNe => by
      rw [(h.tokenInv r).sent_other d hNe, List.length_nil]) (by simp)
  have hLast : (∑ r : Fin n, if r.val + 1 = n then 1 else 0) = 1 := by
    have hSame (r : Fin n) : r.val + 1 = n ↔ r = last := by
      simp only [Fin.ext_iff, last]
      omega
    simp only [hSame, Finset.sum_ite_eq', Finset.mem_univ, if_true]
  refine ⟨laps, hPos, ?_⟩
  calc total g .token + 1
      = ∑ r, (((g r).sent (tokenDest r) .token).length + if r.val + 1 = n then 1 else 0) := by
        rw [Finset.sum_add_distrib, hLast, total]
        simp only [hEach]
    _ = n * laps := by
        simp only [hLaps, Finset.sum_const, Finset.card_univ, Fintype.card_fin, smul_eq_mul]

/-! ## All together -/

/-- In an execution that has finished, the messages are counted. -/
theorem Execution.messageCount (h : Execution cfg ok g) (hDone : Finished g) :
    MessageCount cfg g where
  barrier := h.barrier_total hDone.late
  abortReduce := h.abortReduce_total hDone
  term := by
    cases hMode : cfg.termTree with
    | true => exact h.term_total hDone.late hMode
    | false => exact h.total_unused (term_unused hMode)
  token := by
    cases hMode : cfg.termTree with
    | true => exact h.total_unused (token_unused hMode)
    | false => exact h.token_total hMode (hDone.cleanup h)
  flood := h.flood_total hDone.late
  work := h.work_total hDone.late

/-- Rank 0 of two gives an item away in a ring, and the token goes round twice. -/
theorem messageCount_pairWorld : ∃ g,
    FifoNet.run (mainLoop (pairConfig false false)) pairWorld settledTurns = some g ∧
    total g .token = 3 ∧ total g .workReceipt = 1 ∧
    MessageCount (pairConfig false false) g := by
  have hEnd : (FifoNet.run (mainLoop (pairConfig false false)) pairWorld settledTurns).map
      (fun g => ((g 0).state.pc, (g 1).state.pc, total g .token, total g .workReceipt)) =
        some (.done, .done, 3, 1) := by
    decide +kernel
  obtain ⟨g, hRun, hAll⟩ := Option.map_eq_some_iff.mp hEnd
  simp only [Prod.mk.injEq] at hAll
  obtain ⟨hFirst, hSecond, hToken, hReceipt⟩ := hAll
  exact ⟨g, hRun, hToken, hReceipt,
    Execution.messageCount (FifoNet.Reachable.run (execution_pairWorld _ _) hRun)
      (Fin.forall_fin_two.mpr ⟨Or.inr hFirst, Or.inr hSecond⟩)⟩

end Circle
