import Circle.Protocol.RingAbort
import Circle.Protocol.Flood
import Circle.Protocol.Pairing
import Circle.Protocol.Termination

/-!
# Room for replies

The replies that are still to come have to fit the `int` arithmetic of
`sendWork` and `extendOffsets`.  Where no rank processes items, because
`ABORT_FLAG` is up, they keep fitting it.
-/

namespace Circle

open FifoNet (Log inFlight)

variable {n : Nat} {cfg : Config n} {rank : Fin n} {input : Input n} {s s' : State n}
  {out : Option (Packet n)} {g g' : World n}

/-! ## The offset arrays -/

theorem WorkreqTurn.offsets_le {cleanup abortFlag : Bool} {w : Work n} {proc : Color}
    {turn : Turn n (Work n × Color) Unit}
    (h : WorkreqTurn cfg rank cleanup abortFlag w proc input turn)
    (hOffsets : w.offsetsCount ≤ intMax) : turn.record.1.offsetsCount ≤ intMax := by
  cases h
  case header count shares sent _ _ _ _ _ _ hSend =>
    show sent.offsetsCount ≤ intMax
    obtain ⟨numoffsets, -, hRest⟩ := Option.bind_eq_some_iff.mp hSend
    obtain ⟨extended, hExtend, hEnd⟩ := Option.bind_eq_some_iff.mp hRest
    split at hEnd
    · cases hEnd
    · cases hEnd
      exact (extendOffsets_bounds hOffsets hExtend).2.2
  all_goals exact hOffsets

theorem RequestTurn.offsets_le {cleanup : Bool} {w : Work n} {abortFlag : Bool}
    {turn : Turn n (Work n × Bool) Outcome}
    (h : RequestTurn cfg rank cleanup w abortFlag input turn)
    (hOffsets : w.offsetsCount ≤ intMax) : turn.record.1.offsetsCount ≤ intMax := by
  cases h
  case noItems hExtend _ | header hExtend _ => exact (extendOffsets_bounds hOffsets hExtend).2.2
  all_goals exact hOffsets

/-- The capacity of the offset arrays stays an `int`. -/
theorem Execution.offsets_le {ok : World n → Fin n → Event n → Prop} (h : Execution cfg ok g)
    (r : Fin n) : (g r).state.work.offsetsCount ≤ intMax := by
  refine h.forall_rank (L := fun _ node => node.state.work.offsetsCount ≤ intMax) ?_ ?_ r
  · intro rank start
    exact start.offsets_le
  · intro g rank input s' out _ hAll _ hStep
    have hWork := workStep_of_mainStep hStep
    show s'.work.offsetsCount ≤ intMax
    generalize s'.work = next at hWork
    cases hWork
    case other => exact hAll rank
    case workreq hTurn => exact hTurn.offsets_le (hAll rank)
    case receipt hTurn => cases hTurn <;> exact hAll rank
    case request hTurn => exact hTurn.offsets_le (hAll rank)
    case callback hWork =>
      obtain ⟨result, -, rfl⟩ := Option.map_eq_some_iff.mp hWork
      exact hAll rank

/-- The arrays grow in steps of 4096. -/
theorem growthFits_of_room {amount current : Nat} (hCurrent : current ≤ intMax)
    (hRoom : amount + 4095 ≤ intMax) : GrowthFits 4096 amount current := by
  refine ⟨(amount - current + 4095) / 4096, ?_, ?_⟩ <;> omega

/-! ## Room for the replies -/

/-- The requests and replies that are left meet no bound of `int`. -/
structure Room (g : World n) : Prop where
  items : ∀ r, (g r).state.work.queue.count + 4097 ≤ intMax
  bytes : ∀ r, (g r).state.work.queue.head ≤ intMax
  header : ∀ r header, (g r).state.work.receiving = some header → header.length + 4095 ≤ intMax
  flight : ∀ src dst header, Msg.ints header ∈ inFlight g src dst .workReply →
    header.length + 4095 ≤ intMax

/-- A queue that is made of the items of a header is within the bounds. -/
theorem Sendable.room {items : List Item} (h : Sendable items) {q : Queue} (hHolds : q.Holds items)
    (hHeader : (encodeHeader items).length + 4095 ≤ intMax) :
    q.count + 4097 ≤ intMax ∧ q.head ≤ intMax := by
  have hHead := hHolds.head_eq
  have hBytes := h.bytes_le
  rw [length_encodeHeader] at hHeader
  rw [hHolds.count_eq]
  omega

theorem length_header_of_sendWork {offsetsCount : Nat} {q : Queue} {count : Nat} {work : SentWork}
    (hSend : sendWork offsetsCount q count = some work) : work.header.length ≤ 2 + count := by
  unfold sendWork at hSend
  simp only [Option.bind_eq_bind, Option.bind_eq_some_iff] at hSend
  obtain ⟨_, -, _, -, hSend⟩ := hSend
  split at hSend
  · cases hSend
  · cases hSend
    simp only [List.length_cons, List.length_map, List.length_take]
    omega

/-- What the turns of `workreqCheck` leave in the queue, and say. -/
theorem WorkreqTurn.room {cleanup abortFlag : Bool} {w : Work n} {proc : Color}
    {turn : Turn n (Work n × Color) Unit}
    (h : WorkreqTurn cfg rank cleanup abortFlag w proc input turn) (hStock : Stock w)
    (hItems : w.queue.count + 4097 ≤ intMax) (hBytes : w.queue.head ≤ intMax) :
    turn.record.1.queue.count + 4097 ≤ intMax ∧ turn.record.1.queue.head ≤ intMax ∧
      turn.record.1.receiving = w.receiving ∧
      ∀ dst header, turn.out = some ⟨dst, .workReply, .ints header⟩ →
        header.length + 4095 ≤ intMax := by
  cases h
  case noWork =>
    refine ⟨hItems, hBytes, rfl, fun dst header hOut => ?_⟩
    cases hOut
    simp only [List.length_singleton]
    omega
  case header dest requestors count shares sent hReplying hRequestors hShares hSending hCount
      hSegment hSend =>
    refine ⟨hItems, hBytes, rfl, fun dst header hOut => ?_⟩
    cases hOut
    have hSum := hStock.shares_sum hReplying
    rw [hShares, List.sum_cons] at hSum
    have hLength := length_header_of_sendWork hSend
    omega
  case payload dest requestors count shares sent hReplying hRequestors hShares hSending =>
    obtain ⟨-, front, back, hAnnounced⟩ := hStock.sending sent hSending
    have hCount := hAnnounced.holds.count_eq
    have hHead := hAnnounced.holds.head_eq
    rw [List.length_append] at hCount
    rw [List.flatten_append, List.length_append] at hHead
    refine ⟨?_, ?_, rfl, fun dst header hOut => by cases hOut⟩
    · show sent.queue.count + 4097 ≤ intMax
      rw [hAnnounced.queue]
      show front.length + 4097 ≤ intMax
      omega
    · show sent.queue.head ≤ intMax
      rw [hAnnounced.queue]
      show front.flatten.length ≤ intMax
      omega
  all_goals exact ⟨hItems, hBytes, rfl, fun dst header hOut => by cases hOut⟩

/-- What the turns of `requestWork` leave in the queue. -/
theorem RequestTurn.room {cleanup : Bool} {w : Work n} {abortFlag : Bool}
    {turn : Turn n (Work n × Bool) Outcome} {sent rcvd : Log (Fin n) Tag Msg}
    (h : RequestTurn cfg rank cleanup w abortFlag input turn) (hInv : WorkInv w sent rcvd)
    (hOk : ∀ src msg, input = .recv src .workReply msg →
      replies.Ok (replies.after none (rcvd src .workReply)) msg)
    (hItems : w.queue.count + 4097 ≤ intMax) (hBytes : w.queue.head ≤ intMax)
    (hHeader : ∀ header, w.receiving = some header → header.length + 4095 ≤ intMax)
    (hFlight : ∀ src header, input = .recv src .workReply (.ints header) →
      header.length + 4095 ≤ intMax) :
    turn.record.1.queue.count + 4097 ≤ intMax ∧ turn.record.1.queue.head ≤ intMax ∧
      ∀ header, turn.record.1.receiving = some header → header.length + 4095 ≤ intMax := by
  cases h
  case items source header payload queue hReceiving hSource hReceive =>
    obtain ⟨items, hSendable, rfl, hPayload⟩ := hInv.payload_of_ok hReceiving hSource (hOk _ _ rfl)
    cases hPayload
    -- the rank asked because its queue was empty
    have hEmpty : w.queue.items = [] := by
      rw [← List.length_eq_zero_iff, hInv.stock.inv.length_items,
        hInv.stock.empty (hInv.stock.receiving (by simp [hReceiving]))]
    have hHolds : w.queue.Holds [] := hEmpty ▸ hInv.stock.inv.holds
    obtain ⟨queue', hReceive', hNew⟩ := hHolds.receivePayload cfg.page hSendable.ne_nil
      hSendable.nonempty hSendable.count_le hSendable.bytes_le
    have hSame : queue' = queue := by
      have hBoth := hReceive'.symm.trans hReceive
      simpa using hBoth
    obtain ⟨hCount, hHead⟩ := hSendable.room (hSame ▸ hNew) (hHeader _ hReceiving)
    exact ⟨hCount, hHead, by simp [Turn.sendsAndReturns]⟩
  case header source items rest offsetsCount _ _ _ _ _ =>
    refine ⟨hItems, hBytes, fun header hSome => ?_⟩
    cases hSome
    exact hFlight source _ rfl
  all_goals exact ⟨hItems, hBytes, hHeader⟩

/-- A rank that is to abort does not process. -/
theorem work_of_process (hStep : MainStep cfg rank input s s' out) (hPc : s.pc = .process)
    (hFlag : s.abort.abortFlag = true) : s'.work = s.work ∧ out = none := by
  cases hStep <;> simp_all

theorem Room.step (hRoom : Room g) (h : Execution cfg FifoNet.always g)
    (hFlag : (g rank).state.pc.early = true → (g rank).state.abort.abortFlag = true)
    (hFires : FifoNet.Fires (mainLoop cfg) g rank input s' out) :
    Room (FifoNet.set g rank ((g rank).after input s' out)) := by
  have hStep := mainStep_of_mainLoop hFires.acts
  have hItems := hRoom.items rank
  have hBytes := hRoom.bytes rank
  have hHeader := hRoom.header rank
  -- what the rank does to its own part
  have hOwn : s'.work.queue.count + 4097 ≤ intMax ∧ s'.work.queue.head ≤ intMax ∧
      (∀ header, s'.work.receiving = some header → header.length + 4095 ≤ intMax) ∧
      ∀ dst header, out = some ⟨dst, .workReply, .ints header⟩ → header.length + 4095 ≤ intMax := by
    by_cases hPc : (g rank).state.pc = .process
    · obtain ⟨hSame, rfl⟩ := work_of_process hStep hPc (hFlag (by rw [hPc]; rfl))
      rw [hSame]
      exact ⟨hItems, hBytes, hHeader, by simp⟩
    · have hWork := workStep_of_mainStep hStep
      generalize s'.work = next at hWork ⊢
      cases hWork
      case other hRequest hReply hReceipt =>
        exact ⟨hItems, hBytes, hHeader, fun dst header hOut => (hReply.out _ hOut rfl).elim⟩
      case workreq hTurn =>
        obtain ⟨hCount, hHead, hSame, hSaid⟩ := hTurn.room (h.workInv rank).stock hItems hBytes
        exact ⟨hCount, hHead, fun header hSome => hHeader header (hSame ▸ hSome), hSaid⟩
      case receipt hTurn =>
        cases hTurn <;>
          exact ⟨hItems, hBytes, hHeader, fun dst header hOut => by cases hOut⟩
      case request hRequestPc hTurn =>
        obtain ⟨hCount, hHead, hNext⟩ := hTurn.room (h.workInv rank)
          (replies_ok_of_admits h.fifo h.workInv hFires.admits) hItems hBytes hHeader
          (by
            rintro src header rfl
            exact hRoom.flight src rank header (FifoNet.mem_inFlight_of_admits hFires.admits))
        exact ⟨hCount, hHead, hNext, fun dst header hOut =>
          (hTurn.tag_ne_reply _ hOut rfl).elim⟩
      case callback hProcess _ _ => exact (hPc hProcess).elim
  obtain ⟨hCount, hHead, hNext, hSaid⟩ := hOwn
  have hNode {P : State n → Prop} (hAll : ∀ r, P (g r).state) (hNew : P s') :
      ∀ r, P (FifoNet.set g rank ((g rank).after input s' out) r).state := by
    apply FifoNet.forall_set (P := fun _ (node : Rank n) => P node.state)
    · exact hNew
    · exact fun r _ => hAll r
  exact {
    items := hNode (P := fun s => s.work.queue.count + 4097 ≤ intMax) hRoom.items hCount
    bytes := hNode (P := fun s => s.work.queue.head ≤ intMax) hRoom.bytes hHead
    header := hNode (P := fun s => ∀ header, s.work.receiving = some header →
      header.length + 4095 ≤ intMax) hRoom.header hNext
    flight := by
      intro src dst header hMem
      rcases FifoNet.mem_inFlight_set hMem with hOld | ⟨-, rfl⟩
      · exact hRoom.flight src dst header hOld
      · exact hSaid dst header rfl }

end Circle
