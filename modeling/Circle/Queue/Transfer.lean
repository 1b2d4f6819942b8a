import Circle.Queue.Refinement

/-!
# Moving items between two queues

`sendWork` puts the last items of a queue on the wire as two messages: a
header of 32-bit integers (item count, byte count, one rebased offset for each
item) and the bytes themselves.  `workReceive` rebuilds a queue from the two.
Neither message tells the length of an item.

`State::extendOffsets` grows both offset arrays of a rank in `int` arithmetic;
of the arrays only their common capacity `offsets_count` is kept here, since
every cell that is read has been written by the same call.
-/

namespace Circle

/-- `PAYLOAD_ABORT`. -/
def payloadAbort : Int := -32

/-- `State::extendOffsets`: the new capacity of the offset arrays. -/
def extendOffsets (offsetsCount size : Nat) : Option Nat :=
  if size ≤ offsetsCount then some offsetsCount
  else growInt 4096 size (intMax + 1) offsetsCount

/-- What `sendWork` leaves behind: the two messages, the rest of the queue and
the capacity of the offset arrays. -/
structure SentWork where
  header : List Int
  payload : List UInt8
  queue : Queue
  offsetsCount : Nat
  deriving DecidableEq, Repr

/-- `State::sendWork` for `count > 0`, as far as it touches the queue and the
wire.  `MPI_Send` has no result for a negative byte count. -/
def sendWork (offsetsCount : Nat) (q : Queue) (count : Nat) : Option SentWork := do
  let startElem := q.count - count
  let startOffset := q.strings.getD startElem 0
  let len := sizeSub q.head startOffset
  let bytes := toInt len
  let numoffsets ← intAdd 2 count
  let offsetsCount ← extendOffsets offsetsCount numoffsets
  let offsets := ((q.strings.drop startElem).take count).map fun offset =>
    toInt (sizeSub offset startOffset)
  let rest := { q with count := q.count - count, head := startOffset }
  let payload := (q.base.drop startOffset).take bytes.toNat
  if bytes < 0 then
    none
  else
    some ⟨(count : Int) :: bytes :: offsets, payload, rest, offsetsCount⟩

/-- How a call of `workReceive` ends. -/
inductive ReceivedWork where
  /-- The reply has no items. -/
  | noWork
  /-- The reply is the abort code. -/
  | abort
  /-- The reply starts with some other negative number. -/
  | negative
  /-- `MPI_Abort`. -/
  | fatal
  /-- The items of the reply are in the queue. -/
  | work (queue : Queue)
  deriving DecidableEq, Repr

/-- The part of `State::workReceive` after the header: make room, take in the
bytes, and rebuild the offsets. -/
def receivePayload (page : PageSize) (q : Queue) (items : Int) (chars : Int)
    (offsets : List Int) (payload : List UInt8) : Option ReceivedWork := do
  let (rc, q) ← q.ensure page (sizeAdd q.head (ofInt chars))
  if rc < 0 then
    some .fatal
  else
    let q := { q with base := Packed.splice q.base 0 payload }
    let count := items.toNat
    let (rc, q) ← q.ensureStr count
    if rc < 0 then
      some .fatal
    else
      let strings := (offsets.take count).map ofInt ++ q.strings.drop count
      if strings.getD 0 0 ≠ 0 then
        some .fatal
      else
        some (.work { q with
          strings := strings
          count := count
          head := sizeAdd q.head (ofInt chars) })

/-- `State::workReceive`: the new capacity of the offset arrays, and how the
call ends.  The second message is only looked at when the header announces
items. -/
def workReceive (page : PageSize) (offsetsCount : Nat) (q : Queue) (header : List Int)
    (payload : List UInt8) : Option (Nat × ReceivedWork) :=
  match header with
  | [] => some (offsetsCount, .fatal)
  | items :: rest => do
      let offsetsCount ← extendOffsets offsetsCount header.length
      if items = 0 then
        some (offsetsCount, .noWork)
      else if items = payloadAbort then
        some (offsetsCount, .abort)
      else if items < 0 then
        some (offsetsCount, .negative)
      else
        let received ← receivePayload page q items (rest.headD 0) rest.tail payload
        some (offsetsCount, received)

/-! ## The wire format -/

/-- The header of a reply that carries the given items. -/
def encodeHeader (items : List Item) : List Int :=
  (items.length : Int) :: (items.flatten.length : Int) ::
    (Packed.offsetsFrom 0 items).map Int.ofNat

@[simp] theorem length_encodeHeader (items : List Item) :
    (encodeHeader items).length = 2 + items.length := by
  simp [encodeHeader]
  omega

theorem extendOffsets_isSome_iff {offsetsCount size : Nat} (hOffsets : offsetsCount ≤ intMax)
    (hSize : size ≤ intMax) :
    (extendOffsets offsetsCount size).isSome ↔ GrowthFits 4096 size offsetsCount := by
  unfold extendOffsets
  split
  · exact ⟨fun _ => ⟨0, by omega, by omega⟩, fun _ => rfl⟩
  · exact growInt_isSome_iff (by decide) intMax offsetsCount hOffsets (by omega)

theorem extendOffsets_bounds {offsetsCount size result : Nat} (hOffsets : offsetsCount ≤ intMax)
    (h : extendOffsets offsetsCount size = some result) :
    size ≤ result ∧ offsetsCount ≤ result ∧ result ≤ intMax := by
  unfold extendOffsets at h
  split at h
  · cases h
    omega
  · exact growInt_bounds hOffsets h

namespace Queue

/-- The offsets of the last items: each is that far behind the first of
them. -/
theorem Holds.segment_offsets {q : Queue} {front back : List Item}
    (h : q.Holds (front ++ back)) :
    (q.strings.drop front.length).take back.length =
      (Packed.offsetsFrom 0 back).map (· + front.flatten.length) := by
  have hOffsets := congrArg (List.drop front.length) h.offsets_eq
  rwa [Packed.offsetsFrom_append, List.drop_left' (by simp), offsets, List.drop_take, h.count_eq,
    List.length_append, Nat.add_sub_cancel_left, Packed.offsetsFrom_add] at hOffsets

/-- The offsets of the last items, rebased to the first of them. -/
theorem Holds.rebased_offsets {q : Queue} {front back : List Item}
    (h : q.Holds (front ++ back)) (hBytes : back.flatten.length ≤ intMax) :
    ((q.strings.drop front.length).take back.length).map
        (fun offset => toInt (sizeSub offset front.flatten.length)) =
      (Packed.offsetsFrom 0 back).map Int.ofNat := by
  rw [h.segment_offsets, List.map_map]
  apply List.map_congr_left
  intro offset hMem
  have hNonempty : ∀ item ∈ back, item ≠ [] := fun item hItem =>
    h.nonempty item (by simp [hItem])
  have hIncreasing := Packed.increasing_offsetsFrom 0 hNonempty
  have hBelow := hIncreasing.below offset hMem
  have hHead := h.head_eq
  have hFits := h.head_lt
  simp only [List.flatten_append, List.length_append] at hHead
  have hSum : offset + front.flatten.length < sizeModulus := by omega
  have hSub : sizeSub (offset + front.flatten.length) front.flatten.length = offset := by
    rw [sizeSub_of_le (Nat.le_add_left _ _) hSum, Nat.add_sub_cancel]
  have hInt : offset ≤ intMax := by omega
  rw [Function.comp_apply, hSub, toInt_of_le hInt]
  rfl

/-- Sending the last items puts their encoding on the wire and leaves the
first items, provided the offset arrays can grow. -/
theorem Holds.sendWork {q : Queue} {front back : List Item} (h : q.Holds (front ++ back))
    (hBack : back ≠ []) (hBytes : back.flatten.length ≤ intMax) (offsetsCount : Nat) :
    Circle.sendWork offsetsCount q back.length =
      ((intAdd 2 back.length).bind (extendOffsets offsetsCount)).map fun offsetsCount =>
        { header := encodeHeader back
          payload := back.flatten
          queue := { q with count := front.length, head := front.flatten.length }
          offsetsCount := offsetsCount } := by
  have hCount : q.count - back.length = front.length := by
    rw [h.count_eq, List.length_append, Nat.add_sub_cancel]
  have hHead := h.head_eq
  simp only [List.flatten_append, List.length_append] at hHead
  obtain ⟨item, rest, rfl⟩ := List.exists_cons_of_ne_nil hBack
  have hLen : toInt (sizeSub q.head front.flatten.length) = ((item :: rest).flatten.length : Int) := by
    rw [sizeSub_of_le (by omega) h.head_lt, hHead, Nat.add_sub_cancel_left, toInt_of_le hBytes]
  have hOffsets := h.rebased_offsets hBytes
  have hPayload := h.slice_pool
  unfold Circle.sendWork
  simp only [hCount, h.getD_strings, hLen, hOffsets, Int.toNat_natCast, hPayload]
  have hBytesNat : ¬ ((item :: rest).flatten.length : Int) < 0 := by omega
  simp only [hBytesNat, if_false]
  cases intAdd 2 (item :: rest).length with
  | none => rfl
  | some numoffsets =>
      cases hExtend : extendOffsets offsetsCount numoffsets with
      | none => simp [hExtend]
      | some extended => simp [hExtend, encodeHeader]

/-- The pool of an empty queue does not matter. -/
theorem Holds.withPool {q : Queue} (h : q.Holds []) {base : List UInt8}
    (hBase : base.length < sizeModulus) : Holds { q with base := base } [] where
  count_eq := h.count_eq
  count_le := h.count_le
  head_eq := h.head_eq
  head_le := by
    rw [show q.head = 0 from h.head_eq]
    exact Nat.zero_le _
  pool_lt := hBase
  offsets_eq := h.offsets_eq
  pool_eq := by
    rw [show q.head = 0 from h.head_eq]
    rfl
  nonempty := h.nonempty

/-- The offsets of a header are read back as they were written. -/
theorem map_ofInt_offsetsFrom {items : List Item} (hNonempty : ∀ item ∈ items, item ≠ [])
    (hBytes : items.flatten.length ≤ intMax) :
    ((Packed.offsetsFrom 0 items).map Int.ofNat).map ofInt = Packed.offsetsFrom 0 items := by
  have hBelow := (Packed.increasing_offsetsFrom 0 hNonempty).below
  have hIntMax := intMax_lt_sizeModulus
  conv_rhs => rw [← List.map_id (Packed.offsetsFrom 0 items)]
  rw [List.map_map]
  apply List.map_congr_left
  intro offset hMem
  have hOffset := hBelow offset hMem
  have hFits : offset < sizeModulus := by omega
  rw [Function.comp_apply, Int.ofNat_eq_natCast, ofInt_natCast hFits, id]

/-- Reading an encoding into an empty queue yields the encoded items. -/
theorem Holds.receivePayload {q : Queue} (h : q.Holds []) (page : PageSize)
    {items : List Item} (hItems : items ≠ []) (hNonempty : ∀ item ∈ items, item ≠ [])
    (hCount : items.length ≤ intMax) (hBytes : items.flatten.length ≤ intMax) :
    ∃ q', Circle.receivePayload page q items.length items.flatten.length
        ((Packed.offsetsFrom 0 items).map Int.ofNat) items.flatten = some (.work q') ∧
      q'.Holds items := by
  have hIntMax := intMax_lt_sizeModulus
  have hChars : ∀ q' : Queue, q'.Holds [] →
      sizeAdd q'.head (ofInt items.flatten.length) = items.flatten.length := by
    intro q' h'
    rw [ofInt_natCast (by omega), show q'.head = 0 from h'.head_eq, sizeAdd_of_lt (by omega),
      Nat.zero_add]
  obtain ⟨q₁, hBase, h₁, hRoom, -⟩ := h.ensure page _ (Nat.le_trans hBytes intMax_le_half)
  have hPool : (Packed.splice q₁.base 0 items.flatten).length = q₁.base.length :=
    Packed.length_splice (by omega)
  obtain ⟨q₃, hStr, h₃, hSlots, hSame⟩ := (h₁.withPool (hPool.trans_lt h₁.pool_lt)).ensureStr _ hCount
  have hHead₃ : q₃.head = 0 := h₃.head_eq
  have hTake : ((Packed.offsetsFrom 0 items).map Int.ofNat).take items.length =
      (Packed.offsetsFrom 0 items).map Int.ofNat := List.take_of_length_le (by simp)
  have hFirst : (Packed.offsetsFrom 0 items ++ q₃.strings.drop items.length).getD 0 0 = 0 := by
    cases items with
    | nil => exact absurd rfl hItems
    | cons item rest => rfl
  refine ⟨{ q₃ with
    strings := Packed.offsetsFrom 0 items ++ q₃.strings.drop items.length
    count := items.length
    head := items.flatten.length }, ?_, ?_⟩
  · unfold Circle.receivePayload
    simp only [hChars q h, hBase, Option.bind_eq_bind, Option.bind_some, Int.lt_irrefl, if_false,
      Int.toNat_natCast, hStr, hTake, map_ofInt_offsetsFrom hNonempty hBytes, hFirst,
      hChars q₃ h₃, ne_eq, not_true_eq_false]
  · exact {
      count_eq := rfl
      count_le := by simp
      head_eq := rfl
      head_le := by
        rw [hSame, hPool]
        exact hRoom
      pool_lt := h₃.pool_lt
      offsets_eq := by simp [offsets]
      pool_eq := by
        rw [hSame]
        simpa using Packed.take_splice items.flatten (Nat.zero_le q₁.base.length)
      nonempty := hNonempty }

/-- Receiving an encoding succeeds exactly when the offset arrays can grow. -/
theorem Holds.workReceive {q : Queue} (h : q.Holds []) (page : PageSize) {items : List Item}
    (hItems : items ≠ []) (hNonempty : ∀ item ∈ items, item ≠ [])
    (hCount : items.length ≤ intMax) (hBytes : items.flatten.length ≤ intMax)
    (offsetsCount : Nat) :
    ∃ q', Circle.workReceive page offsetsCount q (encodeHeader items) items.flatten =
        (extendOffsets offsetsCount (2 + items.length)).map (fun extended =>
          (extended, .work q')) ∧
      q'.Holds items := by
  obtain ⟨q', hReceive, h'⟩ := h.receivePayload page hItems hNonempty hCount hBytes
  refine ⟨q', ?_, h'⟩
  have hPositive : 0 < items.length := List.length_pos_iff.mpr hItems
  have hZero : ¬ (items.length : Int) = 0 := by omega
  have hAbort : ¬ (items.length : Int) = payloadAbort := by
    unfold payloadAbort
    omega
  have hNegative : ¬ (items.length : Int) < 0 := by omega
  unfold Circle.workReceive
  rw [length_encodeHeader]
  simp only [encodeHeader, hZero, hAbort, hNegative, if_false, List.headD_cons, List.tail_cons,
    hReceive, Option.bind_eq_bind, Option.bind_some, Option.map_eq_bind]
  rfl

/-! ## Receiving undoes sending -/

/-- Sending the last `count` items of `q` and receiving the two messages into
`r` moves exactly those items, in order, and leaves two well-formed queues. -/
def Moves (page : PageSize) (sendOffsets recvOffsets : Nat) (q r : Queue) (count : Nat) : Prop :=
  ∃ sent recvOffsets' r',
    Circle.sendWork sendOffsets q count = some sent ∧
    Circle.workReceive page recvOffsets r sent.header sent.payload =
      some (recvOffsets', .work r') ∧
    r'.items = q.items.drop (q.count - count) ∧
    sent.queue.items = q.items.take (q.count - count) ∧
    r'.Inv ∧ sent.queue.Inv

/-- The bytes of the last `count` items. -/
def segmentBytes (q : Queue) (count : Nat) : Nat :=
  (q.items.drop (q.count - count)).flatten.length

/-- A well-formed queue is its first items followed by its last `count`. -/
theorem Inv.exists_split {q : Queue} (h : q.Inv) {count : Nat} (hPositive : 1 ≤ count)
    (hCount : count ≤ q.count) :
    ∃ front back, q.Holds (front ++ back) ∧ back.length = count ∧ back ≠ [] ∧
      q.items.take (q.count - count) = front ∧ q.items.drop (q.count - count) = back := by
  have hLength := h.length_items
  have hBack : (q.items.drop (q.count - count)).length = count := by
    rw [List.length_drop]
    omega
  refine ⟨q.items.take (q.count - count), q.items.drop (q.count - count), ?_, hBack, ?_, rfl, rfl⟩
  · rw [List.take_append_drop]
    exact h.holds
  · intro hNil
    rw [hNil, List.length_nil] at hBack
    omega

/-- Both offset arrays grow to what the reply needs exactly when some number
of 4096-steps takes each of them there within `int`. -/
theorem exists_extended_iff {offsetsCount count : Nat} (hOffsets : offsetsCount ≤ intMax) :
    (∃ extended, (intAdd 2 count).bind (extendOffsets offsetsCount) = some extended) ↔
      GrowthFits 4096 (2 + count) offsetsCount := by
  by_cases hFits : 2 + count ≤ intMax
  · rw [intAdd_eq_some hFits, Option.bind_some, ← Option.isSome_iff_exists,
      extendOffsets_isSome_iff hOffsets hFits]
  · constructor
    · rintro ⟨extended, hExtended⟩
      simp [intAdd, hFits] at hExtended
    · rintro ⟨rounds, hMet, hInt⟩
      omega

/-- The queue that holds a list with no room to spare. -/
def packed (items : List Item) : Queue where
  base := items.flatten
  head := items.flatten.length
  strings := Packed.offsetsFrom 0 items
  count := items.length

theorem holds_packed {items : List Item} (hNonempty : ∀ item ∈ items, item ≠ [])
    (hPool : items.flatten.length < sizeModulus) : (packed items).Holds items where
  count_eq := rfl
  count_le := by simp [packed]
  head_eq := rfl
  head_le := Nat.le_refl _
  pool_lt := hPool
  offsets_eq := by simp [packed, offsets]
  pool_eq := by simp [packed]
  nonempty := hNonempty

/-- Without room in the sender's offset array nothing is sent. -/
theorem Moves.growthFits_send {page : PageSize} {sendOffsets recvOffsets : Nat} {q r : Queue}
    {count : Nat} (hMoves : Moves page sendOffsets recvOffsets q r count) (hInv : q.Inv)
    (hPositive : 1 ≤ count) (hCount : count ≤ q.count) (hBytes : q.segmentBytes count ≤ intMax)
    (hOffsets : sendOffsets ≤ intMax) : GrowthFits 4096 (2 + count) sendOffsets := by
  obtain ⟨front, back, h, rfl, hBack, -, hDrop⟩ := hInv.exists_split hPositive hCount
  obtain ⟨sent, recvOffsets', r', hSent, -⟩ := hMoves
  rw [segmentBytes, hDrop] at hBytes
  rw [h.sendWork hBack hBytes] at hSent
  obtain ⟨extended, hExtended, -⟩ := Option.map_eq_some_iff.mp hSent
  exact (exists_extended_iff hOffsets).mp ⟨extended, hExtended⟩

/-- `workReceive` undoes `sendWork` exactly when the offset arrays of both
ranks can grow to the length of the header. -/
theorem moves_iff (page : PageSize) (sendOffsets recvOffsets : Nat) (q r : Queue) (count : Nat)
    (hInv : q.Inv) (hPositive : 1 ≤ count) (hCount : count ≤ q.count) (hInt : q.count ≤ intMax)
    (hBytes : q.segmentBytes count ≤ intMax)
    (hEmpty : r.IsEmpty) (hSendOffsets : sendOffsets ≤ intMax) (hRecvOffsets : recvOffsets ≤ intMax) :
    Moves page sendOffsets recvOffsets q r count ↔
      GrowthFits 4096 (2 + count) sendOffsets ∧ GrowthFits 4096 (2 + count) recvOffsets := by
  obtain ⟨front, back, h, hLength, hBack, hFront, hDrop⟩ := hInv.exists_split hPositive hCount
  have hSegment : back.flatten.length ≤ intMax := by rwa [segmentBytes, hDrop] at hBytes
  obtain ⟨r', hReceive, hHolds⟩ := hEmpty.holds.workReceive
    page hBack (fun item hMem => h.nonempty item (by simp [hMem])) (by omega) hSegment recvOffsets
  have hTruncated := h.truncate
  constructor
  · intro hMoves
    have hSendFits := hMoves.growthFits_send hInv hPositive hCount hBytes hSendOffsets
    refine ⟨hSendFits, ?_⟩
    obtain ⟨rounds, hMet, hFits⟩ := hSendFits
    obtain ⟨sent, recvOffsets', r'', hSent, hReceived, -⟩ := hMoves
    rw [← hLength, h.sendWork hBack hSegment] at hSent
    obtain ⟨extended, -, rfl⟩ := Option.map_eq_some_iff.mp hSent
    rw [hReceive] at hReceived
    obtain ⟨received, hReceivedOffsets, -⟩ := Option.map_eq_some_iff.mp hReceived
    rw [hLength] at hReceivedOffsets
    rw [← extendOffsets_isSome_iff hRecvOffsets (by omega), hReceivedOffsets]
    rfl
  · rintro ⟨hSendFits, hRecvFits⟩
    obtain ⟨extended, hExtended⟩ := (exists_extended_iff hSendOffsets).mpr hSendFits
    obtain ⟨received, hReceived⟩ := (exists_extended_iff hRecvOffsets).mpr hRecvFits
    obtain ⟨numoffsets, hNum, hReceivedOffsets⟩ := Option.bind_eq_some_iff.mp hReceived
    rw [(intAdd_eq_some_iff.mp hNum).1, ← hLength] at hReceivedOffsets
    have hSend := h.sendWork hBack hSegment sendOffsets
    rw [hLength, hExtended, Option.map_some] at hSend
    rw [hReceivedOffsets, Option.map_some] at hReceive
    refine ⟨_, _, r', hSend, hReceive, ?_, ?_, hHolds.inv, hTruncated.inv⟩
    · rw [hHolds.items_eq, hDrop]
    · rw [hFront]
      exact hTruncated.items_eq

/-- Two one-byte items move from a queue of three. -/
theorem moves_packed_two : Moves .usual 0 512 (packed [[7], [8], [9]])
    fresh 2 :=
  (moves_iff _ 0 512 (packed [[7], [8], [9]]) fresh 2
    (holds_packed (by decide) (by decide)).inv (by decide) (by decide) (by decide) (by decide)
    isEmpty_fresh (by decide) (by decide)).mpr
    ⟨⟨1, by decide, by decide⟩, 0, by decide, by decide⟩

theorem segmentBytes_packed_replicate {n : Nat} (hPool : n < sizeModulus) :
    (packed (List.replicate n [1])).Inv ∧ (packed (List.replicate n [1])).count = n ∧
      (packed (List.replicate n [1])).segmentBytes n = n := by
  have hFlatten : (List.replicate n ([1] : Item)).flatten.length = n := by simp
  have h : (packed (List.replicate n [1])).Holds (List.replicate n [1]) :=
    holds_packed (fun item hMem => by simp [List.eq_of_mem_replicate hMem]) (by omega)
  refine ⟨h.inv, List.length_replicate, ?_⟩
  rw [segmentBytes, h.items_eq, h.count_eq, List.length_replicate, Nat.sub_self, List.drop_zero,
    hFlatten]

/-- The largest multiple of 4096 in `int` has no room for the header of so
many items. -/
theorem not_moves_replicate (page : PageSize) {n : Nat} (hLarge : 2 ^ 31 ≤ n + 4097)
    (hFits : n ≤ intMax) : ¬ Moves page 0 0 (packed (List.replicate n [1])) fresh n := by
  intro hMoves
  have hIntMax := intMax_lt_sizeModulus
  obtain ⟨hInv, hCount, hBytes⟩ := segmentBytes_packed_replicate (n := n) (by omega)
  obtain ⟨rounds, hMet, hInt⟩ := hMoves.growthFits_send hInv (by omega) (by omega) (by omega)
    (Nat.zero_le _)
  unfold intMax at hInt
  omega

/-- So 2^31 - 4097 one-byte items are not moved, though their bytes fit an
`int`. -/
theorem not_moves_at_growth_limit :
    ∃ count, count = 2 ^ 31 - 4097 ∧ (packed (List.replicate count [1])).Inv ∧
      (packed (List.replicate count [1])).count = count ∧
      (packed (List.replicate count [1])).segmentBytes count ≤ intMax ∧
      fresh.IsEmpty ∧
      ¬ Moves .usual 0 0 (packed (List.replicate count [1])) fresh count := by
  obtain ⟨count, hEq⟩ : ∃ count, count = 2 ^ 31 - 4097 := ⟨_, rfl⟩
  have hFits : count ≤ intMax := by
    rw [hEq]
    decide
  have hIntMax := intMax_lt_sizeModulus
  obtain ⟨hInv, hCount, hBytes⟩ := segmentBytes_packed_replicate (n := count) (by omega)
  exact ⟨count, hEq, hInv, hCount, by omega, isEmpty_fresh, not_moves_replicate _ (by omega) hFits⟩

end Queue
end Circle
