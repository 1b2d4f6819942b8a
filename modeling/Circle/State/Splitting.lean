import Circle.State.Work

/-!
# Splitting a queue among requestors

`sendWorkToMany` as one function: it chooses the sizes of the shares, and calls
`sendWork` for one requestor after the other, each call truncating the queue
that the next one indexes.  `workreqCheck` carries out the same calls turn by
turn.
-/

namespace Circle

variable {ι : Type}

/-- The array `sizes`: the number of items that the rank keeps, then the
numbers that the requestors get. -/
def splitSizes (splitEqual : Bool) (rcount count draw : Nat) : List Nat :=
  if splitEqual then
    spreadCounts (rcount + 1) count
  else
    let sendCount := draw % count + 1
    let sendCount := if sendCount = count then sendCount - 1 else sendCount
    (count - sendCount) :: spreadCounts rcount sendCount

/-- A call of `sendWork`: its destination and its count, the `qp->count` it
finds, and the messages it sends. -/
structure SendCall (ι : Type) where
  dest : ι
  count : Nat
  available : Nat
  messages : List Msg
  deriving DecidableEq

/-- The message of `sendNoWork`. -/
def noWork (abortFlag : Bool) : Msg := .ints [if abortFlag then payloadAbort else 0]

/-- The loop of `sendWorkToMany`: the calls, `offsets_count` and the queue. -/
def sendEach (abortFlag : Bool) :
    Nat → Queue → List (ι × Nat) → Option (List (SendCall ι) × Nat × Queue)
  | offsetsCount, q, [] => some ([], offsetsCount, q)
  | offsetsCount, q, (dest, count) :: rest =>
      if count = 0 then do
        let (calls, last) ← sendEach abortFlag offsetsCount q rest
        some (⟨dest, count, q.count, [noWork abortFlag]⟩ :: calls, last)
      else do
        let sent ← sendWork offsetsCount q count
        let (calls, last) ← sendEach abortFlag sent.offsetsCount sent.queue rest
        some (⟨dest, count, q.count, [.ints sent.header, .chars sent.payload]⟩ :: calls, last)

/-- `sendWorkToMany`. -/
def sendWorkToMany (splitEqual abortFlag : Bool) (offsetsCount : Nat) (q : Queue)
    (requestors : List ι) (draw : Nat) : Option (List (SendCall ι) × Nat × Queue) :=
  sendEach abortFlag offsetsCount q
    (requestors.zip (splitSizes splitEqual requestors.length q.count draw).tail)

/-! ## Sizes -/

theorem splitShares_eq_tail (splitEqual : Bool) (rcount count draw : Nat) :
    splitShares splitEqual rcount count draw = (splitSizes splitEqual rcount count draw).tail := by
  cases splitEqual <;> simp [splitShares, splitSizes]

theorem length_spreadCounts {ranks : Nat} (count : Nat) (hRanks : 0 < ranks) :
    (spreadCounts ranks count).length = ranks := by
  have hExtra : count - count / ranks * ranks < ranks := by
    rw [Nat.mul_comm, ← Nat.mod_eq_sub]
    exact Nat.mod_lt _ hRanks
  simp only [spreadCounts, List.length_append, List.length_replicate]
  omega

theorem sum_spreadCounts {ranks : Nat} (count : Nat) (hRanks : 0 < ranks) :
    (spreadCounts ranks count).sum = count := by
  have hExtra : count - count / ranks * ranks < ranks := by
    rw [Nat.mul_comm, ← Nat.mod_eq_sub]
    exact Nat.mod_lt _ hRanks
  have hBase : count / ranks * ranks ≤ count := Nat.div_mul_le_self _ _
  simp only [spreadCounts, List.sum_append, List.sum_replicate, smul_eq_mul]
  generalize count / ranks = base at hExtra hBase
  generalize hEq : count - base * ranks = extra at hExtra
  obtain ⟨others, rfl⟩ := Nat.exists_eq_add_of_le hExtra.le
  rw [Nat.add_sub_cancel_left, Nat.mul_succ, Nat.mul_comm others base, Nat.mul_comm extra base]
  rw [Nat.mul_add] at hEq hBase
  omega

/-- Shares of a spread differ by at most one. -/
theorem le_succ_of_mem_spreadCounts {ranks count a b : Nat} (ha : a ∈ spreadCounts ranks count)
    (hb : b ∈ spreadCounts ranks count) : a ≤ b + 1 := by
  have hMem : ∀ c ∈ spreadCounts ranks count, c = count / ranks + 1 ∨ c = count / ranks := by
    intro c hc
    rcases List.mem_append.mp hc with hMore | hLess
    · exact Or.inl (List.eq_of_mem_replicate hMore)
    · exact Or.inr (List.eq_of_mem_replicate hLess)
  rcases hMem a ha with rfl | rfl <;> rcases hMem b hb with rfl | rfl <;> omega

/-- The first share is the largest. -/
theorem le_head_spreadCounts {ranks count first : Nat} {rest : List Nat}
    (hSpread : spreadCounts ranks count = first :: rest) : ∀ b ∈ rest, b ≤ first := by
  intro b hb
  have hMem : b ∈ spreadCounts ranks count := by simp [hSpread, hb]
  simp only [spreadCounts] at hSpread hMem
  rcases Nat.eq_zero_or_pos (count - count / ranks * ranks) with hZero | hExtra
  · -- all shares are `base`
    rw [hZero, List.replicate_zero, List.nil_append] at hSpread hMem
    have hFirst : first ∈ List.replicate (ranks - 0) (count / ranks) := by
      rw [hSpread]
      exact List.mem_cons_self
    rw [List.eq_of_mem_replicate hMem, List.eq_of_mem_replicate hFirst]
  · -- the shares of `base + 1` come first
    obtain ⟨more, hMore⟩ := Nat.exists_eq_add_of_lt hExtra
    rw [hMore, Nat.zero_add, List.replicate_succ, List.cons_append, List.cons.injEq] at hSpread
    rcases List.mem_append.mp hMem with hLarge | hSmall
    · rw [List.eq_of_mem_replicate hLarge, ← hSpread.1]
    · rw [List.eq_of_mem_replicate hSmall, ← hSpread.1]
      exact Nat.le_succ _

/-- A spread of something starts with something. -/
theorem head_spreadCounts_pos {ranks count first : Nat} {rest : List Nat} (hRanks : 0 < ranks)
    (hCount : 0 < count) (hSpread : spreadCounts ranks count = first :: rest) : 0 < first := by
  refine Nat.pos_of_ne_zero fun hZero => ?_
  have hSum := sum_spreadCounts count hRanks
  rw [hSpread, List.sum_cons, hZero, Nat.zero_add] at hSum
  have hRest : rest.sum = 0 := by
    rw [List.sum_eq_zero_iff]
    intro b hb
    have hLe := le_head_spreadCounts hSpread b hb
    omega
  omega

/-- What the sizes of `sendWorkToMany` are: the whole queue is spread, the
rank keeps something, and gives something when it has two items. -/
structure FairSizes (splitEqual : Bool) (rcount count : Nat) (kept : Nat) (shares : List Nat) :
    Prop where
  length_eq : shares.length = rcount
  sum_eq : kept + shares.sum = count
  kept_pos : 0 < kept
  shares_pos : 2 ≤ count → 0 < shares.sum
  even : ∀ a ∈ shares, ∀ b ∈ shares, a ≤ b + 1
  evenAll : splitEqual = true → ∀ a ∈ kept :: shares, ∀ b ∈ kept :: shares, a ≤ b + 1

theorem fairSizes_of_equal {rcount count : Nat} (hRequestors : 0 < rcount) (hCount : 0 < count) :
    ∃ kept shares, spreadCounts (rcount + 1) count = kept :: shares ∧
      FairSizes true rcount count kept shares := by
  cases hSpread : spreadCounts (rcount + 1) count with
  | nil =>
      have hLength := length_spreadCounts count (Nat.succ_pos rcount)
      simp [hSpread] at hLength
  | cons kept shares =>
      have hLength := length_spreadCounts count (Nat.succ_pos rcount)
      have hSum := sum_spreadCounts count (Nat.succ_pos rcount)
      rw [hSpread, List.length_cons] at hLength
      rw [hSpread, List.sum_cons] at hSum
      have hEven : ∀ a ∈ kept :: shares, ∀ b ∈ kept :: shares, a ≤ b + 1 := by
        intro a ha b hb
        rw [← hSpread] at ha hb
        exact le_succ_of_mem_spreadCounts ha hb
      refine ⟨kept, shares, rfl, {
        length_eq := by omega
        sum_eq := hSum
        kept_pos := head_spreadCounts_pos (Nat.succ_pos rcount) hCount hSpread
        shares_pos := ?_
        even := fun a ha b hb => hEven a (by simp [ha]) b (by simp [hb])
        evenAll := fun _ => hEven }⟩
      intro hTwo
      -- otherwise the rank keeps two items more than the first requestor gets
      refine Nat.pos_of_ne_zero fun hZero => ?_
      obtain ⟨share, others, rfl⟩ : ∃ share others, shares = share :: others :=
        List.exists_cons_of_length_pos (by omega)
      rw [List.sum_cons] at hZero
      have hLe := hEven kept (by simp) share (by simp)
      simp only [List.sum_cons] at hSum
      omega

theorem fairSizes_of_random {rcount count : Nat} (hRequestors : 0 < rcount)
    {sendCount : Nat} (hLess : sendCount < count) (hSend : 2 ≤ count → 0 < sendCount) :
    FairSizes false rcount count (count - sendCount) (spreadCounts rcount sendCount) where
  length_eq := length_spreadCounts sendCount hRequestors
  sum_eq := by
    rw [sum_spreadCounts sendCount hRequestors]
    omega
  kept_pos := by omega
  shares_pos := by
    rw [sum_spreadCounts sendCount hRequestors]
    exact hSend
  even := fun a ha b hb => le_succ_of_mem_spreadCounts ha hb
  evenAll := by simp

/-- Both splitting modes, whatever `rand_r` returns. -/
theorem fairSizes_splitSizes (splitEqual : Bool) {rcount count : Nat} (draw : Nat)
    (hRequestors : 0 < rcount) (hCount : 0 < count) :
    ∃ kept shares, splitSizes splitEqual rcount count draw = kept :: shares ∧
      FairSizes splitEqual rcount count kept shares := by
  unfold splitSizes
  cases splitEqual with
  | true => exact fairSizes_of_equal hRequestors hCount
  | false =>
      have hDraw : draw % count < count := Nat.mod_lt _ hCount
      refine ⟨_, _, rfl, fairSizes_of_random hRequestors ?_ ?_⟩
      · split <;> omega
      · split <;> omega

/-! ## Segments -/

/-- The last items of a list, cut off one after the other. -/
def segments {α : Type} (items : List α) : List Nat → List (List α)
  | [] => []
  | size :: rest =>
      items.drop (items.length - size) :: segments (items.take (items.length - size)) rest

/-- What is left, then the segments from the last to the first. -/
theorem take_append_segments {α : Type} (items : List α) (sizes : List Nat)
    (hSum : sizes.sum ≤ items.length) :
    items.take (items.length - sizes.sum) ++ (segments items sizes).reverse.flatten = items := by
  induction sizes generalizing items with
  | nil => simp [segments]
  | cons size rest ih =>
      rw [List.sum_cons] at hSum ⊢
      have hLength : (items.take (items.length - size)).length = items.length - size := by
        simp
      have hRest := ih (items.take (items.length - size)) (by omega)
      rw [hLength, List.take_take, Nat.min_eq_left (by omega), Nat.sub_sub] at hRest
      simp only [segments, List.reverse_cons, List.flatten_append, List.flatten_singleton]
      rw [← List.append_assoc, hRest, List.take_append_drop]

/-- The messages that carry a segment. -/
def messagesOf (abortFlag : Bool) (segment : List Item) : List Msg :=
  if segment = [] then [noWork abortFlag]
  else [.ints (encodeHeader segment), .chars segment.flatten]

/-! ## The loop -/

theorem extendOffsets_rounds {offsetsCount size result : Nat}
    (h : extendOffsets offsetsCount size = some result) :
    ∃ rounds, result = offsetsCount + rounds * 4096 := by
  unfold extendOffsets at h
  split at h
  · cases h
    exact ⟨0, by omega⟩
  · exact growInt_rounds h

/-- What the loop of `sendWorkToMany` does with a list of shares. -/
structure SentEach (abortFlag : Bool) (items : List Item) (pairs : List (ι × Nat))
    (calls : List (SendCall ι)) (rest : Queue) : Prop where
  dests : calls.map SendCall.dest = pairs.map Prod.fst
  counts : calls.map SendCall.count = pairs.map Prod.snd
  within : ∀ call ∈ calls, call.count ≤ call.available
  messages : calls.map SendCall.messages =
    (segments items (pairs.map Prod.snd)).map (messagesOf abortFlag)
  holds : rest.Holds (items.take (items.length - (pairs.map Prod.snd).sum))

/-- A call that sends nothing. -/
theorem SentEach.noWork {abortFlag : Bool} {items : List Item} {pairs : List (ι × Nat)}
    {calls : List (SendCall ι)} {rest : Queue} (h : SentEach abortFlag items pairs calls rest)
    (dest : ι) (available : Nat) :
    SentEach abortFlag items ((dest, 0) :: pairs)
      (⟨dest, 0, available, [Circle.noWork abortFlag]⟩ :: calls) rest where
  dests := by simp [h.dests]
  counts := by simp [h.counts]
  within := by
    intro call hCall
    rcases List.mem_cons.mp hCall with rfl | hLater
    · exact Nat.zero_le _
    · exact h.within call hLater
  messages := by simp [h.messages, segments, messagesOf]
  holds := by simpa using h.holds

/-- A call that sends the last items. -/
theorem SentEach.work {abortFlag : Bool} {front back : List Item} {pairs : List (ι × Nat)}
    {calls : List (SendCall ι)} {rest : Queue} (h : SentEach abortFlag front pairs calls rest)
    (hBack : back ≠ []) (dest : ι) :
    SentEach abortFlag (front ++ back) ((dest, back.length) :: pairs)
      (⟨dest, back.length, (front ++ back).length,
        [.ints (encodeHeader back), .chars back.flatten]⟩ :: calls) rest where
  dests := by simp [h.dests]
  counts := by simp [h.counts]
  within := by
    intro call hCall
    rcases List.mem_cons.mp hCall with rfl | hLater
    · simp
    · exact h.within call hLater
  messages := by simp [h.messages, segments, messagesOf, hBack]
  holds := by
    have hRest := h.holds
    have hTake : (front ++ back).take
        ((front ++ back).length - (((dest, back.length) :: pairs).map Prod.snd).sum) =
          front.take (front.length - (pairs.map Prod.snd).sum) := by
      rw [List.map_cons, List.sum_cons, List.length_append, List.take_append_of_le_length (by omega)]
      congr 1
      omega
    rw [hTake]
    exact hRest

section Loop

variable {q : Queue} {items : List Item} {offsetsCount : Nat}

/-- The last items of a queue, as `sendWork` takes them. -/
theorem exists_back {size : Nat} (hSize : size ≠ 0) (hCount : size ≤ items.length) :
    ∃ front back, items = front ++ back ∧ back.length = size ∧ back ≠ [] ∧
      items.drop (items.length - size) = back ∧ items.take (items.length - size) = front := by
  refine ⟨_, _, (List.take_append_drop (items.length - size) items).symm, ?_, ?_, rfl, rfl⟩
  · rw [List.length_drop]
    omega
  · intro hNil
    have hLength := congrArg List.length hNil
    rw [List.length_drop, List.length_nil] at hLength
    omega

/-- The loop sends one segment after the other, if the offset array can grow
to each of them. -/
theorem Queue.Holds.sendEach (h : q.Holds items) (abortFlag : Bool) (pairs : List (ι × Nat))
    (hSum : (pairs.map Prod.snd).sum ≤ items.length)
    (hBytes : ∀ segment ∈ segments items (pairs.map Prod.snd), segment.flatten.length ≤ intMax)
    (hOffsets : offsetsCount ≤ intMax)
    (hFits : ∀ size ∈ pairs.map Prod.snd, size ≠ 0 → GrowthFits 4096 (2 + size) offsetsCount) :
    ∃ calls last rest, Circle.sendEach abortFlag offsetsCount q pairs = some (calls, last, rest) ∧
      SentEach abortFlag items pairs calls rest := by
  induction pairs generalizing q items offsetsCount with
  | nil =>
      exact ⟨[], offsetsCount, q, rfl, by constructor <;> simp [segments, h]⟩
  | cons pair pairs ih =>
      obtain ⟨dest, size⟩ := pair
      simp only [List.map_cons, List.sum_cons] at hSum
      by_cases hSize : size = 0
      · subst hSize
        obtain ⟨calls, last, rest, hRun, hSent⟩ := ih h (by omega)
          (fun segment hMem => hBytes segment (by simp [segments, hMem])) hOffsets
          (fun size hMem => hFits size (by simp [hMem]))
        exact ⟨_, last, rest, by simp [Circle.sendEach, hRun], hSent.noWork dest q.count⟩
      · have hLe : size ≤ items.length := by omega
        obtain ⟨front, back, rfl, rfl, hBack, hDrop, hTake⟩ := exists_back hSize hLe
        have hSegment : back.flatten.length ≤ intMax :=
          hBytes back (by simp [segments])
        obtain ⟨extended, hExtended⟩ :=
          (Queue.exists_extended_iff hOffsets).mpr (hFits back.length (by simp) hSize)
        obtain ⟨numoffsets, hNum, hGrown⟩ := Option.bind_eq_some_iff.mp hExtended
        obtain ⟨rounds, rfl⟩ := extendOffsets_rounds hGrown
        have hBound := (extendOffsets_bounds hOffsets hGrown).2.2
        have hSend := h.sendWork hBack hSegment offsetsCount
        rw [hExtended, Option.map_some] at hSend
        rw [List.length_append] at hSum
        obtain ⟨calls, last, rest, hRun, hSent⟩ := ih h.truncate (by omega)
          (fun segment hMem => hBytes segment (by simp [segments, hMem])) hBound
          (fun size hMem hNe => (growthFits_add hBound).mpr (hFits size (by simp [hMem]) hNe))
        refine ⟨_, last, rest, ?_, hSent.work hBack dest⟩
        simp only [Circle.sendEach, if_neg hSize, hSend, Option.bind_eq_bind, Option.bind_some, hRun,
          h.count_eq]

/-- The loop has a result only if the offset array can grow to each share. -/
theorem Queue.Holds.growthFits_of_sendEach (h : q.Holds items) {abortFlag : Bool}
    {pairs : List (ι × Nat)} {result : List (SendCall ι) × Nat × Queue}
    (hSum : (pairs.map Prod.snd).sum ≤ items.length)
    (hBytes : ∀ segment ∈ segments items (pairs.map Prod.snd), segment.flatten.length ≤ intMax)
    (hOffsets : offsetsCount ≤ intMax)
    (hRun : Circle.sendEach abortFlag offsetsCount q pairs = some result) :
    ∀ size ∈ pairs.map Prod.snd, size ≠ 0 → GrowthFits 4096 (2 + size) offsetsCount := by
  induction pairs generalizing q items offsetsCount result with
  | nil => simp
  | cons pair pairs ih =>
      obtain ⟨dest, size⟩ := pair
      simp only [List.map_cons, List.sum_cons] at hSum
      rw [Circle.sendEach] at hRun
      by_cases hSize : size = 0
      · subst hSize
        rw [if_pos rfl] at hRun
        obtain ⟨later, hLater, -⟩ := Option.bind_eq_some_iff.mp hRun
        have hRest := ih h (by omega)
          (fun segment hMem => hBytes segment (by simp [segments, hMem])) hOffsets hLater
        intro share hMem hNe
        rw [List.map_cons, List.mem_cons] at hMem
        exact hRest share (hMem.resolve_left hNe) hNe
      · rw [if_neg hSize] at hRun
        have hLe : size ≤ items.length := by omega
        obtain ⟨front, back, rfl, rfl, hBack, hDrop, hTake⟩ := exists_back hSize hLe
        have hSegment : back.flatten.length ≤ intMax :=
          hBytes back (by simp [segments])
        obtain ⟨sent, hSend, hRest⟩ := Option.bind_eq_some_iff.mp hRun
        obtain ⟨later, hLater, -⟩ := Option.bind_eq_some_iff.mp hRest
        rw [h.sendWork hBack hSegment] at hSend
        obtain ⟨extended, hExtended, rfl⟩ := Option.map_eq_some_iff.mp hSend
        have hFirst := (Queue.exists_extended_iff hOffsets).mp ⟨extended, hExtended⟩
        obtain ⟨numoffsets, -, hGrown⟩ := Option.bind_eq_some_iff.mp hExtended
        obtain ⟨rounds, rfl⟩ := extendOffsets_rounds hGrown
        have hBound := (extendOffsets_bounds hOffsets hGrown).2.2
        rw [List.length_append] at hSum
        have hOthers := ih h.truncate (by omega)
          (fun segment hMem => hBytes segment (by simp [segments, hMem])) hBound hLater
        intro share hMem hNe
        rw [List.map_cons, List.mem_cons] at hMem
        rcases hMem with rfl | hMem
        · exact hFirst
        · exact (growthFits_add hBound).mp (hOthers share hMem hNe)

end Loop

/-! ## The partition -/

/-- `sendWorkToMany` partitions the queue: what is kept and the segments of
the replies, from the last requestor to the first, are the old items. -/
structure Partition (splitEqual abortFlag : Bool) (q : Queue) (requestors : List ι)
    (kept : Nat) (shares : List Nat) (calls : List (SendCall ι)) (rest : Queue) : Prop where
  /-- Each requestor gets one reply. -/
  dests : calls.map SendCall.dest = requestors
  counts : calls.map SendCall.count = shares
  /-- No call asks for more than there is. -/
  within : ∀ call ∈ calls, call.count ≤ call.available
  /-- The replies carry the segments. -/
  messages : calls.map SendCall.messages = (segments q.items shares).map (messagesOf abortFlag)
  refused : ∀ call ∈ calls, call.count = 0 → call.messages = [noWork abortFlag]
  pieces : rest.items ++ (segments q.items shares).reverse.flatten = q.items
  inv : rest.Inv
  kept_eq : rest.count = kept
  kept_pos : 1 ≤ kept
  shares_pos : 2 ≤ q.count → 1 ≤ shares.sum
  even : ∀ a ∈ shares, ∀ b ∈ shares, a ≤ b + 1
  evenAll : splitEqual = true → ∀ a ∈ kept :: shares, ∀ b ∈ kept :: shares, a ≤ b + 1

/-- `sendWorkToMany` has a result, which partitions the queue. -/
def Partitions (splitEqual abortFlag : Bool) (offsetsCount : Nat) (q : Queue) (requestors : List ι)
    (draw : Nat) : Prop :=
  ∃ calls last rest kept shares,
    splitSizes splitEqual requestors.length q.count draw = kept :: shares ∧
    sendWorkToMany splitEqual abortFlag offsetsCount q requestors draw = some (calls, last, rest) ∧
    Partition splitEqual abortFlag q requestors kept shares calls rest

theorem messagesOf_of_count_eq_zero {abortFlag : Bool} {items : List Item} {shares : List Nat}
    {calls : List (SendCall ι)} (hSum : shares.sum ≤ items.length)
    (hCounts : calls.map SendCall.count = shares)
    (hMessages : calls.map SendCall.messages = (segments items shares).map (messagesOf abortFlag)) :
    ∀ call ∈ calls, call.count = 0 → call.messages = [noWork abortFlag] := by
  induction shares generalizing items calls with
  | nil =>
      rw [List.map_eq_nil_iff] at hCounts
      simp [hCounts]
  | cons size rest ih =>
      obtain ⟨first, later, rfl, rfl, hLater⟩ := List.map_eq_cons_iff.mp hCounts
      simp only [segments, List.map_cons, List.cons.injEq] at hMessages
      rw [List.sum_cons] at hSum
      intro call hCall hZero
      rcases List.mem_cons.mp hCall with rfl | hMem
      · rw [hMessages.1, hZero]
        simp [messagesOf]
      · have hLength : (items.take (items.length - first.count)).length =
            items.length - first.count := by simp
        exact ih (by omega) hLater hMessages.2 call hMem hZero

/-- What the shares have in common with the pairs of the loop. -/
theorem map_snd_zip_shares {requestors : List ι} {shares : List Nat}
    (hLength : shares.length = requestors.length) :
    (requestors.zip shares).map Prod.snd = shares ∧
      (requestors.zip shares).map Prod.fst = requestors :=
  ⟨List.map_snd_zip (Nat.le_of_eq hLength), List.map_fst_zip (Nat.le_of_eq hLength.symm)⟩

/-- A partition needs the offset array to grow to each share. -/
theorem Partitions.growthFits {splitEqual abortFlag : Bool} {offsetsCount : Nat} {q : Queue}
    {requestors : List ι} {draw : Nat}
    (h : Partitions splitEqual abortFlag offsetsCount q requestors draw) (hInv : q.Inv)
    (hCount : 1 ≤ q.count) (hRequestors : requestors ≠ []) (hOffsets : offsetsCount ≤ intMax)
    (hBytes : ∀ segment ∈ segments q.items
        (splitSizes splitEqual requestors.length q.count draw).tail,
      segment.flatten.length ≤ intMax) :
    ∀ size ∈ (splitSizes splitEqual requestors.length q.count draw).tail, size ≠ 0 →
      GrowthFits 4096 (2 + size) offsetsCount := by
  obtain ⟨calls, last, rest, -, -, -, hRun, -⟩ := h
  obtain ⟨kept, shares, hSizes, hFair⟩ := fairSizes_splitSizes splitEqual draw
    (List.length_pos_iff.mpr hRequestors) hCount
  unfold sendWorkToMany at hRun
  rw [hSizes, List.tail_cons] at hRun hBytes ⊢
  have hSum := hFair.sum_eq
  have hLength := hInv.length_items
  obtain ⟨hSnd, -⟩ := map_snd_zip_shares hFair.length_eq
  have hFits := hInv.holds.growthFits_of_sendEach (by rw [hSnd]; omega) (by rwa [hSnd]) hOffsets hRun
  rwa [hSnd] at hFits

/-- `sendWorkToMany` partitions the queue exactly when the offset array can
grow to each share. -/
theorem partitions_iff (splitEqual abortFlag : Bool) (offsetsCount : Nat) (q : Queue)
    (requestors : List ι) (draw : Nat) (hInv : q.Inv) (hCount : 1 ≤ q.count)
    (hRequestors : requestors ≠ []) (hOffsets : offsetsCount ≤ intMax)
    (hBytes : ∀ segment ∈ segments q.items
        (splitSizes splitEqual requestors.length q.count draw).tail,
      segment.flatten.length ≤ intMax) :
    Partitions splitEqual abortFlag offsetsCount q requestors draw ↔
      ∀ size ∈ (splitSizes splitEqual requestors.length q.count draw).tail, size ≠ 0 →
        GrowthFits 4096 (2 + size) offsetsCount := by
  refine ⟨fun h => h.growthFits hInv hCount hRequestors hOffsets hBytes, fun hFits => ?_⟩
  obtain ⟨kept, shares, hSizes, hFair⟩ := fairSizes_splitSizes splitEqual draw
    (List.length_pos_iff.mpr hRequestors) hCount
  rw [hSizes, List.tail_cons] at hFits hBytes
  have hSum := hFair.sum_eq
  have hLength := hInv.length_items
  have hShares : shares.sum ≤ q.items.length := by omega
  obtain ⟨hSnd, hFst⟩ := map_snd_zip_shares hFair.length_eq
  obtain ⟨calls, last, rest, hRun, hSent⟩ := hInv.holds.sendEach abortFlag
    (requestors.zip shares) (by rwa [hSnd]) (by rwa [hSnd]) hOffsets (by rwa [hSnd])
  have hHolds := hSent.holds
  rw [hSnd] at hHolds
  have hMessages : calls.map SendCall.messages =
      (segments q.items shares).map (messagesOf abortFlag) := by
    rw [hSent.messages, hSnd]
  have hCounts : calls.map SendCall.count = shares := hSent.counts.trans hSnd
  refine ⟨calls, last, rest, kept, shares, hSizes, ?_, {
    dests := hSent.dests.trans hFst
    counts := hCounts
    within := hSent.within
    messages := hMessages
    refused := messagesOf_of_count_eq_zero hShares hCounts hMessages
    pieces := by
      rw [hHolds.items_eq]
      exact take_append_segments q.items shares hShares
    inv := hHolds.inv
    kept_eq := by
      rw [hHolds.count_eq, List.length_take]
      omega
    kept_pos := hFair.kept_pos
    shares_pos := hFair.shares_pos
    even := hFair.even
    evenAll := hFair.evenAll }⟩
  unfold sendWorkToMany
  rwa [hSizes, List.tail_cons]

/-- Three items among the rank itself and two requestors. -/
theorem partitions_packed_three :
    Partitions true false 0 (Queue.packed [[7], [8, 8], [9]]) ["a", "b"] 0 :=
  (partitions_iff true false 0 (Queue.packed [[7], [8, 8], [9]]) ["a", "b"] 0
    (Queue.holds_packed (by decide) (by decide)).inv (by decide) (by decide) (by decide)
    (by decide)).mpr (by
      intro size hMem hNe
      have hOne : size = 1 := by
        revert size
        decide
      subst hOne
      exact ⟨1, by decide, by decide⟩)

theorem spreadCounts_one (count : Nat) : spreadCounts 1 count = [count] := by
  obtain ⟨share, hShare⟩ := List.length_eq_one_iff.mp (length_spreadCounts count Nat.one_pos)
  have hSum := sum_spreadCounts count Nat.one_pos
  rw [hShare, List.sum_singleton] at hSum
  rw [hShare, hSum]

/-- A random share of so many items that the largest multiple of 4096 in `int`
has no room for its header. -/
theorem not_partitions_replicate {count draw : Nat} (hDraw : draw + 2 = count)
    (hLarge : 2 ^ 31 ≤ count + 4096) (hFits : count ≤ intMax) :
    (Queue.packed (List.replicate count [1])).Inv ∧
      (Queue.packed (List.replicate count [1])).count = count ∧
      (∀ segment ∈ segments (Queue.packed (List.replicate count [1])).items
          (splitSizes false 1 count draw).tail, segment.flatten.length ≤ intMax) ∧
      ¬ Partitions false false 0 (Queue.packed (List.replicate count [1])) ["a"] draw := by
  have hIntMax := intMax_lt_sizeModulus
  have hFlatten : (List.replicate count ([1] : Item)).flatten.length = count := by simp
  have h : (Queue.packed (List.replicate count [1])).Holds (List.replicate count [1]) :=
    Queue.holds_packed (fun item hMem => by simp [List.eq_of_mem_replicate hMem]) (by omega)
  have hCount : (Queue.packed (List.replicate count [1])).count = count := by
    rw [h.count_eq, List.length_replicate]
  have hSizes : splitSizes false 1 count draw = [1, draw + 1] := by
    have hMod : draw % count = draw := Nat.mod_eq_of_lt (by omega)
    have hNe : ¬ draw + 1 = count := by omega
    have hKept : count - (draw + 1) = 1 := by omega
    simp only [splitSizes, hMod, hNe, if_false, hKept, spreadCounts_one, Bool.false_eq_true]
  have hBytes : ∀ segment ∈ segments (Queue.packed (List.replicate count [1])).items
      (splitSizes false 1 count draw).tail, segment.flatten.length ≤ intMax := by
    rw [h.items_eq, hSizes]
    intro segment hMem
    simp only [List.tail_cons, segments, List.drop_replicate, List.length_replicate,
      List.mem_singleton] at hMem
    subst hMem
    simp only [List.flatten_replicate_singleton, List.length_replicate]
    omega
  refine ⟨h.inv, hCount, hBytes, fun hPartitions => ?_⟩
  obtain ⟨rounds, hMet, hInt⟩ := hPartitions.growthFits h.inv (by omega) (by simp)
    (Nat.zero_le _) (by rw [hCount]; exact hBytes) (draw + 1)
    (by rw [hCount]; simp [hSizes]) (by omega)
  unfold intMax at hInt
  omega

/-- Of 2^31 - 4096 one-byte items, `rand_r` can give 2^31 - 4097 to a single
requestor: their bytes fit an `int`, but the loop has no result. -/
theorem not_partitions_at_growth_limit :
    ∃ count draw, count = 2 ^ 31 - 4096 ∧ draw = 2 ^ 31 - 4098 ∧
      (Queue.packed (List.replicate count [1])).Inv ∧
      (Queue.packed (List.replicate count [1])).count = count ∧
      (∀ segment ∈ segments (Queue.packed (List.replicate count [1])).items
          (splitSizes false 1 count draw).tail, segment.flatten.length ≤ intMax) ∧
      ¬ Partitions false false 0 (Queue.packed (List.replicate count [1])) ["a"] draw := by
  obtain ⟨count, hEq⟩ : ∃ count, count = 2 ^ 31 - 4096 := ⟨_, rfl⟩
  obtain ⟨draw, hDraw⟩ : ∃ draw, draw = 2 ^ 31 - 4098 := ⟨_, rfl⟩
  have hFits : count ≤ intMax := by
    rw [hEq]
    decide
  exact ⟨count, draw, hEq, hDraw, not_partitions_replicate (by omega) (by omega) hFits⟩

/-! ## The turns of `workreqCheck` -/

section Turns

variable {n : Nat} (cfg : Config n) (rank : Fin n) (cleanup abortFlag : Bool)

/-- The messages of so many turns of `workreqCheck` in a row, and the rank
after them. -/
def answerTurns : Nat → Work n → Color → Option (List (Packet n) × Work n × Color)
  | 0, w, proc => some ([], w, proc)
  | turns + 1, w, proc => do
      let turn ← w.workreqCheck cfg rank cleanup abortFlag proc (.tick .go)
      let (packets, last) ← answerTurns turns turn.record.1 turn.record.2
      some (turn.out.toList ++ packets, last)

/-- The packets of a sequence of calls. -/
def packetsOf (calls : List (SendCall (Fin n))) : List (Packet n) :=
  calls.flatMap fun call => call.messages.map fun msg => ⟨call.dest, .workReply, msg⟩

section Answer

variable (proc : Color) {w : Work n} {dest : Fin n}
  {requestors : List (Fin n)} {size : Nat} {shares : List Nat}

theorem workreqCheck_noWork (hReplying : w.replying = true) (hSending : w.sending = none)
    (hRequestors : w.requestors = dest :: requestors) (hShares : w.shares = 0 :: shares) :
    w.workreqCheck cfg rank cleanup abortFlag proc (.tick .go) =
      some (.sends (w.answered, proc) dest .workReply (noWork abortFlag)) := by
  simp only [Work.workreqCheck, hReplying, if_true, hRequestors, hShares, Work.sendWork, hSending,
    Work.sendNoWork, noWork]

theorem workreqCheck_header (hReplying : w.replying = true) (hSending : w.sending = none)
    (hRequestors : w.requestors = dest :: requestors) (hShares : w.shares = size :: shares)
    (hSize : size ≠ 0) (hBytes : w.queue.segmentBytes size ≤ intMax) {sent : SentWork}
    (hSent : sendWork w.offsetsCount w.queue size = some sent) :
    w.workreqCheck cfg rank cleanup abortFlag proc (.tick .go) =
      some (.sends ({ w with sending := some sent, offsetsCount := sent.offsetsCount },
        Work.colorAfterSend rank dest proc) dest .workReply (.ints sent.header)) := by
  simp only [Work.workreqCheck, hReplying, if_true, hRequestors, hShares, Work.sendWork, hSending,
    if_neg hSize, if_pos hBytes, hSent, Option.map_some]

theorem workreqCheck_payload (hReplying : w.replying = true) {sent : SentWork}
    (hSending : w.sending = some sent) (hRequestors : w.requestors = dest :: requestors)
    (hShares : w.shares = size :: shares) :
    w.workreqCheck cfg rank cleanup abortFlag proc (.tick .go) =
      some (.sends ({ w.answered with
        queue := sent.queue
        sending := none
        workOutstanding := w.workOutstanding + 1 }, proc) dest .workReply
          (.chars sent.payload)) := by
  simp only [Work.workreqCheck, hReplying, if_true, hRequestors, hShares, Work.sendWork, hSending]

end Answer

theorem answerTurns_succ {turns : Nat} {w : Work n} {proc : Color}
    {turn : Turn n (Work n × Color) Unit} {packets : List (Packet n)} {last : Work n × Color}
    (hTurn : w.workreqCheck cfg rank cleanup abortFlag proc (.tick .go) = some turn)
    (hTurns : answerTurns cfg rank cleanup abortFlag turns turn.record.1 turn.record.2 =
      some (packets, last)) :
    answerTurns cfg rank cleanup abortFlag (turns + 1) w proc =
      some (turn.out.toList ++ packets, last) := by
  rw [answerTurns]
  simp only [hTurn, Option.bind_eq_bind, Option.bind_some, hTurns]

/-- Turn by turn, `workreqCheck` makes the calls of `sendWorkToMany`. -/
theorem exists_answerTurns {items : List Item} {w : Work n} (proc : Color)
    (h : w.queue.Holds items) (hReplying : w.replying = true) (hSending : w.sending = none)
    (hLength : w.shares.length = w.requestors.length) (hSum : w.shares.sum ≤ items.length)
    (hBytes : ∀ segment ∈ segments items w.shares, segment.flatten.length ≤ intMax)
    {calls : List (SendCall (Fin n))} {last : Nat} {rest : Queue}
    (hRun : sendEach abortFlag w.offsetsCount w.queue (w.requestors.zip w.shares) =
      some (calls, last, rest)) :
    ∃ turns w' proc', answerTurns cfg rank cleanup abortFlag turns w proc =
        some (packetsOf calls, w', proc') ∧
      w'.queue = rest ∧ w'.offsetsCount = last ∧ w'.requestors = [] ∧ w'.replying = true ∧
      w'.sending = none := by
  induction hShares : w.shares generalizing w items calls proc with
  | nil =>
      have hRequestors : w.requestors = [] := by simpa [hShares] using hLength.symm
      simp only [hShares, hRequestors, List.zip_nil_left, sendEach, Option.some.injEq,
        Prod.mk.injEq] at hRun
      obtain ⟨rfl, rfl, rfl⟩ := hRun
      exact ⟨0, w, proc, rfl, rfl, rfl, hRequestors, hReplying, hSending⟩
  | cons size shares ih =>
      obtain ⟨dest, requestors, hRequestors⟩ : ∃ dest requestors, w.requestors = dest :: requestors :=
        List.exists_cons_of_length_pos (by simp [← hLength, hShares])
      rw [hShares, List.sum_cons] at hSum
      rw [hShares] at hBytes
      have hRest : shares.length = requestors.length := by
        simpa [hShares, hRequestors] using hLength
      rw [hRequestors, hShares, List.zip_cons_cons, sendEach] at hRun
      by_cases hSize : size = 0
      · -- a share of nothing is refused in one turn
        subst hSize
        rw [if_pos rfl] at hRun
        obtain ⟨⟨later, last', rest'⟩, hLater, hCalls⟩ := Option.bind_eq_some_iff.mp hRun
        simp only [Option.some.injEq, Prod.mk.injEq] at hCalls
        obtain ⟨rfl, rfl, rfl⟩ := hCalls
        obtain ⟨turns, w', proc', hTurns, hEnd⟩ := @ih items w.answered proc h hReplying hSending
          (by simpa [Work.answered, hShares, hRequestors] using hRest)
          (by simp only [Work.answered, hShares, List.tail_cons]; omega)
          (fun segment hMem => hBytes segment (by
            simpa [segments, Work.answered, hShares] using Or.inr hMem))
          later (by simpa [Work.answered, hShares, hRequestors] using hLater)
          (by simp [Work.answered, hShares])
        refine ⟨turns + 1, w', proc', ?_, hEnd⟩
        rw [answerTurns_succ cfg rank cleanup abortFlag
          (workreqCheck_noWork cfg rank cleanup abortFlag proc hReplying hSending hRequestors hShares)
          hTurns]
        rfl
      · rw [if_neg hSize] at hRun
        obtain ⟨sent, hSent, hTail⟩ := Option.bind_eq_some_iff.mp hRun
        obtain ⟨⟨later, last', rest'⟩, hLater, hCalls⟩ := Option.bind_eq_some_iff.mp hTail
        simp only [Option.some.injEq, Prod.mk.injEq] at hCalls
        obtain ⟨rfl, rfl, rfl⟩ := hCalls
        -- a share of some items takes two turns, one for the header and one for the items
        have hLe : size ≤ items.length := by omega
        obtain ⟨front, back, rfl, rfl, hBack, hDrop, hTake⟩ := exists_back hSize hLe
        have hSegment : back.flatten.length ≤ intMax := hBytes back (by simp [segments])
        have hGuard : w.queue.segmentBytes back.length ≤ intMax := by
          rwa [Queue.segmentBytes, h.items_eq, h.count_eq, hDrop]
        -- after the two messages the queue holds what was in front
        have hQueue : sent.queue.Holds front := by
          rw [h.sendWork hBack hSegment] at hSent
          obtain ⟨extended, -, rfl⟩ := Option.map_eq_some_iff.mp hSent
          exact h.truncate
        rw [List.length_append] at hSum
        obtain ⟨turns, w', proc', hTurns, hEnd⟩ := @ih front
          { w.answered with
            offsetsCount := sent.offsetsCount
            queue := sent.queue
            sending := none
            workOutstanding := w.workOutstanding + 1 }
          (Work.colorAfterSend rank dest proc) hQueue hReplying rfl
          (by simpa [Work.answered, hShares, hRequestors] using hRest)
          (by simp only [Work.answered, hShares, List.tail_cons]; omega)
          (fun segment hMem => hBytes segment (by
            simpa [segments, Work.answered, hShares] using Or.inr hMem))
          later (by simpa [Work.answered, hShares, hRequestors] using hLater)
          (by simp [Work.answered, hShares])
        refine ⟨turns + 2, w', proc', ?_, hEnd⟩
        have hPayload := answerTurns_succ cfg rank cleanup abortFlag
          (workreqCheck_payload cfg rank cleanup abortFlag (Work.colorAfterSend rank dest proc)
            (w := { w with sending := some sent, offsetsCount := sent.offsetsCount })
            hReplying rfl hRequestors hShares) hTurns
        rw [answerTurns_succ cfg rank cleanup abortFlag
          (workreqCheck_header cfg rank cleanup abortFlag proc hReplying hSending hRequestors
            hShares hSize hGuard hSent) hPayload]
        rfl

end Turns

end Circle
