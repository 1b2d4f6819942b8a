import Circle.Queue.Basic

/-!
# The queue refines a stack of byte strings

Each queue operation is related to the stack operation it stands for: first
one lemma for each operation on a queue that holds a list, then the run lemma
for any sequence of operations on a fresh queue.
-/

namespace Circle
namespace Queue

/-! ## Growing keeps what is held -/

theorem take_resize {α : Type} {filler : α} {cells : List α} {size n : Nat}
    (hn : n ≤ cells.length) (hSize : cells.length ≤ size) :
    (resize filler cells size).take n = cells.take n := by
  rw [resize, List.take_of_length_le hSize, List.take_append_of_le_length hn]

theorem length_resize {α : Type} (filler : α) {cells : List α} {size : Nat}
    (hSize : cells.length ≤ size) : (resize filler cells size).length = size := by
  simp only [resize, List.length_append, List.length_take, List.length_replicate]
  omega

/-- Asking for slots succeeds for every count in `int` range, and leaves the
items where they are. -/
theorem Holds.ensureStr {q : Queue} {l : List Item} (h : q.Holds l) (slots : Nat)
    (hSlots : slots ≤ intMax) :
    ∃ q', q.ensureStr slots = some (0, q') ∧ q'.Holds l ∧
      slots ≤ q'.strings.length ∧ q'.base = q.base := by
  unfold Queue.ensureStr
  split
  · obtain ⟨size, hGrow, hMet, hGrown, -⟩ := growSize_eq_some stringsStep slots
      (by decide) (by unfold intMax at hSlots; simp [sizeModulus, stringsStep]; omega)
      (sizeModulus - 1) q.strings.length (by unfold intMax at hSlots; simp [sizeModulus]; omega)
    have hLength := length_resize 0 hGrown
    refine ⟨{ q with strings := resize 0 q.strings size }, ?_, ?_, ?_, rfl⟩
    · rw [extendStr, show sizeModulus = sizeModulus - 1 + 1 from rfl, hGrow]
      rfl
    · refine { h with count_le := ?_, offsets_eq := ?_ }
      · exact Nat.le_trans h.count_le (Nat.le_trans hGrown (Nat.le_of_eq hLength.symm))
      · exact (take_resize h.count_le hGrown).trans h.offsets_eq
    · exact Nat.le_trans hMet (Nat.le_of_eq hLength.symm)
  · exact ⟨q, rfl, h, by omega, rfl⟩

/-- Asking for bytes succeeds up to half of the address space. -/
theorem Holds.ensure {q : Queue} {l : List Item} (h : q.Holds l) (page : PageSize)
    (bytes : Nat) (hBytes : bytes ≤ 2 ^ 63) :
    ∃ q', q.ensure page bytes = some (0, q') ∧ q'.Holds l ∧
      bytes ≤ q'.base.length ∧ q'.strings = q.strings := by
  have hSmall := page.small
  have hStep : 0 < page.bytes * 4096 := Nat.mul_pos page.pos (by decide)
  unfold Queue.ensure
  split
  · obtain ⟨size, hGrow, hMet, hGrown, hTight⟩ := growSize_eq_some (page.bytes * 4096)
      bytes hStep (by simp only [sizeModulus]; omega)
      (sizeModulus - 1) q.base.length (by simp only [sizeModulus]; omega)
    have hLength := length_resize (0 : UInt8) hGrown
    refine ⟨{ q with base := resize 0 q.base size }, ?_, ?_, ?_, rfl⟩
    · rw [extend, show sizeModulus = sizeModulus - 1 + 1 from rfl, hGrow]
      rfl
    · refine { h with head_le := ?_, pool_lt := ?_, pool_eq := ?_ }
      · exact Nat.le_trans h.head_le (Nat.le_trans hGrown (Nat.le_of_eq hLength.symm))
      · have hPool := h.pool_lt
        simp only [sizeModulus] at hPool ⊢
        omega
      · exact (take_resize h.head_le hGrown).trans h.pool_eq
    · exact Nat.le_trans hMet (Nat.le_of_eq hLength.symm)
  · exact ⟨q, rfl, h, by omega, rfl⟩

/-! ## One operation -/

/-- The bytes of `content` that `push` copies: its length passes through
`uint32_t`. -/
def stored (content : Item) : Item := content.take (toUInt32 content.length)

theorem length_stored (content : Item) :
    (stored content).length = toUInt32 content.length := by
  have hle : toUInt32 content.length ≤ content.length := toUInt32_le _
  simp [stored, Nat.min_eq_left hle]

theorem length_stored_lt (content : Item) : (stored content).length < 2 ^ 32 :=
  length_stored content ▸ toUInt32_lt _

theorem stored_of_lt {content : Item} (hFits : content.length < 2 ^ 32) :
    stored content = content := by
  rw [stored, toUInt32_of_lt hFits, List.take_length]

/-- Writing behind the last item appends it. -/
theorem Holds.store {q : Queue} {l : List Item} (h : q.Holds l) {content : Item} {len : Nat}
    (hLen : len ≤ content.length) (hPositive : 0 < len)
    (hSlots : l.length + 1 ≤ q.strings.length) (hRoom : l.flatten.length + len ≤ q.base.length) :
    (q.store content len (l.length + 1)).Holds (l ++ [content.take len]) := by
  have hLength : (content.take len).length = len := by simp [Nat.min_eq_left hLen]
  have hHead : sizeAdd q.head len = q.head + len := by
    rw [h.head_eq, sizeAdd_of_lt (Nat.lt_of_le_of_lt hRoom h.pool_lt)]
  have hOldHead := h.head_eq
  have hOldCount := h.count_eq
  refine ⟨?_, ?_, ?_, ?_, ?_, ?_, ?_, ?_⟩
  · simp [Queue.store]
  · simpa [Queue.store] using hSlots
  · simp only [Queue.store, hHead, List.flatten_append, List.length_append,
      List.flatten_singleton, hLength]
    omega
  · simp only [Queue.store, hHead]
    rw [Packed.length_splice (by omega)]
    omega
  · simp only [Queue.store]
    rw [Packed.length_splice (by omega)]
    exact h.pool_lt
  · have hSlot : q.count < q.strings.length := by omega
    have hOffsets : (q.strings.set q.count q.head).take (q.count + 1) =
        q.offsets ++ [q.head] := by
      rw [List.take_add_one, List.getElem?_set_self hSlot, List.take_set_of_le (Nat.le_refl _)]
      rfl
    rw [Packed.offsetsFrom_append, Nat.zero_add, ← hOldHead, ← h.offsets_eq]
    simpa [Queue.store, offsets, ← hOldCount, Packed.offsetsFrom] using hOffsets
  · simp only [Queue.store, hHead, List.flatten_append, List.flatten_singleton]
    rw [← h.pool_eq]
    have hTake := Packed.take_splice (content.take len) h.head_le
    rwa [hLength] at hTake
  · intro item hMem
    rcases List.mem_append.mp hMem with hOld | hNew
    · exact h.nonempty item hOld
    · rw [List.mem_singleton.mp hNew]
      intro hNil
      rw [hNil] at hLength
      simp only [List.length_nil] at hLength
      omega

/-- Sizes a queue can have: an `int` number of items, each with a length that
passed through `uint32_t`. -/
structure Sized (l : List Item) : Prop where
  count_le : l.length ≤ intMax
  length_lt : ∀ item ∈ l, item.length < 2 ^ 32

theorem Sized.flatten_le {l : List Item} (h : Sized l) :
    l.flatten.length ≤ l.length * (2 ^ 32 - 1) := by
  obtain ⟨-, hLength⟩ := h
  induction l with
  | nil => simp
  | cons item rest ih =>
      have hItem := hLength item (by simp)
      have hRest := ih (fun later hLater => hLength later (by simp [hLater]))
      simp only [List.flatten_cons, List.length_append, List.length_cons, Nat.succ_mul]
      omega

/-- So the pool in use stays in the lower half of the address space. -/
theorem Sized.flatten_lt {l : List Item} (h : Sized l) : l.flatten.length + 2 ^ 32 ≤ 2 ^ 63 := by
  have hBytes := h.flatten_le
  have hCount : l.length * (2 ^ 32 - 1) ≤ (2 ^ 31 - 1) * (2 ^ 32 - 1) :=
    Nat.mul_le_mul_right _ h.count_le
  omega

/-- `push` stores what passed through `uint32_t`, unless nothing did. -/
theorem Holds.push {q : Queue} {l : List Item} (h : q.Holds l) (page : PageSize)
    (hSized : Sized l) (hCount : l.length < intMax) (content : Item)
    (hContent : stored content ≠ []) :
    ∃ q', q.push page content = some (0, q') ∧ q'.Holds (l ++ [stored content]) := by
  have hLen : toUInt32 content.length ≤ content.length := toUInt32_le _
  have hPositive : 0 < toUInt32 content.length := by
    rw [← length_stored]
    exact List.length_pos_iff.mpr hContent
  have hBound := toUInt32_lt content.length
  have hBytes := hSized.flatten_lt
  have hFits : l.flatten.length + toUInt32 content.length < sizeModulus := by
    simp only [sizeModulus]
    omega
  have hNewBytes : sizeAdd q.head (toUInt32 content.length) =
      l.flatten.length + toUInt32 content.length := by
    rw [h.head_eq, sizeAdd_of_lt hFits]
  obtain ⟨q₁, hStr, h₁, hSlots, -⟩ := h.ensureStr (l.length + 1) hCount
  obtain ⟨q₂, hBase, h₂, hRoom, hStrings⟩ := h₁.ensure page
    (l.flatten.length + toUInt32 content.length) (by omega)
  refine ⟨q₂.store content (toUInt32 content.length) (l.length + 1), ?_,
    h₂.store hLen hPositive (hStrings ▸ hSlots) hRoom⟩
  have hHead : q₁.head = q.head := h₁.head_eq.trans h.head_eq.symm
  have hInPool : ¬ q₂.base.length < q₂.head + toUInt32 content.length := by
    rw [h₂.head_eq]
    omega
  rw [Queue.push]
  simp only [h.count_eq, intAdd_eq_some (show l.length + 1 ≤ intMax from hCount),
    Nat.not_le.mpr hPositive, if_false, Option.bind_eq_bind, Option.bind_some, hStr, hHead,
    hNewBytes, hBase, Int.lt_irrefl, hInPool]

/-- Content that nothing is left of after `uint32_t` is refused. -/
theorem push_of_stored_eq_nil (page : PageSize) (q : Queue) {content : Item}
    (hContent : stored content = []) : q.push page content = some (-1, q) := by
  have hLen : toUInt32 content.length = 0 := by
    rw [← length_stored, hContent, List.length_nil]
  simp [Queue.push, hLen]

/-- Dropping the last items and moving `head` to where they started leaves the
first items. -/
theorem Holds.truncate {q : Queue} {front back : List Item} (h : q.Holds (front ++ back)) :
    Holds { q with head := front.flatten.length, count := front.length } front := by
  have hCount := h.count_eq
  have hHead := h.head_eq
  simp only [List.length_append, List.flatten_append] at hCount hHead
  have hStrings := h.count_le
  have hBase := h.head_le
  refine ⟨rfl, ?_, rfl, ?_, h.pool_lt, ?_, ?_, fun item hMem => h.nonempty item (by simp [hMem])⟩
  · simp only
    omega
  · simp only
    omega
  · have hOffsets := congrArg (List.take front.length) h.offsets_eq
    rw [Packed.offsetsFrom_append, List.take_left' (by simp)] at hOffsets
    rw [← hOffsets, offsets, offsets, List.take_take, Nat.min_eq_left (by omega)]
  · have hPool := congrArg (List.take front.flatten.length) h.pool_eq
    rw [List.flatten_append, List.take_left, List.take_take, Nat.min_eq_left (by omega)] at hPool
    exact hPool

/-- The last items start where the first ones end. -/
theorem Holds.getD_strings {q : Queue} {front : List Item} {item : Item} {back : List Item}
    (h : q.Holds (front ++ item :: back)) :
    q.strings.getD front.length 0 = front.flatten.length := by
  have hCount := h.count_eq
  simp only [List.length_append, List.length_cons] at hCount
  have hOffset := Packed.getElem?_offsetsFrom_append 0 front item back
  rw [← h.offsets_eq, offsets, List.getElem?_take, if_pos (by omega), Nat.zero_add] at hOffset
  simp [List.getD, hOffset]

/-- The pool from the end of the first items up to `head` is the last items. -/
theorem Holds.slice_pool {q : Queue} {front back : List Item} (h : q.Holds (front ++ back)) :
    (q.base.drop front.flatten.length).take back.flatten.length = back.flatten := by
  have hHead := h.head_eq
  have hPool := congrArg (List.drop front.flatten.length) h.pool_eq
  simp only [List.flatten_append, List.length_append] at hHead hPool
  rw [List.drop_left, List.drop_take,
    show q.head - front.flatten.length = back.flatten.length by omega] at hPool
  exact hPool

theorem Holds.lastOffset {q : Queue} {front : List Item} {item : Item}
    (h : q.Holds (front ++ [item])) : q.lastOffset = front.flatten.length := by
  have hCount := h.count_eq
  rw [Queue.lastOffset, hCount]
  simpa using h.getD_strings

theorem Holds.head_lt {q : Queue} {l : List Item} (h : q.Holds l) : q.head < sizeModulus :=
  Nat.lt_of_le_of_lt h.head_le h.pool_lt

theorem Holds.lastLength {q : Queue} {front : List Item} {item : Item}
    (h : q.Holds (front ++ [item])) :
    sizeSub q.head q.lastOffset = item.length := by
  have hHead := h.head_eq
  simp only [List.flatten_append, List.flatten_singleton, List.length_append] at hHead
  rw [h.lastOffset, sizeSub_of_le (by omega) h.head_lt]
  omega

/-- `pop` on a queue that holds something returns the last item and removes
it. -/
theorem Holds.pop {q : Queue} {front : List Item} {item : Item}
    (h : q.Holds (front ++ [item])) (content : Item) :
    ∃ q', q.pop content = (0, item, q') ∧ q'.Holds front := by
  refine ⟨{ q with head := front.flatten.length, count := front.length }, ?_, h.truncate⟩
  have hCount := h.count_eq
  have hSlice := h.slice_pool
  have hLength := h.lastLength
  simp only [List.length_append, List.length_singleton] at hCount
  rw [List.flatten_singleton] at hSlice
  rw [h.lastOffset] at hLength
  rw [Queue.pop, if_neg (by omega)]
  simp only [h.lastOffset, hLength, hSlice, hCount, Nat.add_sub_cancel]

theorem Holds.pop_nil {q : Queue} (h : q.Holds []) (content : Item) :
    q.pop content = (-1, content, q) := by
  have hCount := h.count_eq
  rw [Queue.pop, if_pos (by simp [hCount])]

end Queue

/-! ## Sequences of operations -/

/-- One call on a queue, with the buffer the caller passes to `pop`. -/
inductive QueueOp where
  | push (content : Item)
  | pushString (element : Item)
  | pop (content : Item)
  | popString (element : Item)
  | lastSize
  | getCount
  deriving DecidableEq, Repr

/-- What a call returns. -/
inductive QueueResult where
  | code (rc : Int)
  | popped (rc : Int) (content : Item)
  | size (bytes : Nat)
  | count (items : Nat)
  deriving DecidableEq, Repr

/-- The content a call pushes. -/
def QueueOp.content : QueueOp → Item
  | .push content => content
  | .pushString element => element
  | _ => []

namespace Queue

/-- Carry out one call. -/
def perform (page : PageSize) (q : Queue) : QueueOp → Option (QueueResult × Queue)
  | .push content => (q.push page content).map fun (rc, q') => (.code rc, q')
  | .pushString element => (q.pushString page element).map fun (rc, q') => (.code rc, q')
  | .pop content =>
      let (rc, content, q') := q.pop content
      some (.popped rc content, q')
  | .popString element =>
      let (rc, element, q') := q.popString element
      some (.popped rc element, q')
  | .lastSize => some (.size q.lastSize, q)
  | .getCount => some (.count q.getCount, q)

/-- Carry out a sequence of calls, collecting the results. -/
def performAll (page : PageSize) : Queue → List QueueOp → Option (List QueueResult × Queue)
  | q, [] => some ([], q)
  | q, op :: rest => do
      let (result, q) ← q.perform page op
      let (results, q) ← performAll page q rest
      some (result :: results, q)

end Queue

/-- The abstract queue: a stack of byte strings, its top last. -/
abbrev Stack := List Item

namespace Stack

/-- What each call means on the stack.  Only the string overload of `pop`
touches the caller's buffer when there is nothing to pop. -/
def perform (s : Stack) : QueueOp → QueueResult × Stack
  | .push content => if content = [] then (.code (-1), s) else (.code 0, s ++ [content])
  | .pushString element => if element = [] then (.code (-1), s) else (.code 0, s ++ [element])
  | .pop content =>
      match s.getLast? with
      | none => (.popped (-1) content, s)
      | some item => (.popped 0 item, s.dropLast)
  | .popString _ =>
      match s.getLast? with
      | none => (.popped (-1) [], s)
      | some item => (.popped 0 item, s.dropLast)
  | .lastSize =>
      match s.getLast? with
      | none => (.size (sizeModulus - 1), s)
      | some item => (.size item.length, s)
  | .getCount => (.count s.length, s)

def performAll : Stack → List QueueOp → List QueueResult × Stack
  | s, [] => ([], s)
  | s, op :: rest =>
      let (result, s) := s.perform op
      let (results, s) := performAll s rest
      (result :: results, s)

/-- The stack has fewer than `bound` items all along a sequence of calls. -/
def StaysBelow (bound : Nat) : Stack → List QueueOp → Prop
  | s, [] => s.length < bound
  | s, op :: rest => s.length < bound ∧ StaysBelow bound (s.perform op).2 rest

instance StaysBelow.decidable (bound : Nat) : ∀ (s : Stack) (ops : List QueueOp),
    Decidable (StaysBelow bound s ops)
  | s, [] => inferInstanceAs (Decidable (s.length < bound))
  | s, op :: rest =>
      have := StaysBelow.decidable bound (s.perform op).2 rest
      inferInstanceAs (Decidable (s.length < bound ∧ StaysBelow bound (s.perform op).2 rest))

theorem StaysBelow.length_lt {bound : Nat} {s : Stack} {ops : List QueueOp}
    (h : StaysBelow bound s ops) : s.length < bound := by
  cases ops with
  | nil => exact h
  | cons op rest => exact h.1

/-- A call leaves the stack alone, pushes its content or drops the top. -/
theorem perform_cases (s : Stack) (op : QueueOp) :
    (s.perform op).2 = s ∨ (s.perform op).2 = s ++ [op.content] ∨
      (s.perform op).2 = s.dropLast := by
  cases op with
  | push content => by_cases hNil : content = [] <;> simp [perform, hNil, QueueOp.content]
  | pushString element => by_cases hNil : element = [] <;> simp [perform, hNil, QueueOp.content]
  | pop content => cases hTop : s.getLast? <;> simp [perform, hTop]
  | popString element => cases hTop : s.getLast? <;> simp [perform, hTop]
  | lastSize => cases hTop : s.getLast? <;> simp [perform, hTop]
  | getCount => exact Or.inl rfl

theorem sized_perform {s : Stack} {op : QueueOp} (hSized : Queue.Sized s)
    (hContent : op.content.length < 2 ^ 32) (hCount : (s.perform op).2.length ≤ intMax) :
    Queue.Sized (s.perform op).2 := by
  refine ⟨hCount, ?_⟩
  rcases s.perform_cases op with hSame | hPushed | hPopped
  · rw [hSame]
    exact hSized.length_lt
  · intro item hMem
    rcases List.mem_append.mp (hPushed ▸ hMem) with hOld | hNew
    · exact hSized.length_lt item hOld
    · rwa [List.mem_singleton.mp hNew]
  · intro item hMem
    exact hSized.length_lt item (List.mem_of_mem_dropLast (hPopped ▸ hMem))

end Stack

namespace Queue

/-- Popping, described by the top of the stack. -/
theorem Holds.pop_eq {q : Queue} {s : Stack} (h : q.Holds s) (content : Item) :
    ∃ q', q'.Holds (s.perform (.pop content)).2 ∧
      QueueResult.popped (q.pop content).1 (q.pop content).2.1 =
        (s.perform (.pop content)).1 ∧ (q.pop content).2.2 = q' := by
  rcases List.eq_nil_or_concat s with rfl | ⟨front, item, rfl⟩
  · exact ⟨q, h, by simp [h.pop_nil, Stack.perform], by rw [h.pop_nil]⟩
  · rw [List.concat_eq_append] at h ⊢
    obtain ⟨q', hPop, hHolds⟩ := h.pop content
    exact ⟨q', by simpa [Stack.perform] using hHolds, by simp [hPop, Stack.perform],
      by rw [hPop]⟩

/-- One call on a queue that holds a stack answers as the stack does, and
leaves the queue holding the stack's successor. -/
theorem Holds.perform {q : Queue} {s : Stack} (h : q.Holds s) (page : PageSize)
    (hSized : Sized s) (hCount : s.length < intMax) {op : QueueOp}
    (hContent : op.content.length < 2 ^ 32) :
    ∃ q', q.perform page op = some ((s.perform op).1, q') ∧ q'.Holds (s.perform op).2 := by
  have hPush (content : Item) (hLength : content.length < 2 ^ 32) :
      ∃ q', (q.push page content).map (fun (rc, q') => (QueueResult.code rc, q')) =
          some ((s.perform (.push content)).1, q') ∧
        q'.Holds (s.perform (.push content)).2 := by
    have hStored := stored_of_lt hLength
    by_cases hNil : content = []
    · refine ⟨q, ?_, ?_⟩
      · rw [push_of_stored_eq_nil page q (hStored.trans hNil)]
        simp [Stack.perform, hNil]
      · simpa [Stack.perform, hNil] using h
    · obtain ⟨q', hEq, hHolds⟩ := h.push page hSized hCount content (by rwa [hStored])
      rw [hStored] at hHolds
      exact ⟨q', by simp [hEq, Stack.perform, hNil], by simpa [Stack.perform, hNil] using hHolds⟩
  cases op with
  | push content => exact hPush content hContent
  | pushString element => exact hPush element hContent
  | pop content =>
      obtain ⟨q', hHolds, hResult, hEq⟩ := h.pop_eq content
      exact ⟨q', by simp only [Queue.perform, hResult, hEq], hHolds⟩
  | popString element =>
      obtain ⟨q', hHolds, hResult, hEq⟩ := h.pop_eq []
      have hSame : Stack.perform s (.pop []) = Stack.perform s (.popString element) := rfl
      exact ⟨q', by simp only [Queue.perform, popString, hResult, hEq, hSame], hSame ▸ hHolds⟩
  | lastSize =>
      rcases List.eq_nil_or_concat s with rfl | ⟨front, item, rfl⟩
      · have hZero : q.count = 0 := by simpa using h.count_eq
        exact ⟨q, by simp [Queue.perform, Queue.lastSize, Stack.perform, hZero], h⟩
      · rw [List.concat_eq_append] at h ⊢
        have hPositive : ¬ q.count < 1 := by simp [h.count_eq]
        refine ⟨q, ?_, by simpa [Stack.perform] using h⟩
        simp [Queue.perform, Queue.lastSize, Stack.perform, hPositive, h.lastLength]
  | getCount => exact ⟨q, by simp [Queue.perform, Queue.getCount, Stack.perform, h.count_eq], h⟩

/-- A whole sequence of calls answers as the stack does. -/
theorem Holds.performAll {q : Queue} {s : Stack} (h : q.Holds s) (page : PageSize)
    (hSized : Sized s) {ops : List QueueOp} (hCount : s.StaysBelow intMax ops)
    (hContent : ∀ op ∈ ops, op.content.length < 2 ^ 32) :
    ∃ q', q.performAll page ops = some ((s.performAll ops).1, q') ∧
      q'.Holds (s.performAll ops).2 := by
  induction ops generalizing q s with
  | nil => exact ⟨q, rfl, h⟩
  | cons op rest ih =>
      have hOp := hContent op (by simp)
      obtain ⟨q₁, hFirst, h₁⟩ := h.perform page hSized hCount.1 hOp
      have hSized₁ := Stack.sized_perform hSized hOp (Nat.le_of_lt hCount.2.length_lt)
      obtain ⟨q', hRest, h'⟩ := ih h₁ hSized₁ hCount.2
        (fun later hLater => hContent later (by simp [hLater]))
      exact ⟨q', by simp [Queue.performAll, hFirst, hRest, Stack.performAll], h'⟩

/-- The queue refines a stack of non-empty byte strings: from a fresh queue,
any sequence of calls has a result, every answer is the stack's, the
representation invariant holds, and `head` is the sum of the stored lengths. -/
theorem performAll_fresh (page : PageSize) (ops : List QueueOp)
    (hContent : ∀ op ∈ ops, op.content.length < 2 ^ 32)
    (hCount : Stack.StaysBelow intMax [] ops) :
    ∃ q, fresh.performAll page ops = some ((Stack.performAll [] ops).1, q) ∧
      q.items = (Stack.performAll [] ops).2 ∧ q.Inv ∧
      q.head = (q.items.map List.length).sum := by
  have hSized : Sized [] := ⟨by simp, by simp⟩
  obtain ⟨q, hRun, hHolds⟩ := holds_fresh.performAll page hSized hCount hContent
  refine ⟨q, hRun, hHolds.items_eq, hHolds.inv, ?_⟩
  rw [hHolds.items_eq, hHolds.head_eq, List.length_flatten]

/-- Pushing two items and popping three times. -/
theorem performAll_fresh_push_pop :
    ∃ q, fresh.performAll ⟨4096, by decide, by decide⟩
        [.push [1, 2, 3], .pushString [4], .lastSize, .pop [], .popString [], .pop [7]] =
          some ([.code 0, .code 0, .size 1, .popped 0 [4], .popped 0 [1, 2, 3],
            .popped (-1) [7]], q) ∧
      q.items = [] ∧ q.Inv ∧ q.head = (q.items.map List.length).sum :=
  performAll_fresh ⟨4096, by decide, by decide⟩
    [.push [1, 2, 3], .pushString [4], .lastSize, .pop [], .popString [], .pop [7]]
    (by decide) (by decide)

end Queue
end Circle
