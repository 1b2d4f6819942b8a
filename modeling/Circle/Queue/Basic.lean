import Circle.Base.Packed
import Circle.Machine

/-!
# The local work queue

`Queue` keeps its items back to back in a byte pool `base`, with the offset at
which each item starts in `strings` and the end of the last item in `head`.
The functions below are the ones of `queue.cpp`.  A function returns the
`int8_t` code of the source together with the queue it leaves behind; `none`
stands for a call that has no defined result.
-/

namespace Circle

/-- A work item. -/
abbrev Item := List UInt8

/-- `sysconf(_SC_PAGESIZE)`, as far as the code relies on it: it is positive,
and 4096 pages are a small part of the address space. -/
structure PageSize where
  bytes : Nat
  pos : 0 < bytes
  small : bytes * 4096 ≤ 2 ^ 62

/-- The page size of most machines. -/
def PageSize.usual : PageSize := { bytes := 4096, pos := by decide, small := by decide }

/-- The queue structure.  A slot of `strings` from `count` on is stale. -/
structure Queue where
  base : List UInt8
  head : Nat
  strings : List Nat
  count : Nat
  deriving DecidableEq, Repr

namespace Queue

/-- The constructor. -/
def fresh : Queue := { base := [], head := 0, strings := [], count := 0 }

/-- `std::vector::resize`. -/
def resize {α : Type} (filler : α) (cells : List α) (size : Nat) : List α :=
  cells.take size ++ List.replicate (size - cells.length) filler

/-- `4096 / sizeof(strings[0])`. -/
def stringsStep : Nat := 512

def extendStr (q : Queue) (amount : Nat) : Option (Int × Queue) :=
  (growSize stringsStep amount sizeModulus q.strings.length).map fun newSize =>
    (0, { q with strings := resize 0 q.strings newSize })

def extend (page : PageSize) (q : Queue) (amount : Nat) : Option (Int × Queue) :=
  (growSize (page.bytes * 4096) amount sizeModulus q.base.length).map fun newSize =>
    (0, { q with base := resize 0 q.base newSize })

/-- `if (slots > strings.size()) extendStr(slots)`. -/
def ensureStr (q : Queue) (slots : Nat) : Option (Int × Queue) :=
  if slots > q.strings.length then q.extendStr slots else some (0, q)

/-- `if (bytes > base.size()) extend(bytes)`. -/
def ensure (page : PageSize) (q : Queue) (bytes : Nat) : Option (Int × Queue) :=
  if bytes > q.base.length then q.extend page bytes else some (0, q)

/-- Write an item behind the last one. -/
def store (q : Queue) (content : Item) (len slots : Nat) : Queue :=
  { base := Packed.splice q.base q.head (content.take len)
    head := sizeAdd q.head len
    strings := q.strings.set q.count q.head
    count := slots }

/-- `Queue::push(const std::vector<uint8_t> &)`. -/
def push (page : PageSize) (q : Queue) (content : Item) : Option (Int × Queue) :=
  let len := toUInt32 content.length
  if len ≤ 0 then
    some (-1, q)
  else do
    let slots ← intAdd q.count 1
    let (rc, q) ← q.ensureStr slots
    if rc < 0 then
      some (-1, q)
    else
      let (rc, q) ← q.ensure page (sizeAdd q.head len)
      if rc < 0 then
        some (-1, q)
      else if q.base.length < q.head + len then
        -- the `memcpy` would run past the end of the pool
        none
      else
        some (0, q.store content len slots)

/-- `Queue::push(const std::string &)`. -/
def pushString (page : PageSize) (q : Queue) (element : Item) : Option (Int × Queue) :=
  q.push page element

/-- The offset of the last item. -/
def lastOffset (q : Queue) : Nat := q.strings.getD (q.count - 1) 0

/-- `Queue::pop(std::vector<uint8_t> &)`: the code, the caller's buffer and the
queue. -/
def pop (q : Queue) (content : Item) : Int × Item × Queue :=
  if q.count < 1 then
    (-1, content, q)
  else
    let current := q.lastOffset
    let len := sizeSub q.head current
    (0, (q.base.drop current).take len, { q with head := current, count := q.count - 1 })

/-- `Queue::pop(std::string &)`, which pops into a vector of its own. -/
def popString (q : Queue) (_element : Item) : Int × Item × Queue := q.pop []

/-- `Queue::lastSize`; on an empty queue it returns `(size_t)-1`. -/
def lastSize (q : Queue) : Nat :=
  if q.count < 1 then sizeModulus - 1 else sizeSub q.head q.lastOffset

/-- `Queue::getCount`. -/
def getCount (q : Queue) : Nat := q.count

/-! ## The representation invariant -/

/-- The offsets in use. -/
def offsets (q : Queue) : List Nat := q.strings.take q.count

/-- The items of a queue, the one to pop next last. -/
def items (q : Queue) : List Item := Packed.cut q.base q.offsets q.head

/-- The representation invariant: the offsets in use start at zero, increase
strictly and stay below `head`, both vectors have room for what is in use, and
the pool has a size that a `size_t` can tell. -/
structure Inv (q : Queue) : Prop where
  count_le : q.count ≤ q.strings.length
  head_le : q.head ≤ q.base.length
  pool_lt : q.base.length < sizeModulus
  first : 0 < q.count → q.strings[0]? = some 0
  increasing : Packed.Increasing q.offsets q.head
  empty : q.count = 0 → q.head = 0

/-- A queue holds a list of items: they lie back to back in its pool, with
their offsets in use. -/
structure Holds (q : Queue) (items : List Item) : Prop where
  count_eq : q.count = items.length
  count_le : q.count ≤ q.strings.length
  head_eq : q.head = items.flatten.length
  head_le : q.head ≤ q.base.length
  pool_lt : q.base.length < sizeModulus
  offsets_eq : q.offsets = Packed.offsetsFrom 0 items
  pool_eq : q.base.take q.head = items.flatten
  nonempty : ∀ item ∈ items, item ≠ []

theorem holds_fresh : fresh.Holds [] where
  count_eq := rfl
  count_le := Nat.le_refl _
  head_eq := rfl
  head_le := Nat.le_refl _
  pool_lt := by decide
  offsets_eq := rfl
  pool_eq := rfl
  nonempty := by simp

theorem Inv.length_offsets {q : Queue} (h : q.Inv) : q.offsets.length = q.count := by
  simp [offsets, Nat.min_eq_left h.count_le]

theorem Inv.head_offsets {q : Queue} (h : q.Inv) {start : Nat} {rest : List Nat}
    (hOffsets : q.offsets = start :: rest) : start = 0 := by
  have hLength := h.length_offsets
  rw [hOffsets, List.length_cons] at hLength
  have hFirst : q.offsets[0]? = some 0 := by
    rw [offsets, List.getElem?_take, if_pos (by omega)]
    exact h.first (by omega)
  rw [hOffsets] at hFirst
  simpa using hFirst

/-- The invariant is what makes the items of a queue well defined: the queue
holds exactly the items cut out of its pool. -/
theorem Inv.holds {q : Queue} (h : q.Inv) : q.Holds q.items := by
  have hLength := h.length_offsets
  have hIncreasing := h.increasing
  have hFlatten : q.items.flatten = q.base.take q.head := by
    unfold items
    cases hOffsets : q.offsets with
    | nil =>
        rw [hOffsets] at hLength
        simp [Packed.cut, h.empty hLength.symm]
    | cons start rest =>
        rw [hOffsets] at hIncreasing
        rw [Packed.flatten_cut hIncreasing, h.head_offsets hOffsets]
        simp [Packed.slice]
  have hTable : Packed.offsetsFrom 0 q.items = q.offsets := by
    unfold items
    cases hOffsets : q.offsets with
    | nil => rfl
    | cons start rest =>
        rw [hOffsets] at hIncreasing
        have hStart := h.head_offsets hOffsets
        subst hStart
        exact Packed.offsetsFrom_cut hIncreasing h.head_le
  exact {
    count_eq := by simp [items, hLength]
    count_le := h.count_le
    head_eq := by simp [hFlatten, Nat.min_eq_left h.head_le]
    head_le := h.head_le
    pool_lt := h.pool_lt
    offsets_eq := hTable.symm
    pool_eq := hFlatten.symm
    nonempty := fun item hMem => Packed.ne_nil_of_mem_cut hIncreasing h.head_le hMem }

/-- Conversely, a queue that holds a list satisfies the invariant, and the
list is the one cut out of its pool. -/
theorem Holds.items_eq {q : Queue} {l : List Item} (h : q.Holds l) : q.items = l := by
  have hIncreasing := Packed.increasing_offsetsFrom 0 h.nonempty
  have hPool : q.base.take q.head = (l.flatten ++ []).take q.head := by
    rw [List.append_nil, h.pool_eq, h.head_eq, List.take_length]
  have hHead : q.head = 0 + l.flatten.length := by rw [h.head_eq, Nat.zero_add]
  rw [items, h.offsets_eq]
  rw [Packed.cut_congr (hHead ▸ hIncreasing) hPool, hHead]
  exact Packed.cut_offsetsFrom [] l []

theorem Holds.inv {q : Queue} {l : List Item} (h : q.Holds l) : q.Inv where
  count_le := h.count_le
  head_le := h.head_le
  pool_lt := h.pool_lt
  first := by
    intro hPositive
    have hFirst : q.offsets[0]? = q.strings[0]? := by
      rw [offsets, List.getElem?_take, if_pos hPositive]
    rw [← hFirst, h.offsets_eq]
    cases l with
    | nil => simp [h.count_eq] at hPositive
    | cons item rest => rfl
  increasing := by
    rw [h.offsets_eq, h.head_eq, ← Nat.zero_add l.flatten.length]
    exact Packed.increasing_offsetsFrom 0 h.nonempty
  empty := by
    intro hZero
    have hNil : l = [] := List.length_eq_zero_iff.mp (h.count_eq.symm.trans hZero)
    simp [h.head_eq, hNil]

theorem Inv.length_items {q : Queue} (h : q.Inv) : q.items.length = q.count :=
  h.holds.count_eq.symm

theorem inv_iff_exists_holds {q : Queue} : q.Inv ↔ ∃ l, q.Holds l :=
  ⟨fun h => ⟨q.items, h.holds⟩, fun ⟨_, h⟩ => h.inv⟩

/-- An empty queue, whatever its capacity and its stale contents. -/
structure IsEmpty (q : Queue) : Prop where
  count_eq : q.count = 0
  head_eq : q.head = 0
  pool_lt : q.base.length < sizeModulus

theorem isEmpty_fresh : fresh.IsEmpty := ⟨rfl, rfl, by decide⟩

theorem IsEmpty.holds {q : Queue} (h : q.IsEmpty) : q.Holds [] where
  count_eq := h.count_eq
  count_le := h.count_eq ▸ Nat.zero_le _
  head_eq := h.head_eq
  head_le := h.head_eq ▸ Nat.zero_le _
  pool_lt := h.pool_lt
  offsets_eq := by
    rw [offsets, h.count_eq]
    rfl
  pool_eq := by
    rw [h.head_eq]
    rfl
  nonempty := by simp

end Queue
end Circle
