import Circle.Queue.Refinement

/-!
# The C interface to the queue

`circle_enqueue` and `circle_dequeue` wrap `Circle::enqueue` and
`Circle::dequeue` for C.  `circle_dequeue` has three modes: both pointers null,
a size query (`element` null) and a fetch.  Of the caller's buffer only the
bytes written to it are kept here; its capacity is `*szelement` where that is
given.
-/

namespace Circle

/-- `Circle::enqueue`. -/
def enqueue (page : PageSize) (q : Queue) (element : Item) : Option (Int × Queue) :=
  q.push page element

/-- `Circle::dequeue`. -/
def dequeue (q : Queue) (element : Item) : Int × Item × Queue :=
  q.pop element

/-- `circle_enqueue`. -/
def circleEnqueue (page : PageSize) (q : Queue) (element : Item) (szelement : Nat) :
    Option (Int × Queue) :=
  enqueue page q (element.take szelement)

/-- What a call of `circle_dequeue` leaves behind: its code, the bytes written
to `element`, the value behind `szelement` and the queue. -/
structure Dequeued where
  rc : Int
  copied : Item
  szelement : Option Nat
  queue : Queue
  deriving DecidableEq, Repr

/-- `circle_dequeue`; `element` tells whether that pointer is given, and
`szelement` is the value behind the other one, if it is given. -/
def circleDequeue (q : Queue) (element : Bool) (szelement : Option Nat) : Dequeued :=
  match element, szelement with
  | false, none => { rc := -1, copied := [], szelement := none, queue := q }
  | false, some _ => { rc := 0, copied := [], szelement := some q.lastSize, queue := q }
  | true, none =>
      let (_, content, q) := dequeue q []
      { rc := 0, copied := content, szelement := none, queue := q }
  | true, some capacity =>
      let (_, content, q) := dequeue q []
      { rc := 0
        copied := content.take (min capacity content.length)
        szelement := some content.length
        queue := q }

/-- A call of `circle_dequeue` agrees with `Circle::dequeue` on the same
queue: it fails exactly when that one does; a size query changes nothing and,
if it succeeds, reports the length of what a fetch delivers; and a fetch that
removes an item has copied all of it. -/
structure AgreesWithDequeue (q : Queue) (element : Bool) (szelement : Option Nat) : Prop where
  fails : (circleDequeue q element szelement).rc < 0 ↔ (dequeue q []).1 < 0
  query : element = false →
    (circleDequeue q element szelement).queue = q ∧
      (0 ≤ (circleDequeue q element szelement).rc →
        (circleDequeue q element szelement).szelement =
          some (circleDequeue q true none).copied.length)
  fetch : element = true → (circleDequeue q element szelement).queue.count < q.count →
    (circleDequeue q element szelement).copied = (dequeue q []).2.1

namespace Queue

theorem dequeue_nil {q : Queue} (h : q.Holds []) : dequeue q [] = (-1, [], q) :=
  h.pop_nil []

/-- On a queue with an item, every mode reports success. -/
theorem Holds.circleDequeue {q : Queue} {front : List Item} {item : Item}
    (h : q.Holds (front ++ [item])) :
    ∃ q', dequeue q [] = (0, item, q') ∧ q'.Holds front ∧ q'.count < q.count ∧
      (∀ size, Circle.circleDequeue q false (some size) = ⟨0, [], some item.length, q⟩) ∧
      Circle.circleDequeue q true none = ⟨0, item, none, q'⟩ ∧
      ∀ capacity, Circle.circleDequeue q true (some capacity) =
        ⟨0, item.take (min capacity item.length), some item.length, q'⟩ := by
  obtain ⟨q', hPop, h'⟩ := h.pop []
  have hCount := h.count_eq
  have hCount' := h'.count_eq
  rw [List.length_append, List.length_singleton] at hCount
  have hSize : q.lastSize = item.length := by rw [lastSize, if_neg (by omega), h.lastLength]
  refine ⟨q', hPop, h', by omega, fun size => ?_, ?_, fun capacity => ?_⟩
  · simp only [Circle.circleDequeue, hSize]
  · simp only [Circle.circleDequeue, dequeue, hPop]
  · simp only [Circle.circleDequeue, dequeue, hPop]

/-- On an empty queue no mode agrees: the size query reports `(size_t)-1` and
the fetch nothing, both as a success. -/
theorem Holds.not_agrees {q : Queue} (h : q.Holds []) {element : Bool} {szelement : Option Nat}
    (hArguments : element = true ∨ szelement ≠ none) : ¬ AgreesWithDequeue q element szelement := by
  intro hAgrees
  have hFails : (Circle.circleDequeue q element szelement).rc < 0 := by
    apply hAgrees.fails.mpr
    rw [dequeue_nil h]
    show (-1 : Int) < 0
    decide
  cases element with
  | false =>
      cases szelement with
      | none => simp at hArguments
      | some size => exact absurd hFails (Int.lt_irrefl 0)
  | true =>
      cases szelement with
      | none => exact absurd hFails (Int.lt_irrefl 0)
      | some capacity => exact absurd hFails (Int.lt_irrefl 0)

/-- A buffer that is too short takes a part of the item, and the rest is
lost. -/
theorem Holds.fits_of_agrees {q : Queue} {front : List Item} {item : Item} {capacity : Nat}
    (h : q.Holds (front ++ [item])) (hAgrees : AgreesWithDequeue q true (some capacity)) :
    item.length ≤ capacity := by
  obtain ⟨q', hPop, -, hLess, -, -, hFetch⟩ := h.circleDequeue
  have hCopied := hAgrees.fetch rfl (by rw [hFetch]; exact hLess)
  rw [hFetch, hPop] at hCopied
  have hLength := congrArg List.length hCopied
  simp only [List.length_take] at hLength
  omega

theorem Holds.agrees {q : Queue} {front : List Item} {item : Item}
    (h : q.Holds (front ++ [item])) {element : Bool} {szelement : Option Nat}
    (hArguments : element = true ∨ szelement ≠ none)
    (hFits : element = true → ∀ capacity ∈ szelement, item.length ≤ capacity) :
    AgreesWithDequeue q element szelement := by
  obtain ⟨q', hPop, -, -, hQuery, hWhole, hFetch⟩ := h.circleDequeue
  cases element with
  | false =>
      cases szelement with
      | none => simp at hArguments
      | some size =>
          refine ⟨by rw [hQuery, hPop], fun _ => ⟨by rw [hQuery], fun _ => ?_⟩, fun hTrue => ?_⟩
          · rw [hQuery, hWhole]
          · cases hTrue
  | true =>
      cases szelement with
      | none =>
          refine ⟨by rw [hWhole, hPop], fun hFalse => ?_, fun _ _ => ?_⟩
          · cases hFalse
          · rw [hWhole, hPop]
      | some capacity =>
          have hRoom := hFits rfl capacity rfl
          refine ⟨by rw [hFetch, hPop], fun hFalse => ?_, fun _ _ => ?_⟩
          · cases hFalse
          · rw [hFetch, hPop, Nat.min_eq_right hRoom, List.take_length]

/-- `circle_dequeue` agrees with `Circle::dequeue` exactly when the queue has
an item and, in a fetch with a capacity, the item fits it.  It drops the code
of `Circle::dequeue`, and looks at the capacity only after the item is gone. -/
theorem agreesWithDequeue_iff (q : Queue) (element : Bool) (szelement : Option Nat) (hInv : q.Inv)
    (hArguments : element = true ∨ szelement ≠ none) :
    AgreesWithDequeue q element szelement ↔
      ∃ item, q.items.getLast? = some item ∧
        (element = true → ∀ capacity ∈ szelement, item.length ≤ capacity) := by
  have hHolds := hInv.holds
  rcases List.eq_nil_or_concat' q.items with hNil | ⟨front, item, hItems⟩
  · rw [hNil] at hHolds ⊢
    refine iff_of_false (hHolds.not_agrees hArguments) ?_
    rintro ⟨item, hLast, -⟩
    cases hLast
  · rw [hItems] at hHolds ⊢
    rw [List.getLast?_append_of_ne_nil _ (by simp)]
    constructor
    · intro hAgrees
      refine ⟨item, rfl, fun hElement capacity hCapacity => ?_⟩
      subst hElement
      cases hCapacity
      exact hHolds.fits_of_agrees hAgrees
    · rintro ⟨last, hLast, hFits⟩
      cases hLast
      exact hHolds.agrees hArguments hFits

/-- The way the C example takes an item: a size query, then a fetch with the
size it reported. -/
theorem circleEnqueue_query_fetch {q : Queue} {l : List Item} (h : q.Holds l) (page : PageSize)
    (hSized : Sized l) (hCount : l.length < intMax) {element : Item} (hElement : element ≠ [])
    (hFits : element.length < 2 ^ 32) :
    ∃ q₁ q₂, circleEnqueue page q element element.length = some (0, q₁) ∧
      (∀ size, Circle.circleDequeue q₁ false (some size) =
        ⟨0, [], some element.length, q₁⟩) ∧
      Circle.circleDequeue q₁ true (some element.length) =
        ⟨0, element, some element.length, q₂⟩ ∧ q₂.Holds l := by
  have hStored := stored_of_lt hFits
  obtain ⟨q₁, hPush, h₁⟩ := h.push page hSized hCount element (by rwa [hStored])
  rw [hStored] at h₁
  obtain ⟨q₂, -, h₂, -, hQuery, -, hFetch⟩ := h₁.circleDequeue
  refine ⟨q₁, q₂, ?_, hQuery, ?_, h₂⟩
  · rw [circleEnqueue, List.take_length]
    exact hPush
  · rw [hFetch, Nat.min_self, List.take_length]

theorem exists_holds_one (item : Item) (hItem : item ≠ []) (hFits : item.length < 2 ^ 32) :
    ∃ q, fresh.push .usual item = some (0, q) ∧ q.Holds [item] := by
  have hStored := stored_of_lt hFits
  obtain ⟨q, hPush, h⟩ := holds_fresh.push .usual ⟨by simp, by simp⟩ (by decide) item
    (by rwa [hStored])
  rw [hStored] at h
  exact ⟨q, hPush, h⟩

/-- A fetch of three bytes into a buffer of four. -/
theorem agreesWithDequeue_fetch :
    ∃ q, fresh.push .usual [1, 2, 3] = some (0, q) ∧ AgreesWithDequeue q true (some 4) := by
  obtain ⟨q, hPush, h⟩ := exists_holds_one [1, 2, 3] (by decide) (by decide)
  refine ⟨q, hPush, (agreesWithDequeue_iff q true (some 4) h.inv (Or.inl rfl)).mpr ?_⟩
  refine ⟨[1, 2, 3], by rw [h.items_eq]; rfl, fun _ capacity hCapacity => ?_⟩
  cases hCapacity
  decide

/-- A size query of an empty queue succeeds, a fetch from it succeeds, and a
fetch of three bytes into a buffer of two loses the third. -/
theorem not_agreesWithDequeue :
    fresh.Inv ∧ ¬ AgreesWithDequeue fresh false (some 0) ∧
      ¬ AgreesWithDequeue fresh true (some 8) ∧
      ∃ q, fresh.push .usual [1, 2, 3] = some (0, q) ∧
        ¬ AgreesWithDequeue q true (some 2) := by
  obtain ⟨q, hPush, h⟩ := exists_holds_one [1, 2, 3] (by decide) (by decide)
  refine ⟨holds_fresh.inv, holds_fresh.not_agrees (Or.inr (by simp)),
    holds_fresh.not_agrees (Or.inl rfl), q, hPush, fun hAgrees => ?_⟩
  have hLast : q.Holds ([] ++ [[1, 2, 3]]) := h
  exact absurd (hLast.fits_of_agrees hAgrees) (by decide)

end Queue
end Circle
