import Circle.Queue.Transfer

/-!
# Where the queue's arithmetic ends

Lengths and capacities pass through types that are narrower than the sizes
they stand for, and the code leaves the checks for later ("TODO: check for
overflow").  This module settles, for every value of the types, when the three
growth loops, `Queue::push` and the header of `sendWork` are nevertheless
right.
-/

namespace Circle

/-! ## The growth loops -/

/-- The three loops that enlarge an array. -/
inductive GrowthLoop where
  /-- `Queue::extendStr`. -/
  | extendStr
  /-- `Queue::extend`, with the value of `sysconf(_SC_PAGESIZE)`. -/
  | extend (pageSize : Nat)
  /-- `State::extendOffsets`. -/
  | extendOffsets
  deriving DecidableEq, Repr

namespace GrowthLoop

/-- What a loop adds in each turn. -/
def step : GrowthLoop → Nat
  | extendStr => Queue.stringsStep
  | extend pageSize => pageSize * 4096 % sizeModulus
  | extendOffsets => 4096

/-- The largest value of the type a loop counts in. -/
def maximum : GrowthLoop → Nat
  | extendStr => sizeModulus - 1
  | extend _ => sizeModulus - 1
  | extendOffsets => intMax

/-- The addition of one turn. -/
def next (loop : GrowthLoop) (counter : Nat) : Option Nat :=
  match loop with
  | extendStr => some (sizeAdd counter loop.step)
  | extend _ => some (sizeAdd counter loop.step)
  | extendOffsets => intAdd counter loop.step

/-- The loop as the functions of the queue and of the state run it. -/
def run (loop : GrowthLoop) (amount fuel current : Nat) : Option Nat :=
  match loop with
  | extendStr => growSize loop.step amount fuel current
  | extend _ => growSize loop.step amount fuel current
  | extendOffsets => growInt loop.step amount fuel current

/-- The values the counter takes, from `current` on. -/
def Visits (loop : GrowthLoop) (amount current counter : Nat) : Prop :=
  Relation.ReflTransGen (fun before after => before < amount ∧ loop.next before = some after)
    current counter

/-- The loop ends with enough room: it stops, at a capacity of its type that is
no less than the request and no less than the one before, and none of the
additions it makes on the way wraps. -/
structure EndsWithRoom (loop : GrowthLoop) (amount current : Nat) : Prop where
  stops : ∃ fuel capacity, loop.run amount fuel current = some capacity ∧
    amount ≤ capacity ∧ current ≤ capacity ∧ capacity ≤ loop.maximum
  exact : ∀ counter, loop.Visits amount current counter → counter < amount →
    counter + loop.step ≤ loop.maximum

theorem run_succ (loop : GrowthLoop) (amount fuel current : Nat) :
    loop.run amount (fuel + 1) current =
      if current < amount then (loop.next current).bind (loop.run amount fuel)
      else some current := by
  cases loop with
  | extendStr => exact growSize.eq_2 _ _ _ _
  | extend pageSize => exact growSize.eq_2 _ _ _ _
  | extendOffsets => exact growInt.eq_2 _ _ _ _

theorem run_zero (loop : GrowthLoop) (amount current : Nat) :
    loop.run amount 0 current = none := by
  cases loop with
  | extendStr => exact growSize.eq_1 _ _ _
  | extend pageSize => exact growSize.eq_1 _ _ _
  | extendOffsets => exact growInt.eq_1 _ _ _

/-- An addition that stays within the type is exact. -/
theorem next_eq_some {loop : GrowthLoop} {counter : Nat}
    (hFits : counter + loop.step ≤ loop.maximum) : loop.next counter = some (counter + loop.step) := by
  have hSize : 0 < sizeModulus := by decide
  cases loop with
  | extendStr =>
      change counter + extendStr.step ≤ sizeModulus - 1 at hFits
      have hBelow : counter + extendStr.step < sizeModulus := by omega
      exact congrArg some (sizeAdd_of_lt hBelow)
  | extend pageSize =>
      change counter + (extend pageSize).step ≤ sizeModulus - 1 at hFits
      have hBelow : counter + (extend pageSize).step < sizeModulus := by omega
      exact congrArg some (sizeAdd_of_lt hBelow)
  | extendOffsets => exact intAdd_eq_some hFits

/-- What an exact run adds up to. -/
theorem run_rounds {loop : GrowthLoop} {amount fuel current capacity : Nat}
    (hExact : ∀ counter, loop.Visits amount current counter → counter < amount →
      counter + loop.step ≤ loop.maximum)
    (hRun : loop.run amount fuel current = some capacity) :
    ∃ rounds, capacity = current + rounds * loop.step := by
  induction fuel generalizing current with
  | zero => simp [run_zero] at hRun
  | succ fuel ih =>
      rw [run_succ] at hRun
      by_cases hLess : current < amount
      · have hNext := next_eq_some (hExact current .refl hLess)
        rw [if_pos hLess, hNext, Option.bind_some] at hRun
        obtain ⟨rounds, rfl⟩ := ih (fun counter hVisits => hExact counter (hVisits.head ⟨hLess, hNext⟩))
          hRun
        exact ⟨rounds + 1, by rw [Nat.succ_mul]; omega⟩
      · rw [if_neg hLess] at hRun
        exact ⟨0, by rw [Nat.zero_mul, Nat.add_zero]; exact (Option.some.inj hRun).symm⟩

/-- A request that is met already leaves the capacity as it is. -/
theorem endsWithRoom_of_le {loop : GrowthLoop} {amount current : Nat} (hMet : amount ≤ current)
    (hFits : current ≤ loop.maximum) : loop.EndsWithRoom amount current where
  stops := ⟨1, current, by rw [run_succ, if_neg (by omega)], hMet, Nat.le_refl _, hFits⟩
  exact := by
    intro counter hVisits hLess
    cases hVisits.cases_head with
    | inl hSame => omega
    | inr hTurn =>
        obtain ⟨next, ⟨hBelow, -⟩, -⟩ := hTurn
        omega

/-- One more turn before a run that ends with enough room. -/
theorem EndsWithRoom.turn {loop : GrowthLoop} {amount current : Nat} (hLess : current < amount)
    (hFits : current + loop.step ≤ loop.maximum)
    (hRest : loop.EndsWithRoom amount (current + loop.step)) : loop.EndsWithRoom amount current where
  stops := by
    obtain ⟨fuel, capacity, hRun, hMet, hGrown, hType⟩ := hRest.stops
    refine ⟨fuel + 1, capacity, ?_, hMet, by omega, hType⟩
    rw [run_succ, if_pos hLess, next_eq_some hFits, Option.bind_some, hRun]
  exact := by
    intro counter hVisits hBelow
    cases hVisits.cases_head with
    | inl hSame =>
        subst hSame
        exact hFits
    | inr hTurn =>
        obtain ⟨next, ⟨-, hNext⟩, hAfter⟩ := hTurn
        rw [next_eq_some hFits] at hNext
        cases hNext
        exact hRest.exact counter hAfter hBelow

/-- If some whole number of steps meets the request within the type, the loop
finds it. -/
theorem endsWithRoom_of_rounds {loop : GrowthLoop} {amount rounds current : Nat}
    (hMet : amount ≤ current + rounds * loop.step)
    (hFits : current + rounds * loop.step ≤ loop.maximum) : loop.EndsWithRoom amount current := by
  induction rounds generalizing current with
  | zero => exact endsWithRoom_of_le (by omega) (by omega)
  | succ rounds ih =>
      rw [Nat.succ_mul] at hMet hFits
      by_cases hLess : current < amount
      · exact (ih (by omega) (by omega)).turn hLess (by omega)
      · exact endsWithRoom_of_le (by omega) (by omega)

/-- Conversely, a loop that ends with enough room has made a whole number of
steps. -/
theorem EndsWithRoom.rounds {loop : GrowthLoop} {amount current : Nat}
    (h : loop.EndsWithRoom amount current) :
    ∃ rounds, amount ≤ current + rounds * loop.step ∧
      current + rounds * loop.step ≤ loop.maximum := by
  obtain ⟨fuel, capacity, hRun, hMet, -, hType⟩ := h.stops
  obtain ⟨rounds, rfl⟩ := run_rounds h.exact hRun
  exact ⟨rounds, hMet, hType⟩

/-- A growth loop ends with enough room exactly when some whole number of its
steps takes the capacity to the request without leaving the type: the step
must not jump over the gap between the request and the type's maximum. -/
theorem endsWithRoom_iff (loop : GrowthLoop) (amount current : Nat) :
    loop.EndsWithRoom amount current ↔
      ∃ rounds, amount ≤ current + rounds * loop.step ∧
        current + rounds * loop.step ≤ loop.maximum :=
  ⟨fun h => h.rounds, fun ⟨_, hMet, hFits⟩ => endsWithRoom_of_rounds hMet hFits⟩

/-- Each loop jumps over the gap below the maximum of its type: from nothing,
the largest request is never met. -/
theorem not_endsWithRoom_maximum :
    ¬ extendOffsets.EndsWithRoom intMax 0 ∧ ¬ extendStr.EndsWithRoom (2 ^ 64 - 1) 0 ∧
      ¬ (extend 4096).EndsWithRoom (2 ^ 64 - 1) 0 := by
  have hOffsets : extendOffsets.maximum = 2 ^ 31 - 1 := rfl
  have hStr : extendStr.maximum = 2 ^ 64 - 1 := rfl
  have hPool : (extend 4096).maximum = 2 ^ 64 - 1 := rfl
  refine ⟨fun h => ?_, fun h => ?_, fun h => ?_⟩
  · obtain ⟨rounds, hMet, hFits⟩ := h.rounds
    rw [hOffsets, show extendOffsets.step = 4096 from rfl] at hFits
    rw [show extendOffsets.step = 4096 from rfl, show intMax = 2 ^ 31 - 1 from rfl] at hMet
    omega
  · obtain ⟨rounds, hMet, hFits⟩ := h.rounds
    rw [hStr, show extendStr.step = 512 from rfl] at hFits
    rw [show extendStr.step = 512 from rfl] at hMet
    omega
  · obtain ⟨rounds, hMet, hFits⟩ := h.rounds
    rw [hPool, show (extend 4096).step = 16777216 from rfl] at hFits
    rw [show (extend 4096).step = 16777216 from rfl] at hMet
    omega

/-- `Queue::extendStr` runs its loop from the size of `strings`. -/
theorem extendStr_eq_run (q : Queue) (amount : Nat) :
    q.extendStr amount = (extendStr.run amount sizeModulus q.strings.length).map fun newSize =>
      (0, { q with strings := Queue.resize 0 q.strings newSize }) := rfl

/-- `Queue::extend` runs its loop from the size of `base`. -/
theorem extend_eq_run (page : PageSize) (q : Queue) (amount : Nat) :
    q.extend page amount =
      ((extend page.bytes).run amount sizeModulus q.base.length).map fun newSize =>
        (0, { q with base := Queue.resize 0 q.base newSize }) := by
  have hSmall := page.small
  have hStep : (extend page.bytes).step = page.bytes * 4096 :=
    Nat.mod_eq_of_lt (by unfold sizeModulus; omega)
  change _ = (growSize (extend page.bytes).step amount sizeModulus q.base.length).map _
  rw [hStep]
  rfl

/-- `State::extendOffsets` runs its loop when it needs more than it has. -/
theorem extendOffsets_eq_run {offsetsCount size : Nat} (hLess : offsetsCount < size) :
    Circle.extendOffsets offsetsCount size = extendOffsets.run size (intMax + 1) offsetsCount :=
  if_neg (by omega)

end GrowthLoop

/-! ## Pushing -/

/-- What a `size_t` loop returns is where some number of steps takes it,
wrapped. -/
theorem growSize_rounds {step amount fuel current capacity : Nat}
    (hCurrent : current < sizeModulus) (h : growSize step amount fuel current = some capacity) :
    amount ≤ capacity ∧ ∃ rounds, capacity = (current + rounds * step) % sizeModulus := by
  induction fuel generalizing current with
  | zero => simp [growSize] at h
  | succ fuel ih =>
      rw [growSize] at h
      split at h
      · obtain ⟨hMet, rounds, rfl⟩ := ih (by rw [sizeAdd]; exact Nat.mod_lt _ (by decide)) h
        refine ⟨hMet, rounds + 1, ?_⟩
        rw [sizeAdd, Nat.mod_add_mod, Nat.succ_mul]
        congr 1
        omega
      · cases h
        exact ⟨by omega, 0, by rw [Nat.zero_mul, Nat.add_zero, Nat.mod_eq_of_lt hCurrent]⟩

/-- If some number of steps takes a `size_t` loop to its request, wrapped or
not, the loop stops. -/
theorem growSize_of_rounds {step amount fuel rounds : Nat} (hFuel : rounds < fuel) :
    ∀ current : Nat, current < sizeModulus → amount ≤ (current + rounds * step) % sizeModulus →
      ∃ capacity, growSize step amount fuel current = some capacity := by
  induction fuel generalizing rounds with
  | zero => omega
  | succ fuel ih =>
      intro current hCurrent hMet
      rw [growSize]
      split
      next hLess =>
        cases rounds with
        | zero =>
            rw [Nat.zero_mul, Nat.add_zero, Nat.mod_eq_of_lt hCurrent] at hMet
            omega
        | succ rounds =>
            refine ih (show rounds < fuel by omega) _ ?_ ?_
            · rw [sizeAdd]
              exact Nat.mod_lt _ (by decide)
            · rw [Nat.succ_mul] at hMet
              rw [sizeAdd, Nat.mod_add_mod]
              rwa [show current + step + rounds * step = current + (rounds * step + step) by omega]
      next => exact ⟨current, rfl⟩

namespace Queue

/-- The pool of a queue can grow to a number of bytes. -/
def PoolGrows (page : PageSize) (q : Queue) (bytes : Nat) : Prop :=
  ∃ rounds, bytes ≤ (q.base.length + rounds * (page.bytes * 4096)) % sizeModulus

/-- After `sizeModulus` steps a `size_t` is back where it was, so fewer steps
do. -/
theorem PoolGrows.exists_lt {page : PageSize} {q : Queue} {bytes : Nat}
    (h : q.PoolGrows page bytes) :
    ∃ rounds, rounds < sizeModulus ∧
      bytes ≤ (q.base.length + rounds * (page.bytes * 4096)) % sizeModulus := by
  obtain ⟨rounds, hMet⟩ := h
  refine ⟨rounds % sizeModulus, Nat.mod_lt _ (by decide), ?_⟩
  have hSame : rounds % sizeModulus * (page.bytes * 4096) ≡ rounds * (page.bytes * 4096)
      [MOD sizeModulus] := (Nat.mod_modEq _ _).mul_right _
  rwa [show (q.base.length + rounds % sizeModulus * (page.bytes * 4096)) % sizeModulus =
    (q.base.length + rounds * (page.bytes * 4096)) % sizeModulus from
      Nat.ModEq.add_left _ hSame]

/-- Asking for bytes the pool can grow to gives them, and leaves the items
where they are. -/
theorem Holds.ensure_of_grows {q : Queue} {l : List Item} (h : q.Holds l) {page : PageSize}
    {bytes : Nat} (hGrows : q.PoolGrows page bytes) :
    ∃ q', q.ensure page bytes = some (0, q') ∧ q'.Holds l ∧ bytes ≤ q'.base.length ∧
      q'.strings = q.strings := by
  unfold Queue.ensure
  split
  next hMore =>
    obtain ⟨rounds, hFuel, hMet⟩ := hGrows.exists_lt
    obtain ⟨capacity, hGrow⟩ := growSize_of_rounds hFuel q.base.length h.pool_lt hMet
    obtain ⟨hEnough, total, hCapacity⟩ := growSize_rounds h.pool_lt hGrow
    have hLength := length_resize (0 : UInt8) (show q.base.length ≤ capacity by omega)
    refine ⟨{ q with base := resize 0 q.base capacity }, ?_, ?_, ?_, rfl⟩
    · rw [extend, hGrow]
      rfl
    · refine { h with head_le := ?_, pool_lt := ?_, pool_eq := ?_ }
      · exact Nat.le_trans h.head_le (by rw [hLength]; omega)
      · rw [hLength, hCapacity]
        exact Nat.mod_lt _ (by decide)
      · exact (take_resize h.head_le (by omega)).trans h.pool_eq
    · exact Nat.le_trans hEnough (Nat.le_of_eq hLength.symm)
  next hEnough => exact ⟨q, rfl, h, by omega, rfl⟩

/-- Whatever `ensure` gives, the pool could grow to. -/
theorem grows_of_ensure {page : PageSize} {q q' : Queue} {bytes : Nat} {rc : Int}
    (hPool : q.base.length < sizeModulus) (h : q.ensure page bytes = some (rc, q')) :
    rc = 0 ∧ q'.head = q.head ∧ q'.count = q.count ∧
      ∀ enough : Nat, enough ≤ q'.base.length → q.PoolGrows page enough := by
  unfold ensure at h
  split at h
  next hMore =>
    obtain ⟨capacity, hGrow, hResult⟩ := Option.map_eq_some_iff.mp h
    obtain ⟨hEnough, rounds, hCapacity⟩ := growSize_rounds hPool hGrow
    cases hResult
    refine ⟨rfl, rfl, rfl, fun enough hLe => ⟨rounds, ?_⟩⟩
    rw [length_resize (0 : UInt8) (show q.base.length ≤ capacity by omega)] at hLe
    omega
  next =>
    cases h
    refine ⟨rfl, rfl, rfl, fun enough hLe => ⟨0, ?_⟩⟩
    rwa [Nat.zero_mul, Nat.add_zero, Nat.mod_eq_of_lt hPool]

theorem ensureStr_keeps {q q' : Queue} {slots : Nat} {rc : Int}
    (h : q.ensureStr slots = some (rc, q')) :
    rc = 0 ∧ q'.head = q.head ∧ q'.count = q.count ∧ q'.base = q.base := by
  unfold ensureStr at h
  split at h
  · obtain ⟨capacity, -, hResult⟩ := Option.map_eq_some_iff.mp h
    cases hResult
    exact ⟨rfl, rfl, rfl, rfl⟩
  · cases h
    exact ⟨rfl, rfl, rfl, rfl⟩

/-- `push` stores an item whole or not at all: it fails and leaves the count,
`head`, the offsets in use and the bytes below `head` alone, or it succeeds
and the next `pop` gives all of the content back. -/
def StoresWhole (page : PageSize) (q : Queue) (content : Item) : Prop :=
  ∃ rc q', q.push page content = some (rc, q') ∧
    (rc < 0 ∧ q'.count = q.count ∧ q'.head = q.head ∧ q'.offsets = q.offsets ∧
        q'.base.take q'.head = q.base.take q.head ∨
      rc = 0 ∧ ∀ buffer, (q'.pop buffer).1 = 0 ∧ (q'.pop buffer).2.1 = content)

/-- A `push` that returns, of a length that `uint32_t` leaves something of, has
found a slot and room in the pool. -/
theorem push_eq_some {page : PageSize} {q q' : Queue} {content : Item} {rc : Int}
    (hPool : q.base.length < sizeModulus) (hPositive : 0 < toUInt32 content.length)
    (h : q.push page content = some (rc, q')) :
    rc = 0 ∧ q.count < intMax ∧ q.PoolGrows page (q.head + toUInt32 content.length) := by
  simp only [Queue.push] at h
  split at h
  · omega
  · obtain ⟨slots, hSlots, h⟩ := Option.bind_eq_some_iff.mp h
    obtain ⟨rfl, hCount⟩ := intAdd_eq_some_iff.mp hSlots
    obtain ⟨⟨rc₁, q₁⟩, hStr, h⟩ := Option.bind_eq_some_iff.mp h
    obtain ⟨rfl, hHead₁, -, hBase₁⟩ := ensureStr_keeps hStr
    rw [if_neg (Int.lt_irrefl 0)] at h
    obtain ⟨⟨rc₂, q₂⟩, hEnsure, h⟩ := Option.bind_eq_some_iff.mp h
    obtain ⟨rfl, hHead₂, -, hGrows⟩ := grows_of_ensure (by rwa [hBase₁]) hEnsure
    rw [if_neg (Int.lt_irrefl 0)] at h
    split at h
    · cases h
    next hRoom =>
      change ¬ q₂.base.length < q₂.head + toUInt32 content.length at hRoom
      cases h
      refine ⟨rfl, by omega, ?_⟩
      have hHead : q₂.head = q.head := hHead₂.trans hHead₁
      have hFits := hGrows (q.head + toUInt32 content.length) (by omega)
      unfold PoolGrows at hFits ⊢
      rwa [hBase₁] at hFits

/-- `push` on a queue with a slot and room in the pool stores what `uint32_t`
leaves of the content. -/
theorem Holds.push_of_grows {q : Queue} {l : List Item} (h : q.Holds l) (page : PageSize)
    (content : Item) (hContent : stored content ≠ []) (hCount : l.length < intMax)
    (hGrows : q.PoolGrows page (q.head + toUInt32 content.length)) :
    ∃ q', q.push page content = some (0, q') ∧ q'.Holds (l ++ [stored content]) := by
  have hPositive : 0 < toUInt32 content.length := by
    rw [← length_stored]
    exact List.length_pos_iff.mpr hContent
  have hFits : q.head + toUInt32 content.length < sizeModulus := by
    obtain ⟨rounds, hMet⟩ := hGrows
    exact Nat.lt_of_le_of_lt hMet (Nat.mod_lt _ (by decide))
  obtain ⟨q₁, hStr, h₁, hSlots, hBase₁⟩ := h.ensureStr (l.length + 1) hCount
  have hHead₁ : q₁.head = q.head := h₁.head_eq.trans h.head_eq.symm
  have hGrows₁ : q₁.PoolGrows page (q.head + toUInt32 content.length) := by
    unfold PoolGrows at hGrows ⊢
    rwa [hBase₁]
  obtain ⟨q₂, hEnsure, h₂, hRoom, hStrings⟩ := h₁.ensure_of_grows hGrows₁
  have hHead₂ : q₂.head = q.head := h₂.head_eq.trans h.head_eq.symm
  have hInPool : ¬ q₂.base.length < q₂.head + toUInt32 content.length := by omega
  refine ⟨q₂.store content (toUInt32 content.length) (l.length + 1), ?_,
    h₂.store (toUInt32_le _) hPositive (hStrings ▸ hSlots) ?_⟩
  · rw [Queue.push]
    simp only [h.count_eq, intAdd_eq_some (show l.length + 1 ≤ intMax from hCount),
      Nat.not_le.mpr hPositive, if_false, Option.bind_eq_bind, Option.bind_some, hStr, hHead₁,
      sizeAdd_of_lt hFits, hEnsure, Int.lt_irrefl, hInPool]
  · rwa [← h.head_eq]

/-- Where `uint32_t` leaves something of the length, storing whole takes all
of the length, a slot and room in the pool. -/
theorem StoresWhole.needs {page : PageSize} {q : Queue} {content : Item}
    (h : q.StoresWhole page content) (hInv : q.Inv) (hPositive : 0 < toUInt32 content.length) :
    content.length < 2 ^ 32 ∧ q.count < intMax ∧ q.PoolGrows page (q.head + content.length) := by
  have hHolds := hInv.holds
  have hStored : stored content ≠ [] := by rwa [← List.length_pos_iff, length_stored]
  obtain ⟨rc, q', hPush, hResult⟩ := h
  obtain ⟨rfl, hCount, hGrows⟩ := push_eq_some hInv.pool_lt hPositive hPush
  rcases hResult with ⟨hNegative, -⟩ | ⟨-, hPop⟩
  · exact absurd hNegative (Int.lt_irrefl 0)
  · obtain ⟨q'', hPush', hHolds'⟩ :=
      hHolds.push_of_grows page content hStored (by rwa [← hHolds.count_eq]) hGrows
    rw [hPush'] at hPush
    cases hPush
    obtain ⟨q₃, hPopped, -⟩ := hHolds'.pop []
    -- what comes back went through `uint32_t`, so the content did
    have hSame : stored content = content := by simpa [hPopped] using (hPop []).2
    have hLength := length_stored_lt content
    rw [hSame] at hLength
    rw [toUInt32_of_lt hLength] at hGrows
    exact ⟨hLength, hCount, hGrows⟩

/-- Content that is refused is not stored at all. -/
theorem storesWhole_of_stored_eq_nil {page : PageSize} {q : Queue} {content : Item}
    (hStored : stored content = []) : q.StoresWhole page content :=
  ⟨-1, q, push_of_stored_eq_nil page q hStored, Or.inl ⟨by decide, rfl, rfl, rfl, rfl⟩⟩

theorem storesWhole_of_grows {page : PageSize} {q : Queue} {content : Item} (hInv : q.Inv)
    (hFits : content.length < 2 ^ 32) (hCount : q.count < intMax)
    (hGrows : q.PoolGrows page (q.head + content.length)) : q.StoresWhole page content := by
  have hHolds := hInv.holds
  have hStored := stored_of_lt hFits
  by_cases hNil : content = []
  · exact storesWhole_of_stored_eq_nil (hStored.trans hNil)
  · obtain ⟨q', hPush, hHolds'⟩ := hHolds.push_of_grows page content
      (by rwa [hStored]) (by rwa [← hHolds.count_eq]) (by rwa [toUInt32_of_lt hFits])
    rw [hStored] at hHolds'
    refine ⟨0, q', hPush, Or.inr ⟨rfl, fun buffer => ?_⟩⟩
    obtain ⟨q₂, hPop, -⟩ := hHolds'.pop buffer
    rw [hPop]
    exact ⟨rfl, rfl⟩

/-- `push` stores its content whole or not at all exactly when the conversion
to `uint32_t` leaves nothing of the length, or leaves all of it and there is a
slot below `INT_MAX` and room in the pool.  Any other content from 4 GiB on is
stored in part, and reported as stored. -/
theorem storesWhole_iff (page : PageSize) (q : Queue) (content : Item) (hInv : q.Inv) :
    q.StoresWhole page content ↔
      content.length % 2 ^ 32 = 0 ∨
        content.length < 2 ^ 32 ∧ q.count < intMax ∧
          q.PoolGrows page (q.head + content.length) := by
  have hLen : toUInt32 content.length = content.length % 2 ^ 32 := by rw [toUInt32]
  constructor
  · intro h
    by_cases hNothing : content.length % 2 ^ 32 = 0
    · exact Or.inl hNothing
    · exact Or.inr (h.needs hInv (by omega))
  · rintro (hNothing | ⟨hFits, hCount, hGrows⟩)
    · apply storesWhole_of_stored_eq_nil
      rw [← List.length_eq_zero_iff, length_stored, hLen, hNothing]
    · exact storesWhole_of_grows hInv hFits hCount hGrows

/-- Two bytes go whole into a fresh queue. -/
theorem storesWhole_fresh : fresh.StoresWhole .usual [7, 8] :=
  (storesWhole_iff .usual fresh [7, 8] holds_fresh.inv).mpr
    (Or.inr ⟨by decide, by decide, 1, by decide⟩)

theorem not_storesWhole_replicate {n : Nat} (hLong : 2 ^ 32 ≤ n) (hRest : n % 2 ^ 32 ≠ 0) :
    ¬ fresh.StoresWhole .usual (List.replicate n 7) := by
  intro h
  have hLength : (List.replicate n (7 : UInt8)).length = n := List.length_replicate
  obtain ⟨hFits, -⟩ := h.needs holds_fresh.inv (by rw [hLength, toUInt32]; omega)
  omega

/-- Of 4 GiB and one byte, a fresh queue stores the one byte. -/
theorem not_storesWhole_four_gib :
    fresh.Inv ∧ ¬ fresh.StoresWhole .usual (List.replicate (2 ^ 32 + 1) 7) :=
  ⟨holds_fresh.inv, not_storesWhole_replicate (by omega) (by omega)⟩

/-! ## The header of a transfer -/

/-- The header of a transfer tells the truth: what `sendWork` puts on the wire
are the item count, the bytes from the start of the segment to `head`, and
the distance of each offset from that start, as the numbers they are.
`sendWork` has no branch that refuses a positive count. -/
def HeaderExact (offsetsCount : Nat) (q : Queue) (count : Nat) : Prop :=
  ∃ sent start, sendWork offsetsCount q count = some sent ∧
    q.strings[q.count - count]? = some start ∧
    sent.header.length = 2 + count ∧
    sent.header = (count : Int) :: ((q.head : Int) - start) ::
      ((q.strings.drop (q.count - count)).take count).map fun offset : Nat => (offset : Int) - start

/-- A conversion to `int` gives a value of `int`. -/
theorem toInt_le (a : Nat) : toInt a ≤ intMax := by
  have hUpper := Int.bmod_lt (x := a) (m := 2 ^ 32) (Nat.two_pow_pos 32)
  unfold toInt intMax
  omega

/-- The distances of the last offsets from the first of them. -/
theorem Holds.exact_offsets {q : Queue} {front back : List Item} (h : q.Holds (front ++ back)) :
    ((q.strings.drop front.length).take back.length).map
        (fun offset : Nat => (offset : Int) - front.flatten.length) =
      (Packed.offsetsFrom 0 back).map Int.ofNat := by
  rw [h.segment_offsets, List.map_map]
  apply List.map_congr_left
  intro offset _
  simp

/-- A header that tells the truth fits: the bytes are an `int`, and the offset
array has grown to the length of the header. -/
theorem HeaderExact.fits {offsetsCount count : Nat} {q : Queue}
    (h : HeaderExact offsetsCount q count) (hInv : q.Inv) (hPositive : 1 ≤ count)
    (hCount : count ≤ q.count) (hOffsets : offsetsCount ≤ intMax) :
    q.segmentBytes count ≤ intMax ∧ GrowthFits 4096 (2 + count) offsetsCount := by
  obtain ⟨front, back, hHolds, rfl, hBack, -, hDrop⟩ := hInv.exists_split hPositive hCount
  obtain ⟨sent, start, hSent, hStart, -, hHeader⟩ := h
  obtain ⟨item, rest, rfl⟩ := List.exists_cons_of_ne_nil hBack
  have hFront : q.count - (item :: rest).length = front.length := by
    rw [hHolds.count_eq, List.length_append, Nat.add_sub_cancel]
  have hSplit := hHolds.getD_strings
  rw [hFront] at hStart
  rw [List.getD_eq_getElem?_getD, hStart, Option.getD_some] at hSplit
  subst hSplit
  have hHead := hHolds.head_eq
  simp only [List.flatten_append, List.length_append] at hHead
  -- the second number of the header is a value of `int`
  have hBytes : (item :: rest).flatten.length ≤ intMax := by
    unfold sendWork at hSent
    simp only [Option.bind_eq_bind] at hSent
    obtain ⟨numoffsets, -, hSent⟩ := Option.bind_eq_some_iff.mp hSent
    obtain ⟨extended, -, hSent⟩ := Option.bind_eq_some_iff.mp hSent
    split at hSent
    · cases hSent
    · cases hSent
      have hSecond := congrArg (fun header => header[1]?) hHeader
      simp only [List.getElem?_cons_succ, List.getElem?_cons_zero, Option.some.injEq] at hSecond
      have hInt := toInt_le (sizeSub q.head (q.strings.getD (q.count - (item :: rest).length) 0))
      omega
  refine ⟨by rwa [segmentBytes, hDrop], ?_⟩
  rw [hHolds.sendWork hBack hBytes] at hSent
  obtain ⟨extended, hExtended, -⟩ := Option.map_eq_some_iff.mp hSent
  exact (exists_extended_iff hOffsets).mp ⟨extended, hExtended⟩

/-- The header of a transfer tells the truth exactly when the bytes of the
segment are at most `INT_MAX` and the offset array can grow to the length of
the header; `sendWork` checks neither. -/
theorem headerExact_iff (offsetsCount : Nat) (q : Queue) (count : Nat) (hInv : q.Inv)
    (hPositive : 1 ≤ count) (hCount : count ≤ q.count) (hOffsets : offsetsCount ≤ intMax) :
    HeaderExact offsetsCount q count ↔
      q.segmentBytes count ≤ intMax ∧ GrowthFits 4096 (2 + count) offsetsCount := by
  refine ⟨fun h => h.fits hInv hPositive hCount hOffsets, ?_⟩
  rintro ⟨hBytes, hFits⟩
  obtain ⟨front, back, hHolds, rfl, hBack, -, hDrop⟩ := hInv.exists_split hPositive hCount
  rw [segmentBytes, hDrop] at hBytes
  obtain ⟨extended, hExtended⟩ := (exists_extended_iff hOffsets).mpr hFits
  obtain ⟨item, rest, rfl⟩ := List.exists_cons_of_ne_nil hBack
  have hFront : q.count - (item :: rest).length = front.length := by
    rw [hHolds.count_eq, List.length_append, Nat.add_sub_cancel]
  have hHead := hHolds.head_eq
  simp only [List.flatten_append, List.length_append] at hHead
  have hSend := hHolds.sendWork hBack hBytes offsetsCount
  rw [hExtended, Option.map_some] at hSend
  have hSlot : front.length < q.strings.length := by
    have hRoom := hHolds.count_le
    rw [List.length_cons] at hFront hCount
    omega
  have hStart : q.strings[front.length]? = some front.flatten.length := by
    rw [← hHolds.getD_strings, List.getD_eq_getElem?_getD, List.getElem?_eq_getElem hSlot]
    rfl
  refine ⟨_, front.flatten.length, hSend, by rwa [hFront], length_encodeHeader _, ?_⟩
  have hBytesExact : (q.head : Int) - front.flatten.length = (item :: rest).flatten.length := by
    omega
  rw [hFront, hHolds.exact_offsets, hBytesExact]
  rfl

/-- A queue of three one-byte items sends the last two under a true header. -/
theorem headerExact_packed : HeaderExact 0 (packed [[7], [8], [9]]) 2 :=
  (headerExact_iff 0 (packed [[7], [8], [9]]) 2 (holds_packed (by decide) (by decide)).inv
    (by decide) (by decide) (by decide)).mpr ⟨by decide, 1, by decide, by decide⟩

/-- One item of 2 GiB does not fit the header of its transfer. -/
theorem not_headerExact_two_gib :
    ∃ q, fresh.push .usual (List.replicate (2 ^ 31) 7) = some (0, q) ∧ q.Inv ∧ q.count = 1 ∧
      ¬ HeaderExact 0 q 1 := by
  have hLength : (List.replicate (2 ^ 31) (7 : UInt8)).length = 2 ^ 31 := List.length_replicate
  have hStored : stored (List.replicate (2 ^ 31) (7 : UInt8)) = List.replicate (2 ^ 31) 7 :=
    stored_of_lt (by omega)
  have hNonempty : stored (List.replicate (2 ^ 31) (7 : UInt8)) ≠ [] := by
    rw [← List.length_pos_iff, hStored, hLength]
    omega
  obtain ⟨q, hPush, hHolds⟩ := holds_fresh.push .usual ⟨by decide, by simp⟩ (by decide)
    (List.replicate (2 ^ 31) 7) hNonempty
  rw [hStored, List.nil_append] at hHolds
  have hCount : q.count = 1 := by
    rw [hHolds.count_eq]
    rfl
  refine ⟨q, hPush, hHolds.inv, hCount, fun h => ?_⟩
  obtain ⟨hBytes, -⟩ := h.fits hHolds.inv (by omega) (by omega) (by decide)
  rw [segmentBytes, hCount, Nat.sub_self, List.drop_zero, hHolds.items_eq, List.flatten_singleton,
    hLength] at hBytes
  unfold intMax at hBytes
  omega

end Queue
end Circle
