import Circle.TreeState

/-!
# The tree at every width

`Circle::setTreeWidth` takes any `int`, and the state passes it on to the
`TreeState` constructor as it is.  The constructor is run here on integers, in
an arithmetic of its caller's choice: exactly, and with the wrap of a 32-bit
`int`.  Its cells hold numbers, so that a number that is no rank can be told
from `MPI_PROC_NULL`.
-/

namespace Circle

/-- A number wrapped to `int`. -/
def wrapInt (x : Int) : Int := (x + 2 ^ 31) % 2 ^ 32 - 2 ^ 31

/-- The range of `int`. -/
def IsInt (x : Int) : Prop := -2 ^ 31 ≤ x ∧ x < 2 ^ 31

theorem wrapInt_of_isInt {x : Int} (hInt : IsInt x) : wrapInt x = x := by
  unfold IsInt at hInt
  unfold wrapInt
  omega

/-- The members of a `TreeState` object after construction; `childrenRanks`
are the numbers written to the cells of the array, from the first one on. -/
structure TreeMembers where
  parentRank : Int
  nchildren : Int
  childrenRanks : List Int
  deriving DecidableEq, Repr

namespace TreeMembers

/-- The part of the constructor behind `left` and `right`: how many children
there are, and what is written to the array. -/
def fill (arith : Int → Int) (nranks left right : Int) : Int × List Int :=
  if left < nranks then
    let right := if right ≥ nranks then nranks - 1 else right
    let nchildren := arith (arith (right - left) + 1)
    (nchildren, (List.range nchildren.toNat).map fun i : Nat => arith (left + i))
  else
    (0, [])

/-- The constructor `TreeState::TreeState` in an arithmetic; `procNull` is the
value of `MPI_PROC_NULL`.  A division by zero has no result. -/
def construct (arith : Int → Int) (procNull rank nranks maxChildren : Int) :
    Option TreeMembers :=
  if rank > 0 ∧ maxChildren = 0 then
    none
  else
    let parentRank := if rank > 0 then (rank - 1).tdiv maxChildren else procNull
    let left := arith (arith (rank * maxChildren) + 1)
    let right := arith (arith (rank * maxChildren) + maxChildren)
    let children := fill arith nranks left right
    some { parentRank := parentRank, nchildren := children.1, childrenRanks := children.2 }

/-- A valid rank, or none. -/
def IsRankOrNull (procNull nranks r : Int) : Prop := r = procNull ∨ 0 ≤ r ∧ r < nranks

/-- The construction is safe: it divides by no zero, `int` arithmetic gives
the object that exact arithmetic gives, the number of children is one, the
array has a cell for each number written to it, and parent and children are
ranks or none. -/
def Safe (procNull rank nranks maxChildren : Int) : Prop :=
  ∃ t, construct wrapInt procNull rank nranks maxChildren = some t ∧
    construct id procNull rank nranks maxChildren = some t ∧
    0 ≤ t.nchildren ∧
    t.childrenRanks.length ≤ maxChildren.toNat ∧
    IsRankOrNull procNull nranks t.parentRank ∧
    ∀ c ∈ t.childrenRanks, IsRankOrNull procNull nranks c

/-- The inputs of the constructor: a number of ranks, one of the ranks, and a
width as `setTreeWidth` takes it.  `MPI_PROC_NULL` is no rank. -/
structure Input (procNull rank nranks maxChildren : Int) : Prop where
  null : procNull < 0
  rank_nonneg : 0 ≤ rank
  rank_lt : rank < nranks
  nranks : nranks < 2 ^ 31
  width : IsInt maxChildren

theorem wrapInt_wrapInt_add (x y : Int) : wrapInt (wrapInt x + y) = wrapInt (x + y) := by
  unfold wrapInt
  omega

theorem construct_wrapInt {procNull rank nranks maxChildren : Int}
    (hDivides : rank = 0 ∨ maxChildren ≠ 0) :
    construct wrapInt procNull rank nranks maxChildren =
      some ⟨if rank > 0 then (rank - 1).tdiv maxChildren else procNull,
        (fill wrapInt nranks (wrapInt (rank * maxChildren + 1))
          (wrapInt (rank * maxChildren + maxChildren))).1,
        (fill wrapInt nranks (wrapInt (rank * maxChildren + 1))
          (wrapInt (rank * maxChildren + maxChildren))).2⟩ := by
  rw [construct, if_neg (by omega)]
  simp only [wrapInt_wrapInt_add]

theorem construct_id {procNull rank nranks maxChildren : Int}
    (hDivides : rank = 0 ∨ maxChildren ≠ 0) :
    construct id procNull rank nranks maxChildren =
      some ⟨if rank > 0 then (rank - 1).tdiv maxChildren else procNull,
        (fill id nranks (rank * maxChildren + 1) (rank * maxChildren + maxChildren)).1,
        (fill id nranks (rank * maxChildren + 1) (rank * maxChildren + maxChildren)).2⟩ := by
  rw [construct, if_neg (by omega)]
  rfl

/-! ## The children -/

/-- The number of children, as a number of `int`. -/
theorem fill_wrapInt_fst (nranks left right : Int) :
    (fill wrapInt nranks left right).1 =
      if left < nranks then wrapInt ((if right ≥ nranks then nranks - 1 else right) - left + 1)
      else 0 := by
  unfold fill
  split
  · exact wrapInt_wrapInt_add _ _
  · rfl

theorem fill_id_fst (nranks left right : Int) :
    (fill id nranks left right).1 =
      if left < nranks then (if right ≥ nranks then nranks - 1 else right) - left + 1 else 0 := by
  unfold fill
  split <;> rfl

/-- The numbers written: one for each child, if the count is positive. -/
theorem length_fill_snd (arith : Int → Int) (nranks left right : Int) :
    (fill arith nranks left right).2.length = (fill arith nranks left right).1.toNat := by
  unfold fill
  split
  · simp
  · rfl

/-- Where `left` and `right` are in range, wrapping changes nothing, and the
children are the ranks from `left` to `right`. -/
theorem fill_of_isInt (nranks : Int) {left right : Int} (hLeft : 0 < left) (hRight : left ≤ right)
    (hInt : right < 2 ^ 31) :
    fill wrapInt nranks left right = fill id nranks left right ∧
      0 ≤ (fill id nranks left right).1 ∧
      (fill id nranks left right).1 ≤ right - left + 1 ∧
      ∀ c ∈ (fill id nranks left right).2, 0 ≤ c ∧ c < nranks := by
  unfold fill
  by_cases hChild : left < nranks
  · obtain ⟨last, hLast⟩ : ∃ last, last = if right ≥ nranks then nranks - 1 else right := ⟨_, rfl⟩
    have hBounds : left ≤ last ∧ last ≤ right ∧ last < nranks := by
      rw [hLast]
      split <;> omega
    simp only [if_pos hChild, ← hLast, id]
    have hCount : wrapInt (wrapInt (last - left) + 1) = last - left + 1 := by
      rw [wrapInt_wrapInt_add]
      exact wrapInt_of_isInt ⟨by omega, by omega⟩
    refine ⟨?_, by omega, by omega, ?_⟩
    · rw [hCount]
      refine congrArg _ (List.map_congr_left fun i hMem => ?_)
      have hLess := List.mem_range.mp hMem
      exact wrapInt_of_isInt ⟨by omega, by omega⟩
    · intro c hMem
      obtain ⟨i, hRange, rfl⟩ := List.mem_map.mp hMem
      have hLess := List.mem_range.mp hRange
      omega
  · simp only [if_neg hChild]
    exact ⟨by trivial, by omega, by omega, by simp⟩

/-- Where `right` lies before `left`, the loop that writes the cells does not
run. -/
theorem fill_of_nonpos {arith : Int → Int} {nranks left right count : Int}
    (hLeft : left < nranks) (hRight : right < nranks)
    (hCount : arith (arith (right - left) + 1) = count) (hNone : count ≤ 0) :
    fill arith nranks left right = (count, []) := by
  have hRange : count.toNat = 0 := by omega
  unfold fill
  simp only [if_pos hLeft, if_neg (Int.not_le.mpr hRight), hCount, hRange, List.range_zero,
    List.map_nil]

theorem fill_of_le {arith : Int → Int} {nranks left right : Int} (hLeft : nranks ≤ left) :
    fill arith nranks left right = (0, []) :=
  if_neg (by omega)

/-- Where `right` overflows and `left` wraps below the ranks, the number `left`
is listed, and one that is no rank if `left` itself is an `int`. -/
theorem mem_fill_of_wide {product nranks maxChildren : Int} (hProduct : 0 ≤ product)
    (hWidth : 1 ≤ maxChildren) (hInt : IsInt maxChildren) (hRanks : nranks < 2 ^ 31)
    (hWide : 2 ^ 31 ≤ product + maxChildren) (hLeft : wrapInt (product + 1) < nranks) {x : Int}
    (hx : x = wrapInt (product + 1) ∨ product + 1 < nranks ∧ x = nranks) :
    x ∈ (fill wrapInt nranks (wrapInt (product + 1)) (wrapInt (product + maxChildren))).2 := by
  unfold IsInt at hInt
  obtain ⟨left, hStart⟩ : ∃ left, left = wrapInt (product + 1) := ⟨_, rfl⟩
  obtain ⟨count, hCount⟩ : ∃ count, count = (fill wrapInt nranks (wrapInt (product + 1))
      (wrapInt (product + maxChildren))).1 := ⟨_, rfl⟩
  have hList : (fill wrapInt nranks (wrapInt (product + 1)) (wrapInt (product + maxChildren))).2 =
      (List.range count.toNat).map fun i : Nat => wrapInt (left + i) := by
    rw [hCount, hStart]
    unfold fill
    rw [if_pos hLeft]
  have hBounds : 1 ≤ count ∧ (product + 1 < nranks → left = product + 1 ∧ count = maxChildren) := by
    have hRange : -2 ^ 31 ≤ left ∧ left < 2 ^ 31 ∧ (product + 1 < nranks → left = product + 1) := by
      unfold wrapInt at hStart
      omega
    -- as an `int`, `right` lies behind `left` or is negative
    have hRight : wrapInt (product + maxChildren) = left + maxChildren - 1 ∧
          left + maxChildren - 1 < 2 ^ 31 ∨
        wrapInt (product + maxChildren) = left + maxChildren - 1 - 2 ^ 32 ∧
          left + maxChildren - 1 ≥ 2 ^ 31 := by
      rw [hStart]
      unfold wrapInt
      omega
    rw [← hStart] at hLeft
    rw [fill_wrapInt_fst, ← hStart, if_pos hLeft] at hCount
    generalize wrapInt (product + maxChildren) = right at hRight hCount
    unfold wrapInt at hCount
    split_ifs at hCount <;> omega
  rw [hList, List.mem_map]
  rcases hx with rfl | ⟨hChild, rfl⟩
  · refine ⟨0, List.mem_range.mpr (by omega), ?_⟩
    rw [Nat.cast_zero, Int.add_zero, hStart]
    unfold wrapInt
    omega
  · obtain ⟨rfl, rfl⟩ := hBounds.2 hChild
    refine ⟨(x - (product + 1)).toNat, List.mem_range.mpr (by omega), ?_⟩
    unfold wrapInt
    omega
/-! ## Safe inputs -/

/-- Safety comes down to the parent and the children. -/
theorem safe_of_fill {procNull rank nranks maxChildren : Int}
    (hDivides : rank = 0 ∨ maxChildren ≠ 0)
    (hParent : rank > 0 → IsRankOrNull procNull nranks ((rank - 1).tdiv maxChildren))
    (hSame : fill wrapInt nranks (wrapInt (rank * maxChildren + 1))
        (wrapInt (rank * maxChildren + maxChildren)) =
      fill id nranks (rank * maxChildren + 1) (rank * maxChildren + maxChildren))
    (hCount : 0 ≤ (fill id nranks (rank * maxChildren + 1) (rank * maxChildren + maxChildren)).1)
    (hRoom : (fill id nranks (rank * maxChildren + 1) (rank * maxChildren + maxChildren)).1.toNat ≤
      maxChildren.toNat)
    (hChildren : ∀ c ∈ (fill id nranks (rank * maxChildren + 1)
      (rank * maxChildren + maxChildren)).2, 0 ≤ c ∧ c < nranks) :
    Safe procNull rank nranks maxChildren := by
  refine ⟨_, construct_wrapInt hDivides, ?_, ?_, ?_, ?_, ?_⟩
  · rw [construct_id hDivides, hSame]
  · rw [hSame]
    exact hCount
  · rw [hSame, length_fill_snd]
    exact hRoom
  · show IsRankOrNull procNull nranks (if rank > 0 then (rank - 1).tdiv maxChildren else procNull)
    split
    next hPositive => exact hParent hPositive
    next => exact Or.inl rfl
  · intro c hMem
    rw [hSame] at hMem
    exact Or.inr (hChildren c hMem)

/-- What safety says about the inputs. -/
theorem Safe.needs {procNull rank nranks maxChildren : Int}
    (h : Safe procNull rank nranks maxChildren) :
    (rank > 0 → maxChildren ≠ 0) ∧
      0 ≤ (fill id nranks (rank * maxChildren + 1) (rank * maxChildren + maxChildren)).1 ∧
      (fill wrapInt nranks (wrapInt (rank * maxChildren + 1))
          (wrapInt (rank * maxChildren + maxChildren))).1 =
        (fill id nranks (rank * maxChildren + 1) (rank * maxChildren + maxChildren)).1 := by
  obtain ⟨t, hMachine, hExact, hCount, -⟩ := h
  have hDivides : ¬ (rank > 0 ∧ maxChildren = 0) := by
    intro hZero
    rw [construct, if_pos hZero] at hMachine
    cases hMachine
  rw [construct, if_neg hDivides] at hMachine hExact
  simp only [wrapInt_wrapInt_add] at hMachine
  cases hMachine
  have hEq := congrArg TreeMembers.nchildren (Option.some.inj hExact)
  simp only [id] at hEq
  exact ⟨fun hPositive hZero => hDivides ⟨hPositive, hZero⟩, hEq ▸ hCount, hEq.symm⟩

section Inputs

variable {procNull rank nranks maxChildren : Int}

/-- For a positive width, `right` overflows to no effect only where there are
no children to begin with. -/
theorem le_left_of_same {product : Int} (hProduct : 0 ≤ product) (hWidth : 1 ≤ maxChildren)
    (hRanks : nranks < 2 ^ 31) (hInt : IsInt maxChildren) (hSome : 0 < nranks)
    (hOverflow : 2 ^ 31 ≤ product + maxChildren)
    (hSame : (fill wrapInt nranks (wrapInt (product + 1)) (wrapInt (product + maxChildren))).1 =
      (fill id nranks (product + 1) (product + maxChildren)).1) :
    nranks ≤ wrapInt (product + 1) := by
  by_contra hLess
  rw [fill_wrapInt_fst, fill_id_fst, if_pos (by omega)] at hSame
  unfold IsInt at hInt
  unfold wrapInt at hSame hLess
  split_ifs at hSame <;> omega

theorem Input.product_of_pos (hInput : Input procNull rank nranks maxChildren)
    (hWidth : 1 ≤ maxChildren) : 0 ≤ rank * maxChildren :=
  Int.mul_nonneg hInput.rank_nonneg (by omega)

/-- Without a positive width a rank has no children, or a negative number of
them. -/
theorem count_of_nonpos (hInput : Input procNull rank nranks maxChildren) (hWidth : maxChildren ≤ 0)
    (hCount : 0 ≤ (fill id nranks (rank * maxChildren + 1)
      (rank * maxChildren + maxChildren)).1) :
    rank = 0 ∧ nranks = 1 ∨ maxChildren = 0 := by
  have hRank := hInput.rank_nonneg
  have hRange := hInput.rank_lt
  have hProduct : rank * maxChildren ≤ 0 := Int.mul_nonpos_of_nonneg_of_nonpos hRank hWidth
  by_cases hSome : rank * maxChildren + 1 < nranks
  · rw [fill_id_fst, if_pos hSome, if_neg (by omega)] at hCount
    exact Or.inr (by omega)
  · exact Or.inl (by omega)

/-- The root is safe without children, at width zero or as the only rank. -/
theorem Input.safe_root (hInput : Input procNull rank nranks maxChildren) (hRoot : rank = 0)
    (hNone : maxChildren = 0 ∨ nranks = 1) : Safe procNull rank nranks maxChildren := by
  subst hRoot
  have hFill (arith : Int → Int) (hArith : arith 0 = 0) (hLast : arith (-1) = -1) :
      fill arith nranks (0 * maxChildren + 1) (0 * maxChildren + maxChildren) = (0, []) := by
    rw [Int.zero_mul, Int.zero_add, Int.zero_add]
    rcases hNone with rfl | rfl
    · by_cases hSome : 1 < nranks
      · refine fill_of_nonpos hSome (by omega) ?_ (Int.le_refl 0)
        rw [show (0 : Int) - 1 = -1 by decide, hLast]
        exact hArith
      · exact fill_of_le (by omega)
    · exact fill_of_le (by omega)
  have hExact := hFill id rfl rfl
  have hMachine := hFill wrapInt (by decide) (by decide)
  have hWidth : wrapInt (0 * maxChildren + maxChildren) = 0 * maxChildren + maxChildren := by
    rw [Int.zero_mul, Int.zero_add, wrapInt_of_isInt hInput.width]
  have hLeft : wrapInt (0 * maxChildren + 1) = 0 * maxChildren + 1 := by
    rw [Int.zero_mul]
    rfl
  refine safe_of_fill (Or.inl rfl) (fun hPositive => absurd hPositive (Int.lt_irrefl 0)) ?_ ?_ ?_ ?_
  · rw [hLeft, hWidth, hMachine, hExact]
  · rw [hExact]
  · rw [hExact]
    exact Nat.zero_le _
  · rw [hExact]
    simp

/-- A positive width is safe as long as `right` is an `int`. -/
theorem Input.safe_of_right (hInput : Input procNull rank nranks maxChildren)
    (hWidth : 1 ≤ maxChildren) (hRight : rank * maxChildren + maxChildren < 2 ^ 31) :
    Safe procNull rank nranks maxChildren := by
  have hProduct := hInput.product_of_pos hWidth
  have hRank := hInput.rank_lt
  obtain ⟨hSame, hSome, hCount, hChildren⟩ := fill_of_isInt nranks
    (show 0 < rank * maxChildren + 1 by omega)
    (show rank * maxChildren + 1 ≤ rank * maxChildren + maxChildren by omega) hRight
  refine safe_of_fill (Or.inr (by omega)) (fun hPositive => Or.inr ⟨?_, ?_⟩) ?_ hSome (by omega)
    hChildren
  · exact Int.tdiv_nonneg (by omega) (by omega)
  · have hQuotient := Int.tdiv_le_self maxChildren (show 0 ≤ rank - 1 by omega)
    omega
  · rw [wrapInt_of_isInt ⟨by omega, by omega⟩, wrapInt_of_isInt ⟨by omega, by omega⟩, hSame]

/-- It is also safe where `left`, as an `int`, lies beyond the ranks. -/
theorem Input.safe_of_left (hInput : Input procNull rank nranks maxChildren)
    (hWidth : 1 ≤ maxChildren) (hLeft : nranks ≤ wrapInt (rank * maxChildren + 1)) :
    Safe procNull rank nranks maxChildren := by
  have hProduct := hInput.product_of_pos hWidth
  have hRank := hInput.rank_lt
  have hExact : nranks ≤ rank * maxChildren + 1 := by
    unfold wrapInt at hLeft
    omega
  have hMachine : fill wrapInt nranks (wrapInt (rank * maxChildren + 1))
      (wrapInt (rank * maxChildren + maxChildren)) = (0, []) := fill_of_le hLeft
  have hNone : fill id nranks (rank * maxChildren + 1) (rank * maxChildren + maxChildren) =
      (0, []) := fill_of_le hExact
  refine safe_of_fill (Or.inr (by omega)) (fun hPositive => Or.inr ⟨?_, ?_⟩)
    (hMachine.trans hNone.symm) ?_ ?_ ?_
  · exact Int.tdiv_nonneg (by omega) (by omega)
  · have hQuotient := Int.tdiv_le_self maxChildren (show 0 ≤ rank - 1 by omega)
    omega
  · rw [hNone]
  · rw [hNone]
    exact Nat.zero_le _
  · rw [hNone]
    simp

end Inputs

/-- The constructor is safe exactly at a positive width whose `right` is an
`int` or whose `left` wraps to no rank, and for a root without children at width
zero or as the only rank.  Width zero divides every other rank by zero, and
negative widths count a negative number of children. -/
theorem safe_iff (procNull rank nranks maxChildren : Int)
    (hInput : Input procNull rank nranks maxChildren) :
    Safe procNull rank nranks maxChildren ↔
      rank = 0 ∧ (maxChildren = 0 ∨ nranks = 1) ∨
      1 ≤ maxChildren ∧ (rank * maxChildren + maxChildren < 2 ^ 31 ∨
        nranks ≤ wrapInt (rank * maxChildren + 1)) := by
  have hNonneg := hInput.rank_nonneg
  have hRank := hInput.rank_lt
  constructor
  · intro h
    obtain ⟨hDivides, hCount, hSame⟩ := h.needs
    by_cases hWidth : 1 ≤ maxChildren
    · refine Or.inr ⟨hWidth, ?_⟩
      by_cases hRight : rank * maxChildren + maxChildren < 2 ^ 31
      · exact Or.inl hRight
      · exact Or.inr (le_left_of_same (hInput.product_of_pos hWidth) hWidth hInput.nranks
          hInput.width (by omega) (by omega) hSame)
    · refine Or.inl ?_
      rcases count_of_nonpos hInput (by omega) hCount with ⟨hRoot, hOnly⟩ | hZero
      · exact ⟨hRoot, Or.inr hOnly⟩
      · exact ⟨by_contra fun hOther => hDivides (by omega) hZero, Or.inl hZero⟩
  · rintro (⟨hRoot, hNone⟩ | ⟨hWidth, hRight | hLeft⟩)
    · exact hInput.safe_root hRoot hNone
    · exact hInput.safe_of_right hWidth hRight
    · exact hInput.safe_of_left hWidth hLeft

/-- The numbers of a `TreeObject`. -/
def ofObject (procNull : Int) (t : TreeObject) : TreeMembers where
  parentRank := t.parentRank.elim procNull Nat.cast
  nchildren := t.nchildren
  childrenRanks := t.listed.map Nat.cast

/-- Where the construction over the natural numbers has a result, this one
has the same. -/
theorem construct_ofObject (procNull : Int) {rank nranks maxChildren : Nat} {t : TreeObject}
    (hWidth : 0 < maxChildren) (h : TreeObject.construct rank nranks maxChildren = some t) :
    construct wrapInt procNull rank nranks maxChildren = some (ofObject procNull t) := by
  unfold TreeObject.construct at h
  simp only [Option.bind_eq_bind] at h
  obtain ⟨product, hProduct, h⟩ := Option.bind_eq_some_iff.mp h
  obtain ⟨left, hLeft, h⟩ := Option.bind_eq_some_iff.mp h
  obtain ⟨right, hRight, h⟩ := Option.bind_eq_some_iff.mp h
  obtain ⟨rfl, -⟩ := intAdd_eq_some_iff.mp hLeft
  obtain ⟨rfl, hInt⟩ := intAdd_eq_some_iff.mp hRight
  have hEq : (product : Int) = (rank : Int) * maxChildren := by
    unfold intMul at hProduct
    split at hProduct
    · cases hProduct
      exact Int.natCast_mul _ _
    · cases hProduct
  have hIntMax : intMax = 2 ^ 31 - 1 := rfl
  have hParent : (if (rank : Int) > 0 then ((rank : Int) - 1).tdiv maxChildren else procNull) =
      (if rank > 0 then some ((rank - 1) / maxChildren) else none).elim procNull Nat.cast := by
    by_cases hPositive : rank > 0
    · rw [if_pos hPositive, if_pos (by omega), Int.tdiv_eq_ediv_of_nonneg (by omega),
        Option.elim_some, Int.natCast_ediv, Nat.cast_sub hPositive, Nat.cast_one]
    · rw [if_neg hPositive, if_neg (by omega), Option.elim_none]
  obtain ⟨hSame, -⟩ := fill_of_isInt nranks
    (show (0 : Int) < product + 1 by omega)
    (show (product : Int) + 1 ≤ product + maxChildren by omega) (by omega)
  rw [construct_wrapInt (Or.inr (by omega)), hParent, ← hEq,
    wrapInt_of_isInt ⟨by omega, by omega⟩, wrapInt_of_isInt ⟨by omega, by omega⟩, hSame]
  by_cases hChild : product + 1 < nranks
  · obtain ⟨last, hLast⟩ : ∃ last,
        last = if product + maxChildren ≥ nranks then nranks - 1 else product + maxChildren :=
      ⟨_, rfl⟩
    have hCast : (if (product : Int) + maxChildren ≥ nranks then (nranks : Int) - 1
        else product + maxChildren) = last := by
      rw [hLast]
      split_ifs <;> omega
    have hBounds : product + 1 ≤ last := by
      rw [hLast]
      split <;> omega
    have hCount : (last : Int) - (product + 1) + 1 = (last - (product + 1) + 1 : Nat) := by omega
    rw [if_pos hChild, ← hLast] at h
    split at h
    · cases h
      simp only [fill, if_pos (show (product : Int) + 1 < nranks by omega), hCast, id, hCount,
        Int.toNat_natCast, ofObject, TreeObject.listed, Option.some.injEq, TreeMembers.mk.injEq,
        true_and, List.filterMap_append, List.filterMap_map, List.map_append]
      simp
    · cases h
  · rw [if_neg hChild] at h
    cases h
    rw [fill_of_le (by omega)]
    simp [ofObject, TreeObject.listed]

/-- The third rank of a binary tree of seven. -/
theorem safe_seven : Safe (-2) 2 7 2 :=
  (safe_iff (-2) 2 7 2 ⟨by decide, by decide, by decide, by decide, by decide, by decide⟩).mpr
    (Or.inr ⟨by decide, Or.inl (by decide)⟩)

/-- Rank 1 of two divides by width zero, rank 0 of three counts -1 children at
width -1, and rank 1 of two lists children that are no ranks at width
2^31 - 1. -/
theorem not_safe_widths :
    ¬ Safe (-2) 1 2 0 ∧ ¬ Safe (-2) 0 3 (-1) ∧ ¬ Safe (-2) 1 2 (2 ^ 31 - 1) := by
  refine ⟨fun h => ?_, fun h => ?_, fun h => ?_⟩
  · exact h.needs.1 (by decide) rfl
  · obtain ⟨-, hCount, -⟩ := h.needs
    rw [fill_id_fst] at hCount
    exact absurd hCount (by decide)
  · obtain ⟨-, -, hSame⟩ := h.needs
    rw [fill_wrapInt_fst, fill_id_fst] at hSame
    exact absurd hSame (by decide)

end TreeMembers
end Circle
