import Mathlib.Data.List.Basic
import Mathlib.Tactic

/-!
# Lists packed into one pool

A list of blocks can be stored back to back in one pool, with a table of the
offsets at which the blocks start and one mark for the end of the last block.
No length is stored: each block ends where its successor starts, the last one
at the mark.  This file cuts such a pool into its blocks again, and shows that
a strictly increasing offset table below the mark is all that is needed for
the table, the blocks and the pool to determine one another.
-/

namespace Packed

variable {α : Type*}

/-- The part of a pool between two offsets. -/
def slice (pool : List α) (start stop : Nat) : List α :=
  (pool.drop start).take (stop - start)

/-- Overwrite the pool from offset `start` on with the given block. -/
def splice (pool : List α) (start : Nat) (block : List α) : List α :=
  pool.take start ++ block ++ pool.drop (start + block.length)

/-- The offset table of blocks laid back to back from `start` on. -/
def offsetsFrom (start : Nat) : List (List α) → List Nat
  | [] => []
  | block :: rest => start :: offsetsFrom (start + block.length) rest

/-- Cut a pool at an offset table.  A block ends at the next offset, the last
one at `stop`. -/
def cut (pool : List α) : List Nat → Nat → List (List α)
  | [], _ => []
  | start :: rest, stop =>
      slice pool start (rest.headD stop) :: cut pool rest stop

/-- An offset table is usable below a mark when it increases strictly and
stays below the mark. -/
structure Increasing (offsets : List Nat) (stop : Nat) : Prop where
  pairwise : offsets.Pairwise (· < ·)
  below : ∀ offset ∈ offsets, offset < stop

/-! ## Slices and splices -/

theorem length_slice {pool : List α} (start : Nat) {stop : Nat}
    (hStop : stop ≤ pool.length) : (slice pool start stop).length = stop - start := by
  simp only [slice, List.length_take, List.length_drop]
  omega

/-- Two adjacent slices join. -/
theorem slice_append_slice (pool : List α) {a b c : Nat} (hab : a ≤ b) (hbc : b ≤ c) :
    slice pool a b ++ slice pool b c = slice pool a c := by
  have hSplit : c - a = (b - a) + (c - b) := by omega
  have hDrop : pool.drop b = (pool.drop a).drop (b - a) := by
    rw [List.drop_drop]
    congr 1
    omega
  rw [slice, slice, slice, hSplit, List.take_add, hDrop]

/-- A slice that ends within the first `n` cells only sees those cells. -/
theorem slice_take (pool : List α) {start stop n : Nat} (hStop : stop ≤ n) :
    slice (pool.take n) start stop = slice pool start stop := by
  simp only [slice, List.drop_take, List.take_take]
  congr 1
  omega

@[simp] theorem length_splice {pool : List α} {start : Nat} {block : List α}
    (hRoom : start + block.length ≤ pool.length) :
    (splice pool start block).length = pool.length := by
  simp only [splice, List.length_append, List.length_take, List.length_drop]
  omega

/-- After a splice the pool starts with its old front and the new block. -/
theorem take_splice {pool : List α} {start : Nat} (block : List α)
    (hStart : start ≤ pool.length) :
    (splice pool start block).take (start + block.length) = pool.take start ++ block := by
  have hLength : (pool.take start ++ block).length = start + block.length := by
    simp [Nat.min_eq_left hStart]
  rw [splice, ← hLength, List.take_left]

/-! ## Offset tables -/

@[simp] theorem length_offsetsFrom (start : Nat) (blocks : List (List α)) :
    (offsetsFrom start blocks).length = blocks.length := by
  induction blocks generalizing start with
  | nil => rfl
  | cons block rest ih => simp [offsetsFrom, ih]

/-- Appending blocks appends their offsets, counted from the end of the first
blocks. -/
theorem offsetsFrom_append (start : Nat) (front back : List (List α)) :
    offsetsFrom start (front ++ back) =
      offsetsFrom start front ++ offsetsFrom (start + front.flatten.length) back := by
  induction front generalizing start with
  | nil => simp [offsetsFrom]
  | cons block rest ih =>
      simp only [List.cons_append, offsetsFrom, ih, List.flatten_cons, List.length_append]
      rw [Nat.add_assoc]

/-- Moving all blocks by a distance moves their offsets by it. -/
theorem offsetsFrom_add (start distance : Nat) (blocks : List (List α)) :
    offsetsFrom (start + distance) blocks =
      (offsetsFrom start blocks).map (· + distance) := by
  induction blocks generalizing start with
  | nil => rfl
  | cons block rest ih =>
      simp only [offsetsFrom, List.map_cons, List.cons.injEq, true_and]
      rw [show start + distance + block.length = start + block.length + distance by omega]
      exact ih (start + block.length)

/-- The offset of the block after `front` is the length of `front`. -/
theorem getElem?_offsetsFrom_append (start : Nat) (front : List (List α)) (block : List α)
    (back : List (List α)) :
    (offsetsFrom start (front ++ block :: back))[front.length]? =
      some (start + front.flatten.length) := by
  rw [offsetsFrom_append, List.getElem?_append_right (by simp)]
  simp [offsetsFrom]

theorem le_of_mem_offsetsFrom {start offset : Nat} {blocks : List (List α)}
    (hMem : offset ∈ offsetsFrom start blocks) : start ≤ offset := by
  induction blocks generalizing start with
  | nil => simp [offsetsFrom] at hMem
  | cons block rest ih =>
      rcases List.mem_cons.mp hMem with rfl | hRest
      · exact Nat.le_refl _
      · exact Nat.le_trans (Nat.le_add_right _ _) (ih hRest)

/-- Blocks that are not empty have a strictly increasing offset table below
their end. -/
theorem increasing_offsetsFrom (start : Nat) {blocks : List (List α)}
    (hBlocks : ∀ block ∈ blocks, block ≠ []) :
    Increasing (offsetsFrom start blocks) (start + blocks.flatten.length) := by
  induction blocks generalizing start with
  | nil => exact ⟨List.Pairwise.nil, by simp [offsetsFrom]⟩
  | cons block rest ih =>
      have hPositive : 0 < block.length :=
        List.length_pos_iff.mpr (hBlocks block (List.mem_cons_self ..))
      have hRest := ih (start + block.length)
        (fun later hLater => hBlocks later (List.mem_cons_of_mem _ hLater))
      refine ⟨List.Pairwise.cons ?_ hRest.pairwise, ?_⟩
      · intro offset hMem
        have := le_of_mem_offsetsFrom hMem
        omega
      · intro offset hMem
        simp only [List.flatten_cons, List.length_append]
        rcases List.mem_cons.mp hMem with rfl | hLater
        · omega
        · have := hRest.below offset hLater
          omega

theorem Increasing.tail {start stop : Nat} {rest : List Nat}
    (h : Increasing (start :: rest) stop) : Increasing rest stop :=
  ⟨(List.pairwise_cons.mp h.pairwise).2, fun offset hMem =>
    h.below offset (List.mem_cons_of_mem _ hMem)⟩

/-- The first block of an increasing table ends after it starts and within the
mark. -/
theorem Increasing.head_lt {start stop : Nat} {rest : List Nat}
    (h : Increasing (start :: rest) stop) :
    start < rest.headD stop ∧ rest.headD stop ≤ stop := by
  cases rest with
  | nil => exact ⟨h.below start (by simp), Nat.le_refl _⟩
  | cons next later =>
      exact ⟨(List.pairwise_cons.mp h.pairwise).1 next (by simp),
        Nat.le_of_lt (h.below next (by simp))⟩

/-! ## Cutting -/

@[simp] theorem length_cut (pool : List α) (offsets : List Nat) (stop : Nat) :
    (cut pool offsets stop).length = offsets.length := by
  induction offsets with
  | nil => rfl
  | cons start rest ih => simp [cut, ih]

/-- Cutting only looks at the cells below the mark. -/
theorem cut_congr {pool other : List α} {offsets : List Nat} {stop : Nat}
    (hOffsets : Increasing offsets stop) (hPool : pool.take stop = other.take stop) :
    cut pool offsets stop = cut other offsets stop := by
  induction offsets with
  | nil => rfl
  | cons start rest ih =>
      have hEnd := hOffsets.head_lt.2
      simp only [cut]
      rw [ih hOffsets.tail, ← slice_take pool hEnd, ← slice_take other hEnd, hPool]

/-- The pieces of a cut join to the slice they were cut from. -/
theorem flatten_cut {pool : List α} {start stop : Nat} {rest : List Nat}
    (hOffsets : Increasing (start :: rest) stop) :
    (cut pool (start :: rest) stop).flatten = slice pool start stop := by
  induction rest generalizing start with
  | nil => simp [cut]
  | cons next later ih =>
      have hEnd := hOffsets.head_lt
      rw [cut, List.flatten_cons, ih hOffsets.tail]
      exact slice_append_slice pool (Nat.le_of_lt hEnd.1) hEnd.2

/-- No piece of a cut is empty. -/
theorem ne_nil_of_mem_cut {pool : List α} {offsets : List Nat} {stop : Nat}
    (hOffsets : Increasing offsets stop) (hStop : stop ≤ pool.length)
    {block : List α} (hMem : block ∈ cut pool offsets stop) : block ≠ [] := by
  induction offsets with
  | nil => simp [cut] at hMem
  | cons start rest ih =>
      have hEnd := hOffsets.head_lt
      rcases List.mem_cons.mp hMem with rfl | hRest
      · have hLength := length_slice start (Nat.le_trans hEnd.2 hStop)
        intro hNil
        rw [hNil] at hLength
        simp only [List.length_nil] at hLength
        omega
      · exact ih hOffsets.tail hRest

/-- The table a cut was made at is the table of its pieces. -/
theorem offsetsFrom_cut {pool : List α} {start stop : Nat} {rest : List Nat}
    (hOffsets : Increasing (start :: rest) stop) (hStop : stop ≤ pool.length) :
    offsetsFrom start (cut pool (start :: rest) stop) = start :: rest := by
  induction rest generalizing start with
  | nil => rfl
  | cons next later ih =>
      have hEnd := hOffsets.head_lt
      have hLength := length_slice start (Nat.le_trans hEnd.2 hStop)
      have hNext : start + (slice pool start next).length = next := by
        simp only [List.headD_cons] at hLength hEnd
        omega
      rw [cut, offsetsFrom, List.headD_cons, hNext, ih hOffsets.tail]

/-- Cutting blocks that lie back to back at their own offset table gives the
blocks back. -/
theorem cut_offsetsFrom (front : List α) (blocks : List (List α)) (back : List α) :
    cut (front ++ (blocks.flatten ++ back)) (offsetsFrom front.length blocks)
      (front.length + blocks.flatten.length) = blocks := by
  induction blocks generalizing front with
  | nil => rfl
  | cons block rest ih =>
      have hRest := ih (front ++ block)
      have hEnd : (offsetsFrom (front.length + block.length) rest).headD
          (front.length + (block :: rest).flatten.length) = front.length + block.length := by
        cases rest with
        | nil => simp [offsetsFrom]
        | cons next later => simp [offsetsFrom]
      have hPool : front ++ ((block :: rest).flatten ++ back) =
          front ++ block ++ (rest.flatten ++ back) := by
        simp
      have hMark : front.length + (block :: rest).flatten.length =
          (front ++ block).length + rest.flatten.length := by
        simp [Nat.add_assoc]
      rw [offsetsFrom, cut, hEnd]
      congr 1
      · simp [slice]
      · rw [hPool, hMark, ← List.length_append, hRest]

end Packed
