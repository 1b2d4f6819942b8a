import Circle.Base.ParentTree
import Circle.Machine
import Mathlib.Tactic

/-!
# The tree of ranks

`TreeState` computes, from a rank, the number of ranks and the tree width, the
parent and the children of the rank.  The computations of all ranks fit
together to one rooted tree.
-/

namespace Circle

/-- The parent, `none` for `MPI_PROC_NULL`, and the children of a rank. -/
structure TreeState where
  parentRank : Option Nat
  childrenRanks : List Nat
  deriving DecidableEq, Repr

/-- The constructor `TreeState::TreeState`, in unbounded arithmetic. -/
def TreeState.new (rank nranks maxChildren : Nat) : TreeState where
  parentRank := if rank > 0 then some ((rank - 1) / maxChildren) else none
  childrenRanks :=
    let left := rank * maxChildren + 1
    let right := rank * maxChildren + maxChildren
    if left < nranks then
      let right := if right ≥ nranks then nranks - 1 else right
      let nchildren := right - left + 1
      (List.range nchildren).map (left + ·)
    else
      []

namespace TreeState

theorem mem_childrenRanks {rank nranks maxChildren c : Nat} (hWidth : 0 < maxChildren) :
    c ∈ (new rank nranks maxChildren).childrenRanks ↔
      rank * maxChildren + 1 ≤ c ∧ c ≤ rank * maxChildren + maxChildren ∧ c < nranks := by
  simp only [new]
  split
  next hLeft =>
    simp only [List.mem_map, List.mem_range]
    constructor
    · rintro ⟨k, hk, rfl⟩
      split at hk <;> omega
    · rintro ⟨hLow, hHigh, hRange⟩
      refine ⟨c - (rank * maxChildren + 1), ?_, by omega⟩
      split <;> omega
  next hLeft =>
    simp only [List.not_mem_nil, false_iff]
    omega

/-- A rank lists exactly the ranks that compute it as their parent. -/
theorem mem_childrenRanks_iff {rank nranks maxChildren c : Nat} (hWidth : 0 < maxChildren) :
    c ∈ (new rank nranks maxChildren).childrenRanks ↔
      c < nranks ∧ (new c nranks maxChildren).parentRank = some rank := by
  rw [mem_childrenRanks hWidth]
  simp only [new]
  by_cases hRoot : c > 0
  · rw [if_pos hRoot, Option.some.injEq, Nat.div_eq_iff hWidth]
    have hComm := Nat.mul_comm rank maxChildren
    constructor
    · rintro ⟨hLow, hHigh, hRange⟩
      omega
    · rintro ⟨hRange, hBounds⟩
      omega
  · rw [if_neg hRoot]
    constructor
    · rintro ⟨hLow, -⟩
      omega
    · rintro ⟨-, hNone⟩
      cases hNone

theorem parentRank_lt {c nranks maxChildren p : Nat}
    (hParent : (new c nranks maxChildren).parentRank = some p) : p < c := by
  simp only [new] at hParent
  split at hParent
  next hRoot =>
    cases hParent
    exact Nat.lt_of_le_of_lt (Nat.div_le_self _ _) (by omega)
  next => cases hParent

theorem nodup_childrenRanks (rank nranks maxChildren : Nat) :
    (new rank nranks maxChildren).childrenRanks.Nodup := by
  simp only [new]
  split
  · exact List.Nodup.map (fun a b hEq => by simpa using hEq) List.nodup_range
  · exact List.nodup_nil

/-- A number as a rank. -/
def toRank? (n r : Nat) : Option (Fin n) := if h : r < n then some ⟨r, h⟩ else none

theorem toRank?_eq_some {n r : Nat} {i : Fin n} : toRank? n r = some i ↔ r = i.val := by
  unfold toRank?
  split
  next hLess => simp [Fin.ext_iff, eq_comm]
  next hLess =>
    constructor
    · intro h
      cases h
    · intro h
      exact absurd (h ▸ i.isLt) hLess

/-- The tree that the ranks compute together. -/
def tree (n width : Nat) (hSize : 0 < n) (hWidth : 0 < width) : ParentTree (Fin n) where
  root := ⟨0, hSize⟩
  parent i := (new i n width).parentRank.bind (toRank? n)
  children i := (new i n width).childrenRanks.filterMap (toRank? n)
  order i := i.val
  bound := n
  mem_children_iff := by
    intro p c
    simp only [List.mem_filterMap, toRank?_eq_some, Option.bind_eq_some_iff]
    simp only [mem_childrenRanks_iff hWidth]
    constructor
    · rintro ⟨_, ⟨-, hParent⟩, rfl⟩
      exact ⟨_, hParent, rfl⟩
    · rintro ⟨_, hParent, rfl⟩
      exact ⟨_, ⟨c.isLt, hParent⟩, rfl⟩
  nodup_children := by
    intro p
    refine (nodup_childrenRanks _ _ _).filterMap ?_
    intro a b i ha hb
    rw [Option.mem_def, toRank?_eq_some] at ha hb
    exact ha.trans hb.symm
  order_lt := by
    intro p c hParent
    obtain ⟨r, hRank, hEq⟩ := Option.bind_eq_some_iff.mp hParent
    rw [toRank?_eq_some] at hEq
    exact hEq ▸ parentRank_lt hRank
  order_lt_bound i := i.isLt
  parent_eq_none_iff := by
    intro i
    constructor
    · intro hNone
      by_contra hRoot
      have hPositive : 0 < i.val := by
        refine Nat.pos_of_ne_zero fun hZero => hRoot (Fin.ext hZero)
      have hLess : (i.val - 1) / width < n :=
        Nat.lt_of_le_of_lt (Nat.div_le_self _ _) (by omega)
      simp [new, hPositive, toRank?, hLess] at hNone
    · rintro rfl
      simp [new]

end TreeState

/-! ## The object in memory -/

/-- The members of a `TreeState` object.  `childrenRanks` is an array of
`maxChildren` cells, `none` where it holds `MPI_PROC_NULL`. -/
structure TreeObject where
  parentRank : Option Nat
  nchildren : Nat
  childrenRanks : List (Option Nat)
  deriving DecidableEq, Repr

namespace TreeObject

/-- The constructor in `int` arithmetic; it has no result where a number
leaves the range of `int` or a write the array. -/
def construct (rank nranks maxChildren : Nat) : Option TreeObject := do
  let parentRank := if rank > 0 then some ((rank - 1) / maxChildren) else none
  let product ← intMul rank maxChildren
  let left ← intAdd product 1
  let right ← intAdd product maxChildren
  if left < nranks then
    let right := if right ≥ nranks then nranks - 1 else right
    let nchildren := right - left + 1
    if nchildren ≤ maxChildren then
      some ⟨parentRank, nchildren, (List.range nchildren).map (fun i => some (left + i)) ++
        List.replicate (maxChildren - nchildren) none⟩
    else
      none
  else
    some ⟨parentRank, 0, List.replicate maxChildren none⟩

/-- The children that the array lists. -/
def listed (t : TreeObject) : List Nat := t.childrenRanks.filterMap id

/-- The objects of all ranks describe one tree. -/
structure Consistent {nranks : Nat} (maxChildren : Nat) (trees : Fin nranks → TreeObject) :
    Prop where
  /-- Both ends of an edge know it. -/
  edge : ∀ p c : Fin nranks, c.val ∈ (trees p).listed ↔ (trees c).parentRank = some p.val
  /-- Every rank but 0 is listed once. -/
  once : ∀ c : Fin nranks, c.val ≠ 0 → ∃ p, (trees p).listed.count c.val = 1 ∧
    ∀ q, q ≠ p → c.val ∉ (trees q).listed
  /-- Rank 0 is the root. -/
  root : ∀ r : Fin nranks, r.val = 0 → (trees r).parentRank = none ∧ ∀ p, r.val ∉ (trees p).listed
  /-- Children are ranks, and larger than their parent. -/
  range : ∀ p : Fin nranks, ∀ c ∈ (trees p).listed, p.val < c ∧ c < nranks
  /-- Parents lead to rank 0. -/
  reaches : ∀ r : Fin nranks, ∃ root : Fin nranks, root.val = 0 ∧
    Relation.ReflTransGen (fun c p : Fin nranks => (trees c).parentRank = some p.val) r root
  /-- The first `nchildren` cells, and no others, list children. -/
  count : ∀ r, (trees r).nchildren ≤ maxChildren ∧
    (trees r).nchildren = (trees r).listed.length ∧
    (trees r).childrenRanks.take (trees r).nchildren = (trees r).listed.map some

/-- The object for a list of children. -/
def ofTree (maxChildren : Nat) (t : TreeState) : TreeObject where
  parentRank := t.parentRank
  nchildren := t.childrenRanks.length
  childrenRanks := t.childrenRanks.map some ++
    List.replicate (maxChildren - t.childrenRanks.length) none

@[simp] theorem listed_ofTree (maxChildren : Nat) (t : TreeState) :
    (ofTree maxChildren t).listed = t.childrenRanks := by
  simp [ofTree, listed, List.filterMap_append, List.filterMap_map]

/-- Within `int`, the array is the list of children with cells to spare. -/
theorem construct_eq {rank nranks maxChildren : Nat} (hWidth : 0 < maxChildren)
    (hRank : rank < nranks) (hInt : nranks * maxChildren ≤ intMax) :
    construct rank nranks maxChildren =
        some (ofTree maxChildren (TreeState.new rank nranks maxChildren)) ∧
      (TreeState.new rank nranks maxChildren).childrenRanks.length ≤ maxChildren := by
  have hNext : (rank + 1) * maxChildren ≤ nranks * maxChildren :=
    Nat.mul_le_mul_right _ hRank
  rw [Nat.succ_mul] at hNext
  have hProduct : intMul rank maxChildren = some (rank * maxChildren) :=
    intMul_eq_some (by omega)
  have hLeft : intAdd (rank * maxChildren) 1 = some (rank * maxChildren + 1) :=
    intAdd_eq_some (by omega)
  have hRight : intAdd (rank * maxChildren) maxChildren = some (rank * maxChildren + maxChildren) :=
    intAdd_eq_some (by omega)
  unfold construct TreeState.new ofTree
  simp only [hProduct, hLeft, hRight, Option.bind_eq_bind, Option.bind_some]
  by_cases hChild : rank * maxChildren + 1 < nranks
  · -- the last level is clipped, which leaves at most a full set of children
    have hCount : (if rank * maxChildren + maxChildren ≥ nranks then nranks - 1
        else rank * maxChildren + maxChildren) - (rank * maxChildren + 1) + 1 ≤ maxChildren := by
      split <;> omega
    simp only [if_pos hChild, if_pos hCount, List.length_map, List.length_range, List.map_map]
    exact ⟨rfl, hCount⟩
  · simp [if_neg hChild]

/-- The objects that the ranks construct independently of each other describe
one tree, for every number of ranks and every width within `int`. -/
theorem exists_consistent (nranks maxChildren : Nat) (hWidth : 1 ≤ maxChildren)
    (hInt : nranks * maxChildren ≤ intMax) :
    ∃ trees : Fin nranks → TreeObject,
      (∀ rank, construct rank.val nranks maxChildren = some (trees rank)) ∧
      Consistent maxChildren trees := by
  have hEach := fun rank : Fin nranks => construct_eq hWidth rank.isLt hInt
  refine ⟨fun rank => ofTree maxChildren (TreeState.new rank nranks maxChildren),
    fun rank => (hEach rank).1, ?_⟩
  have hEdge : ∀ p c : Fin nranks,
      c.val ∈ (TreeState.new p nranks maxChildren).childrenRanks ↔
        (TreeState.new c nranks maxChildren).parentRank = some p.val := by
    intro p c
    rw [TreeState.mem_childrenRanks_iff hWidth]
    exact and_iff_right c.isLt
  have hLess : ∀ p : Fin nranks, ∀ c ∈ (TreeState.new p nranks maxChildren).childrenRanks,
      p.val < c ∧ c < nranks := by
    intro p c hMem
    obtain ⟨hRange, hParent⟩ := (TreeState.mem_childrenRanks_iff hWidth).mp hMem
    exact ⟨TreeState.parentRank_lt hParent, hRange⟩
  -- every rank but the first has its parent among the ranks
  have hParent : ∀ c : Fin nranks, c.val ≠ 0 → ∃ p : Fin nranks,
      (TreeState.new c nranks maxChildren).parentRank = some p.val := by
    intro c hc
    have hBound : (c.val - 1) / maxChildren < nranks :=
      Nat.lt_of_le_of_lt (Nat.div_le_self _ _) (by omega)
    exact ⟨⟨_, hBound⟩, by simp [TreeState.new, Nat.pos_of_ne_zero hc]⟩
  exact {
    edge := by
      intro p c
      rw [listed_ofTree]
      exact hEdge p c
    once := by
      intro c hc
      obtain ⟨p, hp⟩ := hParent c hc
      refine ⟨p, ?_, ?_⟩
      · rw [listed_ofTree]
        exact List.count_eq_one_of_mem (TreeState.nodup_childrenRanks _ _ _) ((hEdge p c).mpr hp)
      · intro q hq hMem
        rw [listed_ofTree, hEdge, hp, Option.some.injEq] at hMem
        exact hq (Fin.ext hMem.symm)
    root := by
      intro r hr
      refine ⟨by simp [ofTree, TreeState.new, hr], ?_⟩
      intro p hMem
      rw [listed_ofTree] at hMem
      have hBound := (hLess p _ hMem).1
      omega
    range := by
      intro p
      rw [listed_ofTree]
      exact hLess p
    reaches := by
      -- by strong induction on the rank: the parent of a rank is lower
      intro r
      induction hRank : r.val using Nat.strong_induction_on generalizing r with
      | _ m ih =>
          by_cases hRoot : r.val = 0
          · exact ⟨r, hRoot, .refl⟩
          · obtain ⟨p, hp⟩ := hParent r hRoot
            obtain ⟨root, hZero, hPath⟩ :=
              ih p.val (hRank ▸ TreeState.parentRank_lt hp) p rfl
            exact ⟨root, hZero, .head hp hPath⟩
    count := by
      intro r
      rw [listed_ofTree]
      exact ⟨(hEach r).2, rfl, by simp [ofTree]⟩ }

/-- Seven ranks in a binary tree. -/
theorem exists_consistent_seven :
    ∃ trees : Fin 7 → TreeObject, (∀ rank, construct rank.val 7 2 = some (trees rank)) ∧
      Consistent 2 trees :=
  exists_consistent 7 2 (by decide) (by decide)

end TreeObject
end Circle
