import Mathlib.Algebra.BigOperators.Group.Finset.Basic
import Mathlib.Algebra.BigOperators.Group.List.Basic
import Mathlib.Data.Fintype.BigOperators

/-!
# Finite rooted trees

A tree on a type of nodes, given by the parent and the list of children of
each node.  A numbering that grows from parent to child makes both directions
of the tree well founded: properties can be passed down from the root, or up
from the leaves.
-/

/-- A finite rooted tree whose nodes are numbered below `bound`. -/
structure ParentTree (ι : Type) where
  root : ι
  parent : ι → Option ι
  children : ι → List ι
  order : ι → Nat
  bound : Nat
  mem_children_iff : ∀ p c, c ∈ children p ↔ parent c = some p
  nodup_children : ∀ p, (children p).Nodup
  order_lt : ∀ {p c}, parent c = some p → order p < order c
  order_lt_bound : ∀ i, order i < bound
  parent_eq_none_iff : ∀ i, parent i = none ↔ i = root

namespace ParentTree

variable {ι β : Type} (T : ParentTree ι)

@[simp] theorem parent_root : T.parent T.root = none := (T.parent_eq_none_iff _).mpr rfl

theorem parent_of_mem {p c : ι} (hMem : c ∈ T.children p) : T.parent c = some p :=
  (T.mem_children_iff p c).mp hMem

theorem mem_children {p c : ι} (hParent : T.parent c = some p) : c ∈ T.children p :=
  (T.mem_children_iff p c).mpr hParent

/-- No child is also the parent. -/
theorem not_mem_children_of_parent {i p : ι} (hParent : T.parent i = some p) :
    p ∉ T.children i := by
  intro hMem
  have hDown := T.order_lt hParent
  have hUp := T.order_lt (T.parent_of_mem hMem)
  omega

theorem ne_of_parent {i p : ι} (hParent : T.parent i = some p) : p ≠ i := by
  rintro rfl
  exact Nat.lt_irrefl _ (T.order_lt hParent)

/-- A property that passes from a parent to its children and holds of the root
holds everywhere. -/
theorem down_induction {P : ι → Prop} (hRoot : P T.root)
    (hChild : ∀ p c, T.parent c = some p → P p → P c) (i : ι) : P i := by
  generalize hOrder : T.order i = n
  induction n using Nat.strong_induction_on generalizing i with
  | _ n ih =>
      cases hParent : T.parent i with
      | none => exact (T.parent_eq_none_iff i).mp hParent ▸ hRoot
      | some p => exact hChild p i hParent (ih _ (hOrder ▸ T.order_lt hParent) p rfl)

/-- A property that holds of a node as soon as it holds of all children holds
everywhere. -/
theorem up_induction {P : ι → Prop} (hNode : ∀ i, (∀ c ∈ T.children i, P c) → P i) (i : ι) :
    P i := by
  generalize hOrder : T.bound - T.order i = n
  induction n using Nat.strong_induction_on generalizing i with
  | _ n ih =>
      refine hNode i fun c hMem => ih _ ?_ c rfl
      have hLess := T.order_lt (T.parent_of_mem hMem)
      have hBound := T.order_lt_bound c
      omega

/-- Where a property holds somewhere, it holds of a node and not of its parent. -/
theorem exists_topmost {P : ι → Prop} {i : ι} (h : P i) :
    ∃ j, P j ∧ ∀ p, T.parent j = some p → ¬ P p := by
  by_contra hNot
  push Not at hNot
  refine T.down_induction (P := fun i => ¬ P i) ?_ ?_ i h
  · intro hRoot
    obtain ⟨p, hParent, -⟩ := hNot _ hRoot
    rw [T.parent_root] at hParent
    cases hParent
  · intro p c hParent hp hc
    obtain ⟨q, hq, hHolds⟩ := hNot c hc
    rw [hParent, Option.some.injEq] at hq
    exact hp (hq ▸ hHolds)

/-- Where a property holds somewhere, it holds of a node and of none of its
children. -/
theorem exists_lowest {P : ι → Prop} {i : ι} (h : P i) :
    ∃ j, P j ∧ ∀ c ∈ T.children j, ¬ P c := by
  by_contra hNot
  push Not at hNot
  refine T.up_induction (P := fun i => ¬ P i) (fun j ih hj => ?_) i h
  obtain ⟨c, hMem, hc⟩ := hNot j hj
  exact ih c hMem hc

/-- Compute a value at every node from the values of its children. -/
def fold (f : ι → List β → β) (i : ι) : β :=
  f i ((T.children i).attach.map fun c => fold f c.1)
termination_by T.bound - T.order i
decreasing_by
  have hLess := T.order_lt (T.parent_of_mem c.2)
  have hBound := T.order_lt_bound c.1
  omega

theorem fold_eq (f : ι → List β → β) (i : ι) :
    T.fold f i = f i ((T.children i).map (T.fold f)) := by
  rw [fold, List.attach_map_val]

/-- The fold is the only function with its equation. -/
theorem eq_fold {f : ι → List β → β} {value : ι → β}
    (h : ∀ i, value i = f i ((T.children i).map value)) (i : ι) : value i = T.fold f i := by
  refine T.up_induction (P := fun i => value i = T.fold f i) (fun i ih => ?_) i
  rw [h i, fold_eq, List.map_congr_left ih]

section Sum

variable {M : Type} [AddCancelCommMonoid M] [Fintype ι] [DecidableEq ι]

/-- Every node but the root has one parent. -/
theorem sum_parent (i : ι) (x : M) :
    (∑ p, if T.parent i = some p then x else 0) = if i = T.root then 0 else x := by
  cases hParent : T.parent i with
  | none => simp [(T.parent_eq_none_iff i).mp hParent]
  | some p =>
      have hNe : i ≠ T.root := fun hRoot => by simp [hRoot] at hParent
      simp [hNe]

/-- Every node but the root is a child exactly once. -/
theorem sum_children (X : ι → M) :
    X T.root + ∑ i, ((T.children i).map X).sum = ∑ i, X i := by
  have hRow : ∀ i, ((T.children i).map X).sum =
      ∑ c, if T.parent c = some i then X c else 0 := by
    intro i
    rw [← List.sum_toFinset _ (T.nodup_children i), ← Finset.sum_filter]
    refine Finset.sum_congr ?_ fun _ _ => rfl
    ext c
    simp [T.mem_children_iff]
  calc X T.root + ∑ i, ((T.children i).map X).sum
      = X T.root + ∑ c, if c = T.root then 0 else X c := by
        simp only [hRow]
        rw [Finset.sum_comm]
        simp only [T.sum_parent]
    _ = (∑ c, if c = T.root then X c else 0) + ∑ c, if c = T.root then 0 else X c := by simp
    _ = ∑ c, X c := by
        rw [← Finset.sum_add_distrib]
        exact Finset.sum_congr rfl fun c _ => by split <;> simp

/-- A sum over all pairs of neighbours, parents with children and children with
parents. -/
theorem sum_edges (f : ι → ι → M) (x : M)
    (hParent : ∀ i p, T.parent i = some p → f i p = x)
    (hChild : ∀ i c, c ∈ T.children i → f i c = x)
    (hFar : ∀ i j, T.parent i ≠ some j → j ∉ T.children i → f i j = 0) :
    ∑ i, ∑ j, f i j = (2 * (Fintype.card ι - 1)) • x := by
  have hSplit (i j : ι) : f i j =
      (if T.parent i = some j then x else 0) + if T.parent j = some i then x else 0 := by
    by_cases hUp : T.parent i = some j
    · have hNotDown : T.parent j ≠ some i := fun hDown =>
        T.not_mem_children_of_parent hUp (T.mem_children hDown)
      rw [if_pos hUp, if_neg hNotDown, add_zero, hParent i j hUp]
    · rw [if_neg hUp, zero_add]
      by_cases hDown : T.parent j = some i
      · rw [if_pos hDown, hChild i j (T.mem_children hDown)]
      · rw [if_neg hDown]
        exact hFar i j hUp fun hMem => hDown (T.parent_of_mem hMem)
  have hOnce : (∑ i, ∑ j, if T.parent i = some j then x else 0) = (Fintype.card ι - 1) • x := by
    simp only [T.sum_parent, Finset.sum_ite, Finset.sum_const_zero, Finset.sum_const, zero_add]
    rw [Finset.filter_ne', Finset.card_erase_of_mem (Finset.mem_univ _), Finset.card_univ]
  calc ∑ i, ∑ j, f i j
      = (∑ i, ∑ j, if T.parent i = some j then x else 0) +
          ∑ i, ∑ j, if T.parent j = some i then x else 0 := by
        simp only [hSplit, Finset.sum_add_distrib]
    _ = (Fintype.card ι - 1) • x + (Fintype.card ι - 1) • x := by
        rw [Finset.sum_comm (f := fun i j => if T.parent j = some i then x else 0), hOnce]
    _ = (2 * (Fintype.card ι - 1)) • x := by rw [Nat.two_mul, add_nsmul]

/-- A quantity that each node adds to what its children have is, at the root,
the sum over all nodes. -/
theorem root_eq_sum {f X : ι → M} (h : ∀ i, X i = f i + ((T.children i).map X).sum) :
    X T.root = ∑ i, f i := by
  have hTotal := T.sum_children X
  have hSplit : ∑ i, X i = ∑ i, f i + ∑ i, ((T.children i).map X).sum := by
    rw [← Finset.sum_add_distrib]
    exact Finset.sum_congr rfl fun i _ => h i
  rw [hSplit] at hTotal
  exact add_right_cancel hTotal

end Sum

end ParentTree
