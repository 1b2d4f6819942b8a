import Circle.Base.ParentTree

/-!
# Combining what the nodes of a tree have

Each node of a rooted tree combines its own contribution with the results of
its children.  With an associative operation the result of a node is the
combination of the contributions below it, and the root has combined the
contribution of every node once.
-/

section Combine

variable {α : Type} {op : α → α → α}

/-- Combine the elements of a list from the left. -/
def combineAll (op : α → α → α) : List α → Option α
  | [] => none
  | first :: rest => some (rest.foldl op first)

theorem right_comm_of_comm [hAssoc : Std.Associative op] [hComm : Std.Commutative op] (a b c : α) :
    op (op a b) c = op (op a c) b := by
  rw [hAssoc.assoc, hComm.comm b c, ← hAssoc.assoc]

theorem foldl_perm [Std.Associative op] [Std.Commutative op] {l l' : List α} (h : l.Perm l')
    (a : α) : l.foldl op a = l'.foldl op a :=
  h.foldl_eq' (fun x _ y _ z => right_comm_of_comm z x y) a

/-- The order of the elements does not matter. -/
theorem combineAll_perm [hAssoc : Std.Associative op] [hComm : Std.Commutative op] {l l' : List α}
    (h : l.Perm l') : combineAll op l = combineAll op l' := by
  induction h with
  | nil => rfl
  | cons x h _ => exact congrArg some (foldl_perm h x)
  | swap x y l =>
      show some (l.foldl op (op y x)) = some (l.foldl op (op x y))
      rw [hComm.comm]
  | trans _ _ ih ih' => exact ih.trans ih'

end Combine

namespace ParentTree

variable {ι α : Type} (T : ParentTree ι)

/-- A node and all nodes under it, each before its children. -/
def below (i : ι) : List ι := T.fold (fun i lists => i :: lists.flatten) i

theorem below_eq (i : ι) : T.below i = i :: ((T.children i).map T.below).flatten := by
  rw [below, fold_eq]
  rfl

section Fintype

variable [Fintype ι] [DecidableEq ι]

/-- Every node is below the root once. -/
theorem count_below_root (x : ι) : (T.below T.root).count x = 1 := by
  have hSum := T.root_eq_sum (f := fun i => if i = x then 1 else 0)
    (X := fun i => (T.below i).count x) fun i => by
      rw [below_eq, List.count_cons, List.count_flatten, List.map_map, Nat.add_comm]
      simp [Function.comp_def]
  rw [hSum]
  simp

theorem below_root_perm {l : List ι} (hNodup : l.Nodup) (hAll : ∀ i, i ∈ l) :
    (T.below T.root).Perm l := by
  rw [List.perm_iff_count]
  intro x
  rw [T.count_below_root, List.count_eq_one_of_mem hNodup (hAll x)]

end Fintype

variable {op : α → α → α} {own value : ι → α}

/-- Where each node takes in the results of its children, it has combined the
contributions of all nodes below it. -/
theorem combineAll_below [hAssoc : Std.Associative op]
    (h : ∀ i, value i = ((T.children i).map value).foldl op (own i)) (i : ι) :
    combineAll op ((T.below i).map own) = some (value i) := by
  refine T.up_induction (P := fun i => combineAll op ((T.below i).map own) = some (value i)) ?_ i
  intro i ih
  -- a child's result is taken in as its contributions one by one
  have hChildren (l : List ι) (hl : ∀ c ∈ l, c ∈ T.children i) (a : α) :
      (l.map value).foldl op a = (((l.map T.below).flatten).map own).foldl op a := by
    induction l generalizing a with
    | nil => rfl
    | cons c rest ihRest =>
        have hBelow := ih c (hl c List.mem_cons_self)
        rw [below_eq, List.map_cons, combineAll, Option.some.injEq] at hBelow
        rw [List.map_cons, List.map_cons, List.flatten_cons, List.map_append, List.foldl_append,
          List.foldl_cons, ihRest fun d hd => hl d (List.mem_cons_of_mem c hd)]
        congr 1
        rw [← hBelow, below_eq, List.map_cons, List.foldl_cons, List.foldl_assoc]
  rw [below_eq, List.map_cons, combineAll, h i, hChildren _ (fun _ hc => hc)]

end ParentTree
