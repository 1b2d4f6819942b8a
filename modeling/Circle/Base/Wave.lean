import Circle.Base.ParentTree
import Mathlib.Tactic

/-!
# Waves on a rooted tree

In each round a node waits for one message from every child, contributes by
sending one to its parent, learns the result from its parent, and tells its
children.  The root learns the result as soon as it contributes.  Messages of
children and of the parent arrive on the same tag, and the node counts the
ones of its children without looking at who sent them.

What a node knows is a set of counters (`Counters`) tied to the numbers of
messages it has sent and received (`Inv`).  Together with the fact that no
channel delivers more than was sent, this gives the synchronisation of the
whole tree.
-/

namespace Wave

variable {ι : Type}

/-- The rounds a node has contributed to, has the result of and has closed,
the replies of children counted in the open round, and the children that are
still to be told the result. -/
structure Counters (ι : Type) where
  up : Nat
  done : Nat
  closed : Nat
  replies : Nat
  todo : List ι

/-- Before the first round. -/
def Counters.zero : Counters ι := { up := 0, done := 0, closed := 0, replies := 0, todo := [] }

/-- Count one more message for a peer. -/
def bump [DecidableEq ι] (count : ι → Nat) (peer : ι) : ι → Nat :=
  fun d => count d + if d = peer then 1 else 0

/-- What a node knows about its part of the waves. -/
structure Inv (T : ParentTree ι) (i : ι) (w : Counters ι) (sent rcvd : ι → Nat) : Prop where
  closed_le_done : w.closed ≤ w.done
  done_le_up : w.done ≤ w.up
  up_le : w.up ≤ w.closed + 1
  todo_nil : w.done = w.closed → w.todo = []
  todo_nodup : w.todo.Nodup
  todo_child : ∀ c ∈ w.todo, c ∈ T.children i
  replies_le : w.replies ≤ (T.children i).length
  full : w.up = w.closed + 1 → w.replies = (T.children i).length
  sent_parent : ∀ p, T.parent i = some p → sent p = w.up
  sent_child : ∀ c ∈ T.children i, c ∉ w.todo → sent c = w.done
  sent_todo : ∀ c ∈ w.todo, sent c + 1 = w.done
  sent_other : ∀ d, T.parent i ≠ some d → d ∉ T.children i → sent d = 0
  rcvd_parent : ∀ p, T.parent i = some p → rcvd p = w.done
  closed_le_rcvd : ∀ c ∈ T.children i, w.closed ≤ rcvd c
  rcvd_le : ∀ c ∈ T.children i, rcvd c ≤ w.closed + 1
  rcvd_sum : ((T.children i).map rcvd).sum = w.closed * (T.children i).length + w.replies

/-! ## Sums over a list -/

theorem map_bump_of_not_mem [DecidableEq ι] {l : List ι} (count : ι → Nat) {c : ι}
    (hMem : c ∉ l) : l.map (bump count c) = l.map count := by
  apply List.map_congr_left
  intro d hd
  have hNe : d ≠ c := fun hEq => hMem (hEq ▸ hd)
  simp [bump, hNe]

theorem sum_map_bump [DecidableEq ι] {l : List ι} (hNodup : l.Nodup) (count : ι → Nat) {c : ι}
    (hMem : c ∈ l) : (l.map (bump count c)).sum = (l.map count).sum + 1 := by
  induction l with
  | nil => simp at hMem
  | cons first rest ih =>
      obtain ⟨hFirst, hRest⟩ := List.nodup_cons.mp hNodup
      rw [List.map_cons, List.map_cons, List.sum_cons, List.sum_cons]
      rcases List.mem_cons.mp hMem with rfl | hLater
      · rw [map_bump_of_not_mem count hFirst, bump, if_pos rfl]
        omega
      · have hNe : first ≠ c := fun hEq => hFirst (hEq ▸ hLater)
        rw [ih hRest hLater, bump, if_neg hNe]
        omega

/-- Numbers bounded by `b` that sum to `b` each are all `b`. -/
theorem eq_of_sum_eq {l : List ι} {f : ι → Nat} {b : Nat} (hBound : ∀ c ∈ l, f c ≤ b)
    (hSum : (l.map f).sum = b * l.length) : ∀ c ∈ l, f c = b := by
  induction l with
  | nil => simp
  | cons first rest ih =>
      have hFirst := hBound first (by simp)
      have hRest : (rest.map f).sum ≤ b * rest.length := by
        rw [Nat.mul_comm]
        simpa using List.sum_le_card_nsmul (rest.map f) b (by
          intro x hx
          obtain ⟨c, hc, rfl⟩ := List.mem_map.mp hx
          exact hBound c (by simp [hc]))
      simp only [List.map_cons, List.sum_cons, List.length_cons, Nat.mul_succ] at hSum
      intro c hMem
      rcases List.mem_cons.mp hMem with rfl | hLater
      · omega
      · exact ih (fun d hd => hBound d (by simp [hd])) (by omega) c hLater

/-! ## One node -/

variable {T : ParentTree ι} {i : ι} {w : Counters ι} {sent rcvd : ι → Nat}

theorem inv_zero (T : ParentTree ι) (i : ι) : Inv T i .zero (fun _ => 0) (fun _ => 0) := by
  constructor <;> simp [Counters.zero]

/-- While replies are missing, the one of some child is. -/
theorem Inv.exists_missing (h : Inv T i w sent rcvd) (hOpen : w.replies < (T.children i).length) :
    ∃ c ∈ T.children i, rcvd c = w.closed := by
  by_contra hNot
  push Not at hNot
  have hEach : (T.children i).map rcvd = (T.children i).map fun _ => w.closed + 1 := by
    refine List.map_congr_left fun c hMem => ?_
    have hLow := h.closed_le_rcvd c hMem
    have hHigh := h.rcvd_le c hMem
    have hNe := hNot c hMem
    omega
  have hSum := h.rcvd_sum
  rw [hEach, List.map_const', List.sum_replicate, smul_eq_mul, Nat.mul_succ, Nat.mul_comm] at hSum
  omega

/-- A node contributes only after every child did. -/
theorem Inv.up_le_rcvd (h : Inv T i w sent rcvd) {c : ι} (hChild : c ∈ T.children i) :
    w.up ≤ rcvd c := by
  by_cases hUp : w.up = w.closed + 1
  · have hSum := h.rcvd_sum
    rw [h.full hUp, ← Nat.succ_mul] at hSum
    rw [hUp, eq_of_sum_eq h.rcvd_le hSum c hChild]
  · have hLe := h.up_le
    have hRcvd := h.closed_le_rcvd c hChild
    omega

theorem Inv.sent_le (h : Inv T i w sent rcvd) {c : ι} (hChild : c ∈ T.children i) :
    sent c ≤ w.done := by
  by_cases hTodo : c ∈ w.todo
  · have hSent := h.sent_todo c hTodo
    omega
  · exact Nat.le_of_eq (h.sent_child c hChild hTodo)

/-- A message of a child that is not counted yet in the open round. -/
theorem Inv.collect [DecidableEq ι] (h : Inv T i w sent rcvd) {c : ι} (hChild : c ∈ T.children i)
    (hFirst : rcvd c = w.closed) (hOpen : w.replies < (T.children i).length) :
    Inv T i { w with replies := w.replies + 1 } sent (bump rcvd c) where
  closed_le_done := h.closed_le_done
  done_le_up := h.done_le_up
  up_le := h.up_le
  todo_nil := h.todo_nil
  todo_nodup := h.todo_nodup
  todo_child := h.todo_child
  replies_le := hOpen
  full := by
    intro hUp
    have hFull := h.full hUp
    omega
  sent_parent := h.sent_parent
  sent_child := h.sent_child
  sent_todo := h.sent_todo
  sent_other := h.sent_other
  rcvd_parent := by
    intro p hParent
    have hNe : p ≠ c := fun hEq => T.not_mem_children_of_parent hParent (hEq ▸ hChild)
    simp [bump, hNe, h.rcvd_parent p hParent]
  closed_le_rcvd := fun d hd => Nat.le_trans (h.closed_le_rcvd d hd) (Nat.le_add_right _ _)
  rcvd_le := by
    intro d hd
    have hLe := h.rcvd_le d hd
    by_cases hEq : d = c
    · subst hEq
      simp only [bump, if_true]
      omega
    · simpa [bump, hEq] using hLe
  rcvd_sum := by
    rw [sum_map_bump (T.nodup_children i) rcvd hChild, h.rcvd_sum, Nat.add_assoc]

/-- With the messages of all children, a node contributes. -/
theorem Inv.contribute (h : Inv T i w sent rcvd) (hOpen : w.up = w.closed)
    (hFull : w.replies = (T.children i).length) {sent' : ι → Nat}
    (hParent : ∀ p, T.parent i = some p → sent' p = sent p + 1)
    (hOther : ∀ d, T.parent i ≠ some d → sent' d = sent d) :
    Inv T i { w with up := w.up + 1 } sent' rcvd where
  closed_le_done := h.closed_le_done
  done_le_up := Nat.le_succ_of_le h.done_le_up
  up_le := Nat.succ_le_succ (Nat.le_of_eq hOpen)
  todo_nil := h.todo_nil
  todo_nodup := h.todo_nodup
  todo_child := h.todo_child
  replies_le := h.replies_le
  full := fun _ => hFull
  sent_parent := fun p hp => by rw [hParent p hp, h.sent_parent p hp]
  sent_child := by
    intro c hc hTodo
    rw [hOther c fun hp => T.not_mem_children_of_parent hp hc]
    exact h.sent_child c hc hTodo
  sent_todo := by
    intro c hc
    rw [hOther c fun hp => T.not_mem_children_of_parent hp (h.todo_child c hc)]
    exact h.sent_todo c hc
  sent_other := fun d hp hc => by rw [hOther d hp]; exact h.sent_other d hp hc
  rcvd_parent := h.rcvd_parent
  closed_le_rcvd := h.closed_le_rcvd
  rcvd_le := h.rcvd_le
  rcvd_sum := h.rcvd_sum

/-- A node that contributed learns the result, from its parent or as the
root. -/
theorem Inv.learn (h : Inv T i w sent rcvd) (hUp : w.up = w.closed + 1) (hDone : w.done = w.closed)
    {rcvd' : ι → Nat} (hParent : ∀ p, T.parent i = some p → rcvd' p = rcvd p + 1)
    (hOther : ∀ d, T.parent i ≠ some d → rcvd' d = rcvd d) :
    Inv T i { w with done := w.done + 1, todo := T.children i } sent rcvd' := by
  have hChild : ∀ c ∈ T.children i, rcvd' c = rcvd c := fun c hc =>
    hOther c fun hp => T.not_mem_children_of_parent hp hc
  have hTodo := h.todo_nil hDone
  exact {
    closed_le_done := Nat.le_succ_of_le h.closed_le_done
    done_le_up := by simp only; omega
    up_le := h.up_le
    todo_nil := fun hEq => by simp only at hEq; omega
    todo_nodup := T.nodup_children i
    todo_child := fun _ hc => hc
    replies_le := h.replies_le
    full := h.full
    sent_parent := h.sent_parent
    sent_child := fun c hc hNot => absurd hc hNot
    sent_todo := fun c hc => by
      rw [h.sent_child c hc (by simp [hTodo])]
    sent_other := h.sent_other
    rcvd_parent := fun p hp => by rw [hParent p hp, h.rcvd_parent p hp]
    closed_le_rcvd := fun c hc => by rw [hChild c hc]; exact h.closed_le_rcvd c hc
    rcvd_le := fun c hc => by rw [hChild c hc]; exact h.rcvd_le c hc
    rcvd_sum := by
      rw [List.map_congr_left hChild]
      exact h.rcvd_sum }

/-- A node tells the next child. -/
theorem Inv.tell [DecidableEq ι] (h : Inv T i w sent rcvd) {c : ι} {rest : List ι}
    (hTodo : w.todo = c :: rest) : Inv T i { w with todo := rest } (bump sent c) rcvd := by
  have hNodup := h.todo_nodup
  rw [hTodo] at hNodup
  obtain ⟨hNotMem, hRest⟩ := List.nodup_cons.mp hNodup
  have hMem : c ∈ w.todo := by simp [hTodo]
  have hChild := h.todo_child c hMem
  have hSelf : sent c + 1 = w.done := h.sent_todo c hMem
  exact {
    closed_le_done := h.closed_le_done
    done_le_up := h.done_le_up
    up_le := h.up_le
    todo_nil := fun hEq => by simp [h.todo_nil hEq] at hTodo
    todo_nodup := hRest
    todo_child := fun d hd => h.todo_child d (by simp [hTodo, hd])
    replies_le := h.replies_le
    full := h.full
    sent_parent := fun p hp => by
      have hNe : p ≠ c := fun hEq => T.not_mem_children_of_parent hp (hEq ▸ hChild)
      simp [bump, hNe, h.sent_parent p hp]
    sent_child := fun d hd hNot => by
      by_cases hEq : d = c
      · subst hEq
        simpa [bump] using hSelf
      · have hOld : d ∉ w.todo := by simp [hTodo, hEq, hNot]
        simp [bump, hEq, h.sent_child d hd hOld]
    sent_todo := fun d hd => by
      have hNe : d ≠ c := fun hEq => hNotMem (hEq ▸ hd)
      simpa [bump, hNe] using h.sent_todo d (by simp [hTodo, hd])
    sent_other := fun d hp hc => by
      have hNe : d ≠ c := fun hEq => hc (hEq ▸ hChild)
      simpa [bump, hNe] using h.sent_other d hp hc
    rcvd_parent := h.rcvd_parent
    closed_le_rcvd := h.closed_le_rcvd
    rcvd_le := h.rcvd_le
    rcvd_sum := h.rcvd_sum }

/-- A node that has told all children closes the round. -/
theorem Inv.close (h : Inv T i w sent rcvd) (hDone : w.done = w.closed + 1) (hTodo : w.todo = []) :
    Inv T i { w with closed := w.closed + 1, replies := 0 } sent rcvd := by
  have hUp : w.up = w.closed + 1 := Nat.le_antisymm h.up_le (hDone ▸ h.done_le_up)
  have hSum := h.rcvd_sum
  rw [h.full hUp, ← Nat.succ_mul] at hSum
  have hEach := eq_of_sum_eq h.rcvd_le hSum
  exact {
    closed_le_done := Nat.le_of_eq hDone.symm
    done_le_up := h.done_le_up
    up_le := by simp only; omega
    todo_nil := fun _ => hTodo
    todo_nodup := h.todo_nodup
    todo_child := h.todo_child
    replies_le := Nat.zero_le _
    full := fun hEq => by simp only at hEq; omega
    sent_parent := h.sent_parent
    sent_child := h.sent_child
    sent_todo := h.sent_todo
    sent_other := h.sent_other
    rcvd_parent := h.rcvd_parent
    closed_le_rcvd := fun c hc => Nat.le_of_eq (hEach c hc).symm
    rcvd_le := fun c hc => Nat.le_succ_of_le (Nat.le_of_eq (hEach c hc))
    rcvd_sum := by simpa using hSum }

/-! ## Neighbours -/

/-- A node sends each neighbour one message a round. -/
theorem Inv.closed_le_sent (h : Inv T i w sent rcvd) {d : ι}
    (hPeer : T.parent i = some d ∨ d ∈ T.children i) : w.closed ≤ sent d ∧ sent d ≤ w.up := by
  have hClosed := h.closed_le_done
  have hDone := h.done_le_up
  rcases hPeer with hParent | hChild
  · rw [h.sent_parent d hParent]
    exact ⟨by omega, Nat.le_refl _⟩
  · by_cases hTodo : d ∈ w.todo
    · have hSent := h.sent_todo d hTodo
      have hOpen : w.done ≠ w.closed := by
        intro hEq
        rw [h.todo_nil hEq] at hTodo
        cases hTodo
      omega
    · rw [h.sent_child d hChild hTodo]
      omega

/-- After a node has closed a round, it has the message of each neighbour. -/
theorem Inv.closed_le_rcvd_peer (h : Inv T i w sent rcvd) {d : ι}
    (hPeer : T.parent i = some d ∨ d ∈ T.children i) : w.closed ≤ rcvd d := by
  rcases hPeer with hParent | hChild
  · rw [h.rcvd_parent d hParent]
    exact h.closed_le_done
  · exact h.closed_le_rcvd d hChild

/-- What a node sends in rounds that its peer has closed has arrived, also when
the node is looked at later than its peer. -/
theorem sent_le_rcvd {s d : ι} {w w' : Counters ι} {sent rcvd sent' rcvd' : ι → Nat}
    (hSource : Inv T s w' sent' rcvd') (hTarget : Inv T d w sent rcvd) (hUp : w'.up ≤ w.closed) :
    sent' d ≤ rcvd s := by
  by_cases hPeer : T.parent s = some d ∨ d ∈ T.children s
  · have hBack : T.parent d = some s ∨ s ∈ T.children d :=
      hPeer.symm.imp T.parent_of_mem T.mem_children
    have hSent := (hSource.closed_le_sent hPeer).2
    have hRcvd := hTarget.closed_le_rcvd_peer hBack
    omega
  · rw [not_or] at hPeer
    rw [hSource.sent_other d hPeer.1 hPeer.2]
    exact Nat.zero_le _

/-! ## The flags of a node -/

/-- A node that knows from two flags whether it has contributed to the open
round, and whether it has its result. -/
structure Tracks (T : ParentTree ι) (i : ι) (w : Counters ι) (up down : Bool)
    (sent rcvd : ι → Nat) : Prop where
  inv : Inv T i w sent rcvd
  up_eq : w.up = w.closed + if up then 1 else 0
  done_eq : w.done = w.closed + if down then 1 else 0

section Tracks

variable {up down : Bool}

theorem tracks_zero (T : ParentTree ι) (i : ι) :
    Tracks T i .zero false false (fun _ => 0) (fun _ => 0) where
  inv := inv_zero T i
  up_eq := rfl
  done_eq := rfl

theorem Tracks.contribute (h : Tracks T i w false down sent rcvd)
    (hFull : w.replies = (T.children i).length) {sent' : ι → Nat}
    (hParent : ∀ p, T.parent i = some p → sent' p = sent p + 1)
    (hOther : ∀ d, T.parent i ≠ some d → sent' d = sent d) :
    Tracks T i { w with up := w.up + 1 } true down sent' rcvd where
  inv := h.inv.contribute h.up_eq hFull hParent hOther
  up_eq := congrArg (· + 1) h.up_eq
  done_eq := h.done_eq

theorem Tracks.learn (h : Tracks T i w true false sent rcvd) {rcvd' : ι → Nat}
    (hParent : ∀ p, T.parent i = some p → rcvd' p = rcvd p + 1)
    (hOther : ∀ d, T.parent i ≠ some d → rcvd' d = rcvd d) :
    Tracks T i { w with done := w.done + 1, todo := T.children i } true true sent rcvd' where
  inv := h.inv.learn h.up_eq h.done_eq hParent hOther
  up_eq := h.up_eq
  done_eq := congrArg (· + 1) h.done_eq

/-- A node that has the result has contributed. -/
theorem Tracks.up_of_down (h : Tracks T i w up true sent rcvd) : up = true := by
  have hUp := h.up_eq
  have hDone := h.done_eq
  have hLe := h.inv.done_le_up
  cases up with
  | true => rfl
  | false =>
      simp only [Bool.false_eq_true, if_false, if_true] at hUp hDone
      omega

theorem Tracks.close (h : Tracks T i w up true sent rcvd) (hTodo : w.todo = []) :
    Tracks T i { w with closed := w.closed + 1, replies := 0 } false false sent rcvd where
  inv := h.inv.close h.done_eq hTodo
  up_eq := by
    have hUp := h.up_eq
    rw [h.up_of_down] at hUp
    exact hUp
  done_eq := h.done_eq

end Tracks

/-! ## The whole tree -/

section Global

variable {w : ι → Counters ι} {sent rcvd : ι → ι → Nat}
  (hInv : ∀ i, Inv T i (w i) (sent i) (rcvd i)) (hFifo : ∀ s d, rcvd d s ≤ sent s d)

include hInv hFifo

theorem done_le_root (i : ι) : (w i).done ≤ (w T.root).done := by
  refine T.down_induction (P := fun i => (w i).done ≤ (w T.root).done) (Nat.le_refl _) ?_ i
  intro p c hParent ih
  have hRcvd := (hInv c).rcvd_parent p hParent
  have hSent := (hInv p).sent_le (T.mem_children hParent)
  have hChannel := hFifo p c
  omega

/-- A result is known anywhere only after every node contributed. -/
theorem up_of_done {k : Nat} {r : ι} (hDone : k ≤ (w r).done) (i : ι) : k ≤ (w i).up := by
  have hRoot : k ≤ (w T.root).up :=
    Nat.le_trans hDone (Nat.le_trans (done_le_root hInv hFifo r) (hInv T.root).done_le_up)
  refine T.down_induction (P := fun i => k ≤ (w i).up) hRoot ?_ i
  intro p c hParent ih
  have hRcvd := (hInv p).up_le_rcvd (T.mem_children hParent)
  have hSent := (hInv c).sent_parent p hParent
  have hChannel := hFifo c p
  omega

/-- While a node waits for its children, only a child that it has not counted
in this round can have a message for it. -/
theorem child_of_pending {i s : ι} (hOpen : (w i).replies < (T.children i).length)
    (hPending : rcvd i s < sent s i) : s ∈ T.children i ∧ rcvd i s = (w i).closed := by
  have hUp : (w i).up = (w i).closed := by
    have hLe := (hInv i).up_le
    have hClosed := (hInv i).closed_le_done
    have hDone := (hInv i).done_le_up
    by_cases hEq : (w i).up = (w i).closed + 1
    · have hFull := (hInv i).full hEq
      omega
    · omega
  by_cases hChild : s ∈ T.children i
  · refine ⟨hChild, ?_⟩
    have hParent := T.parent_of_mem hChild
    have hSent := (hInv s).sent_parent i hParent
    have hRcvd := (hInv s).rcvd_parent i hParent
    have hTold := (hInv i).sent_le hChild
    have hChannel := hFifo i s
    have hSource := (hInv s).up_le
    have hSourceDone := (hInv s).closed_le_done
    have hDone := (hInv i).done_le_up
    have hLow := (hInv i).closed_le_rcvd s hChild
    omega
  · exfalso
    have hParent : T.parent i = some s := by
      by_contra hNot
      have hZero := (hInv s).sent_other i (fun hp => hChild (T.mem_children hp))
        (fun hc => hNot (T.parent_of_mem hc))
      omega
    have hRcvd := (hInv i).rcvd_parent s hParent
    have hSent := (hInv s).sent_le (T.mem_children hParent)
    have hAll := up_of_done hInv hFifo (Nat.le_refl (w s).done) i
    have hClosed := (hInv i).closed_le_done
    omega

/-- When all nodes have closed the same rounds, every message has arrived. -/
theorem rcvd_eq_sent {k : Nat} (hClosed : ∀ i, (w i).closed = k ∧ (w i).up = k) (s d : ι) :
    rcvd d s = sent s d := by
  refine Nat.le_antisymm (hFifo s d) (sent_le_rcvd (hInv s) (hInv d) ?_)
  rw [(hClosed s).2, (hClosed d).1]

end Global

/-- When all nodes have closed the same rounds, each round has cost one message to
and one from every node but the root. -/
theorem sum_sent [Fintype ι] [DecidableEq ι] {w : ι → Counters ι} {sent rcvd : ι → ι → Nat}
    (hInv : ∀ i, Inv T i (w i) (sent i) (rcvd i)) {k : Nat}
    (hClosed : ∀ i, (w i).closed = k ∧ (w i).up = k) :
    ∑ i, ∑ d, sent i d = 2 * (Fintype.card ι - 1) * k := by
  have hDone (i : ι) : (w i).done = k := by
    have hLow := (hInv i).closed_le_done
    have hHigh := (hInv i).done_le_up
    obtain ⟨hEnd, hUp⟩ := hClosed i
    omega
  have hTold (i c : ι) : c ∉ (w i).todo := by
    rw [(hInv i).todo_nil (by rw [hDone i, (hClosed i).1])]
    exact List.not_mem_nil
  rw [T.sum_edges sent k, smul_eq_mul]
  · intro i p hParent
    rw [(hInv i).sent_parent p hParent, (hClosed i).2]
  · intro i c hChild
    rw [(hInv i).sent_child c hChild (hTold i c), hDone i]
  · intro i d hNotUp hNotDown
    exact (hInv i).sent_other d hNotUp hNotDown

end Wave
