import Circle.Protocol.Control

/-!
# All ranks agree on abort

`abortReduce` collects the flags of the ranks up the tree and passes the result
down.  What a rank knows is what it has heard from its children and told its
parent, and the result once it has it (`AbortInv`); the result at the root is
the disjunction over the tree, and all other results are copies of it.
-/

namespace Circle

open FifoNet (Log inFlight)

variable {n : Nat} {cfg : Config n} {rank : Fin n} {input : Input n}

/-- Where a rank is with respect to `abortReduce`. -/
inductive AbortStage (n : Nat) where
  | before
  | inside (a : AbortReduce n)
  | after (flag : Bool)
  deriving DecidableEq, Repr

namespace AbortStage

/-- The children that the rank has not heard. -/
def waiting (children : List (Fin n)) : AbortStage n → List (Fin n)
  | .before => children
  | .inside ⟨_, .children rest⟩ => rest
  | _ => []

/-- The rank has passed the flags of its subtree on. -/
def contributed : AbortStage n → Bool
  | .inside ⟨_, .parent⟩ | .inside ⟨_, .down _⟩ | .after _ => true
  | _ => false

/-- The result, once the rank has it. -/
def result : AbortStage n → Option Bool
  | .inside ⟨flag, .down _⟩ | .after flag => some flag
  | _ => none

/-- The children that the rank has not told the result. -/
def todo (children : List (Fin n)) : AbortStage n → List (Fin n)
  | .inside ⟨_, .down rest⟩ => rest
  | .after _ => []
  | _ => children

/-- The number of turns that are left. -/
def turnsLeft (children : Nat) : AbortStage n → Nat
  | .before => 2 * children + 4
  | .inside ⟨_, .children rest⟩ => rest.length + children + 3
  | .inside ⟨_, .parent⟩ => children + 2
  | .inside ⟨_, .down rest⟩ => rest.length + 1
  | .after _ => 0

end AbortStage

/-- The flag of a subtree, from the flag that its root has entered with and
what its children have said. -/
def subtreeFlag (cfg : Config n) (rank : Fin n) (entry : Bool) (rcvd : Fin n → List Msg) : Bool :=
  entry || (cfg.tree.children rank).any fun child => decide (.flag true ∈ rcvd child)

theorem subtreeFlag_congr {entry : Bool} {rcvd rcvd' : Fin n → List Msg}
    (hSame : ∀ c ∈ cfg.tree.children rank, rcvd' c = rcvd c) :
    subtreeFlag cfg rank entry rcvd' = subtreeFlag cfg rank entry rcvd := by
  rw [Bool.eq_iff_iff]
  simp only [subtreeFlag, Bool.or_eq_true, List.any_eq_true, decide_eq_true_eq]
  refine or_congr_right (exists_congr fun c => and_congr_right fun hc => ?_)
  rw [hSame c hc]

/-- What a rank knows about the abort reduction. -/
structure AbortInv (cfg : Config n) (rank : Fin n) (entry : Bool) (stage : AbortStage n)
    (sent rcvd : Fin n → List Msg) : Prop where
  rcvd_child : ∀ c ∈ cfg.tree.children rank,
    if c ∈ stage.waiting (cfg.tree.children rank) then rcvd c = [] else ∃ flag, rcvd c = [.flag flag]
  waiting_sub : ∀ c ∈ stage.waiting (cfg.tree.children rank), c ∈ cfg.tree.children rank
  waiting_nodup : (stage.waiting (cfg.tree.children rank)).Nodup
  flag_eq : ∀ a, stage = .inside a → stage.result = none → a.flag = subtreeFlag cfg rank entry rcvd
  root_eq : cfg.tree.parent rank = none → ∀ flag, stage.result = some flag →
    flag = subtreeFlag cfg rank entry rcvd
  sent_parent : ∀ p, cfg.tree.parent rank = some p →
    sent p = if stage.contributed then [.flag (subtreeFlag cfg rank entry rcvd)] else []
  rcvd_parent : ∀ p, cfg.tree.parent rank = some p →
    rcvd p = match stage.result with
      | none => []
      | some flag => [.flag flag]
  parent_some : ∀ a, stage = .inside a → a.phase = .parent → ∃ p, cfg.tree.parent rank = some p
  sent_child : ∀ c ∈ cfg.tree.children rank,
    sent c = match stage.result with
      | none => []
      | some flag => if c ∈ stage.todo (cfg.tree.children rank) then [] else [.flag flag]
  todo_sub : ∀ c ∈ stage.todo (cfg.tree.children rank), c ∈ cfg.tree.children rank
  todo_nodup : (stage.todo (cfg.tree.children rank)).Nodup

theorem abortInv_before (entry : Bool) :
    AbortInv cfg rank entry .before (fun _ => []) (fun _ => []) where
  rcvd_child := fun c hc => by simp [AbortStage.waiting, hc]
  waiting_sub := fun c hc => hc
  waiting_nodup := cfg.tree.nodup_children rank
  flag_eq := by simp
  root_eq := by simp [AbortStage.result]
  sent_parent := by simp [AbortStage.contributed]
  rcvd_parent := by simp [AbortStage.result]
  parent_some := by simp
  sent_child := by simp [AbortStage.result]
  todo_sub := fun c hc => hc
  todo_nodup := cfg.tree.nodup_children rank

section Turns

variable {entry : Bool} {a : AbortReduce n} {sent rcvd : Fin n → List Msg}

/-- Before it enters, a rank has not heard from anybody. -/
theorem AbortInv.subtreeFlag_before (h : AbortInv cfg rank entry .before sent rcvd) (flag : Bool) :
    subtreeFlag cfg rank flag rcvd = flag := by
  have hNone : ((cfg.tree.children rank).any fun child => decide (.flag true ∈ rcvd child)) = false := by
    rw [List.any_eq_false]
    intro c hc
    have hChild := h.rcvd_child c hc
    rw [if_pos (show c ∈ AbortStage.before.waiting _ from hc)] at hChild
    simp [hChild]
  rw [subtreeFlag, hNone, Bool.or_false]

/-- A rank enters with a flag of its own. -/
theorem AbortInv.enter (h : AbortInv cfg rank entry .before sent rcvd) (flag : Bool) :
    AbortInv cfg rank flag (.inside (.enter (cfg.links rank) flag)) sent rcvd where
  rcvd_child := h.rcvd_child
  waiting_sub := h.waiting_sub
  waiting_nodup := h.waiting_nodup
  flag_eq := by
    rintro a ⟨rfl⟩ _
    exact (h.subtreeFlag_before flag).symm
  root_eq := by simp [AbortStage.result, AbortReduce.enter]
  sent_parent := h.sent_parent
  rcvd_parent := h.rcvd_parent
  parent_some := by
    rintro a ⟨rfl⟩ hPhase
    cases hPhase
  sent_child := h.sent_child
  todo_sub := h.todo_sub
  todo_nodup := h.todo_nodup

/-- A child is heard. -/
theorem subtreeFlag_heard {child : Fin n} (hChild : child ∈ cfg.tree.children rank)
    (hNone : rcvd child = []) (flag : Bool) :
    subtreeFlag cfg rank entry (fun d => if d = child then rcvd d ++ [.flag flag] else rcvd d) =
      (subtreeFlag cfg rank entry rcvd || flag) := by
  rw [Bool.eq_iff_iff]
  simp only [subtreeFlag, Bool.or_eq_true, List.any_eq_true, decide_eq_true_eq, or_assoc]
  refine or_congr_right ⟨?_, ?_⟩
  · rintro ⟨c, hc, hMem⟩
    by_cases hEq : c = child
    · subst hEq
      rw [if_pos rfl, hNone, List.nil_append, List.mem_singleton, Msg.flag.injEq] at hMem
      exact Or.inr hMem.symm
    · rw [if_neg hEq] at hMem
      exact Or.inl ⟨c, hc, hMem⟩
  · rintro (⟨c, hc, hMem⟩ | rfl)
    · have hEq : c ≠ child := by
        rintro rfl
        simp [hNone] at hMem
      exact ⟨c, hc, by rwa [if_neg hEq]⟩
    · exact ⟨child, hChild, by rw [if_pos rfl]; simp⟩

theorem AbortInv.collect {child : Fin n} {rest : List (Fin n)}
    (h : AbortInv cfg rank entry (.inside a) sent rcvd) (hPhase : a.phase = .children (child :: rest))
    (flag : Bool) :
    AbortInv cfg rank entry (.inside { flag := a.flag || flag, phase := .children rest }) sent
      (fun d => if d = child then rcvd d ++ [.flag flag] else rcvd d) := by
  obtain ⟨own, phase⟩ := a
  simp only at hPhase
  subst hPhase
  have hChild := h.waiting_sub child (by simp [AbortStage.waiting])
  have hNone : rcvd child = [] := by
    have hRcvd := h.rcvd_child child hChild
    rwa [if_pos (by simp [AbortStage.waiting])] at hRcvd
  obtain ⟨hNotRest, hNodup⟩ := List.nodup_cons.mp h.waiting_nodup
  exact {
    rcvd_child := by
      intro c hc
      by_cases hEq : c = child
      · subst hEq
        simp only [AbortStage.waiting, if_neg hNotRest, if_true, hNone, List.nil_append]
        exact ⟨flag, rfl⟩
      · have hOld := h.rcvd_child c hc
        simpa [AbortStage.waiting, hEq] using hOld
    waiting_sub := fun c hc => h.waiting_sub c (by simp [AbortStage.waiting] at hc ⊢; simp [hc])
    waiting_nodup := hNodup
    flag_eq := by
      rintro _ ⟨rfl⟩ _
      rw [subtreeFlag_heard hChild hNone, ← h.flag_eq _ rfl rfl]
    root_eq := by simp [AbortStage.result]
    sent_parent := h.sent_parent
    rcvd_parent := by
      intro p hp
      have hNe : p ≠ child := fun hEq => cfg.tree.not_mem_children_of_parent hp (hEq ▸ hChild)
      rw [if_neg hNe]
      exact h.rcvd_parent p hp
    parent_some := by
      rintro _ ⟨rfl⟩ hPhase
      cases hPhase
    sent_child := h.sent_child
    todo_sub := h.todo_sub
    todo_nodup := h.todo_nodup }

/-- All children are heard, and the parent is told. -/
theorem AbortInv.contribute {parentRank : Fin n}
    (h : AbortInv cfg rank entry (.inside a) sent rcvd) (hPhase : a.phase = .children [])
    (hParent : cfg.tree.parent rank = some parentRank) :
    AbortInv cfg rank entry (.inside { a with phase := .parent })
      (fun d => if d = parentRank then sent d ++ [.flag a.flag] else sent d) rcvd := by
  obtain ⟨own, phase⟩ := a
  simp only at hPhase
  subst hPhase
  have hFlag := h.flag_eq _ rfl rfl
  simp only at hFlag
  exact { h with
    flag_eq := by
      rintro _ ⟨rfl⟩ _
      exact hFlag
    root_eq := by simp [hParent]
    sent_parent := by
      intro p hp
      rw [hParent, Option.some.injEq] at hp
      subst hp
      have hNone : sent parentRank = [] := h.sent_parent parentRank hParent
      rw [if_pos rfl, hNone, hFlag]
      rfl
    parent_some := fun _ _ _ => ⟨parentRank, hParent⟩
    sent_child := by
      intro c hc
      have hNe : c ≠ parentRank := by
        rintro rfl
        exact cfg.tree.not_mem_children_of_parent hParent hc
      rw [if_neg hNe]
      exact h.sent_child c hc }

/-- The root has the result as soon as all children are heard. -/
theorem AbortInv.settle (h : AbortInv cfg rank entry (.inside a) sent rcvd)
    (hPhase : a.phase = .children []) (hRoot : cfg.tree.parent rank = none) :
    AbortInv cfg rank entry (.inside { a with phase := .down (cfg.tree.children rank) })
      sent rcvd := by
  obtain ⟨own, phase⟩ := a
  simp only at hPhase
  subst hPhase
  exact { h with
    flag_eq := by simp [AbortStage.result]
    root_eq := by
      rintro - _ ⟨rfl⟩
      exact h.flag_eq _ rfl rfl
    sent_parent := by simp [hRoot]
    rcvd_parent := by simp [hRoot]
    parent_some := by
      rintro _ ⟨rfl⟩ hPhase
      cases hPhase
    sent_child := by
      intro c hc
      have hNone := h.sent_child c hc
      simpa [AbortStage.result, AbortStage.todo, hc] using hNone
    todo_sub := fun c hc => hc
    todo_nodup := cfg.tree.nodup_children rank }

/-- The parent tells the result. -/
theorem AbortInv.learn {parentRank : Fin n} (h : AbortInv cfg rank entry (.inside a) sent rcvd)
    (hPhase : a.phase = .parent) (hParent : cfg.tree.parent rank = some parentRank) (flag : Bool) :
    AbortInv cfg rank entry (.inside { flag := flag, phase := .down (cfg.tree.children rank) }) sent
      (fun d => if d = parentRank then rcvd d ++ [.flag flag] else rcvd d) := by
  obtain ⟨own, phase⟩ := a
  simp only at hPhase
  subst hPhase
  have hOld : ∀ c ∈ cfg.tree.children rank,
      (if c = parentRank then rcvd c ++ [.flag flag] else rcvd c) = rcvd c := by
    intro c hc
    rw [if_neg]
    rintro rfl
    exact cfg.tree.not_mem_children_of_parent hParent hc
  exact {
    rcvd_child := by
      intro c hc
      simp only [hOld c hc]
      exact h.rcvd_child c hc
    waiting_sub := h.waiting_sub
    waiting_nodup := h.waiting_nodup
    flag_eq := by simp [AbortStage.result]
    root_eq := by simp [hParent]
    sent_parent := by
      intro p hp
      rw [subtreeFlag_congr hOld]
      exact h.sent_parent p hp
    rcvd_parent := by
      intro p hp
      rw [hParent, Option.some.injEq] at hp
      subst hp
      have hNone : rcvd parentRank = [] := h.rcvd_parent parentRank hParent
      rw [if_pos rfl, hNone]
      rfl
    parent_some := by
      rintro _ ⟨rfl⟩ hPhase
      cases hPhase
    sent_child := by
      intro c hc
      have hNone := h.sent_child c hc
      simpa [AbortStage.result, AbortStage.todo, hc] using hNone
    todo_sub := fun c hc => hc
    todo_nodup := cfg.tree.nodup_children rank }

/-- A child is told the result. -/
theorem AbortInv.tell {child : Fin n} {rest : List (Fin n)}
    (h : AbortInv cfg rank entry (.inside a) sent rcvd) (hPhase : a.phase = .down (child :: rest)) :
    AbortInv cfg rank entry (.inside { a with phase := .down rest })
      (fun d => if d = child then sent d ++ [.flag a.flag] else sent d) rcvd := by
  obtain ⟨own, phase⟩ := a
  simp only at hPhase
  subst hPhase
  have hChild := h.todo_sub child (by simp [AbortStage.todo])
  obtain ⟨hNotRest, hNodup⟩ := List.nodup_cons.mp h.todo_nodup
  exact { h with
    flag_eq := by simp [AbortStage.result]
    root_eq := h.root_eq
    sent_parent := by
      intro p hp
      have hNe : p ≠ child := fun hEq => cfg.tree.not_mem_children_of_parent hp (hEq ▸ hChild)
      rw [if_neg hNe]
      exact h.sent_parent p hp
    rcvd_parent := h.rcvd_parent
    parent_some := by
      rintro _ ⟨rfl⟩ hPhase
      cases hPhase
    sent_child := by
      intro c hc
      have hOld := h.sent_child c hc
      by_cases hEq : c = child
      · subst hEq
        simp only [AbortStage.result, AbortStage.todo, List.mem_cons, true_or, if_true] at hOld
        simp [AbortStage.result, AbortStage.todo, hOld, hNotRest]
      · rw [if_neg hEq, hOld]
        by_cases hRest : c ∈ rest <;> simp [AbortStage.result, AbortStage.todo, hEq, hRest]
    todo_sub := fun c hc => h.todo_sub c (by simp [AbortStage.todo] at hc ⊢; simp [hc])
    todo_nodup := hNodup }

/-- All children are told, and the rank returns. -/
theorem AbortInv.finish (h : AbortInv cfg rank entry (.inside a) sent rcvd)
    (hPhase : a.phase = .down []) : AbortInv cfg rank entry (.after a.flag) sent rcvd := by
  obtain ⟨own, phase⟩ := a
  simp only at hPhase
  subst hPhase
  exact { h with
    flag_eq := by simp
    parent_some := by simp }

/-- The stage after a turn. -/
def Turn.abortStage (turn : Turn n (AbortReduce n) Bool) : AbortStage n :=
  match turn.result with
  | none => .inside turn.record
  | some flag => .after flag

theorem AbortInv.turn {sent rcvd : Log (Fin n) Tag Msg}
    (h : AbortInv cfg rank entry (.inside a) (sent · .abortReduce) (rcvd · .abortReduce))
    {turn : Turn n (AbortReduce n) Bool} (hTurn : AbortReduceTurn (cfg.links rank) a input turn) :
    AbortInv cfg rank entry turn.abortStage (sent.send turn.out · .abortReduce)
      (rcvd.receive input · .abortReduce) := by
  cases hTurn
  case collect child rest flag hPhase =>
    have hNew := h.collect hPhase flag
    simpa [Turn.abortStage, Turn.stays, Log.add_same_tag] using hNew
  case contribute parentRank hPhase hParent =>
    have hNew := h.contribute hPhase hParent
    simpa [Turn.abortStage, Turn.sends, Log.add_same_tag] using hNew
  case decide hPhase hRoot => exact h.settle hPhase hRoot
  case learn parentRank flag hPhase hParent =>
    have hNew := h.learn hPhase hParent flag
    simpa [Turn.abortStage, Turn.stays, Log.add_same_tag] using hNew
  case tell child rest hPhase =>
    have hNew := h.tell hPhase
    simpa [Turn.abortStage, Turn.sends, Log.add_same_tag] using hNew
  case finish hPhase => exact h.finish hPhase

/-- Every turn leaves fewer turns. -/
theorem turnsLeft_turn {links : Links n} {turn : Turn n (AbortReduce n) Bool}
    (hTurn : AbortReduceTurn links a input turn) :
    turn.abortStage.turnsLeft links.childrenRanks.length <
      (AbortStage.inside a).turnsLeft links.childrenRanks.length := by
  obtain ⟨own, phase⟩ := a
  cases hTurn
  case collect hPhase | contribute hPhase _ | decide hPhase _ | learn hPhase _ | tell hPhase
      | finish hPhase =>
    simp only at hPhase
    subst hPhase
    simp only [Turn.abortStage, Turn.stays, Turn.sends, Turn.returns, AbortStage.turnsLeft,
      List.length_cons, List.length_nil]
    omega

end Turns

/-! ## The whole tree -/

section Global

variable {entry : Fin n → Bool} {stage : Fin n → AbortStage n} {sent rcvd : Fin n → Fin n → List Msg}
  (hInv : ∀ r, AbortInv cfg r (entry r) (stage r) (sent r) (rcvd r))
  (hFifo : ∀ s d, rcvd d s <+: sent s d)

include hInv hFifo

/-- A parent that has passed the flags on has heard this child. -/
theorem heard_of_contributed {p c : Fin n} (hParent : cfg.tree.parent c = some p)
    (hUp : (stage p).contributed = true) :
    (stage c).contributed = true ∧
      rcvd p c = [.flag (subtreeFlag cfg c (entry c) (rcvd c))] := by
  have hRcvd := (hInv p).rcvd_child c (cfg.tree.mem_children hParent)
  have hNotWaiting : c ∉ (stage p).waiting (cfg.tree.children p) := by
    cases hStage : stage p with
    | before => simp [hStage, AbortStage.contributed] at hUp
    | inside a =>
        obtain ⟨flag, _ | _ | _⟩ := a
        · simp [hStage, AbortStage.contributed] at hUp
        · simp [AbortStage.waiting]
        · simp [AbortStage.waiting]
    | after flag => simp [AbortStage.waiting]
  rw [if_neg hNotWaiting] at hRcvd
  obtain ⟨flag, hFlag⟩ := hRcvd
  have hPrefix := hFifo c p
  rw [hFlag, (hInv c).sent_parent p hParent] at hPrefix
  cases hChild : (stage c).contributed with
  | false =>
      rw [hChild] at hPrefix
      simp at hPrefix
  | true =>
      rw [hChild, if_pos rfl] at hPrefix
      refine ⟨rfl, ?_⟩
      rw [hFlag]
      exact hPrefix.eq_of_length rfl

/-- A child that has the result has it from its parent. -/
theorem result_parent {p c : Fin n} (hParent : cfg.tree.parent c = some p) {flag : Bool}
    (hResult : (stage c).result = some flag) : (stage p).result = some flag := by
  have hRcvd := (hInv c).rcvd_parent p hParent
  have hPrefix := hFifo p c
  rw [hResult] at hRcvd
  rw [hRcvd, (hInv p).sent_child c (cfg.tree.mem_children hParent)] at hPrefix
  cases hUp : (stage p).result with
  | none =>
      rw [hUp] at hPrefix
      simp at hPrefix
  | some told =>
      rw [hUp] at hPrefix
      simp only at hPrefix
      split at hPrefix
      · simp at hPrefix
      · have hEq := hPrefix.eq_of_length rfl
        simp only [List.cons.injEq, Msg.flag.injEq, and_true] at hEq
        rw [hEq]

theorem result_root {r : Fin n} {flag : Bool} (hResult : (stage r).result = some flag) :
    (stage cfg.tree.root).result = some flag := by
  revert flag
  refine cfg.tree.down_induction
    (P := fun r => ∀ {flag}, (stage r).result = some flag →
      (stage cfg.tree.root).result = some flag) ?_ ?_ r
  · exact fun h => h
  · intro p c hParent ih flag hChild
    exact ih (result_parent hInv hFifo hParent hChild)

omit hInv hFifo in
theorem AbortStage.contributed_of_result {stage : AbortStage n} {flag : Bool}
    (h : stage.result = some flag) : stage.contributed = true := by
  cases stage with
  | before => cases h
  | after => rfl
  | inside a =>
      obtain ⟨_, _ | _ | _⟩ := a
      · cases h
      · cases h
      · rfl

/-- Once a rank has the result, every rank has passed the flags of its subtree
on. -/
theorem contributed_of_result {r : Fin n} {flag : Bool} (hResult : (stage r).result = some flag)
    (other : Fin n) : (stage other).contributed = true := by
  have hRoot := AbortStage.contributed_of_result (result_root hInv hFifo hResult)
  refine cfg.tree.down_induction (P := fun i => (stage i).contributed = true) hRoot ?_ other
  intro p c hParent ih
  exact (heard_of_contributed hInv hFifo hParent ih).1

/-- The flag of a subtree is set by a rank. -/
theorem exists_entry_of_subtreeFlag (hAll : ∀ r, (stage r).contributed = true) (r : Fin n)
    (hFlag : subtreeFlag cfg r (entry r) (rcvd r) = true) : ∃ other, entry other = true := by
  revert hFlag
  refine cfg.tree.up_induction
    (P := fun r => subtreeFlag cfg r (entry r) (rcvd r) = true → ∃ other, entry other = true) ?_ r
  intro i ih hFlag
  simp only [subtreeFlag, Bool.or_eq_true, List.any_eq_true, decide_eq_true_eq] at hFlag
  rcases hFlag with hOwn | ⟨c, hc, hMem⟩
  · exact ⟨i, hOwn⟩
  · have hHeard := (heard_of_contributed hInv hFifo (cfg.tree.parent_of_mem hc) (hAll i)).2
    rw [hHeard, List.mem_singleton, Msg.flag.injEq] at hMem
    exact ih c hc hMem.symm

/-- A rank that sets the flag of its subtree sets the one of the tree. -/
theorem subtreeFlag_root (hAll : ∀ r, (stage r).contributed = true) (r : Fin n)
    (hFlag : subtreeFlag cfg r (entry r) (rcvd r) = true) :
    subtreeFlag cfg cfg.tree.root (entry cfg.tree.root) (rcvd cfg.tree.root) = true := by
  revert hFlag
  refine cfg.tree.down_induction
    (P := fun r => subtreeFlag cfg r (entry r) (rcvd r) = true →
      subtreeFlag cfg cfg.tree.root (entry cfg.tree.root) (rcvd cfg.tree.root) = true) ?_ ?_ r
  · exact id
  · intro p c hParent ih hFlag
    apply ih
    have hHeard := (heard_of_contributed hInv hFifo hParent (hAll p)).2
    simp only [subtreeFlag, Bool.or_eq_true, List.any_eq_true, decide_eq_true_eq]
    refine Or.inr ⟨c, cfg.tree.mem_children hParent, ?_⟩
    rw [hHeard, hFlag]
    exact List.mem_singleton_self _

/-- The result is the disjunction of all flags. -/
theorem result_eq {r : Fin n} {flag : Bool} (hResult : (stage r).result = some flag) :
    flag = decide (∃ other, entry other = true) := by
  have hAll := contributed_of_result hInv hFifo hResult
  have hRoot := (hInv cfg.tree.root).root_eq cfg.tree.parent_root flag
    (result_root hInv hFifo hResult)
  rw [hRoot, Bool.eq_iff_iff, decide_eq_true_eq]
  constructor
  · exact exists_entry_of_subtreeFlag hInv hFifo hAll cfg.tree.root
  · rintro ⟨other, hEntry⟩
    exact subtreeFlag_root hInv hFifo hAll other (by simp [subtreeFlag, hEntry])

end Global

/-! ## The abort reduction by itself -/

/-- A rank that calls `abortReduce` once, with the flag that it enters with. -/
structure AbortRank (n : Nat) where
  entry : Bool
  abortFlag : Bool
  abortState : Bool
  stage : AbortStage n

/-- The input of `abortReduce` that goes with an input of the loop. -/
def abortInput : FifoNet.Input (Fin n) Tag Msg Unit → Input n
  | .tick _ => .tick .go
  | .recv src tag msg => .recv src tag msg
  | .synced dst tag => .synced dst tag

/-- A rank that calls `abortReduce`. -/
def abortLoop (links : Fin n → Links n) : FifoNet.Program (Fin n) Tag Msg (AbortRank n) Unit :=
  fun rank input s =>
    match s.stage with
    | .before =>
        match input with
        | .tick _ => some ({ s with stage := .inside (.enter (links rank) s.abortFlag) }, none)
        | _ => none
    | .inside a =>
        (a.abortReduce (links rank) (abortInput input)).map fun turn =>
          match turn.result with
          | none => ({ s with stage := .inside turn.record }, turn.out)
          | some flag =>
              ({ s with abortFlag := flag, abortState := flag, stage := .after flag }, turn.out)
    | .after _ => none

abbrev AbortWorld (n : Nat) := FifoNet.System (Fin n) Tag Msg (AbortRank n)

/-- No rank has called `abortReduce`. -/
def AbortInitial (states : Fin n → AbortRank n) : Prop :=
  ∀ rank, (states rank).stage = .before ∧ (states rank).abortFlag = (states rank).entry

/-- The systems that the calls lead to, in any order of the ranks' sends and
receives. -/
abbrev AbortRun (links : Fin n → Links n) : AbortWorld n → Prop :=
  FifoNet.Reachable (abortLoop links) AbortInitial FifoNet.always

/-- The turns of a rank that calls `abortReduce`. -/
inductive AbortStep (links : Links n) (s : AbortRank n) :
    FifoNet.Input (Fin n) Tag Msg Unit → AbortRank n → Option (Packet n) → Prop where
  | enter (hStage : s.stage = .before) :
      AbortStep links s (.tick ()) { s with stage := .inside (.enter links s.abortFlag) } none
  | goOn {input : FifoNet.Input (Fin n) Tag Msg Unit} {a : AbortReduce n}
      {turn : Turn n (AbortReduce n) Bool} (hStage : s.stage = .inside a)
      (hTurn : AbortReduceTurn links a (abortInput input) turn) (hResult : turn.result = none) :
      AbortStep links s input { s with stage := turn.abortStage } turn.out
  | finish {input : FifoNet.Input (Fin n) Tag Msg Unit} {a : AbortReduce n}
      {turn : Turn n (AbortReduce n) Bool} {flag : Bool} (hStage : s.stage = .inside a)
      (hTurn : AbortReduceTurn links a (abortInput input) turn)
      (hResult : turn.result = some flag) :
      AbortStep links s input
        { s with abortFlag := flag, abortState := flag, stage := turn.abortStage } turn.out

theorem abortStep_of_eq {links : Fin n → Links n} {s s' : AbortRank n} {out : Option (Packet n)}
    {input : FifoNet.Input (Fin n) Tag Msg Unit}
    (h : abortLoop links rank input s = some (s', out)) : AbortStep (links rank) s input s' out := by
  unfold abortLoop at h
  split at h
  next hStage =>
    split at h
    next =>
      cases h
      exact .enter hStage
    next => cases h
  next a hStage =>
    obtain ⟨turn, hTurn, hEq⟩ := Option.map_eq_some_iff.mp h
    have hTurn := abortReduceTurn_of_eq hTurn
    rcases hResult : turn.result with _ | flag
    · rw [hResult] at hEq
      cases hEq
      have hStep := AbortStep.goOn hStage hTurn hResult
      simpa only [Turn.abortStage, hResult] using hStep
    · rw [hResult] at hEq
      cases hEq
      have hStep := AbortStep.finish hStage hTurn hResult
      simpa only [Turn.abortStage, hResult] using hStep
  next => cases h

/-- What a rank that calls `abortReduce` knows. -/
structure AbortRankInv (cfg : Config n) (rank : Fin n) (s : AbortRank n)
    (sent rcvd : Log (Fin n) Tag Msg) : Prop where
  inv : AbortInv cfg rank s.entry s.stage (sent · .abortReduce) (rcvd · .abortReduce)
  entry_eq : (∀ flag, s.stage ≠ .after flag) → s.abortFlag = s.entry
  flags : ∀ flag, s.stage = .after flag → s.abortFlag = flag ∧ s.abortState = flag

@[simp] theorem receive_abortInput (log : Log (Fin n) Tag Msg)
    (input : FifoNet.Input (Fin n) Tag Msg Unit) :
    log.receive (abortInput input) = log.receive input := by
  cases input <;> rfl

theorem AbortRankInv.step {s s' : AbortRank n} {sent rcvd : Log (Fin n) Tag Msg}
    (h : AbortRankInv cfg rank s sent rcvd) {input : FifoNet.Input (Fin n) Tag Msg Unit}
    {out : Option (Packet n)} (hStep : AbortStep (cfg.links rank) s input s' out) :
    AbortRankInv cfg rank s' (sent.send out) (rcvd.receive input) := by
  have hInv := h.inv
  cases hStep
  case enter hStage =>
    rw [hStage] at hInv
    have hEntry := h.entry_eq (by simp [hStage])
    refine ⟨?_, fun _ => hEntry, by simp⟩
    have hNew := hInv.enter s.abortFlag
    rw [hEntry] at hNew ⊢
    exact hNew
  case goOn a turn hStage hResult hTurn =>
    rw [hStage] at hInv
    have hNew := hInv.turn hTurn
    rw [receive_abortInput] at hNew
    exact ⟨hNew, fun _ => h.entry_eq (by simp [hStage]), by simp [Turn.abortStage, hResult]⟩
  case finish a turn flag hStage hResult hTurn =>
    rw [hStage] at hInv
    have hNew := hInv.turn hTurn
    rw [receive_abortInput] at hNew
    refine ⟨hNew, fun hNot => (hNot flag (by simp [Turn.abortStage, hResult])).elim, ?_⟩
    intro other hOther
    simp only [Turn.abortStage, hResult, AbortStage.after.injEq] at hOther
    exact ⟨hOther, hOther⟩

theorem AbortRun.inv {g : AbortWorld n} (h : AbortRun cfg.links g) (r : Fin n) :
    AbortRankInv cfg r (g r).state (g r).sent (g r).rcvd := by
  refine FifoNet.Reachable.forall_node
    (L := fun r node => AbortRankInv cfg r node.state node.sent node.rcvd) ?_ ?_ h r
  · intro states hInit r
    obtain ⟨hStage, hEntry⟩ := hInit r
    refine ⟨?_, fun _ => hEntry, by simp [hStage]⟩
    rw [hStage]
    exact abortInv_before _
  · intro g r input state out _ hAll hFires
    exact (hAll r).step (abortStep_of_eq hFires.acts)

/-! ### Progress -/

/-- Rank `r` is at the receive of a message from `src`. -/
def Awaits (links : Fin n → Links n) (g : AbortWorld n) (r src : Fin n) : Prop :=
  ∃ a, (g r).state.stage = .inside a ∧
    ((∃ rest, a.phase = .children (src :: rest)) ∨
      a.phase = .parent ∧ (links r).parentRank = some src)

/-- Rank `r` can take a turn.  If it sends in it, the receiver is at the
receive and nothing is under way before, so that the send completes even where
it waits for the receiver. -/
def CanMove (links : Fin n → Links n) (g : AbortWorld n) (r : Fin n) : Prop :=
  ∃ input state out, FifoNet.Fires (abortLoop links) g r input state out ∧
    ∀ dst tag msg, out = some ⟨dst, tag, msg⟩ → tag = .abortReduce ∧ Awaits links g dst r ∧
      inFlight g r dst .abortReduce = []

section Progress

variable {links : Fin n → Links n} {g : AbortWorld n}

/-- A turn of `abortReduce` is one of the rank. -/
theorem exists_acts {r : Fin n} {a : AbortReduce n} (hStage : (g r).state.stage = .inside a)
    (input : FifoNet.Input (Fin n) Tag Msg Unit) {out : Option (Packet n)}
    (hOut : (a.abortReduce (links r) (abortInput input)).map Turn.out = some out) :
    ∃ state, abortLoop links r input (g r).state = some (state, out) := by
  obtain ⟨turn, hTurn, rfl⟩ := Option.map_eq_some_iff.mp hOut
  simp only [abortLoop, hStage, hTurn, Option.map_some]
  cases turn.result with
  | none => exact ⟨_, rfl⟩
  | some flag => exact ⟨_, rfl⟩

theorem canMove_of_before {r : Fin n} (hStage : (g r).state.stage = .before) :
    CanMove links g r := by
  refine ⟨.tick (), { (g r).state with stage := .inside (.enter (links r) (g r).state.abortFlag) },
    none, ⟨trivial, ?_⟩, by simp⟩
  simp only [abortLoop, hStage]

theorem canMove_of_tick {r : Fin n} {a : AbortReduce n} (hStage : (g r).state.stage = .inside a)
    (hOut : (a.abortReduce (links r) (.tick .go)).map Turn.out = some none) : CanMove links g r := by
  obtain ⟨state, hActs⟩ := exists_acts hStage (.tick ()) hOut
  exact ⟨.tick (), state, none, ⟨trivial, hActs⟩, by simp⟩

theorem canMove_of_recv {r src : Fin n} {msg : Msg} {a : AbortReduce n}
    (hStage : (g r).state.stage = .inside a) (hFlight : inFlight g src r .abortReduce = [msg])
    (hOut : (a.abortReduce (links r) (.recv src .abortReduce msg)).map Turn.out = some none) :
    CanMove links g r := by
  obtain ⟨state, hActs⟩ := exists_acts hStage (.recv src .abortReduce msg) hOut
  exact ⟨.recv src .abortReduce msg, state, none, ⟨⟨[], hFlight⟩, hActs⟩, by simp⟩

theorem canMove_of_send {r dst : Fin n} (msg : Msg) {a : AbortReduce n}
    (hStage : (g r).state.stage = .inside a)
    (hOut : (a.abortReduce (links r) (.tick .go)).map Turn.out = some (some ⟨dst, .abortReduce, msg⟩))
    (hAwaits : Awaits links g dst r) (hFlight : inFlight g r dst .abortReduce = []) :
    CanMove links g r := by
  obtain ⟨state, hActs⟩ := exists_acts hStage (.tick ()) hOut
  refine ⟨.tick (), state, _, ⟨trivial, hActs⟩, ?_⟩
  rintro d tag m hSame
  cases hSame
  exact ⟨rfl, hAwaits, hFlight⟩

theorem inFlight_of_rcvd_nil {src dst : Fin n} (hRcvd : (g dst).rcvd src .abortReduce = []) :
    inFlight g src dst .abortReduce = (g src).sent dst .abortReduce := by
  rw [inFlight, hRcvd, List.length_nil, List.drop_zero]

variable (hInv : ∀ r, AbortRankInv cfg r (g r).state (g r).sent (g r).rcvd)

include hInv

/-- While a rank waits for a child, somebody can take a turn. -/
theorem exists_canMove_of_waiting (r : Fin n) {a : AbortReduce n} {child : Fin n}
    {rest : List (Fin n)} (hStage : (g r).state.stage = .inside a)
    (hPhase : a.phase = .children (child :: rest)) : ∃ other, CanMove cfg.links g other := by
  revert a child rest
  refine cfg.tree.up_induction (P := fun r => ∀ {a : AbortReduce n} {child : Fin n}
    {rest : List (Fin n)}, (g r).state.stage = .inside a → a.phase = .children (child :: rest) →
      ∃ other, CanMove cfg.links g other) ?_ r
  intro i ih a child rest hStage hPhase
  obtain ⟨own, phase⟩ := a
  simp only at hPhase
  subst hPhase
  have hParentInv := (hInv i).inv
  rw [hStage] at hParentInv
  have hChild := hParentInv.waiting_sub child (by simp [AbortStage.waiting])
  have hParent := cfg.tree.parent_of_mem hChild
  have hRcvd : (g i).rcvd child .abortReduce = [] := by
    have hOld := hParentInv.rcvd_child child hChild
    rwa [if_pos (by simp [AbortStage.waiting])] at hOld
  have hFlight := inFlight_of_rcvd_nil hRcvd
  rw [(hInv child).inv.sent_parent i hParent] at hFlight
  cases hUp : (g child).state.stage.contributed with
  | true =>
      -- the flag of the child is under way
      rw [hUp] at hFlight
      exact ⟨i, canMove_of_recv hStage hFlight (by simp [AbortReduce.abortReduce, Turn.stays])⟩
  | false =>
      rw [hUp] at hFlight
      cases hBelow : (g child).state.stage with
      | before => exact ⟨child, canMove_of_before hBelow⟩
      | after flag => simp [hBelow, AbortStage.contributed] at hUp
      | inside b =>
          obtain ⟨below, later | _ | _⟩ := b
          · cases later with
            | cons first later => exact ih child hChild hBelow rfl
            | nil =>
                exact ⟨child, canMove_of_send (.flag below) hBelow
                  (by simp [AbortReduce.abortReduce, hParent, Turn.sends])
                  ⟨_, hStage, Or.inl ⟨rest, rfl⟩⟩ hFlight⟩
          · simp [hBelow, AbortStage.contributed] at hUp
          · simp [hBelow, AbortStage.contributed] at hUp

/-- While a rank has children to tell, somebody can take a turn. -/
theorem canMove_of_down (hFifo : FifoNet.Fifo g) {r : Fin n} {a : AbortReduce n}
    {rest : List (Fin n)} (hStage : (g r).state.stage = .inside a) (hPhase : a.phase = .down rest) :
    CanMove cfg.links g r := by
  obtain ⟨own, phase⟩ := a
  simp only at hPhase
  subst hPhase
  cases rest with
  | nil =>
      exact canMove_of_tick hStage (by simp [AbortReduce.abortReduce, Turn.returns])
  | cons child rest =>
      have hOwn := (hInv r).inv
      rw [hStage] at hOwn
      have hChild := hOwn.todo_sub child (by simp [AbortStage.todo])
      have hParent := cfg.tree.parent_of_mem hChild
      have hSent : (g r).sent child .abortReduce = [] := by
        have hOld := hOwn.sent_child child hChild
        simpa [AbortStage.result, AbortStage.todo] using hOld
      have hRcvd : (g child).rcvd r .abortReduce = [] := by
        have hPrefix := hFifo r child .abortReduce
        rw [hSent] at hPrefix
        exact List.prefix_nil.mp hPrefix
      have hResult : (g r).state.stage.result = some own := by rw [hStage]; rfl
      have hUp := contributed_of_result (fun i => (hInv i).inv) (fun s d => hFifo s d .abortReduce)
        hResult child
      -- the child has passed its flag on, and has no result: it waits for this rank
      have hNone : (g child).state.stage.result = none := by
        have hOld := (hInv child).inv.rcvd_parent r hParent
        rw [hRcvd] at hOld
        cases hState : (g child).state.stage.result with
        | none => rfl
        | some flag => simp [hState] at hOld
      have hAwaits : Awaits cfg.links g child r := by
        cases hBelow : (g child).state.stage with
        | before => simp [hBelow, AbortStage.contributed] at hUp
        | after flag => simp [hBelow, AbortStage.result] at hNone
        | inside b =>
            obtain ⟨below, _ | _ | _⟩ := b
            · simp [hBelow, AbortStage.contributed] at hUp
            · exact ⟨_, hBelow, Or.inr ⟨rfl, hParent⟩⟩
            · simp [hBelow, AbortStage.result] at hNone
      exact canMove_of_send (.flag own) hStage
        (by simp [AbortReduce.abortReduce, Turn.sends]) hAwaits
        (by rw [inFlight_of_rcvd_nil hRcvd, hSent])

/-- Once the root has returned, a rank has returned or somebody can take a
turn. -/
theorem returned_or_canMove (hFifo : FifoNet.Fifo g) {flag : Bool}
    (hRoot : (g cfg.tree.root).state.stage = .after flag) (r : Fin n) :
    (∃ flag, (g r).state.stage = .after flag) ∨ ∃ other, CanMove cfg.links g other := by
  have hAll := contributed_of_result (fun i => (hInv i).inv) (fun s d => hFifo s d .abortReduce)
    (show (g cfg.tree.root).state.stage.result = some flag by rw [hRoot]; rfl)
  refine cfg.tree.down_induction (P := fun r => (∃ flag, (g r).state.stage = .after flag) ∨
    ∃ other, CanMove cfg.links g other) (Or.inl ⟨flag, hRoot⟩) ?_ r
  intro p c hParent ih
  rcases ih with ⟨told, hTold⟩ | hMove
  · cases hBelow : (g c).state.stage with
    | before =>
        have hUp := hAll c
        simp [hBelow, AbortStage.contributed] at hUp
    | after result => exact Or.inl ⟨result, rfl⟩
    | inside b =>
        right
        obtain ⟨below, _ | _ | rest⟩ := b
        · have hUp := hAll c
          simp [hBelow, AbortStage.contributed] at hUp
        · -- the result is under way from the parent
          have hSent := (hInv p).inv.sent_child c (cfg.tree.mem_children hParent)
          have hRcvd := (hInv c).inv.rcvd_parent p hParent
          rw [hTold] at hSent
          rw [hBelow] at hRcvd
          have hFlight : inFlight g p c .abortReduce = [.flag told] := by
            rw [inFlight_of_rcvd_nil hRcvd, hSent]
            rfl
          exact ⟨c, canMove_of_recv hBelow hFlight
            (by simp [AbortReduce.abortReduce, hParent, Turn.stays])⟩
        · exact ⟨c, canMove_of_down hInv hFifo hBelow rfl⟩
  · exact Or.inr hMove

/-- As long as a rank has not returned, somebody can take a turn. -/
theorem exists_canMove (hFifo : FifoNet.Fifo g) {r : Fin n}
    (hStays : ∀ flag, (g r).state.stage ≠ .after flag) : ∃ other, CanMove cfg.links g other := by
  cases hStage : (g cfg.tree.root).state.stage with
  | before => exact ⟨_, canMove_of_before hStage⟩
  | inside a =>
      have hRoot := cfg.tree.parent_root
      obtain ⟨own, rest | _ | rest⟩ := a
      · cases rest with
        | cons child rest => exact exists_canMove_of_waiting hInv _ hStage rfl
        | nil =>
            exact ⟨_, canMove_of_tick hStage
              (by simp [AbortReduce.abortReduce, hRoot, Turn.stays])⟩
      · obtain ⟨p, hParent⟩ := (hInv cfg.tree.root).inv.parent_some _ hStage rfl
        rw [hRoot] at hParent
        cases hParent
      · exact ⟨_, canMove_of_down hInv hFifo hStage rfl⟩
  | after flag =>
      rcases returned_or_canMove hInv hFifo hStage r with ⟨told, hTold⟩ | hMove
      · exact (hStays told hTold).elim
      · exact hMove

end Progress

/-- The turns that are left to all ranks. -/
def turnsLeft (links : Fin n → Links n) (g : AbortWorld n) : Nat :=
  ∑ r, (g r).state.stage.turnsLeft (links r).childrenRanks.length

/-- Every turn of a rank leaves it fewer turns. -/
theorem turnsLeft_abortStep {links : Links n} {s s' : AbortRank n} {out : Option (Packet n)}
    {input : FifoNet.Input (Fin n) Tag Msg Unit} (hStep : AbortStep links s input s' out) :
    s'.stage.turnsLeft links.childrenRanks.length <
      s.stage.turnsLeft links.childrenRanks.length := by
  cases hStep
  case enter hStage =>
    rw [hStage]
    simp only [AbortStage.turnsLeft, AbortReduce.enter]
    omega
  case goOn a turn hStage hResult hTurn =>
    rw [hStage]
    exact turnsLeft_turn hTurn
  case finish a turn flag hStage hResult hTurn =>
    rw [hStage]
    exact turnsLeft_turn hTurn

theorem turnsLeft_step {links : Fin n → Links n} {g g' : AbortWorld n} {r : Fin n} {event : FifoNet.Event (Fin n) Tag Unit}
    (hStep : FifoNet.step (abortLoop links) g r event = some g') :
    turnsLeft links g' < turnsLeft links g := by
  obtain ⟨input, state, out, -, hFires, rfl⟩ := FifoNet.step_cases hStep
  refine Finset.sum_lt_sum ?_ ⟨r, Finset.mem_univ r, ?_⟩
  · intro other _
    by_cases hOther : other = r
    · subst hOther
      rw [FifoNet.set_self]
      exact (turnsLeft_abortStep (abortStep_of_eq hFires.acts)).le
    · rw [FifoNet.set_of_ne _ _ hOther]
  · rw [FifoNet.set_self]
    exact turnsLeft_abortStep (abortStep_of_eq hFires.acts)

theorem turnsLeft_run {links : Fin n → Links n} {g g' : AbortWorld n} {events : List (Fin n × FifoNet.Event (Fin n) Tag Unit)}
    (hRun : FifoNet.run (abortLoop links) g events = some g') :
    events.length + turnsLeft links g' ≤ turnsLeft links g := by
  induction events generalizing g with
  | nil =>
      cases hRun
      simp
  | cons first rest ih =>
      obtain ⟨next, hStep, hRest⟩ := Option.bind_eq_some_iff.mp hRun
      have hLess := turnsLeft_step hStep
      have hLater := ih hRest
      rw [List.length_cons]
      omega

/-- What it means that the calls of `abortReduce` agree. -/
structure AbortAgrees (links : Fin n → Links n) (g : AbortWorld n) : Prop where
  /-- Until all ranks have returned, one can take a turn. -/
  progress : (∃ r, ∀ flag, (g r).state.stage ≠ .after flag) → ∃ r, CanMove links g r
  /-- The ranks can take only so many turns. -/
  bounded : ∀ events g', FifoNet.run (abortLoop links) g events = some g' →
    events.length + turnsLeft links g' ≤ turnsLeft links g
  /-- A rank that has returned has the disjunction of all flags. -/
  agreed : ∀ r flag, (g r).state.stage = .after flag →
    (g r).state.abortFlag = decide (∃ other, (g other).state.entry = true) ∧
      (g r).state.abortState = decide (∃ other, (g other).state.entry = true)
  /-- It has returned after all ranks entered. -/
  entered : ∀ r flag, (g r).state.stage = .after flag → ∀ other, (g other).state.stage ≠ .before

theorem AbortRun.agrees {g : AbortWorld n} (h : AbortRun cfg.links g) : AbortAgrees cfg.links g where
  progress := fun ⟨_, hStays⟩ => exists_canMove h.inv h.fifo hStays
  bounded := fun _ _ hRun => turnsLeft_run hRun
  agreed := by
    intro r flag hStage
    obtain ⟨hFlag, hState⟩ := (h.inv r).flags flag hStage
    have hResult := result_eq (r := r) (fun i => (h.inv i).inv) (fun s d => h.fifo s d .abortReduce)
      (show (g r).state.stage.result = some flag by rw [hStage]; rfl)
    rw [hFlag, hState, hResult]
    exact ⟨rfl, rfl⟩
  entered := by
    intro r flag hStage other hBefore
    have hUp := contributed_of_result (r := r) (fun i => (h.inv i).inv)
      (fun s d => h.fifo s d .abortReduce)
      (show (g r).state.stage.result = some flag by rw [hStage]; rfl) other
    simp [hBefore, AbortStage.contributed] at hUp

/-! ## In the main loop -/

/-- Where a rank in `mainLoop` is with respect to `abortReduce`. -/
def State.abortStage (s : State n) : AbortStage n :=
  match s.pc with
  | .abortReduce => .inside s.abortReduce
  | .checkpoint => .after true
  | .done => .after false
  | _ => .before

theorem abortStage_of_early {s : State n} (h : s.pc.early = true) : s.abortStage = .before := by
  unfold State.abortStage
  unfold Pc.early at h
  split <;> simp_all

section MainLoop

variable {s s' : State n} {out : Option (Packet n)}

/-- A turn goes on before `abortReduce`, enters it, or is one of it. -/
inductive AbortMainStep (cfg : Config n) (rank : Fin n) (s : State n) :
    Input n → AbortStage n → Option (Packet n) → Prop where
  | other {input : Input n} {out : Option (Packet n)} (hSilent : Silent .abortReduce input out) :
      AbortMainStep cfg rank s input s.abortStage out
  | enter {input : Input n} {out : Option (Packet n)} (hSilent : Silent .abortReduce input out)
      (hStage : s.abortStage = .before) (flag : Bool) :
      AbortMainStep cfg rank s input (.inside (.enter (cfg.links rank) flag)) out
  | turn {input : Input n} {turn : Turn n (AbortReduce n) Bool}
      (hStage : s.abortStage = .inside s.abortReduce)
      (hTurn : AbortReduceTurn (cfg.links rank) s.abortReduce input turn) :
      AbortMainStep cfg rank s input turn.abortStage turn.out

theorem abortMainStep_of_early (hSilent : Silent .abortReduce input out)
    (hBefore : s.pc.early = true) (hAfter : s'.pc.early = true) :
    AbortMainStep cfg rank s input s'.abortStage out := by
  rw [abortStage_of_early hAfter, ← abortStage_of_early hBefore]
  exact .other hSilent

theorem abortMainStep_of_mainStep (hStep : MainStep cfg rank input s s' out) :
    AbortMainStep cfg rank s input s'.abortStage out := by
  have hNext := hStep.next
  have hOther {pc : Pc} (hPc : s.pc = pc) (hSilent : Tag.abortReduce ∉ pc.tags)
      (hEarly : ∀ next ∈ pc.next, next.early = true) :
      AbortMainStep cfg rank s input s'.abortStage out := by
    subst hPc
    have hAfter := hEarly _ hNext
    exact abortMainStep_of_early (hStep.silent hSilent) (early_of_step hStep hAfter) hAfter
  cases hStep
  case raise hInput =>
    subst hInput
    exact .other (silent_tick _ _)
  case leaveBarrier turn hPc hTurn hResult =>
    have hSilent : Silent .abortReduce input turn.out :=
      (barrierTurn_of_eq hTurn).silent (by decide)
    have hBefore : s.pc.early = true := by simp [hPc, Pc.early]
    cases hReduce : cfg.reduceEnabled with
    | true => exact abortMainStep_of_early hSilent hBefore (by simp [Pc.early])
    | false =>
        simpa [State.abortStage] using
          (AbortMainStep.enter hSilent (abortStage_of_early hBefore) s.abort.abortFlag :
            AbortMainStep cfg rank s input _ _)
  case reduceSync turn hPc hTurn =>
    have hSilent : Silent .abortReduce input turn.out :=
      (syncTurn_of_eq hTurn).silent (by decide)
    have hBefore : s.pc.early = true := by simp [hPc, Pc.early]
    rcases hResult : turn.result with _ | _ | _
    · exact abortMainStep_of_early hSilent hBefore rfl
    · simpa [State.abortStage] using
        (AbortMainStep.enter hSilent (abortStage_of_early hBefore) s.abort.abortFlag :
          AbortMainStep cfg rank s input _ _)
    · exact abortMainStep_of_early hSilent hBefore rfl
  case barrierTest turn hPc hTurn hResult =>
    have hSilent : Silent .abortReduce input turn.out :=
      (barrierTurn_of_eq hTurn).silent (by decide)
    refine abortMainStep_of_early hSilent (by simp [hPc, Pc.early]) ?_
    simp only
    split <;> rfl
  case abortReduce turn hPc hTurn hResult =>
    have hStage : s.abortStage = .inside s.abortReduce := by simp [State.abortStage, hPc]
    have hStep := AbortMainStep.turn hStage (abortReduceTurn_of_eq hTurn)
    simpa [State.abortStage, Turn.abortStage, hResult] using hStep
  case leaveAbortReduce turn flag hPc hTurn hResult =>
    have hStage : s.abortStage = .inside s.abortReduce := by simp [State.abortStage, hPc]
    have hStep := AbortMainStep.turn hStage (abortReduceTurn_of_eq hTurn)
    cases flag <;> simpa [State.abortStage, Turn.abortStage, hResult] using hStep
  case workreqCheck hPc _ _ | workreceiptCheck hPc _ _ | abortCheck hPc _ _ | reduceCheck hPc _ _ |
      requestWork hPc _ _ | callback hPc _ _ _ _ | idle hPc _ _ | checkForTerm hPc _ |
      checkForTermAllReduce hPc _ | barrierStart hPc _ | tokenCheck hPc _ | tokenTest hPc _ =>
    exact hOther hPc (by decide) (by decide)

end MainLoop

/-- What a rank in `mainLoop` knows about the abort reduction. -/
def AbortMainInv (cfg : Config n) (rank : Fin n) (node : Rank n) : Prop :=
  ∃ entry, AbortInv cfg rank entry node.state.abortStage (node.sent · .abortReduce)
    (node.rcvd · .abortReduce)

theorem Execution.abortMainInv {ok : World n → Fin n → Event n → Prop} {g : World n}
    (h : Execution cfg ok g) (rank : Fin n) : AbortMainInv cfg rank (g rank) := by
  refine h.forall_rank (L := AbortMainInv cfg) ?_ ?_ rank
  · intro rank start
    exact ⟨false, abortInv_before _⟩
  · intro g rank input state out _ hAll _ hStep
    obtain ⟨entry, hInv⟩ := hAll rank
    have hMain := abortMainStep_of_mainStep hStep
    unfold AbortMainInv
    rw [FifoNet.Node.after_state, FifoNet.Node.after_sent, FifoNet.Node.after_rcvd]
    generalize state.abortStage = stage at hMain ⊢
    cases hMain
    case other hSilent =>
      refine ⟨entry, ?_⟩
      simpa [hSilent.sent, hSilent.rcvd] using hInv
    case enter hStage flag hSilent =>
      refine ⟨flag, ?_⟩
      rw [hStage] at hInv
      simpa [hSilent.sent, hSilent.rcvd] using hInv.enter flag
    case turn hStage hTurn =>
      rw [hStage] at hInv
      exact ⟨entry, hInv.turn hTurn⟩

/-- What it means that the ranks agree at the end of `mainLoop`. -/
structure CheckpointAgrees (g : World n) : Prop where
  /-- Either all ranks write a checkpoint, or none does. -/
  same : ∀ r other, (g r).state.pc = .checkpoint → (g other).state.pc ≠ .done
  /-- A rank that has left `abortReduce` has left it after all ranks entered it. -/
  entered : ∀ r, (g r).state.pc = .checkpoint ∨ (g r).state.pc = .done → ∀ other,
    (g other).state.pc = .abortReduce ∨ (g other).state.pc = .checkpoint ∨
      (g other).state.pc = .done

theorem Execution.checkpointAgrees {g : World n} (h : Execution cfg FifoNet.always g) :
    CheckpointAgrees g := by
  choose entry hInv using h.abortMainInv
  have hFifo := fun s d => h.fifo s d .abortReduce
  constructor
  · intro r other hCheckpoint hDone
    have hYes := result_eq (r := r) hInv hFifo
      (show (g r).state.abortStage.result = some true by simp [State.abortStage, hCheckpoint,
        AbortStage.result])
    have hNo := result_eq (r := other) hInv hFifo
      (show (g other).state.abortStage.result = some false by simp [State.abortStage, hDone,
        AbortStage.result])
    rw [← hYes] at hNo
    cases hNo
  · intro r hLeft other
    obtain ⟨flag, hResult⟩ : ∃ flag, (g r).state.abortStage.result = some flag := by
      rcases hLeft with hPc | hPc <;> simp [State.abortStage, hPc, AbortStage.result]
    have hUp := contributed_of_result (r := r) hInv hFifo hResult other
    by_contra hNot
    simp only [not_or] at hNot
    have hEarly : (g other).state.pc.early = true := by
      unfold Pc.early
      split <;> simp_all
    simp [abortStage_of_early hEarly, AbortStage.contributed] at hUp

end Circle
