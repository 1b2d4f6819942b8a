import Mathlib.Data.UInt
import Circle.Protocol.Contributions

/-!
# Reductions in the background

Whenever the root delivers a round, the result is exact: it is made of one
contribution of every rank, and of a sample that the rank has taken while the
round was under way.  So the counts that the root reports never decrease.
-/

namespace Circle

variable {n : Nat} {cfg : Config n} {rank : Fin n} {input : Input n} {s s' : State n}
  {out : Option (Packet n)} {ok : World n → Fin n → Event n → Prop} {g g' : World n}

/-! ## The time of a round -/

/-- The number of rounds that a rank has begun. -/
def Reduce.begun (r : Reduce n) : Nat := r.rounds.length + if r.isTaken then 1 else 0

/-- No rank begins a round before the root does. -/
theorem Execution.begun_le (h : Execution cfg ok g) (r : Fin n) :
    (g r).state.reduce.begun ≤ (g cfg.tree.root).state.reduce.begun := by
  obtain ⟨hInv, hAnswered⟩ := h.reductions
  refine cfg.tree.down_induction (P := fun r =>
    (g r).state.reduce.begun ≤ (g cfg.tree.root).state.reduce.begun) (Nat.le_refl _) ?_ r
  intro p c hParent ih
  refine Nat.le_trans ?_ ih
  have hStarts := responses_le h hInv hParent
  have hOwn : (g c).state.reduce.rounds.length ≤ (g c).state.reduce.responses.length := by
    simp [Reduce.responses]
  have hOpen : (g p).state.reduce.startsTo c ≤ (g p).state.reduce.begun := by
    unfold Reduce.startsTo Reduce.begun Reduce.isTaken
    cases (g p).state.reduce.isOpen <;> simp
    split <;> omega
  unfold Reduce.begun at hOpen ⊢
  omega

theorem processed_le_step (hStep : MainStep cfg rank input s s' out) :
    s.localObjectsProcessed ≤ s'.localObjectsProcessed := by
  cases hStep
  case callback => exact Nat.le_succ _
  all_goals exact Nat.le_refl _

/-- In a run, a rank adds rounds to those that it has, with samples that are
taken in the run. -/
theorem Execution.rounds_of_run (h : Execution cfg FifoNet.always g)
    {events : List (Fin n × Event n)} (hRun : FifoNet.run (mainLoop cfg) g events = some g')
    (r : Fin n) :
    (g r).state.localObjectsProcessed ≤ (g' r).state.localObjectsProcessed ∧
      ∃ more, (g' r).state.reduce.rounds = (g r).state.reduce.rounds ++ more ∧
        ∀ y ∈ more, ((g r).state.localObjectsProcessed : Int) ≤ y.sample := by
  induction events generalizing g with
  | nil =>
      cases hRun
      exact ⟨Nat.le_refl _, [], by simp, by simp⟩
  | cons first rest ih =>
      obtain ⟨next, hNext, hRest⟩ := Option.bind_eq_some_iff.mp hRun
      have hReach : Execution cfg FifoNet.always next := h.step trivial hNext
      obtain ⟨hProcessed, more, hMore, hSamples⟩ := ih hReach hRest
      have hRunning := hReach.running first.1
      obtain ⟨input, s', out, -, hFires, rfl⟩ := FifoNet.step_cases hNext
      by_cases hSelf : r = first.1
      · subst hSelf
        have hStep := mainStep_of_mainLoop hFires.acts
        rw [FifoNet.set_self, FifoNet.Node.after_state] at hProcessed hMore hSamples hRunning
        have hLe := processed_le_step hStep
        refine ⟨Nat.le_trans hLe hProcessed, ?_⟩
        rcases (rounds_step h h.reductions.1 hRunning hStep).2 with hSame | ⟨-, -, x, hx, hAdded⟩
        · rw [hSame] at hMore
          exact ⟨more, hMore, fun y hy => Int.le_trans (by exact_mod_cast hLe) (hSamples y hy)⟩
        · rw [hAdded, List.append_assoc, List.singleton_append] at hMore
          refine ⟨x :: more, hMore, fun y hy => ?_⟩
          rcases List.mem_cons.mp hy with rfl | hLater
          · exact Int.le_of_eq hx.symm
          · exact Int.le_trans (by exact_mod_cast hLe) (hSamples y hLater)
      · rw [FifoNet.set_of_ne _ _ hSelf] at hProcessed hMore hSamples
        exact ⟨hProcessed, more, hMore, hSamples⟩

/-- A sample is not taken before the root has begun the round. -/
theorem Execution.le_sample (h : Execution cfg FifoNet.always g)
    {events : List (Fin n × Event n)} (hRun : FifoNet.run (mainLoop cfg) g events = some g')
    {k : Nat} (hBegun : (g cfg.tree.root).state.reduce.begun ≤ k) {r : Fin n} {y : Round}
    (hRound : (g' r).state.reduce.rounds[k]? = some y) :
    ((g r).state.localObjectsProcessed : Int) ≤ y.sample := by
  obtain ⟨-, more, hMore, hSamples⟩ := h.rounds_of_run hRun r
  have hShort : (g r).state.reduce.rounds.length ≤ k := by
    have hLe := h.begun_le r
    unfold Reduce.begun at hLe hBegun
    omega
  rw [hMore, List.getElem?_append_right hShort] at hRound
  exact hSamples y (List.mem_of_getElem? hRound)

/-! ## Exactness -/

/-- What the root delivers in the background is exact. -/
structure ExactInBackground (cfg : Config n) (g : World n) : Prop where
  /-- No message is taken for another one: no rank stops the execution. -/
  running : ∀ r, (g r).state.pc ≠ .failed
  /-- The root delivers its valid rounds, -/
  delivered : (g cfg.tree.root).state.reduce.finalized = (g cfg.tree.root).state.reduce.delivered
  /-- which are made of one contribution of every rank. -/
  combined : ∀ (k : Nat) (x : Round), (g cfg.tree.root).state.reduce.rounds[k]? = some x → x.valid = true →
    ∃ y : Fin n → Round, (∀ r, (g r).state.reduce.rounds[k]? = some (y r)) ∧
      x.count = ∑ r, (y r).sample ∧
      combineAll cfg.op ((List.finRange n).map fun r => (y r).init) = some x.value
  /-- A round that a rank has refused is not among them. -/
  invalid : ∀ (k : Nat) (x : Round) (r : Fin n), (g cfg.tree.root).state.reduce.rounds[k]? = some x →
    (g r).state.reduce.responses[k]? = some .invalid → x.valid = false
  /-- A sample is taken after the root has begun the round and before the rank
  has ended it. -/
  sampled : ∀ (k : Nat) (r : Fin n) (y : Round), (g r).state.reduce.rounds[k]? = some y →
    y.sample ≤ (g r).state.localObjectsProcessed ∧
      ∀ g₀ events, Execution cfg FifoNet.always g₀ →
        FifoNet.run (mainLoop cfg) g₀ events = some g →
        (g₀ cfg.tree.root).state.reduce.begun ≤ k →
        ((g₀ r).state.localObjectsProcessed : Int) ≤ y.sample
  sorted : ((g cfg.tree.root).state.reduce.finalized.map Prod.fst).Pairwise (· ≤ ·)

/-- Two rounds that are made of samples that do not decrease. -/
theorem count_le_of_addsUp {y z : Fin n → Round} (hy : AddsUp cfg y) (hz : AddsUp cfg z)
    (hSamples : ∀ r, (y r).sample ≤ (z r).sample) :
    (y cfg.tree.root).count ≤ (z cfg.tree.root).count := by
  rw [hy.count_root, hz.count_root]
  exact Finset.sum_le_sum fun r _ => hSamples r

/-- A valid round of the root with those of the other ranks. -/
theorem Execution.exists_addsUp (h : Execution cfg ok g) [Std.Associative cfg.op]
    [Std.Commutative cfg.op] {k : Nat} {x : Round}
    (hRound : (g cfg.tree.root).state.reduce.rounds[k]? = some x) (hValid : x.valid = true) :
    ∃ y : Fin n → Round, (∀ r, (g r).state.reduce.rounds[k]? = some (y r)) ∧ AddsUp cfg y ∧
      y cfg.tree.root = x := by
  choose y hTaken using h.all_valid hRound hValid
  refine ⟨y, fun r => (hTaken r).1, h.rounds_addsUp hTaken, ?_⟩
  have hSame := (hTaken cfg.tree.root).1
  rw [hRound, Option.some.injEq] at hSame
  exact hSame.symm

/-- The counts of the valid rounds of the root, and of the last reduction, do
not decrease. -/
theorem Execution.counts_sorted (h : Execution cfg ok g) [Std.Associative cfg.op]
    [Std.Commutative cfg.op] :
    ((g cfg.tree.root).state.reduce.delivered.map Prod.fst).Pairwise (· ≤ ·) := by
  have hBooks := fun r => (h.reductions.1 r).books
  rw [Reduce.delivered, List.map_map, List.pairwise_map, List.pairwise_filter,
    List.pairwise_append]
  refine ⟨?_, ?_, ?_⟩
  · rw [List.pairwise_iff_getElem]
    intro i j hi hj hLess hValid hValid'
    obtain ⟨y, hy, hSum, hRoot⟩ := h.exists_addsUp (List.getElem?_eq_getElem hi) hValid
    obtain ⟨z, hz, hSum', hRoot'⟩ := h.exists_addsUp (List.getElem?_eq_getElem hj) hValid'
    rw [Function.comp_apply, Function.comp_apply, ← hRoot, ← hRoot']
    refine count_le_of_addsUp hSum hSum' fun r => ?_
    obtain ⟨hri, hyr⟩ := List.getElem?_eq_some_iff.mp (hy r)
    obtain ⟨hrj, hzr⟩ := List.getElem?_eq_some_iff.mp (hz r)
    have hSorted := List.pairwise_iff_getElem.mp (hBooks r).sorted i j (by simpa using hri)
      (by simpa using hrj) hLess
    rwa [List.getElem_map, List.getElem_map, hyr, hzr] at hSorted
  · cases (g cfg.tree.root).state.reduce.last <;> simp
  · intro x hx x' hx' hValid _
    obtain ⟨k, hk⟩ := List.getElem?_of_mem hx
    obtain ⟨y, hy, hSum, hRoot⟩ := h.exists_addsUp hk hValid
    rw [Option.mem_toList] at hx'
    choose z hz using h.all_last (by simp [hx'])
    have hRoot' : z cfg.tree.root = x' := by
      have hSame := hz cfg.tree.root
      rw [hx', Option.some.injEq] at hSame
      exact hSame.symm
    rw [Function.comp_apply, Function.comp_apply, ← hRoot, ← hRoot']
    refine count_le_of_addsUp hSum (h.last_addsUp hz) fun r => ?_
    rw [((hBooks r).last (z r) (hz r)).2.1]
    exact (hBooks r).samples (y r) (List.mem_of_getElem? (hy r))

theorem Execution.exactInBackground [Std.Associative cfg.op] [Std.Commutative cfg.op]
    (h : Execution cfg ok g) : ExactInBackground cfg g := by
  have hFinalized := (h.reductions.1 cfg.tree.root).books.finalized cfg.tree.parent_root
  constructor
  case running => exact h.running
  case delivered => exact hFinalized
  case combined =>
    intro k x hRound hValid
    obtain ⟨y, hy, hSum, rfl⟩ := h.exists_addsUp hRound hValid
    exact ⟨y, hy, hSum.count_root, hSum.value_root⟩
  case invalid =>
    intro k x r hRound hRefused
    rw [← Bool.not_eq_true]
    intro hValid
    obtain ⟨y, hy, hyValid⟩ := h.all_valid hRound hValid r
    rw [Reduce.response_of_round hy hyValid] at hRefused
    cases hRefused
  case sampled =>
    intro k r y hRound
    refine ⟨(h.reductions.1 r).books.samples y (List.mem_of_getElem? hRound), ?_⟩
    intro g₀ events hReach hRun hBegun
    exact hReach.le_sample hRun hBegun hRound
  case sorted =>
    rw [hFinalized]
    exact h.counts_sorted

/-! ## Two ranks -/

/-- Add up bytes. -/
def addBytes (buf inbuf : ReduceBuf) : ReduceBuf := byteBuf (buf.bytes.sum + inbuf.bytes.sum)

instance associative_addBytes : Std.Associative addBytes where
  assoc a b c := by simp [addBytes, byteBuf, UInt8.add_assoc]

instance commutative_addBytes : Std.Commutative addBytes where
  comm a b := by simp [addBytes, byteBuf, UInt8.add_comm]

/-- Two ranks that add up bytes. -/
def addConfig : Config 2 where
  size_pos := Nat.zero_lt_two
  page := .usual
  width := 2
  width_pos := Nat.zero_lt_two
  termTree := true
  reduceEnabled := true
  splitEqual := true
  op := addBytes

/-- Both ranks take part in a round, which rank 0 delivers. -/
def deliveringTurns : List (Fin 2 × Event 2) :=
  idleTurns 0 ++
    [(0, .tick (.time true)), (0, .tick (.init (byteBuf 1))), (0, .tick .go), (0, .tick .go),
      (0, .tick (.callback []))] ++
    idleTurns 1 ++
    [(1, .recv 0 .reduce), (1, .tick (.init (byteBuf 2))), (1, .tick .go),
      (1, .tick (.next (some 0))), (1, .tick .go), (1, .tick .go), (1, .tick .go)] ++
    idleTurns 1 ++
    [(1, .tick .go), (1, .tick .go), (1, .tick .go)] ++
    idleTurns 0 ++
    [(0, .tick .go), (0, .recv 1 .reduce), (0, .recv 1 .reduce), (0, .tick .go)]

theorem exactInBackground_pairWorld : ∃ g,
    FifoNet.run (mainLoop addConfig) pairWorld deliveringTurns = some g ∧
    (g 0).state.reduce.finalized = [(1, byteBuf 3)] ∧ ExactInBackground addConfig g := by
  have hEnd : (FifoNet.run (mainLoop addConfig) pairWorld deliveringTurns).map
      (fun g => (g 0).state.reduce.finalized) = some [(1, byteBuf 3)] := by
    decide +kernel
  obtain ⟨g, hRun, hFinalized⟩ := Option.map_eq_some_iff.mp hEnd
  have hReach : Execution addConfig FifoNet.always g :=
    FifoNet.Reachable.run (execution_pairWorld _ _) hRun
  have hAssoc : Std.Associative addConfig.op := associative_addBytes
  have hComm : Std.Commutative addConfig.op := commutative_addBytes
  exact ⟨g, hRun, hFinalized, Execution.exactInBackground hReach⟩

/-- Where no callback stores anything, a round goes through with its headers
alone. -/
example : (FifoNet.run (mainLoop (pairConfig true true)) pairWorld (idleTurns 0 ++
    [(0, .tick (.time true)), (0, .tick (.init .null)), (0, .tick .go), (0, .tick .go),
      (0, .tick (.callback []))] ++
    idleTurns 1 ++
    [(1, .recv 0 .reduce), (1, .tick (.init .null)), (1, .tick .go),
      (1, .tick (.next (some 0))), (1, .tick .go), (1, .tick .go), (1, .tick .go)] ++
    idleTurns 1 ++
    [(1, .tick .go), (1, .tick .go)] ++
    idleTurns 0 ++
    [(0, .tick .go), (0, .recv 1 .reduce), (0, .tick .go)])).map
      (fun g => (g 0).state.reduce.finalized) = some [(1, .null)] := by
  decide +kernel

end Circle
