import Circle.Protocol.Gathering

/-!
# The rounds of a reduction

Each round that a rank has finished is made of one report of each child
(`Books`).
-/

namespace Circle

open FifoNet (Log inFlight)

variable {n : Nat} {cfg : Config n} {rank : Fin n} {input : Input n} {s s' : State n}
  {out : Option (Packet n)} {sent rcvd : Log (Fin n) Tag Msg} {sample : Int} {cleanup : Bool}
  {r r' : Reduce n} {turn : Turn n (Reduce n) Outcome}

/-! ## The rounds that are finished -/

/-- What a round has made of the reports of the children. -/
def Round.tally (x : Round) : Tally :=
  { valid := x.valid, count := x.count - x.sample, value := x.value }

/-- A round is made of one report of each child in some order. -/
def Round.Made (cfg : Config n) (rcvd : Log (Fin n) Tag Msg) (k : Nat) (x : Round)
    (order : List (Fin n)) : Prop :=
  x.tally = (Tally.start x.init).absorbAll cfg.op (order.map (reportAt rcvd k))

/-- The rounds that the root has delivered. -/
def Reduce.delivered (r : Reduce n) : List (Int × ReduceBuf) :=
  ((r.rounds ++ r.last.toList).filter fun x => x.valid).map fun x => (x.count, x.value)

/-- The rounds of a rank that has processed some objects. -/
structure Books (cfg : Config n) (rank : Fin n) (processed : Int) (r : Reduce n)
    (rcvd : Log (Fin n) Tag Msg) : Prop where
  rounds : ∀ (k : Nat) (x : Round), r.rounds[k]? = some x →
    ∃ order : List (Fin n), order.Perm (cfg.tree.children rank) ∧ x.Made cfg rcvd k order
  samples : ∀ x ∈ r.rounds, x.sample ≤ processed
  sorted : (r.rounds.map Round.sample).Pairwise (· ≤ ·)
  last : ∀ x, r.last = some x → x.valid = true ∧ x.sample = processed ∧
    x.Made cfg rcvd r.rounds.length (cfg.tree.children rank)
  finalized : cfg.tree.parent rank = none → r.finalized = r.delivered

section Books

variable {processed : Int} {order : List (Fin n)}

/-- Reports that come do not change the rounds that are finished. -/
theorem Books.frame (h : Books cfg rank processed r rcvd) (hGathers : Gathers cfg rank sample r rcvd order)
    {rcvd' : Log (Fin n) Tag Msg} {processed' : Int}
    (hRcvd : ∀ c ∈ cfg.tree.children rank, rcvd c .reduce <+: rcvd' c .reduce)
    (hProcessed : processed ≤ processed') (hSame : r.last ≠ none → processed' = processed)
    (hRounds : r'.rounds = r.rounds) (hLast : r'.last = r.last)
    (hFinalized : r'.finalized = r.finalized) : Books cfg rank processed' r' rcvd' := by
  have hReport (k : Nat) (order' : List (Fin n)) (hSub : ∀ c ∈ order', c ∈ cfg.tree.children rank)
      (hLess : ∀ c ∈ order', k < (heard rcvd c).length) :
      order'.map (reportAt rcvd' k) = order'.map (reportAt rcvd k) :=
    List.map_congr_left fun c hMem => reportAt_of_prefix (hRcvd c (hSub c hMem)) (hLess c hMem)
  constructor
  case rounds =>
    intro k x hx
    rw [hRounds] at hx
    obtain ⟨order', hPerm, hMade⟩ := h.rounds k x hx
    refine ⟨order', hPerm, ?_⟩
    unfold Round.Made at hMade ⊢
    rw [hReport k order' (fun c hMem => hPerm.mem_iff.mp hMem), hMade]
    intro c hMem
    have hLength := hGathers.length_eq c (hPerm.mem_iff.mp hMem)
    have hLess := (List.getElem?_eq_some_iff.mp hx).1
    omega
  case samples =>
    rw [hRounds]
    exact fun x hx => Int.le_trans (h.samples x hx) hProcessed
  case sorted =>
    rw [hRounds]
    exact h.sorted
  case last =>
    rw [hLast, hRounds]
    intro x hx
    obtain ⟨hValid, hSample, hMade⟩ := h.last x hx
    refine ⟨hValid, hSample.trans (hSame (by simp [hx])).symm, ?_⟩
    unfold Round.Made at hMade ⊢
    rw [hReport _ _ (fun c hMem => hMem), hMade]
    intro c hMem
    have hLength := hGathers.length_eq c hMem
    rw [hGathers.ended (by simp [hx]), if_pos hMem] at hLength
    omega
  case finalized =>
    intro hRoot
    rw [hFinalized, h.finalized hRoot]
    simp [Reduce.delivered, hRounds, hLast]

/-- A round is added. -/
theorem Books.add (h : Books cfg rank processed r rcvd) {x : Round} (hLast : r.last = none)
    (hSample : x.sample = processed) (hPerm : order.Perm (cfg.tree.children rank))
    (hMade : x.Made cfg rcvd r.rounds.length order) (hRounds : r'.rounds = r.rounds ++ [x])
    (hLast' : r'.last = none)
    (hFinalized : cfg.tree.parent rank = none →
      r'.finalized = r.finalized ++ if x.valid then [(x.count, x.value)] else []) :
    Books cfg rank processed r' rcvd where
  rounds := by
    intro k y hy
    rw [hRounds, List.getElem?_append] at hy
    split at hy
    next => exact h.rounds k y hy
    next hNot =>
      have hLess := (List.getElem?_eq_some_iff.mp hy).1
      have hIndex : k = r.rounds.length := by
        rw [List.length_singleton] at hLess
        omega
      subst hIndex
      rw [Nat.sub_self] at hy
      cases hy
      exact ⟨order, hPerm, hMade⟩
  samples := by
    intro y hy
    rw [hRounds] at hy
    rcases List.mem_append.mp hy with hOld | hNew
    · exact h.samples y hOld
    · rw [List.mem_singleton.mp hNew]
      exact Int.le_of_eq hSample
  sorted := by
    rw [hRounds, List.map_append, List.pairwise_append]
    refine ⟨h.sorted, List.pairwise_singleton _ _, ?_⟩
    intro a ha b hb
    obtain ⟨y, hy, rfl⟩ := List.mem_map.mp ha
    rw [List.map_singleton, List.mem_singleton] at hb
    rw [hb, hSample]
    exact h.samples y hy
  last := by simp [hLast']
  finalized := by
    intro hRoot
    rw [hFinalized hRoot, h.finalized hRoot]
    cases hValid : x.valid <;> simp [Reduce.delivered, hRounds, hLast, hLast', hValid]

/-- The last reduction is added. -/
theorem Books.addLast (h : Books cfg rank processed r rcvd) {x : Round} (hLast : r.last = none)
    (hSample : x.sample = processed) (hValid : x.valid = true)
    (hMade : x.Made cfg rcvd r.rounds.length (cfg.tree.children rank))
    (hRounds : r'.rounds = r.rounds) (hLast' : r'.last = some x)
    (hFinalized : cfg.tree.parent rank = none →
      r'.finalized = r.finalized ++ [(x.count, x.value)]) :
    Books cfg rank processed r' rcvd where
  rounds := by
    rw [hRounds]
    exact h.rounds
  samples := by
    rw [hRounds]
    exact h.samples
  sorted := by
    rw [hRounds]
    exact h.sorted
  last := by
    intro y hy
    rw [hLast', Option.some.injEq] at hy
    subst hy
    rw [hRounds]
    exact ⟨hValid, hSample, hMade⟩
  finalized := by
    intro hRoot
    rw [hFinalized hRoot, h.finalized hRoot]
    simp [Reduce.delivered, hRounds, hLast, hLast', hValid]

/-- The round that all children have replied to is made of their reports. -/
theorem Gathers.made (h : Gathers cfg rank sample r rcvd order) (hOpen : r.isOpen = true)
    (hCurrent : r.current = none) {init value : ReduceBuf} (hInit : r.initial = some init)
    (hBuf : r.reduceBuf = some value) (sample' : Int) :
    Round.Made cfg rcvd r.rounds.length ⟨init, sample', r.valid, r.count + sample', value⟩ order := by
  obtain ⟨init', value', hInit', hBuf', hTally⟩ := (h.opened hOpen).2
  rw [hInit, Option.some.injEq] at hInit'
  rw [hBuf, Option.some.injEq] at hBuf'
  subst hInit' hBuf'
  rw [Round.Made, ← hTally]
  simp [Round.tally, Reduce.pendingCount, hCurrent]

theorem Books.reduceTurn (h : Books cfg rank sample r rcvd)
    (hGathers : Gathers cfg rank sample r rcvd order) (hReady : CheckReady cfg rank cleanup r)
    (hTurn : ReduceTurn cfg rank sample cleanup r input turn)
    (hResult : turn.result ≠ some .failed) :
    Books cfg rank sample turn.record (rcvd.receive input) := by
  have hPrefix : ∀ c ∈ cfg.tree.children rank, rcvd c .reduce <+: rcvd.receive input c .reduce :=
    fun c _ => rcvd.prefix_receive input c .reduce
  -- a turn that does not end a round
  have hSame (hRounds : turn.record.rounds = r.rounds)
      (hFinalized : turn.record.finalized = r.finalized) :
      Books cfg rank sample turn.record (rcvd.receive input) :=
    h.frame hGathers hPrefix (Int.le_refl _) (fun _ => rfl) hRounds (hTurn.last_eq hResult)
      hFinalized
  -- a turn that does
  have hAdd (hPhase : r.phase = .children [])
      (hReplies : r.reduceReplies = (cfg.tree.children rank).length) {init value : ReduceBuf}
      (hInit : r.initial = some init) (hBuf : r.reduceBuf = some value)
      (hRounds : turn.record.rounds =
        r.rounds ++ [⟨init, sample, r.valid, r.count + sample, value⟩])
      (hFinalized : cfg.tree.parent rank = none → turn.record.finalized =
        r.finalized ++ if r.valid then [(r.count + sample, value)] else []) :
      Books cfg rank sample turn.record rcvd := by
    have hCurrent : r.current = none := by simp [Reduce.current, hPhase]
    have hOpen : r.isOpen = true := by
      simp [Reduce.isOpen, hPhase, outstanding_of_children hReady.fits hPhase]
    have hLength : order.length = (cfg.tree.children rank).length := by
      rw [← hReplies, (hGathers.opened hOpen).1]
      simp [hCurrent]
    exact h.add hReady.last rfl (hGathers.perm hLength) (hGathers.made hOpen hCurrent hInit hBuf _)
      hRounds ((hTurn.last_eq hResult).trans hReady.last) hFinalized
  cases hTurn
  case badStart | badHeader | badData => exact (hResult rfl).elim
  case report hPhase hReplies hParent _ | reportBare hPhase hReplies hParent _ =>
    obtain ⟨⟨init, hInit⟩, value, hBuf⟩ :=
      hReady.buffers (outstanding_of_children hReady.fits hPhase)
    refine hAdd hPhase hReplies hInit hBuf ?_ (by simp [hParent])
    simp [Turn.sends, Turn.sendsAndReturns, Reduce.endRound, Reduce.round, hInit, hBuf]
  case deliver hPhase hReplies hRoot hValid | discard hPhase hReplies hRoot hValid =>
    obtain ⟨⟨init, hInit⟩, value, hBuf⟩ :=
      hReady.buffers (outstanding_of_children hReady.fits hPhase)
    refine hAdd hPhase hReplies hInit hBuf ?_ fun _ => ?_ <;>
      simp [Turn.returns, Reduce.endRound, Reduce.finalize, Reduce.round, hInit, hBuf, hValid]
  all_goals exact hSame rfl rfl

theorem Books.syncTurn (h : Books cfg rank sample r rcvd)
    (hGathers : Gathers cfg rank sample r rcvd order) (hReady : SyncReady cfg rank r)
    (hTurn : SyncTurn cfg rank sample r input turn) (hResult : turn.result ≠ some .failed) :
    Books cfg rank sample turn.record (rcvd.receive input) := by
  have hPrefix : ∀ c ∈ cfg.tree.children rank, rcvd c .reduce <+: rcvd.receive input c .reduce :=
    fun c _ => rcvd.prefix_receive input c .reduce
  have hRounds := (hTurn.refused_eq hResult).2.2
  have hSame (hLast : turn.record.last = r.last)
      (hFinalized : turn.record.finalized = r.finalized) :
      Books cfg rank sample turn.record (rcvd.receive input) :=
    h.frame hGathers hPrefix (Int.le_refl _) (fun _ => rfl) hRounds hLast hFinalized
  have hAdd (hPhase : r.phase = .syncChildren []) {init value : ReduceBuf}
      (hInit : r.initial = some init) (hBuf : r.reduceBuf = some value)
      (hLast : turn.record.last = some ⟨init, sample, r.valid, r.count, value⟩)
      (hFinalized : cfg.tree.parent rank = none →
        turn.record.finalized = r.finalized ++ [(r.count, value)]) :
      Books cfg rank sample turn.record rcvd := by
    have hCurrent : r.current = none := by simp [Reduce.current, hPhase]
    have hFits := hReady.fits
    simp only [Reduce.Fits, hPhase] at hFits
    obtain ⟨hAll, init', value', hInit', hBuf', hTally⟩ :=
      hGathers.sync [] (by simp [Reduce.syncRest, hPhase])
    rw [hInit, Option.some.injEq] at hInit'
    rw [hBuf, Option.some.injEq] at hBuf'
    rw [List.append_nil] at hAll
    subst hInit' hBuf' hAll
    refine h.addLast (hReady.last_eq_none (by simp [hPhase])) rfl hFits.1 ?_ hRounds hLast hFinalized
    rw [Round.Made, ← hTally]
    simp [Round.tally, Reduce.pendingCount, hCurrent]
  cases hTurn
  case badHeader | badData => exact (hResult rfl).elim
  case send hPhase hParent _ | sendBare hPhase hParent _ =>
    obtain ⟨⟨init, hInit⟩, value, hBuf⟩ := hReady.buffers (by simp [hPhase, ReducePhase.isSync])
    refine hAdd hPhase hInit hBuf ?_ (by simp [hParent])
    simp [Turn.sends, Turn.sendsAndReturns, Reduce.endLast, Reduce.round, hInit, hBuf]
  case deliver hPhase hRoot =>
    obtain ⟨⟨init, hInit⟩, value, hBuf⟩ := hReady.buffers (by simp [hPhase, ReducePhase.isSync])
    refine hAdd hPhase hInit hBuf ?_ fun _ => ?_ <;>
      simp [Turn.returns, Reduce.endLast, Reduce.finalize, Reduce.round, hInit, hBuf]
  all_goals exact hSame rfl rfl

end Books

end Circle
