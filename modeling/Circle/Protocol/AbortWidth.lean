import Circle.Base.Leads
import Circle.Protocol.AbortAgreement
import Circle.TreeWidth
import Mathlib.Data.List.TakeWhile

/-!
# The abort reduction at every width

What `abortReduce` reads from its `TreeState` is what the constructor computes
in `int`.  Where the products of rank and width fit, that is the exact tree, and
all ranks agree.  Where one does not, some rank lists a number that is no rank,
waits for it, and does not return.
-/

namespace Circle

open FifoNet (Log inFlight)

variable {n : Nat} {cfg : Config n}

/-! ## The neighbours in `int` -/

/-- A number as a rank. -/
def intRank? (n : Nat) (r : Int) : Option (Fin n) :=
  if 0 ≤ r then TreeState.toRank? n r.toNat else none

/-- The neighbours that a `TreeState` names. -/
def TreeMembers.links (n : Nat) (t : TreeMembers) : Links n where
  parentRank := intRank? n t.parentRank
  childrenRanks :=
    (t.childrenRanks.takeWhile fun c => (intRank? n c).isSome).filterMap (intRank? n)
  whole := t.childrenRanks.all fun c => (intRank? n c).isSome

/-- The neighbours that a rank reads from the `TreeState` it constructs. -/
def intLinks (procNull : Int) (width : Nat) (rank : Fin n) : Option (Links n) :=
  (TreeMembers.construct wrapInt procNull rank.val n width).map (TreeMembers.links n)

/-- The products of the constructor fit an `int`, or wrap to no child. -/
def WidthFits (nranks width : Nat) : Prop :=
  ∀ rank : Fin nranks, (rank.val * width + width : Int) < 2 ^ 31 ∨
    (nranks : Int) ≤ wrapInt (rank.val * width + 1)

theorem WidthFits.of_le {nranks width : Nat} (h : nranks * width ≤ intMax) :
    WidthFits nranks width := by
  intro rank
  have hNext : (rank.val + 1) * width ≤ nranks * width := Nat.mul_le_mul_right _ rank.isLt
  rw [Nat.succ_mul] at hNext
  have hBound : rank.val * width + width ≤ 2 ^ 31 - 1 := hNext.trans h
  exact Or.inl (by exact_mod_cast Nat.lt_of_le_of_lt hBound (by decide))

@[simp] theorem intRank?_natCast (n r : Nat) : intRank? n (r : Int) = TreeState.toRank? n r := by
  rw [intRank?, if_pos (by omega), Int.toNat_natCast]

theorem intRank?_of_neg (n : Nat) {r : Int} (hNeg : r < 0) : intRank? n r = none :=
  if_neg (by omega)

namespace TreeMembers

/-- A child that is no rank. -/
theorem whole_links {parentRank nchildren x : Int} {childrenRanks : List Int}
    (hMem : x ∈ childrenRanks) (hNone : intRank? n x = none) :
    (links n ⟨parentRank, nchildren, childrenRanks⟩).whole = false := by
  simp only [links, List.all_eq_false]
  exact ⟨x, hMem, by simp [hNone]⟩

/-- In exact arithmetic the children are those of `TreeState.new`. -/
theorem fill_id_new (rank nranks maxChildren : Nat) (hWidth : 0 < maxChildren) :
    (fill id nranks (rank * maxChildren + 1) (rank * maxChildren + maxChildren)).2 =
      (TreeState.new rank nranks maxChildren).childrenRanks.map Nat.cast := by
  have hProduct : ((rank * maxChildren : Nat) : Int) = (rank : Int) * maxChildren :=
    Int.natCast_mul _ _
  unfold fill TreeState.new
  rw [← hProduct]
  by_cases hChild : rank * maxChildren + 1 < nranks
  · obtain ⟨last, hLast⟩ : ∃ last, last =
        if rank * maxChildren + maxChildren ≥ nranks then nranks - 1
        else rank * maxChildren + maxChildren := ⟨_, rfl⟩
    have hCast : (if ((rank * maxChildren : Nat) : Int) + maxChildren ≥ nranks
        then (nranks : Int) - 1 else (rank * maxChildren : Nat) + maxChildren) = last := by
      rw [hLast]
      split_ifs <;> omega
    have hFirst : rank * maxChildren + 1 ≤ last := by
      rw [hLast]
      split <;> omega
    simp only [if_pos hChild, ← hLast, hCast, id, List.map_map,
      if_pos (show ((rank * maxChildren : Nat) : Int) + 1 < nranks by omega)]
    rw [show ((last : Int) - ((rank * maxChildren : Nat) + 1) + 1).toNat =
      last - (rank * maxChildren + 1) + 1 by omega]
    refine List.map_congr_left fun i _ => ?_
    simp only [Function.comp_apply]
    omega
  · rw [if_neg hChild, if_neg (by omega)]
    rfl

end TreeMembers

section Width

variable {procNull : Int} {rank : Fin n}

theorem Config.input (cfg : Config n) (hNull : procNull < 0) (hRanks : n < 2 ^ 31)
    (hWidth : cfg.width < 2 ^ 31) (rank : Fin n) :
    TreeMembers.Input procNull rank.val n cfg.width where
  null := hNull
  rank_nonneg := by omega
  rank_lt := by exact_mod_cast rank.isLt
  nranks := by exact_mod_cast hRanks
  width := ⟨by omega, by exact_mod_cast hWidth⟩

theorem exists_intLinks (cfg : Config n) (procNull : Int) :
    ∃ links : Fin n → Links n, ∀ r, intLinks procNull cfg.width r = some (links r) := by
  have hPos := cfg.width_pos
  have hEach (r : Fin n) : ∃ links, intLinks procNull cfg.width r = some links := by
    rw [intLinks, TreeMembers.construct_wrapInt (Or.inr (by omega))]
    exact ⟨_, rfl⟩
  exact Classical.skolem.mp hEach

/-- The parent that a rank computes is the one in the tree. -/
theorem intRank?_parent (cfg : Config n) (hNull : procNull < 0) (rank : Fin n) :
    intRank? n (if (rank.val : Int) > 0 then ((rank.val : Int) - 1).tdiv cfg.width else procNull) =
      cfg.tree.parent rank := by
  show _ = (TreeState.new rank n cfg.width).parentRank.bind (TreeState.toRank? n)
  by_cases hRoot : rank.val > 0
  · have hQuotient : ((rank.val : Int) - 1).tdiv cfg.width =
        ((rank.val - 1) / cfg.width : Nat) := by
      rw [Int.tdiv_eq_ediv_of_nonneg (by omega), Int.natCast_ediv, Nat.cast_sub hRoot, Nat.cast_one]
    rw [if_pos (by omega), hQuotient, intRank?_natCast]
    simp [TreeState.new, hRoot]
  · rw [if_neg (by omega), intRank?_of_neg n hNull]
    simp [TreeState.new, hRoot]

/-- Where the width fits, a rank reads its neighbours in the tree. -/
theorem intLinks_of_fits (cfg : Config n) (hNull : procNull < 0) (hRanks : n < 2 ^ 31)
    (hWidth : cfg.width < 2 ^ 31) (hFits : WidthFits n cfg.width) (rank : Fin n) :
    intLinks procNull cfg.width rank = some (cfg.links rank) := by
  have hPos := cfg.width_pos
  obtain ⟨t, hMachine, hExact, -⟩ :=
    (TreeMembers.safe_iff _ _ _ _ (cfg.input hNull hRanks hWidth rank)).mpr
      (Or.inr ⟨by omega, hFits rank⟩)
  rw [TreeMembers.construct_id (Or.inr (by omega)), Option.some.injEq] at hExact
  subst hExact
  have hRank : ∀ c ∈ (TreeState.new rank n cfg.width).childrenRanks.map (Nat.cast (R := Int)),
      (intRank? n c).isSome = true := by
    intro c hMem
    obtain ⟨r, hChild, rfl⟩ := List.mem_map.mp hMem
    have hLess := ((TreeState.mem_childrenRanks hPos).mp hChild).2.2
    simp [TreeState.toRank?, hLess]
  rw [intLinks, hMachine, Option.map_some, TreeMembers.links,
    TreeMembers.fill_id_new rank.val n cfg.width hPos, intRank?_parent cfg hNull rank,
    List.takeWhile_eq_self_iff.mpr hRank, List.all_eq_true.mpr hRank, List.filterMap_map]
  simp only [Function.comp_def, intRank?_natCast]
  rfl

/-- Where `right` overflows at a rank and `left` wraps below the ranks, a number
that is no rank is listed: `left` itself, or the number of ranks. -/
theorem not_whole_of_wide (cfg : Config n) (hNull : procNull < 0) (hRanks : n < 2 ^ 31)
    (hWidth : cfg.width < 2 ^ 31) (hWide : 2 ^ 31 ≤ (rank.val * cfg.width + cfg.width : Int))
    (hLeft : wrapInt (rank.val * cfg.width + 1) < n)
    (hNoRank : wrapInt (rank.val * cfg.width + 1) < 0 ∨ (rank.val * cfg.width + 1 : Int) < n)
    {links : Links n} (hLinks : intLinks procNull cfg.width rank = some links) :
    links.whole = false := by
  have hPos := cfg.width_pos
  have hInput := cfg.input hNull hRanks hWidth rank
  have hWidthPos : (1 : Int) ≤ cfg.width := by omega
  have hMem (x : Int) := @TreeMembers.mem_fill_of_wide _ _ _ (hInput.product_of_pos hWidthPos)
    hWidthPos hInput.width hInput.nranks hWide hLeft x
  rw [intLinks, TreeMembers.construct_wrapInt (Or.inr (by omega)), Option.map_some,
    Option.some.injEq] at hLinks
  subst hLinks
  rcases hNoRank with hNegative | hChild
  · exact TreeMembers.whole_links (hMem _ (Or.inl rfl)) (intRank?_of_neg n hNegative)
  · exact TreeMembers.whole_links (hMem n (Or.inr ⟨hChild, rfl⟩)) (by simp [TreeState.toRank?])

/-- Where the width does not fit, some rank lists a number that is no rank. -/
theorem exists_not_whole (cfg : Config n) (hNull : procNull < 0) (hRanks : n < 2 ^ 31)
    (hWidth : cfg.width < 2 ^ 31) (hNot : ¬ WidthFits n cfg.width) {links : Fin n → Links n}
    (hLinks : ∀ r, intLinks procNull cfg.width r = some (links r)) :
    ∃ r, (links r).whole = false := by
  unfold WidthFits at hNot
  push Not at hNot
  obtain ⟨rank, hWide, hLeft⟩ := hNot
  have hProduct := (cfg.input hNull hRanks hWidth rank).product_of_pos
    (Int.natCast_pos.mpr cfg.width_pos)
  by_cases hSmall : (rank.val * cfg.width + 1 : Int) < 2 ^ 31
  · -- `left` is an `int`, and `right` overflows
    have hSame : wrapInt (rank.val * cfg.width + 1) = rank.val * cfg.width + 1 :=
      wrapInt_of_isInt ⟨by omega, hSmall⟩
    exact ⟨rank, not_whole_of_wide cfg hNull hRanks hWidth hWide hLeft
      (Or.inr (hSame ▸ hLeft)) (hLinks rank)⟩
  · -- the first rank whose `left` overflows has a negative one
    have hSome : ∃ k : Nat, (2 ^ 31 : Int) ≤ k * cfg.width + 1 := ⟨rank.val, by omega⟩
    obtain ⟨first, hFirst, hLeast⟩ : ∃ k : Nat, (2 ^ 31 : Int) ≤ k * cfg.width + 1 ∧
        ∀ j < k, (j * cfg.width + 1 : Int) < 2 ^ 31 :=
      ⟨Nat.find hSome, Nat.find_spec hSome, fun j hj => Int.not_le.mp (Nat.find_min hSome hj)⟩
    have hRank : first ≤ rank.val := by
      by_contra hLess
      exact hSmall (hLeast _ (Nat.not_le.mp hLess))
    cases first with
    | zero =>
        rw [Nat.cast_zero, Int.zero_mul] at hFirst
        omega
    | succ before =>
        have hBefore := hLeast before (Nat.lt_succ_self before)
        obtain ⟨r, hr⟩ : ∃ r : Fin n, r.val = before + 1 :=
          ⟨⟨before + 1, Nat.lt_of_le_of_lt hRank rank.isLt⟩, rfl⟩
        have hProduct : (r.val * cfg.width : Int) = before * cfg.width + cfg.width := by
          rw [hr, Nat.cast_succ, Int.add_mul, Int.one_mul]
        rw [← hr] at hFirst
        have hWrap : wrapInt (r.val * cfg.width + 1) < 0 := by
          unfold wrapInt
          omega
        refine ⟨r, not_whole_of_wide cfg hNull hRanks hWidth ?_ ?_ (Or.inl hWrap) (hLinks r)⟩
        · omega
        · exact Int.lt_of_lt_of_le hWrap (Int.natCast_nonneg n)

end Width

/-! ## A number that is no rank -/

/-- A rank that lists a number that is no rank never has heard all children. -/
theorem AbortRun.not_contributed {links : Fin n → Links n} {g : AbortWorld n}
    (h : AbortRun links g) {r : Fin n} (hWhole : (links r).whole = false) :
    (g r).state.stage.contributed = false := by
  revert hWhole
  refine FifoNet.Reachable.forall_node (L := fun r node => (links r).whole = false →
    node.state.stage.contributed = false) ?_ ?_ h r
  · intro states hInit r _
    show (states r).stage.contributed = false
    rw [(hInit r).1]
    rfl
  · intro g r input state out _ hAll hFires hWhole
    have hOld := hAll r hWhole
    have hStep := abortStep_of_eq hFires.acts
    cases hStep
    case enter => rfl
    case goOn a turn hStage hResult hTurn | finish a turn flag hStage hResult hTurn =>
      rw [hStage] at hOld
      obtain ⟨own, phase⟩ := a
      show turn.abortStage.contributed = false
      generalize abortInput input = input at hTurn
      cases hTurn
      case collect => rfl
      case contribute hTrue _ _ _ | decide hTrue _ _ => simp [hWhole] at hTrue
      case learn hPhase _ | tell hPhase | finish hPhase =>
        subst hPhase
        cases hOld

/-- Where the calls of `abortReduce` agree, they all return. -/
theorem exists_returned {links : Fin n → Links n}
    (hAgrees : ∀ g, AbortRun links g → AbortAgrees links g) :
    ∃ g, AbortRun links g ∧ ∀ r, ∃ flag, (g r).state.stage = .after flag := by
  have hStart : AbortRun links (FifoNet.fresh fun _ => ⟨false, false, false, .before⟩) :=
    .start fun _ => ⟨rfl, rfl⟩
  have hStep : ∀ g, AbortRun links g → ¬ (∀ r, ∃ flag, (g r).state.stage = .after flag) →
      ∃ g', FifoNet.Leads (abortLoop links) g g' ∧ AbortRun links g' ∧
        turnsLeft links g' < turnsLeft links g := by
    intro g hRun hNot
    push Not at hNot
    obtain ⟨r, input, state, out, hFires, -⟩ := (hAgrees g hRun).progress hNot
    obtain ⟨event, hStep⟩ := hFires.exists_step
    exact ⟨_, hFires.leads, hRun.fires hFires, turnsLeft_step hStep⟩
  obtain ⟨g, -, hRun, hAll⟩ := FifoNet.exists_leads (turnsLeft links) hStep hStart
  exact ⟨g, hRun, hAll⟩

/-- A rank that lists a number that is no rank keeps the calls from agreeing. -/
theorem not_agrees_of_not_whole {links : Fin n → Links n} {r : Fin n}
    (hWhole : (links r).whole = false) : ¬ ∀ g, AbortRun links g → AbortAgrees links g := by
  intro hAgrees
  obtain ⟨g, hRun, hAll⟩ := exists_returned hAgrees
  obtain ⟨flag, hStage⟩ := hAll r
  have hNot := hRun.not_contributed hWhole
  rw [hStage] at hNot
  cases hNot

/-! ## Agreement -/

/-- All ranks agree on abort, exactly where the products of rank and width fit
an `int`: then the ranks read their neighbours in the tree, `abortReduce` comes
to an end on all ranks with the disjunction of their flags, and at the end of
`mainLoop` all ranks write a checkpoint or none does. -/
theorem abort_agreement (cfg : Config n) {procNull : Int} (hNull : procNull < 0)
    (hRanks : n < 2 ^ 31) (hWidth : cfg.width < 2 ^ 31) :
    ((∃ links : Fin n → Links n,
        (∀ rank, intLinks procNull cfg.width rank = some (links rank)) ∧
        ∀ g, AbortRun links g → AbortAgrees links g) ∧
      ∀ g, Execution cfg FifoNet.always g → CheckpointAgrees g) ↔
      WidthFits n cfg.width := by
  constructor
  · rintro ⟨⟨links, hLinks, hAgrees⟩, -⟩
    by_contra hNot
    obtain ⟨r, hWhole⟩ := exists_not_whole cfg hNull hRanks hWidth hNot hLinks
    exact not_agrees_of_not_whole hWhole hAgrees
  · intro hFits
    exact ⟨⟨cfg.links, intLinks_of_fits cfg hNull hRanks hWidth hFits, fun _ h => h.agrees⟩,
      fun _ h => h.checkpointAgrees⟩

/-- The two ranks of a binary tree. -/
theorem abort_agreement_pair :
    (∃ links : Fin 2 → Links 2,
      (∀ rank, intLinks (-2) (pairConfig true false).width rank = some (links rank)) ∧
      ∀ g, AbortRun links g → AbortAgrees links g) ∧
    ∀ g, Execution (pairConfig true false) FifoNet.always g → CheckpointAgrees g :=
  (abort_agreement (pairConfig true false) (by decide) (by decide) (by decide)).mpr
    (WidthFits.of_le (by decide))

theorem intMax_pos : 0 < intMax := by decide

/-- Two ranks at the greatest width. -/
def wideConfig : Config 2 where
  size_pos := Nat.zero_lt_two
  page := .usual
  width := intMax
  width_pos := intMax_pos
  termTree := true
  reduceEnabled := false
  splitEqual := true
  op := fun buf _ => buf

/-- At the greatest width rank 1 of two lists -2^31 as its first child, and does
not return. -/
theorem not_abort_agreement_wide :
    ∃ links : Fin 2 → Links 2, (∀ rank, intLinks (-2) wideConfig.width rank = some (links rank)) ∧
      (∀ g, AbortRun links g → ∀ flag, (g 1).state.stage ≠ .after flag) ∧
      ∃ g, AbortRun links g ∧ ¬ AbortAgrees links g := by
  obtain ⟨links, hLinks⟩ := exists_intLinks wideConfig (-2)
  have hWhole : (links 1).whole = false :=
    not_whole_of_wide wideConfig (by decide) (by decide) (by decide) (by decide) (by decide)
      (Or.inl (by decide)) (hLinks 1)
  refine ⟨links, hLinks, fun g hRun flag hStage => ?_, ?_⟩
  · have hNot := hRun.not_contributed hWhole
    rw [hStage] at hNot
    cases hNot
  · have hNot := not_agrees_of_not_whole hWhole
    push Not at hNot
    exact hNot

end Circle
