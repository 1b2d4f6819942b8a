import Circle.Base.Combine
import Circle.Protocol.Reductions

/-!
# The contributions to a round

Where the root has a valid round, every rank has taken part in it, and what
they have put into it adds up along the tree (`AddsUp`).  The same holds of the
last reduction.
-/

namespace Circle

open FifoNet (Log inFlight)

variable {n : Nat} {cfg : Config n} {rank : Fin n} {input : Input n} {s s' : State n}
  {out : Option (Packet n)} {ok : World n → Fin n → Event n → Prop} {g g' : World n}

/-! ## Reports taken in -/

section Tally

variable {op : ReduceBuf → ReduceBuf → ReduceBuf} {t : Tally} {log : List Report}

/-- One invalid report makes the result invalid. -/
theorem Tally.valid_of_absorbAll (h : (t.absorbAll op log).valid = true) :
    t.valid = true ∧ Report.invalid ∉ log := by
  induction log generalizing t with
  | nil => exact ⟨h, List.not_mem_nil⟩
  | cons report rest ih =>
      obtain ⟨hValid, hRest⟩ := ih (t := t.absorb op report) h
      cases report with
      | invalid => cases hValid
      | valid count value => exact ⟨hValid, by simpa using hRest⟩

/-- What comes of valid reports. -/
theorem Tally.absorbAll_valid {ι : Type} (count : ι → Int) (value : ι → ReduceBuf) (l : List ι)
    (hValid : t.valid = true) :
    t.absorbAll op (l.map fun c => .valid (count c) (value c)) =
      { valid := true
        count := t.count + (l.map count).sum
        value := (l.map value).foldl op t.value } := by
  induction l using List.reverseRecOn with
  | nil => simp [← hValid]
  | append_singleton front c ih =>
      rw [List.map_append, List.map_singleton, Tally.absorbAll_snoc, ih]
      simp [Tally.absorb, Int.add_assoc]

end Tally

/-! ## The rounds of neighbours -/

/-- A valid answer is the reply that came out of a round. -/
theorem Reduce.round_of_response {r : Reduce n} {k : Nat} {count : Int} {value : ReduceBuf}
    (h : r.responses[k]? = some (.valid count value)) :
    ∃ y, r.rounds[k]? = some y ∧ y.valid = true ∧ y.count = count ∧ y.value = value := by
  rw [Reduce.responses, List.getElem?_append] at h
  split at h
  next =>
    rw [List.getElem?_map] at h
    obtain ⟨y, hy, hReport⟩ := Option.map_eq_some_iff.mp h
    unfold Round.report at hReport
    split at hReport
    next hValid =>
      cases hReport
      exact ⟨y, hy, hValid, rfl, rfl⟩
    next => cases hReport
  next =>
    have hMem := List.mem_of_getElem? h
    cases List.eq_of_mem_replicate hMem

/-- A valid round is answered with a valid report. -/
theorem Reduce.response_of_round {r : Reduce n} {k : Nat} {y : Round} (h : r.rounds[k]? = some y)
    (hValid : y.valid = true) : r.responses[k]? = some (.valid y.count y.value) := by
  have hLess := (List.getElem?_eq_some_iff.mp h).1
  rw [Reduce.responses, List.getElem?_append_left (by simpa using hLess), List.getElem?_map, h]
  simp [Round.report, hValid]

/-- The report that a round has taken in is the child's answer to that
round. -/
theorem Execution.response_eq (h : Execution cfg ok g) {p c : Fin n}
    (hParent : cfg.tree.parent c = some p) {k : Nat}
    (hLess : k < (g p).state.reduce.rounds.length) :
    (g c).state.reduce.responses[k]? = some (reportAt (g p).rcvd k c) := by
  obtain ⟨hInv, hAnswered⟩ := h.reductions
  obtain ⟨order, hGathers⟩ := (hInv p).gathers
  have hHeard : k < (heard (g p).rcvd c).length := by
    have hLength := hGathers.length_eq c (cfg.tree.mem_children hParent)
    omega
  have hAnswer : k < (g c).state.reduce.responses.length :=
    Nat.lt_of_lt_of_le hLess (hAnswered p c hParent)
  have hPrefix := ((hInv c).upward p hParent).read_initial (h.fifo c p .reduce)
  obtain ⟨rest, hRest⟩ := hPrefix
  have hSpoken : (g c).state.reduce.spoken[k]? = (heard (g p).rcvd c)[k]? := by
    rw [← hRest]
    exact List.getElem?_append_left hHeard
  rw [Reduce.spoken, List.getElem?_append_left hAnswer] at hSpoken
  rw [hSpoken, reportAt, List.getD_eq_getElem?_getD, List.getElem?_eq_getElem hHeard]
  rfl

/-- Every child has taken part in a valid round. -/
theorem Execution.child_round (h : Execution cfg ok g) {p c : Fin n}
    (hParent : cfg.tree.parent c = some p) {k : Nat} {x : Round}
    (hRound : (g p).state.reduce.rounds[k]? = some x) (hValid : x.valid = true) :
    ∃ y, (g c).state.reduce.rounds[k]? = some y ∧ y.valid = true ∧
      reportAt (g p).rcvd k c = .valid y.count y.value := by
  have hResponse := h.response_eq hParent (List.getElem?_eq_some_iff.mp hRound).1
  obtain ⟨order, hPerm, hMade⟩ := ((h.reductions.1 p).books).rounds k x hRound
  have hTally : ((Tally.start x.init).absorbAll cfg.op (order.map (reportAt (g p).rcvd k))).valid =
      true := by
    rw [← hMade]
    exact hValid
  have hNot := (Tally.valid_of_absorbAll hTally).2
  cases hReport : reportAt (g p).rcvd k c with
  | invalid =>
      refine (hNot ?_).elim
      rw [← hReport]
      exact List.mem_map_of_mem (hPerm.mem_iff.mpr (cfg.tree.mem_children hParent))
  | valid count value =>
      rw [hReport] at hResponse
      obtain ⟨y, hy, hyValid, rfl, rfl⟩ := Reduce.round_of_response hResponse
      exact ⟨y, hy, hyValid, rfl⟩

/-! ## Adding up -/

/-- Each rank has added what its children have reported to its own
contribution. -/
def AddsUp (cfg : Config n) (y : Fin n → Round) : Prop :=
  ∀ p, (y p).count = (y p).sample + ((cfg.tree.children p).map fun c => (y c).count).sum ∧
    (y p).value = ((cfg.tree.children p).map fun c => (y c).value).foldl cfg.op (y p).init

section AddsUp

variable {y : Fin n → Round}

/-- The root has the sum of all samples. -/
theorem AddsUp.count_root (h : AddsUp cfg y) : (y cfg.tree.root).count = ∑ r, (y r).sample :=
  cfg.tree.root_eq_sum (X := fun r => (y r).count) fun r => (h r).1

/-- The root has the combination of all contributions. -/
theorem AddsUp.value_root [Std.Associative cfg.op] [Std.Commutative cfg.op] (h : AddsUp cfg y) :
    combineAll cfg.op ((List.finRange n).map fun r => (y r).init) =
      some (y cfg.tree.root).value := by
  have hBelow := cfg.tree.combineAll_below (fun r => (h r).2) cfg.tree.root
  rw [← hBelow]
  refine combineAll_perm (List.Perm.map _ ?_)
  exact (cfg.tree.below_root_perm (List.nodup_finRange n) List.mem_finRange).symm

/-- A round that is made of the valid reports of some ranks. -/
theorem Round.Made.eq_sum {rcvd : Log (Fin n) Tag Msg} {k : Nat} {x : Round} {order : List (Fin n)}
    (h : x.Made cfg rcvd k order)
    (hReports : ∀ c ∈ order, reportAt rcvd k c = .valid (y c).count (y c).value) :
    x.count = x.sample + (order.map fun c => (y c).count).sum ∧
      x.value = (order.map fun c => (y c).value).foldl cfg.op x.init := by
  unfold Round.Made at h
  rw [List.map_congr_left hReports, Tally.absorbAll_valid _ _ _ rfl, Round.tally,
    Tally.mk.injEq] at h
  obtain ⟨-, hCount, hValue⟩ := h
  refine ⟨?_, hValue⟩
  simp only [Tally.start] at hCount
  omega

end AddsUp

/-! ## A round of the root -/

/-- All ranks have taken part in a valid round of the root. -/
theorem Execution.all_valid (h : Execution cfg ok g) {k : Nat} {x : Round}
    (hRound : (g cfg.tree.root).state.reduce.rounds[k]? = some x) (hValid : x.valid = true)
    (r : Fin n) : ∃ y, (g r).state.reduce.rounds[k]? = some y ∧ y.valid = true := by
  refine cfg.tree.down_induction (P := fun r =>
    ∃ y, (g r).state.reduce.rounds[k]? = some y ∧ y.valid = true) ⟨x, hRound, hValid⟩ ?_ r
  rintro p c hParent ⟨y, hy, hyValid⟩
  obtain ⟨z, hz, hzValid, -⟩ := h.child_round hParent hy hyValid
  exact ⟨z, hz, hzValid⟩

/-- In the background the children report in any order. -/
theorem Execution.rounds_addsUp (h : Execution cfg ok g) [Std.Associative cfg.op]
    [Std.Commutative cfg.op] {k : Nat} {y : Fin n → Round}
    (hTaken : ∀ r, (g r).state.reduce.rounds[k]? = some (y r) ∧ (y r).valid = true) :
    AddsUp cfg y := by
  intro p
  obtain ⟨hRound, hValid⟩ := hTaken p
  obtain ⟨order, hPerm, hMade⟩ := ((h.reductions.1 p).books).rounds k (y p) hRound
  obtain ⟨hCount, hValue⟩ := hMade.eq_sum (y := y) fun c hMem => by
    have hParent := cfg.tree.parent_of_mem (hPerm.mem_iff.mp hMem)
    obtain ⟨z, hz, -, hReport⟩ := h.child_round hParent hRound hValid
    rw [(hTaken c).1, Option.some.injEq] at hz
    rw [hReport, hz]
  rw [← (hPerm.map fun c => (y c).count).sum_eq, hValue]
  exact ⟨hCount, foldl_perm (hPerm.map _) _⟩

/-! ## The last reduction -/

/-- The report of a child in the last reduction is what it has put into it. -/
theorem Execution.child_last (h : Execution cfg ok g) {p c : Fin n}
    (hParent : cfg.tree.parent c = some p) (hLast : (g p).state.reduce.last ≠ none) :
    ∃ y, (g c).state.reduce.last = some y ∧
      reportAt (g p).rcvd (g p).state.reduce.rounds.length c = .valid y.count y.value := by
  obtain ⟨hInv, hAnswered⟩ := h.reductions
  obtain ⟨order, hGathers⟩ := (hInv p).gathers
  have hMem := cfg.tree.mem_children hParent
  have hHeard : (heard (g p).rcvd c).length = (g p).state.reduce.rounds.length + 1 := by
    rw [hGathers.length_eq c hMem, hGathers.ended hLast, if_pos hMem]
  -- the child has answered the rounds of the parent, and no others
  have hLeft := (h.reduceShape p (hInv p).running).leftBarrier hLast
  have hClosed := isOpen_eq_false (noRound_of_left h hInv hLeft p).2
  have hStarts := responses_le h hInv hParent
  have hAnswers := hAnswered p c hParent
  have hLength : (g c).state.reduce.responses.length = (g p).state.reduce.rounds.length := by
    simp only [Reduce.startsTo, hClosed] at hStarts
    simp at hStarts
    omega
  have hPrefix := ((hInv c).upward p hParent).read_initial (h.fifo c p .reduce)
  cases hSome : (g c).state.reduce.last with
  | none =>
      have hShort := hPrefix.length_le
      rw [Reduce.spoken, hSome, List.length_append] at hShort
      simp only [Option.map_none, Option.toList_none, List.length_nil] at hShort
      unfold heard at hHeard
      omega
  | some y =>
      refine ⟨y, rfl, ?_⟩
      have hSpoken : heard (g p).rcvd c = (g c).state.reduce.spoken := by
        refine hPrefix.eq_of_length ?_
        rw [Reduce.spoken, List.length_append, hLength, hSome]
        exact hHeard
      have hReport : Round.report y = .valid y.count y.value := by
        simp [Round.report, ((hInv c).books.last y hSome).1]
      refine reportAt_last ?_ hLength
      rw [hSpoken, Reduce.spoken, hSome, ← hReport]
      rfl

/-- Once the root has ended the last reduction, all ranks have. -/
theorem Execution.all_last (h : Execution cfg ok g)
    (hLast : (g cfg.tree.root).state.reduce.last ≠ none) (r : Fin n) :
    ∃ y, (g r).state.reduce.last = some y := by
  refine cfg.tree.down_induction (P := fun r => ∃ y, (g r).state.reduce.last = some y)
    (Option.ne_none_iff_exists'.mp hLast) ?_ r
  rintro p c hParent ⟨y, hy⟩
  obtain ⟨z, hz, -⟩ := h.child_last hParent (by simp [hy])
  exact ⟨z, hz⟩

/-- In the last reduction the children report in the order of the tree. -/
theorem Execution.last_addsUp (h : Execution cfg ok g) {y : Fin n → Round}
    (hTaken : ∀ r, (g r).state.reduce.last = some (y r)) : AddsUp cfg y := by
  intro p
  refine (((h.reductions.1 p).books).last (y p) (hTaken p)).2.2.eq_sum fun c hMem => ?_
  obtain ⟨z, hz, hReport⟩ := h.child_last (cfg.tree.parent_of_mem hMem) (by simp [hTaken p])
  rw [hTaken c, Option.some.injEq] at hz
  rw [hReport, hz]

end Circle
