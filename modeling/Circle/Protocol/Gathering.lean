import Circle.Protocol.Rounds

/-!
# Gathering the reports of a round

What a rank has heard from its children in the round at hand (`Gathers`): in
the background they report in any order, in the last reduction in the order of
the tree.  Both loops take in one report after the other (`Tallies`).
-/

namespace Circle

open FifoNet (Log inFlight)

variable {n : Nat} {cfg : Config n} {rank : Fin n} {input : Input n} {s s' : State n}
  {out : Option (Packet n)} {sent rcvd : Log (Fin n) Tag Msg} {sample : Int} {cleanup : Bool}
  {r r' : Reduce n} {turn : Turn n (Reduce n) Outcome}

/-! ## The reports of the children -/

/-- The reports that have come from a child. -/
def heard (rcvd : Log (Fin n) Tag Msg) (c : Fin n) : List Report :=
  reports.read none (rcvd c .reduce)

/-- The report of a child on a round. -/
def reportAt (rcvd : Log (Fin n) Tag Msg) (k : Nat) (c : Fin n) : Report :=
  (heard rcvd c).getD k .invalid

/-- Where a rank starts that has only its own contribution. -/
def Tally.start (init : ReduceBuf) : Tally := { valid := true, count := 0, value := init }

section Heard

theorem heard_add_self (rcvd : Log (Fin n) Tag Msg) (c : Fin n) (msg : Msg) :
    heard (rcvd.add c .reduce msg) c =
      heard rcvd c ++ reports.out (reports.after none (rcvd c .reduce)) msg := by
  rw [heard, FifoNet.Log.add_self, reports.read_snoc]
  rfl

theorem heard_add_of_ne (rcvd : Log (Fin n) Tag Msg) {c child : Fin n} (msg : Msg)
    (hNe : c ≠ child) : heard (rcvd.add child .reduce msg) c = heard rcvd c := by
  rw [heard, rcvd.add_of_peer_ne _ _ _ hNe]
  rfl

theorem reportAt_add_of_ne (rcvd : Log (Fin n) Tag Msg) {c child : Fin n} (msg : Msg) (k : Nat)
    (hNe : c ≠ child) : reportAt (rcvd.add child .reduce msg) k c = reportAt rcvd k c := by
  rw [reportAt, heard_add_of_ne rcvd msg hNe]
  rfl

/-- A report that has come stays as it is. -/
theorem reportAt_of_prefix {rcvd' : Log (Fin n) Tag Msg} {c : Fin n} {k : Nat}
    (hPrefix : rcvd c .reduce <+: rcvd' c .reduce) (hLess : k < (heard rcvd c).length) :
    reportAt rcvd' k c = reportAt rcvd k c := by
  obtain ⟨rest, hRest⟩ := Reader.read_prefix (R := reports) none hPrefix
  unfold reportAt heard at *
  rw [← hRest, List.getD_eq_getElem?_getD, List.getD_eq_getElem?_getD,
    List.getElem?_append_left hLess]

/-- The report that has just come is the last one. -/
theorem reportAt_last {rcvd' : Log (Fin n) Tag Msg} {c : Fin n} {log : List Report}
    {report : Report} (hHeard : heard rcvd' c = log ++ [report]) {k : Nat}
    (hLength : log.length = k) : reportAt rcvd' k c = report := by
  subst hLength
  rw [reportAt, hHeard, List.getD_eq_getElem?_getD, List.getElem?_concat_length]
  rfl

end Heard

namespace Reduce

/-- The children that are left in `reduceSync`. -/
def syncRest (r : Reduce n) : Option (List (Fin n)) :=
  match r.phase with
  | .syncChildren rest => some rest
  | .syncData child _ rest => some (child :: rest)
  | _ => none

/-- The count of a report of which only the header has come. -/
def pendingCount (r : Reduce n) (rcvd : Log (Fin n) Tag Msg) : Int :=
  match r.current with
  | some (c, _) => ((reports.after none (rcvd c .reduce)).map Prod.fst).getD 0
  | none => 0

/-- The members are what comes of the reports of some children. -/
def Tallies (cfg : Config n) (r : Reduce n) (rcvd : Log (Fin n) Tag Msg) (base : Int)
    (order : List (Fin n)) : Prop :=
  ∃ init value, r.initial = some init ∧ r.reduceBuf = some value ∧
    ({ valid := r.valid, count := r.count - base - r.pendingCount rcvd, value := value } : Tally) =
      (Tally.start init).absorbAll cfg.op (order.map (reportAt rcvd r.rounds.length))

end Reduce

section Tallies

variable {base : Int} {order : List (Fin n)} {child : Fin n}

theorem map_reportAt_add (rcvd : Log (Fin n) Tag Msg) (msg : Msg) (k : Nat)
    (hNot : child ∉ order) :
    order.map (reportAt (rcvd.add child .reduce msg) k) = order.map (reportAt rcvd k) := by
  refine List.map_congr_left fun c hMem => reportAt_add_of_ne rcvd msg k ?_
  rintro rfl
  exact hNot hMem

/-- The header of a valid report. -/
theorem Reduce.Tallies.header (h : r.Tallies cfg rcvd base order) (hCurrent : r.current = none)
    (hNot : child ∉ order) (hAfter : reports.after none (rcvd child .reduce) = none)
    {count bytes : Int} (hBytes : 0 < bytes) (hInit : r'.initial = r.initial)
    (hBuf : r'.reduceBuf = r.reduceBuf) (hValid : r'.valid = r.valid)
    (hCount : r'.count = r.count + count) (hRounds : r'.rounds = r.rounds)
    (hCurrent' : r'.current = some (child, bytes)) :
    r'.Tallies cfg (rcvd.add child .reduce (.longs true count bytes)) base order := by
  obtain ⟨init, value, hi, hb, hTally⟩ := h
  refine ⟨init, value, hInit.trans hi, hBuf.trans hb, ?_⟩
  rw [hRounds, map_reportAt_add rcvd _ _ hNot, ← hTally]
  simp only [Reduce.pendingCount, hCurrent, hCurrent', hValid, hCount, FifoNet.Log.add_self,
    reports.after_snoc, hAfter]
  have hSum : r.count + count - base - count = r.count - base := by omega
  simp [reports, hSum, Int.ne_of_gt hBytes]

/-- An invalid report. -/
theorem Reduce.Tallies.invalid (h : r.Tallies cfg rcvd base order) (hCurrent : r.current = none)
    (hNot : child ∉ order) (hAfter : reports.after none (rcvd child .reduce) = none)
    (hLength : (heard rcvd child).length = r.rounds.length)
    {count bytes : Int} (hInit : r'.initial = r.initial) (hBuf : r'.reduceBuf = r.reduceBuf)
    (hValid : r'.valid = false) (hCount : r'.count = r.count)
    (hRounds : r'.rounds = r.rounds) (hCurrent' : r'.current = none) :
    r'.Tallies cfg (rcvd.add child .reduce (.longs false count bytes)) base (order ++ [child]) := by
  obtain ⟨init, value, hi, hb, hTally⟩ := h
  refine ⟨init, value, hInit.trans hi, hBuf.trans hb, ?_⟩
  have hHeard := heard_add_self rcvd child (.longs false count bytes)
  rw [hAfter] at hHeard
  rw [List.map_append, List.map_singleton, Tally.absorbAll_snoc, hRounds,
    map_reportAt_add rcvd _ _ hNot, reportAt_last hHeard hLength, ← hTally]
  simp [Reduce.pendingCount, hCurrent, hCurrent', hValid, hCount, Tally.absorb]

/-- A valid report without user data. -/
theorem Reduce.Tallies.bare (h : r.Tallies cfg rcvd base order) (hCurrent : r.current = none)
    (hNot : child ∉ order) (hAfter : reports.after none (rcvd child .reduce) = none)
    (hLength : (heard rcvd child).length = r.rounds.length)
    {count : Int} (hInit : r'.initial = r.initial)
    (hBuf : r'.reduceBuf = r.reduceBuf.map fun buf => if r.valid then cfg.op buf .null else buf)
    (hValid : r'.valid = r.valid) (hCount : r'.count = r.count + count)
    (hRounds : r'.rounds = r.rounds) (hCurrent' : r'.current = none) :
    r'.Tallies cfg (rcvd.add child .reduce (.longs true count 0)) base (order ++ [child]) := by
  obtain ⟨init, value, hi, hb, hTally⟩ := h
  refine ⟨init, if r.valid then cfg.op value .null else value, hInit.trans hi, ?_, ?_⟩
  · rw [hBuf, hb]
    rfl
  have hHeard := heard_add_self rcvd child (.longs true count 0)
  rw [hAfter] at hHeard
  rw [List.map_append, List.map_singleton, Tally.absorbAll_snoc, hRounds,
    map_reportAt_add rcvd _ _ hNot, reportAt_last hHeard hLength, ← hTally]
  have hSum : r.count + count - base = r.count - base + count := by omega
  simp [Reduce.pendingCount, hCurrent, hCurrent', hValid, hCount, Tally.absorb, hSum]

/-- The user data of a report. -/
theorem Reduce.Tallies.data (h : r.Tallies cfg rcvd base order) {count bytes : Int}
    (hCurrent : r.current = some (child, bytes)) (hNot : child ∉ order)
    (hAfter : reports.after none (rcvd child .reduce) = some (count, bytes))
    (hLength : (heard rcvd child).length = r.rounds.length) {inbuf : ReduceBuf}
    (hInit : r'.initial = r.initial)
    (hBuf : r'.reduceBuf = r.reduceBuf.map fun buf => if r.valid then cfg.op buf inbuf else buf)
    (hValid : r'.valid = r.valid) (hCount : r'.count = r.count)
    (hRounds : r'.rounds = r.rounds) (hCurrent' : r'.current = none) :
    r'.Tallies cfg (rcvd.add child .reduce (.data inbuf)) base (order ++ [child]) := by
  obtain ⟨init, value, hi, hb, hTally⟩ := h
  refine ⟨init, if r.valid then cfg.op value inbuf else value, hInit.trans hi, ?_, ?_⟩
  · rw [hBuf, hb]
    rfl
  have hHeard := heard_add_self rcvd child (.data inbuf)
  rw [hAfter] at hHeard
  rw [List.map_append, List.map_singleton, Tally.absorbAll_snoc, hRounds,
    map_reportAt_add rcvd _ _ hNot, reportAt_last hHeard hLength, ← hTally]
  simp [Reduce.pendingCount, hCurrent, hCurrent', hValid, hCount, Tally.absorb, hAfter]

end Tallies

/-- What a rank has heard in the round at hand: `order` are the children whose
report has come, in the order in which they have been taken in. -/
structure Gathers (cfg : Config n) (rank : Fin n) (sample : Int) (r : Reduce n)
    (rcvd : Log (Fin n) Tag Msg) (order : List (Fin n)) : Prop where
  nodup : order.Nodup
  sub : ∀ c ∈ order, c ∈ cfg.tree.children rank
  length_eq : ∀ c ∈ cfg.tree.children rank,
    (heard rcvd c).length = r.rounds.length + if c ∈ order then 1 else 0
  whole : ∀ c ∈ cfg.tree.children rank, (∀ bytes, r.current ≠ some (c, bytes)) →
    reports.after none (rcvd c .reduce) = none
  current : ∀ c bytes, r.current = some (c, bytes) →
    c ∉ order ∧ ∃ count, reports.after none (rcvd c .reduce) = some (count, bytes)
  opened : r.isOpen = true →
    r.reduceReplies = order.length + (if r.current.isSome then 1 else 0) ∧
      r.Tallies cfg rcvd 0 order
  sync : ∀ rest, r.syncRest = some rest →
    order ++ rest = cfg.tree.children rank ∧ r.Tallies cfg rcvd sample order
  resting : r.isOpen = false → r.syncRest = none → r.last = none → order = []
  ended : r.last ≠ none → order = cfg.tree.children rank

section Gathers

variable {order : List (Fin n)} {child : Fin n}

theorem Gathers.not_mem (h : Gathers cfg rank sample r rcvd order)
    (hMem : child ∈ cfg.tree.children rank) (hLength : (heard rcvd child).length = r.rounds.length) :
    child ∉ order := by
  intro hOrder
  have hCount := h.length_eq child hMem
  rw [if_pos hOrder] at hCount
  omega

/-- Once all children have replied, each of them has been heard once. -/
theorem Gathers.perm (h : Gathers cfg rank sample r rcvd order)
    (hLength : order.length = (cfg.tree.children rank).length) :
    order.Perm (cfg.tree.children rank) :=
  (h.nodup.subperm h.sub).perm_of_length_le (Nat.le_of_eq hLength.symm)

/-- Only the phase changes. -/
theorem Gathers.phase (h : Gathers cfg rank sample r rcvd order) (phase : ReducePhase n)
    (hOpen : ({ r with phase := phase } : Reduce n).isOpen = r.isOpen)
    (hCurrent : ({ r with phase := phase } : Reduce n).current = r.current)
    (hSync : ({ r with phase := phase } : Reduce n).syncRest = r.syncRest) :
    Gathers cfg rank sample { r with phase := phase } rcvd order := by
  have hTallies (base : Int) (hOld : r.Tallies cfg rcvd base order) :
      ({ r with phase := phase } : Reduce n).Tallies cfg rcvd base order := by
    obtain ⟨init, value, hInit, hBuf, hTally⟩ := hOld
    refine ⟨init, value, hInit, hBuf, ?_⟩
    simpa [Reduce.pendingCount, hCurrent] using hTally
  constructor
  case nodup => exact h.nodup
  case sub => exact h.sub
  case length_eq => exact h.length_eq
  case whole =>
    rw [hCurrent]
    exact h.whole
  case current =>
    rw [hCurrent]
    exact h.current
  case opened =>
    rw [hOpen, hCurrent]
    exact fun hIsOpen => (h.opened hIsOpen).imp_right (hTallies 0)
  case sync =>
    rw [hSync]
    exact fun rest hRest => (h.sync rest hRest).imp_right (hTallies sample)
  case resting =>
    rw [hOpen, hSync]
    exact h.resting
  case ended => exact h.ended

/-- No round is at hand, before and after. -/
theorem Gathers.rest (h : Gathers cfg rank sample r rcvd order) {rcvd' : Log (Fin n) Tag Msg}
    (hOpen : r.isOpen = false) (hSync : r.syncRest = none) (hCurrent : r.current = none)
    (hOpen' : r'.isOpen = false) (hSync' : r'.syncRest = none) (hCurrent' : r'.current = none)
    (hRounds : r'.rounds = r.rounds) (hLast : r'.last = r.last)
    (hRcvd : ∀ c ∈ cfg.tree.children rank, rcvd' c .reduce = rcvd c .reduce) (sample' : Int) :
    Gathers cfg rank sample' r' rcvd' order where
  nodup := h.nodup
  sub := h.sub
  length_eq := by
    intro c hMem
    rw [heard, hRcvd c hMem, hRounds]
    exact h.length_eq c hMem
  whole := by
    intro c hMem _
    rw [hRcvd c hMem]
    exact h.whole c hMem (by simp [hCurrent])
  current := by simp [hCurrent']
  opened := by simp [hOpen']
  sync := by simp [hSync']
  resting := by
    intro _ _ hNone
    exact h.resting hOpen hSync (hLast ▸ hNone)
  ended := by
    rw [hLast]
    exact h.ended

/-- Nothing comes from a child. -/
theorem Gathers.frame (h : Gathers cfg rank sample r rcvd order) {rcvd' : Log (Fin n) Tag Msg}
    (hRcvd : ∀ c, rcvd' c .reduce = rcvd c .reduce) {sample' : Int}
    (hSample : r.syncRest ≠ none → sample' = sample) : Gathers cfg rank sample' r rcvd' order := by
  have hHeard : heard rcvd' = heard rcvd := funext fun c => by rw [heard, heard, hRcvd]
  have hTallies (base : Int) (hOld : r.Tallies cfg rcvd base order) :
      r.Tallies cfg rcvd' base order := by
    unfold Reduce.Tallies Reduce.pendingCount reportAt at hOld ⊢
    simpa only [hHeard, hRcvd] using hOld
  constructor
  case nodup => exact h.nodup
  case sub => exact h.sub
  case length_eq =>
    rw [hHeard]
    exact h.length_eq
  case whole =>
    intro c
    rw [hRcvd]
    exact h.whole c
  case current =>
    intro c
    rw [hRcvd]
    exact h.current c
  case opened => exact fun hOpen => (h.opened hOpen).imp_right (hTallies 0)
  case sync =>
    intro rest hRest
    rw [hSample (by simp [hRest])]
    exact (h.sync rest hRest).imp_right (hTallies sample)
  case resting => exact h.resting
  case ended => exact h.ended

/-- The header of a report with user data. -/
theorem Gathers.header (h : Gathers cfg rank sample r rcvd order)
    (hMem : child ∈ cfg.tree.children rank) (hCurrent : r.current = none)
    (hLength : (heard rcvd child).length = r.rounds.length) {count bytes : Int}
    (hBytes : 0 < bytes) (hCurrent' : r'.current = some (child, bytes))
    (hOpen : r'.isOpen = r.isOpen)
    (hSync : r'.syncRest = r.syncRest) (hRounds : r'.rounds = r.rounds) (hLast : r'.last = r.last)
    (hReplies : r.isOpen = true → r'.reduceReplies = r.reduceReplies + 1)
    (hInit : r'.initial = r.initial) (hBuf : r'.reduceBuf = r.reduceBuf)
    (hValid : r'.valid = r.valid) (hCount : r'.count = r.count + count) :
    Gathers cfg rank sample r' (rcvd.add child .reduce (.longs true count bytes)) order := by
  have hAfter := h.whole child hMem (by simp [hCurrent])
  have hNot := h.not_mem hMem hLength
  have hTallies (base : Int) (hOld : r.Tallies cfg rcvd base order) :=
    hOld.header hCurrent hNot hAfter hBytes hInit hBuf hValid hCount hRounds hCurrent'
  constructor
  case nodup => exact h.nodup
  case sub => exact h.sub
  case length_eq =>
    intro c hc
    rw [hRounds, ← h.length_eq c hc]
    by_cases hSelf : c = child
    · subst hSelf
      rw [heard_add_self, hAfter]
      simp [reports, Int.ne_of_gt hBytes]
    · rw [heard_add_of_ne rcvd _ hSelf]
  case whole =>
    intro c hc hOther
    have hNe : c ≠ child := by
      rintro rfl
      exact hOther bytes hCurrent'
    rw [rcvd.add_of_peer_ne _ _ _ hNe]
    exact h.whole c hc (by simp [hCurrent])
  case current =>
    intro c b hSome
    rw [hCurrent', Option.some.injEq, Prod.mk.injEq] at hSome
    obtain ⟨rfl, rfl⟩ := hSome
    refine ⟨hNot, count, ?_⟩
    rw [FifoNet.Log.add_self, reports.after_snoc, hAfter]
    exact if_neg (Int.ne_of_gt hBytes)
  case opened =>
    rw [hOpen]
    intro hIsOpen
    obtain ⟨hOld, hTally⟩ := h.opened hIsOpen
    refine ⟨?_, hTallies 0 hTally⟩
    rw [hReplies hIsOpen, hOld]
    simp [hCurrent, hCurrent']
  case sync =>
    rw [hSync]
    exact fun rest hRest => (h.sync rest hRest).imp_right (hTallies sample)
  case resting =>
    rw [hOpen, hSync, hLast]
    exact h.resting
  case ended =>
    rw [hLast]
    exact h.ended

/-- A report has come. -/
theorem Gathers.absorb (h : Gathers cfg rank sample r rcvd order)
    (hMem : child ∈ cfg.tree.children rank) (hNot : child ∉ order)
    (hLength : (heard rcvd child).length = r.rounds.length)
    (hOthers : ∀ c bytes, r.current = some (c, bytes) → c = child) {msg : Msg}
    (hOut : ((reports.out (reports.after none (rcvd child .reduce)) msg)).length = 1)
    (hNext : reports.next (reports.after none (rcvd child .reduce)) msg = none)
    (hCurrent' : r'.current = none) (hOpen : r'.isOpen = r.isOpen)
    (hRounds : r'.rounds = r.rounds) (hLast' : r'.last = none)
    (hReplies : r.isOpen = true → r'.reduceReplies = order.length + 1)
    (hSync : ∀ rest, r'.syncRest = some rest → r.syncRest = some (child :: rest))
    (hBusy : r.isOpen = true ∨ r'.syncRest ≠ none)
    (hTallies : ∀ base, r.Tallies cfg rcvd base order →
      r'.Tallies cfg (rcvd.add child .reduce msg) base (order ++ [child])) :
    Gathers cfg rank sample r' (rcvd.add child .reduce msg) (order ++ [child]) where
  nodup := by
    rw [List.nodup_append]
    refine ⟨h.nodup, List.nodup_singleton _, ?_⟩
    intro c hc other hOther
    rw [List.mem_singleton] at hOther
    rintro rfl
    exact hNot (hOther ▸ hc)
  sub := by
    intro c hc
    rcases List.mem_append.mp hc with hOld | hNew
    · exact h.sub c hOld
    · rw [List.mem_singleton.mp hNew]
      exact hMem
  length_eq := by
    intro c hc
    rw [hRounds]
    by_cases hSelf : c = child
    · subst hSelf
      simp [heard_add_self, hOut, hLength]
    · rw [heard_add_of_ne rcvd _ hSelf, h.length_eq c hc]
      simp [hSelf]
  whole := by
    intro c hc _
    by_cases hSelf : c = child
    · subst hSelf
      rw [FifoNet.Log.add_self, reports.after_snoc, hNext]
    · rw [rcvd.add_of_peer_ne _ _ _ hSelf]
      exact h.whole c hc fun bytes hSome => hSelf (hOthers c bytes hSome)
  current := by simp [hCurrent']
  opened := by
    rw [hOpen]
    intro hIsOpen
    refine ⟨?_, hTallies 0 (h.opened hIsOpen).2⟩
    rw [hReplies hIsOpen]
    simp [hCurrent']
  sync := by
    intro rest hRest
    obtain ⟨hSplit, hTally⟩ := h.sync _ (hSync rest hRest)
    refine ⟨?_, hTallies sample hTally⟩
    rw [List.append_assoc, List.singleton_append, hSplit]
  resting := by
    intro hClosed hNone _
    rcases hBusy with hIsOpen | hRest
    · rw [hOpen, hIsOpen] at hClosed
      cases hClosed
    · exact (hRest hNone).elim
  ended := fun hSome => (hSome hLast').elim

/-- A rank without a round at hand takes up one. -/
theorem Gathers.open (h : Gathers cfg rank sample r rcvd order) (hOpen : r.isOpen = false)
    (hSync : r.syncRest = none) (hCurrent : r.current = none) (hLast : r.last = none)
    {init : ReduceBuf} (hCurrent' : r'.current = none) (hRounds : r'.rounds = r.rounds)
    (hLast' : r'.last = none) (hInit : r'.initial = some init) (hBuf : r'.reduceBuf = some init)
    (hValid : r'.valid = true)
    (hBusy : r'.isOpen = true ∧ r'.syncRest = none ∧ r'.reduceReplies = 0 ∧ r'.count = 0 ∨
      r'.isOpen = false ∧ r'.syncRest = some (cfg.tree.children rank) ∧ r'.count = sample) :
    Gathers cfg rank sample r' rcvd [] := by
  obtain rfl := h.resting hOpen hSync hLast
  have hTallies (base : Int) (hBase : r'.count = base) : r'.Tallies cfg rcvd base [] := by
    refine ⟨init, init, hInit, hBuf, ?_⟩
    simp [Reduce.pendingCount, hCurrent', hValid, hBase, Tally.start]
  constructor
  case nodup => exact List.nodup_nil
  case sub => simp
  case length_eq =>
    rw [hRounds]
    exact h.length_eq
  case whole => exact fun c hMem _ => h.whole c hMem (by simp [hCurrent])
  case current => simp [hCurrent']
  case opened =>
    intro hIsOpen
    rcases hBusy with ⟨-, -, hReplies, hCount⟩ | ⟨hClosed, -⟩
    · exact ⟨by simp [hReplies, hCurrent'], hTallies 0 hCount⟩
    · simp [hClosed] at hIsOpen
  case sync =>
    intro rest hRest
    rcases hBusy with ⟨-, hNone, -⟩ | ⟨-, hAll, hCount⟩
    · simp [hNone] at hRest
    · rw [hAll, Option.some.injEq] at hRest
      exact ⟨hRest.symm, hTallies sample hCount⟩
  case resting => exact fun _ _ _ => rfl
  case ended => exact fun hSome => (hSome hLast').elim

/-- A round comes to its end. -/
theorem Gathers.finish (h : Gathers cfg rank sample r rcvd order)
    (hPerm : order.Perm (cfg.tree.children rank)) (hCurrent : r.current = none) {x : Round}
    (hRounds : r'.rounds = r.rounds ++ [x]) (hOpen' : r'.isOpen = false)
    (hSync' : r'.syncRest = none) (hCurrent' : r'.current = none) (hLast' : r'.last = none) :
    Gathers cfg rank sample r' rcvd [] where
  nodup := List.nodup_nil
  sub := by simp
  length_eq := by
    intro c hMem
    rw [h.length_eq c hMem, if_pos (hPerm.mem_iff.mpr hMem), hRounds]
    simp
  whole := fun c hMem _ => h.whole c hMem (by simp [hCurrent])
  current := by simp [hCurrent']
  opened := by simp [hOpen']
  sync := by simp [hSync']
  resting := fun _ _ _ => rfl
  ended := fun hSome => (hSome hLast').elim

/-- The last reduction comes to its end. -/
theorem Gathers.endLast (h : Gathers cfg rank sample r rcvd order) (hSync : r.syncRest = some [])
    (hCurrent : r.current = none) (hRounds : r'.rounds = r.rounds) (hOpen' : r'.isOpen = false)
    (hSync' : r'.syncRest = none) (hCurrent' : r'.current = none) (hLast' : r'.last ≠ none) :
    Gathers cfg rank sample r' rcvd (cfg.tree.children rank) := by
  have hAll := (h.sync [] hSync).1
  rw [List.append_nil] at hAll
  subst hAll
  constructor
  case nodup => exact h.nodup
  case sub => exact fun _ hMem => hMem
  case length_eq =>
    rw [hRounds]
    exact h.length_eq
  case whole => exact fun c hMem _ => h.whole c hMem (by simp [hCurrent])
  case current => simp [hCurrent']
  case opened => simp [hOpen']
  case sync => simp [hSync']
  case resting => exact fun _ _ hNone => (hLast' hNone).elim
  case ended => exact fun _ => rfl

/-- A report that is a header only comes in the background. -/
theorem Gathers.takeBare (h : Gathers cfg rank sample r rcvd order)
    (hReady : CheckReady cfg rank cleanup r) {rest : List (Fin n)}
    (hPhase : r.phase = .children (child :: rest))
    (hLength : (heard rcvd child).length = r.rounds.length) {msg : Msg} {report : Report}
    (hBare : msg.IsBare report) (hPhase' : r'.phase = .children rest)
    (hOutstanding' : r'.reduceOutstanding = r.reduceOutstanding)
    (hReplies' : r'.reduceReplies = r.reduceReplies + 1) (hRounds : r'.rounds = r.rounds)
    (hLast : r'.last = r.last)
    (hTallies : child ∉ order → reports.after none (rcvd child .reduce) = none →
      ∀ base, r.Tallies cfg rcvd base order →
        r'.Tallies cfg (rcvd.add child .reduce msg) base (order ++ [child])) :
    Gathers cfg rank sample r' (rcvd.add child .reduce msg) (order ++ [child]) := by
  have hFits := hReady.fits
  simp only [Reduce.Fits, hPhase] at hFits
  have hMem := hFits.2.subset List.mem_cons_self
  have hNot := h.not_mem hMem hLength
  have hCurrent : r.current = none := by simp [Reduce.current, hPhase]
  have hOpened : r.isOpen = true := by simp [Reduce.isOpen, hPhase, hFits.1]
  have hAfter := h.whole child hMem (by simp [hCurrent])
  refine h.absorb hMem hNot hLength ?_ ?_ ?_ ?_ ?_ hRounds (hLast.trans hReady.last) ?_ ?_
    (Or.inl hOpened) (hTallies hNot hAfter)
  · simp [hCurrent]
  · rw [hAfter, hBare.out_eq]
    rfl
  · rw [hAfter, hBare.next_eq]
  · simp [Reduce.current, hPhase']
  · simp [Reduce.isOpen, hPhase, hPhase', hOutstanding']
  · intro hOpen
    simp [hReplies', (h.opened hOpen).1, hCurrent]
  · simp [Reduce.syncRest, hPhase']

/-- The user data of a report comes in the background. -/
theorem Gathers.takeData (h : Gathers cfg rank sample r rcvd order)
    (hReady : CheckReady cfg rank cleanup r) {bytes : Int} {rest : List (Fin n)}
    (hPhase : r.phase = .data child bytes rest)
    (hLength : (heard rcvd child).length = r.rounds.length) (inbuf : ReduceBuf) :
    Gathers cfg rank sample { r.combineIfValid cfg inbuf with phase := .children rest }
      (rcvd.add child .reduce (.data inbuf)) (order ++ [child]) := by
  have hFits := hReady.fits
  simp only [Reduce.Fits, hPhase] at hFits
  have hMem := hFits.2.subset List.mem_cons_self
  have hCurrent : r.current = some (child, bytes) := by simp [Reduce.current, hPhase]
  obtain ⟨hNot, count, hAfter⟩ := h.current child bytes hCurrent
  have hOpened : r.isOpen = true := by simp [Reduce.isOpen, hPhase, hFits.1]
  refine h.absorb hMem hNot hLength ?_ ?_ ?_ ?_ ?_ rfl hReady.last ?_ ?_ (Or.inl hOpened) ?_
  · simp [hCurrent]
  · rw [hAfter]
    rfl
  · rw [hAfter]
    rfl
  · simp [Reduce.current]
  · simp [Reduce.isOpen, Reduce.combineIfValid, hPhase]
  · intro _
    simpa [Reduce.combineIfValid, hCurrent] using (h.opened hOpened).1
  · simp [Reduce.syncRest]
  · intro base hOld
    refine hOld.data hCurrent hNot hAfter hLength rfl rfl rfl rfl rfl ?_
    simp [Reduce.current]

/-- A report is whole in the last reduction. -/
theorem Gathers.takeSync (h : Gathers cfg rank sample r rcvd order) (hReady : SyncReady cfg rank r)
    (hMem : child ∈ cfg.tree.children rank) (hNot : child ∉ order)
    (hLength : (heard rcvd child).length = r.rounds.length)
    (hOthers : ∀ c bytes, r.current = some (c, bytes) → c = child) {msg : Msg}
    (hOut : ((reports.out (reports.after none (rcvd child .reduce)) msg)).length = 1)
    (hNext : reports.next (reports.after none (rcvd child .reduce)) msg = none)
    {rest : List (Fin n)} (hSync : r.syncRest = some (child :: rest))
    (hPhase' : r'.phase = .syncChildren rest)
    (hOutstanding' : r'.reduceOutstanding = r.reduceOutstanding) (hRounds : r'.rounds = r.rounds)
    (hLast' : r'.last = none)
    (hTallies : ∀ base, r.Tallies cfg rcvd base order →
      r'.Tallies cfg (rcvd.add child .reduce msg) base (order ++ [child])) :
    Gathers cfg rank sample r' (rcvd.add child .reduce msg) (order ++ [child]) := by
  -- no round is open: the count of the replies is not what carries the invariant here
  have hClosed : r.isOpen = false := by simp [Reduce.isOpen, hReady.closed]
  have hClosed' : r'.isOpen = false := by simp [Reduce.isOpen, hOutstanding', hReady.closed]
  have hSync' : r'.syncRest = some rest := by simp [Reduce.syncRest, hPhase']
  refine h.absorb hMem hNot hLength hOthers hOut hNext ?_ (hClosed'.trans hClosed.symm) hRounds
    hLast' ?_ ?_ (Or.inr ?_) hTallies
  · simp [Reduce.current, hPhase']
  · simp [hClosed]
  · intro others hEq
    rw [hSync', Option.some.injEq] at hEq
    rw [hSync, hEq]
  · simp [hSync']

/-- All children have replied, and the round comes to its end. -/
theorem Gathers.endRound (h : Gathers cfg rank sample r rcvd order)
    (hReady : CheckReady cfg rank cleanup r) (hPhase : r.phase = .children [])
    (hReplies : r.reduceReplies = (cfg.tree.children rank).length) {x : Round}
    (hRounds : r'.rounds = r.rounds ++ [x]) (hOpen' : r'.isOpen = false)
    (hSync' : r'.syncRest = none) (hCurrent' : r'.current = none) (hLast' : r'.last = r.last) :
    Gathers cfg rank sample r' rcvd [] := by
  have hOutstanding := outstanding_of_children hReady.fits hPhase
  have hCurrent : r.current = none := by simp [Reduce.current, hPhase]
  have hOpened : r.isOpen = true := by simp [Reduce.isOpen, hPhase, hOutstanding]
  have hLength : order.length = (cfg.tree.children rank).length := by
    rw [← hReplies, (h.opened hOpened).1]
    simp [hCurrent]
  exact h.finish (h.perm hLength) hCurrent hRounds hOpen' hSync' hCurrent'
    (hLast'.trans hReady.last)

theorem Gathers.reduceTurn (h : Gathers cfg rank sample r rcvd order)
    (hReady : CheckReady cfg rank cleanup r)
    (hTurn : ReduceTurn cfg rank sample cleanup r input turn)
    (hResult : turn.result ≠ some .failed)
    (hFresh : ∀ c msg, input = .recv c .reduce msg → c ∈ cfg.tree.children rank →
      (heard rcvd c).length = r.rounds.length) :
    ∃ order', Gathers cfg rank sample turn.record (rcvd.receive input) order' := by
  have hFits := hReady.fits
  unfold Reduce.Fits at hFits
  -- what comes from the parent does not come from a child
  have hUp {p : Fin n} (hParent : cfg.tree.parent rank = some p) (msg : Msg) :
      ∀ c ∈ cfg.tree.children rank, rcvd.add p .reduce msg c .reduce = rcvd c .reduce := by
    intro c hMem
    refine rcvd.add_of_peer_ne _ _ _ ?_
    rintro rfl
    exact cfg.tree.not_mem_children_of_parent hParent hMem
  cases hTurn
  case badStart | badHeader | badData => exact (hResult rfl).elim
  case idle => exact ⟨order, h⟩
  case resume hPhase _ | kick hPhase | kicked hPhase | skip hPhase | wait hPhase _ |
      fire hPhase _ _ _ =>
    -- these turns only move the phase
    refine ⟨order, h.phase _ ?_ ?_ ?_⟩ <;>
      simp [Reduce.isOpen, Reduce.current, Reduce.syncRest, hPhase]
  case begin hPhase hOutstanding hParent _ =>
    refine ⟨order, h.rest ?_ ?_ ?_ ?_ ?_ ?_ ?_ ?_ (hUp hParent _) _⟩ <;>
      simp [Turn.stays, Reduce.isOpen, Reduce.current, Reduce.syncRest, hPhase, hOutstanding]
  case refuse hPhase hOutstanding hParent _ =>
    refine ⟨order, h.rest ?_ ?_ ?_ ?_ ?_ ?_ ?_ ?_ (hUp hParent _) _⟩ <;>
      simp [Turn.sendsAndReturns, Reduce.isOpen, Reduce.current, Reduce.syncRest, hPhase,
        hOutstanding]
  case init buf hPhase =>
    rw [hPhase] at hFits
    refine ⟨[], h.open ?_ ?_ ?_ hReady.last ?_ rfl hReady.last rfl rfl rfl (Or.inl ?_)⟩ <;>
      simp [Turn.stays, Reduce.isOpen, Reduce.current, Reduce.syncRest, hPhase, hFits.1]
  case header child rest count bytes hPhase hBytes =>
    rw [hPhase] at hFits
    have hMem := hFits.2.subset List.mem_cons_self
    refine ⟨order, h.header hMem ?_ (hFresh _ _ rfl hMem) hBytes ?_ ?_ ?_ rfl rfl (fun _ => rfl)
      rfl rfl rfl rfl⟩ <;>
      simp [Turn.stays, Reduce.isOpen, Reduce.current, Reduce.syncRest, hPhase]
  case invalid child rest count bytes hPhase =>
    rw [hPhase] at hFits
    have hLength := hFresh _ _ rfl (hFits.2.subset List.mem_cons_self)
    refine ⟨order ++ [child], h.takeBare hReady hPhase hLength (.invalid count bytes) rfl rfl rfl rfl
      rfl fun hNot hAfter base hOld => ?_⟩
    refine hOld.invalid ?_ hNot hAfter hLength rfl rfl rfl rfl rfl ?_ <;>
      simp [Turn.stays, Reduce.current, hPhase]
  case bare child rest count hPhase =>
    rw [hPhase] at hFits
    have hLength := hFresh _ _ rfl (hFits.2.subset List.mem_cons_self)
    refine ⟨order ++ [child], h.takeBare hReady hPhase hLength (.valid count) rfl rfl rfl rfl rfl
      fun hNot hAfter base hOld => ?_⟩
    refine hOld.bare ?_ hNot hAfter hLength rfl rfl rfl rfl rfl ?_ <;>
      simp [Turn.stays, Reduce.current, hPhase]
  case data child bytes rest inbuf hPhase _ =>
    rw [hPhase] at hFits
    have hLength := hFresh _ _ rfl (hFits.2.subset List.mem_cons_self)
    exact ⟨order ++ [child], h.takeData hReady hPhase hLength inbuf⟩
  case report hPhase hReplies _ _ | reportBare hPhase hReplies _ _ | deliver hPhase hReplies _ _ |
      discard hPhase hReplies _ _ =>
    -- the round ends in four ways, with the same record of it
    obtain ⟨⟨init, hInit⟩, value, hBuf⟩ :=
      hReady.buffers (outstanding_of_children hReady.fits hPhase)
    let x : Round := ⟨init, sample, r.valid, r.count + sample, value⟩
    refine ⟨[], h.endRound hReady hPhase hReplies (x := x) ?_ ?_ ?_ ?_ ?_⟩ <;>
      simp [Turn.sends, Turn.sendsAndReturns, Turn.returns, Reduce.endRound, Reduce.finalize,
        Reduce.round, Reduce.isOpen, Reduce.current, Reduce.syncRest, x, *]
  case sendData hPhase _ _ =>
    refine ⟨order, h.rest ?_ ?_ ?_ ?_ ?_ ?_ ?_ ?_ (fun _ _ => rfl) _⟩ <;>
      simp [Turn.sendsAndReturns, Reduce.isOpen, Reduce.current, Reduce.syncRest, hPhase]

theorem Gathers.syncTurn (h : Gathers cfg rank sample r rcvd order)
    (hReady : SyncReady cfg rank r) (hTurn : SyncTurn cfg rank sample r input turn)
    (hResult : turn.result ≠ some .failed)
    (hFresh : ∀ c msg, input = .recv c .reduce msg → c ∈ cfg.tree.children rank →
      (heard rcvd c).length = r.rounds.length ∧
        ∀ valid count bytes, msg = .longs valid count bytes → valid = true) :
    ∃ order', Gathers cfg rank sample turn.record (rcvd.receive input) order' := by
  have hFits := hReady.fits
  have hClosed := hReady.closed
  unfold Reduce.Fits at hFits
  cases hTurn
  case badHeader | badData => exact (hResult rfl).elim
  case init buf hPhase =>
    have hLast := hReady.last_eq_none (by simp [hPhase])
    refine ⟨[], h.open ?_ ?_ ?_ hLast ?_ rfl hLast rfl rfl rfl (Or.inr ?_)⟩ <;>
      simp [Turn.stays, Reduce.isOpen, Reduce.current, Reduce.syncRest, hPhase, hClosed]
  case header child rest valid count bytes hPhase hBytes =>
    rw [hPhase] at hFits
    have hMem := hFits.2.subset List.mem_cons_self
    -- the last report of a child is a valid one
    obtain ⟨hLength, hValid⟩ := hFresh _ _ rfl hMem
    obtain rfl := hValid _ _ _ rfl
    refine ⟨order, h.header hMem ?_ hLength hBytes ?_ ?_ ?_ rfl rfl ?_ rfl rfl rfl rfl⟩ <;>
      simp [Turn.stays, Reduce.isOpen, Reduce.current, Reduce.syncRest, hPhase, hClosed]
  case bare child rest valid count hPhase =>
    rw [hPhase] at hFits
    have hMem := hFits.2.subset List.mem_cons_self
    obtain ⟨hLength, hValid⟩ := hFresh _ _ rfl hMem
    obtain rfl := hValid _ _ _ rfl
    have hNot := h.not_mem hMem hLength
    have hCurrent : r.current = none := by simp [Reduce.current, hPhase]
    have hAfter := h.whole child hMem (by simp [hCurrent])
    refine ⟨order ++ [child], h.takeSync hReady hMem hNot hLength ?_ ?_ ?_ ?_ rfl rfl
      rfl (hReady.last_eq_none (by simp [hPhase])) fun base hOld => ?_⟩
    · simp [hCurrent]
    · rw [hAfter]
      rfl
    · rw [hAfter]
      rfl
    · simp [Reduce.syncRest, hPhase]
    · refine hOld.bare hCurrent hNot hAfter hLength ?_ ?_ ?_ ?_ ?_ ?_ <;>
        simp [Turn.stays, Reduce.combine, Reduce.current, hFits.1]
  case data child bytes rest inbuf hPhase hBytes =>
    rw [hPhase] at hFits
    have hMem := hFits.2.subset List.mem_cons_self
    have hLength := (hFresh _ _ rfl hMem).1
    have hCurrent : r.current = some (child, bytes) := by simp [Reduce.current, hPhase]
    obtain ⟨hNot, count, hAfter⟩ := h.current child bytes hCurrent
    refine ⟨order ++ [child], h.takeSync hReady hMem hNot hLength ?_ ?_ ?_ ?_ rfl rfl
      rfl (hReady.last_eq_none (by simp [hPhase])) fun base hOld => ?_⟩
    · simp [hCurrent]
    · rw [hAfter]
      rfl
    · rw [hAfter]
      rfl
    · simp [Reduce.syncRest, hPhase]
    · refine hOld.data hCurrent hNot hAfter hLength ?_ ?_ ?_ ?_ ?_ ?_ <;>
        simp [Turn.stays, Reduce.combine, Reduce.current, hFits.1]
  case send hPhase _ _ | sendBare hPhase _ _ | deliver hPhase _ =>
    obtain ⟨⟨init, hInit⟩, value, hBuf⟩ := hReady.buffers (by simp [hPhase, ReducePhase.isSync])
    refine ⟨cfg.tree.children rank, h.endLast ?_ ?_ ?_ ?_ ?_ ?_ ?_⟩ <;>
      simp [Turn.sends, Turn.sendsAndReturns, Turn.returns, Reduce.endLast, Reduce.finalize,
        Reduce.round, Reduce.isOpen, Reduce.current, Reduce.syncRest, *]
  case sendData hPhase _ _ =>
    refine ⟨order, h.rest ?_ ?_ ?_ ?_ ?_ ?_ ?_ ?_ (fun _ _ => rfl) _⟩ <;>
      simp [Turn.sendsAndReturns, Reduce.isOpen, Reduce.current, Reduce.syncRest, hPhase, hClosed]

end Gathers

end Circle
