import Circle.Protocol.Cleanup
import Circle.Protocol.Pairing

/-!
# No item is lost or duplicated

Summed over all ranks, the books of `WorkInv` say that the items ever put in are
those taken out, those in the queues and those in replies under way.  A rank
that waits for a reply has an empty queue, and once a rank has left the cleanup
barrier no rank waits for one.
-/

namespace Circle

open FifoNet (inFlight)

variable {n : Nat} {cfg : Config n}

/-- The items in the replies of a rank to another that are sent, and not yet
received. -/
def inTransit (g : World n) (src dst : Fin n) : List Item :=
  (replies.read ((g dst).state.work.waiting src) (inFlight g src dst .workReply)).flatten

/-- What it means that work stealing conserves the items. -/
structure Conserves (g : World n) : Prop where
  /-- The items ever put in are those taken out, queued and under way. -/
  balance : ∑ r, ((g r).state.work.enqueued : Multiset Item) =
    ∑ r, ((g r).state.work.dequeued : Multiset Item) +
      ∑ r, ((g r).state.work.queue.items : Multiset Item) +
        ∑ src, ∑ dst, (inTransit g src dst : Multiset Item)
  /-- A rank that waits for a reply has nothing that the reply could
  overwrite. -/
  empty : ∀ r, (g r).state.work.workRequested = true →
    (g r).state.work.queue.count = 0 ∧ (g r).state.work.queue.head = 0
  /-- After the barrier no reply is under way. -/
  landed : ∀ r, (g r).state.pc.leftBarrier = true → ∀ src dst, inFlight g src dst .workReply = []

section Results

variable {ok : World n → Fin n → Event n → Prop} {g : World n}

theorem carried_sent (h : Execution cfg ok g) (src dst : Fin n) :
    (carried ((g src).sent dst .workReply) : Multiset Item) =
      carried ((g dst).rcvd src .workReply) + inTransit g src dst := by
  have hWaiting := ((h.workInv dst).ledger src).waiting_eq
  unfold carried inTransit
  rw [← h.fifo.append_inFlight src dst .workReply, replies.read_append, hWaiting,
    List.flatten_append, Multiset.coe_add]

theorem Execution.balance (h : Execution cfg ok g) :
    ∑ r, ((g r).state.work.enqueued : Multiset Item) =
      ∑ r, ((g r).state.work.dequeued : Multiset Item) +
        ∑ r, ((g r).state.work.queue.items : Multiset Item) +
          ∑ src, ∑ dst, (inTransit g src dst : Multiset Item) := by
  have hSum := Finset.sum_congr (rfl : (Finset.univ : Finset (Fin n)) = Finset.univ)
    fun r _ => (h.workInv r).balance
  simp only [Finset.sum_add_distrib, carried_sent h] at hSum
  -- what has arrived is counted on both sides
  rw [Finset.sum_comm (f := fun src dst => (carried ((g dst).rcvd src .workReply) : Multiset Item)),
    add_comm (∑ dst, ∑ src, _), ← add_assoc] at hSum
  exact add_right_cancel hSum

/-- A rank that waits for a reply has an empty pool. -/
theorem Stock.head_eq_zero {w : Work n} (h : Stock w) (hRequested : w.workRequested = true) :
    w.queue.count = 0 ∧ w.queue.head = 0 := by
  have hCount := h.empty hRequested
  have hItems : w.queue.items = [] := by
    rw [← List.length_eq_zero_iff, h.inv.length_items, hCount]
  have hHead := h.inv.holds.head_eq
  rw [hItems] at hHead
  exact ⟨hCount, hHead⟩

/-- Once a rank has left the barrier, no reply is under way. -/
theorem Execution.noReply_of_left (h : Execution cfg ok g) {rank : Fin n}
    (hLeft : (g rank).state.pc.leftBarrier = true) (r d : Fin n) : NoRequest g r d := by
  apply noRequest_of_asked h.fifo h.workInv
  have hNone := h.workRequested_of_started r (h.all_started hLeft r)
  simp [Work.asked, hNone]

/-- In every execution, work stealing conserves the items. -/
theorem Execution.conserves (h : Execution cfg FifoNet.always g) : Conserves g where
  balance := h.balance
  empty := fun r => (h.workInv r).stock.head_eq_zero
  landed := fun _ hLeft src dst => (h.noReply_of_left hLeft dst src).reply

end Results

/-- Rank 1 of two asks for work, and rank 0 sends it an item. -/
def givingTurns : List (Fin 2 × Event 2) :=
  idleTurns 1 ++
    [(1, .tick (.next (some 0))), (0, .recv 1 .workRequest), (0, .tick (.draw 0)), (0, .tick .go),
      (0, .tick .go)]

theorem conserves_pairWorld : ∃ g,
    FifoNet.run (mainLoop (pairConfig false false)) pairWorld givingTurns = some g ∧
    inTransit g 0 1 = [[2]] ∧ Conserves g := by
  have hEnd : (FifoNet.run (mainLoop (pairConfig false false)) pairWorld givingTurns).map
      (fun g => inTransit g 0 1) = some [[2]] := by
    decide +kernel
  obtain ⟨g, hRun, hTransit⟩ := Option.map_eq_some_iff.mp hEnd
  exact ⟨g, hRun, hTransit,
    Execution.conserves (FifoNet.Reachable.run (execution_pairWorld (pairConfig false false) _) hRun)⟩

end Circle
