import Circle.Protocol.Conservation
import Circle.Protocol.FloodReach
import Circle.Protocol.Sessions

/-!
# Checkpoint and restart

When an execution is aborted, every rank writes the items of its queue to its
file, and a new program reads the files back.  What comes back on all ranks
together is what was enqueued and not dequeued, each item as often.
-/

namespace Circle

open FifoNet (Log inFlight)

variable {n : Nat} {cfg : Config n} {ok : World n → Fin n → Event n → Prop} {g : World n}

/-- A queue of text that a rank writes comes back on a rank that reads the
file, unless there is nothing to write and the file has lines from before. -/
theorem Queue.Inv.restart {q : Queue} (hInv : q.Inv) (hSized : Queue.Sized q.items)
    (hText : ∀ item ∈ q.items, IsText item) (page : PageSize) {file : File}
    (hFile : q.count ≠ 0 ∨ fileLines file = []) :
    ∃ rc file' q' rc' r, q.write .succeed file = some (rc, file', q') ∧ q'.items = [] ∧
      Queue.fresh.read page file' = some (rc', r) ∧ r.items.Perm q.items := by
  have hHolds := hInv.holds
  have hItems : RankFile.TextItems q.items := ⟨hSized, hText, hHolds.nonempty⟩
  by_cases hNil : q.items = []
  · -- nothing is written, and the file has no lines
    have hCount : q.count = 0 := by rw [hHolds.count_eq, hNil, List.length_nil]
    have hLines : fileLines file = [] := hFile.resolve_left (not_not_intro hCount)
    have hStored : RankFile.TextItems (fileLines file) := by
      rw [hLines]
      exact RankFile.textItems_nil
    obtain ⟨rc, r, hRead, hRest⟩ := RankFile.read_textItems Queue.isEmpty_fresh page hStored
    refine ⟨0, file, q, rc, r, Queue.write_of_count_eq_zero hCount _ _, hNil, hRead, ?_⟩
    rw [hRest.items_eq, hLines, hNil]
  · obtain ⟨q', hWrite, hEmpty⟩ := hHolds.write hNil file
    have hLines := RankFile.fileLines_write hText
    obtain ⟨rc, r, hRead, hRest⟩ := RankFile.read_textItems Queue.isEmpty_fresh page
      (by rw [hLines]; exact hItems.reverse)
    refine ⟨0, _, q', rc, r, hWrite, hEmpty.items_eq, hRead, ?_⟩
    rw [hRest.items_eq, hLines]
    exact List.reverse_perm _

/-- After the barrier the items are those that are queued. -/
theorem Execution.balance_of_late (h : Execution cfg ok g) (hLate : Late g) :
    ∑ r, ((g r).state.work.enqueued : Multiset Item) =
      ∑ r, ((g r).state.work.dequeued : Multiset Item) +
        ∑ r, ((g r).state.work.queue.items : Multiset Item) := by
  have hNone (src dst : Fin n) : (inTransit g src dst : Multiset Item) = 0 := by
    have hReply := (h.noRequest hLate dst src).reply
    rw [inTransit, hReply]
    rfl
  rw [h.balance]
  simp only [hNone, Finset.sum_const_zero, add_zero]

/-- What a checkpoint of all ranks leaves, and what a restart makes of it. -/
structure Restarts (cfg : Config n) (g : World n) (files : Fin n → File)
    (written restarted : Fin n → CircleImpl) : Prop where
  /-- Every rank writes its items, and has none left. -/
  writes : ∀ r, (g r).state.leave .succeed (files r) = some (written r)
  emptied : ∀ r, (written r).queue.items = []
  /-- A new object of the rank reads them, -/
  reads : ∀ r, (CircleImpl.construct (written r).file).perform cfg.page .readRestarts =
    some (restarted r)
  /-- each rank its own, -/
  same : ∀ r, (restarted r).queue.items.Perm (g r).state.work.queue.items
  /-- and no item is lost or processed twice. -/
  items : ∑ r, ((g r).state.work.enqueued : Multiset Item) =
    ∑ r, ((g r).state.work.dequeued : Multiset Item) +
      ∑ r, ((restarted r).queue.items : Multiset Item)

/-- An aborted execution on text items can be restarted from its files. -/
theorem Execution.restarts (h : Execution cfg ok g) (hDone : Finished g)
    (hAbort : ∃ r, (g r).state.pc = .checkpoint) (files : Fin n → File)
    (hText : ∀ r, ∀ item ∈ (g r).state.work.queue.items, IsText item)
    (hFiles : ∀ r, (g r).state.work.queue.count ≠ 0 ∨ fileLines (files r) = []) :
    ∃ written restarted, Restarts cfg g files written restarted := by
  obtain ⟨first, hFirst⟩ := hAbort
  have hPc (r : Fin n) : (g r).state.pc = .checkpoint :=
    (hDone r).resolve_right (h.unconstrained.checkpointAgrees.same first r hFirst)
  have hEach (r : Fin n) := (h.workInv r).stock.inv.restart (h.workInv r).stock.sized (hText r)
    cfg.page (hFiles r)
  choose rc file left rc' queue hWrite hEmpty hRead hSame using hEach
  refine ⟨fun r => ⟨left r, (g r).state.reduce.reduceBuf, file r⟩,
    fun r => ⟨queue r, none, file r⟩, {
      writes := fun r => by simp [State.leave, hPc r, hWrite r]
      emptied := hEmpty
      reads := fun r => by simp [CircleImpl.perform, CircleImpl.construct, hRead r]
      same := hSame
      items := ?_ }⟩
  rw [h.balance_of_late hDone.late]
  congr 1
  exact Finset.sum_congr rfl fun r _ => (Multiset.coe_eq_coe.mpr (hSame r)).symm

/-! ## Two ranks -/

/-- After an abort, they agree to terminate, pass the barrier and agree to write a checkpoint. -/
def checkpointTurns : List (Fin 2 × Event 2) :=
  List.flatten [
    goOn 1 8, [(1, .tick (.tested true))], goOn 1 3,
    goOn 0 7, [(0, .tick (.tested true))], goOn 0 1, [(0, .recv 1 .term)], goOn 0 12,
    [(0, .tick (.tested true))], goOn 0 1,
    [(1, .recv 0 .term)], goOn 1 9, [(1, .tick (.tested true))], goOn 1 8,
    [(1, .tick (.tested true))], goOn 1 3,
    [(0, .recv 1 .barrier)], goOn 0 4, [(1, .recv 0 .barrier)], goOn 1 2,
    [(0, .recv 1 .abortReduce)], goOn 0 3, [(1, .recv 0 .abortReduce)], goOn 1 1]

theorem restarts_pairWorld : ∃ g written restarted,
    FifoNet.run (mainLoop (pairConfig true false)) pairWorld (abortingTurns ++ checkpointTurns) =
      some g ∧
    (g 0).state.work.queue.items = [[1], [2]] ∧
    Restarts (pairConfig true false) g (fun _ => none) written restarted := by
  have hEnd : (FifoNet.run (mainLoop (pairConfig true false)) pairWorld
      (abortingTurns ++ checkpointTurns)).map (fun g =>
        ((g 0).state.pc, (g 1).state.pc, (g 0).state.work.queue.items,
          (g 1).state.work.queue.items)) = some (.checkpoint, .checkpoint, [[1], [2]], []) := by
    decide +kernel
  obtain ⟨g, hRun, hAll⟩ := Option.map_eq_some_iff.mp hEnd
  simp only [Prod.mk.injEq] at hAll
  obtain ⟨hFirst, hSecond, hItems, hNone⟩ := hAll
  have hReach := FifoNet.Reachable.run (execution_pairWorld (pairConfig true false) _) hRun
  obtain ⟨written, restarted, hRestarts⟩ := Execution.restarts hReach
    (Fin.forall_fin_two.mpr ⟨Or.inl hFirst, Or.inl hSecond⟩) ⟨0, hFirst⟩ (fun _ => none)
    (Fin.forall_fin_two.mpr ⟨by rw [hItems]; decide, by rw [hNone]; decide⟩)
    (fun _ => Or.inr rfl)
  exact ⟨g, written, restarted, hRun, hItems, hRestarts⟩

end Circle
