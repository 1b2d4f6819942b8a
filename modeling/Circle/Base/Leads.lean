import Mathlib.Algebra.Order.BigOperators.Group.Finset
import Circle.Base.FifoNet

/-!
# Where runs lead

A system leads to another one when a run takes it there.  A goal can be reached
from every system of a kind when each of them is at the goal, or leads to one of
its kind that is closer.
-/

namespace FifoNet

variable {ι τ μ σ χ : Type} [DecidableEq ι] [DecidableEq τ] {prog : Program ι τ μ σ χ}
  {g g' g'' : System ι τ μ σ}

/-- Some run leads from one system to the other. -/
def Leads (prog : Program ι τ μ σ χ) (g g' : System ι τ μ σ) : Prop :=
  ∃ events, run prog g events = some g'

theorem Leads.refl (prog : Program ι τ μ σ χ) (g : System ι τ μ σ) : Leads prog g g := ⟨[], rfl⟩

theorem run_append (events rest : List (ι × Event ι τ χ)) :
    run prog g (events ++ rest) = (run prog g events).bind fun g => run prog g rest := by
  induction events generalizing g with
  | nil => rfl
  | cons first events ih =>
      rw [List.cons_append, run, run, Option.bind_assoc]
      exact Option.bind_congr fun next _ => ih

theorem Leads.trans (h : Leads prog g g') (h' : Leads prog g' g'') : Leads prog g g'' := by
  obtain ⟨events, hRun⟩ := h
  obtain ⟨rest, hRest⟩ := h'
  exact ⟨events ++ rest, by rw [run_append, hRun, Option.bind_some, hRest]⟩

theorem Fires.leads {i : ι} {input : Input ι τ μ χ} {state : σ} {out : Option (Packet ι τ μ)}
    (h : Fires prog g i input state out) : Leads prog g (set g i ((g i).after input state out)) := by
  obtain ⟨event, hStep⟩ := h.exists_step
  exact ⟨[(i, event)], by rw [run, hStep, Option.bind_some, run]⟩

/-- A node that has a turn is the node of an event. -/
theorem Fires.exists_event {i : ι} {input : Input ι τ μ χ} {state : σ}
    {out : Option (Packet ι τ μ)} (h : Fires prog g i input state out) :
    ∃ event : Event ι τ χ, event.input g i = some input ∧
      step prog g i event = some (set g i ((g i).after input state out)) := by
  obtain ⟨hAdmits, hActs⟩ := h
  have hEvent : ∃ event : Event ι τ χ, event.input g i = some input := by
    cases input with
    | tick choice => exact ⟨.tick choice, rfl⟩
    | recv src tag msg =>
        obtain ⟨rest, hRest⟩ := hAdmits
        exact ⟨.recv src tag, by simp [Event.input, hRest]⟩
    | synced dst tag =>
        have hEmpty : inFlight g i dst tag = [] := hAdmits
        exact ⟨.synced dst tag, by simp [Event.input, hEmpty]⟩
  obtain ⟨event, hInput⟩ := hEvent
  exact ⟨event, hInput, by simp [step, hInput, hActs]⟩

theorem Reachable.leads {init : (ι → σ) → Prop} (h : Reachable prog init always g)
    (hLeads : Leads prog g g') : Reachable prog init always g' := by
  obtain ⟨events, hRun⟩ := hLeads
  exact h.run hRun

/-- Some run leads to a system with a property. -/
def CanReach (prog : Program ι τ μ σ χ) (g : System ι τ μ σ) (Goal : System ι τ μ σ → Prop) : Prop :=
  ∃ g', Leads prog g g' ∧ Goal g'

/-- While `I` holds, every step keeps `Q`. -/
def Keeps (prog : Program ι τ μ σ χ) (I Q : System ι τ μ σ → Prop) : Prop :=
  ∀ g i input state out, I g → Q g → Fires prog g i input state out →
    Q (set g i ((g i).after input state out))

theorem Keeps.leads {I Q : System ι τ μ σ → Prop} (hI : Keeps prog I I) (hQ : Keeps prog I Q)
    (hInv : I g) (h : Q g) (hLeads : Leads prog g g') : I g' ∧ Q g' := by
  obtain ⟨events, hRun⟩ := hLeads
  induction events generalizing g with
  | nil =>
      cases hRun
      exact ⟨hInv, h⟩
  | cons first events ih =>
      obtain ⟨next, hStep, hRest⟩ := Option.bind_eq_some_iff.mp hRun
      obtain ⟨input, state, out, -, hFires, rfl⟩ := step_cases hStep
      exact ih (hI _ _ _ _ _ hInv hInv hFires) (hQ _ _ _ _ _ hInv h hFires) hRest

/-- The rule for a goal that can be reached. -/
theorem exists_leads {P Goal : System ι τ μ σ → Prop} (measure : System ι τ μ σ → Nat)
    (hStep : ∀ g, P g → ¬ Goal g → ∃ g', Leads prog g g' ∧ P g' ∧ measure g' < measure g)
    (hP : P g) : ∃ g', Leads prog g g' ∧ P g' ∧ Goal g' := by
  generalize hMeasure : measure g = k
  induction k using Nat.strong_induction_on generalizing g with
  | _ k ih =>
      by_cases hGoal : Goal g
      · exact ⟨g, Leads.refl prog g, hP, hGoal⟩
      · obtain ⟨next, hNext, hPNext, hLess⟩ := hStep g hP hGoal
        obtain ⟨g', hLeads, hEnd⟩ := ih _ (hMeasure ▸ hLess) hPNext rfl
        exact ⟨g', hNext.trans hLeads, hEnd⟩

omit [DecidableEq τ] in
/-- A sum over the nodes falls when it falls at the only node that changes. -/
theorem sum_lt_of_others [Fintype ι] {f : ι → Node ι τ μ σ → Nat} {i : ι}
    (hOthers : ∀ j, j ≠ i → g' j = g j) (hLess : f i (g' i) < f i (g i)) :
    ∑ j, f j (g' j) < ∑ j, f j (g j) := by
  refine Finset.sum_lt_sum (fun j _ => ?_) ⟨i, Finset.mem_univ i, hLess⟩
  by_cases hSelf : j = i
  · subst hSelf
    exact Nat.le_of_lt hLess
  · rw [hOthers j hSelf]

end FifoNet
