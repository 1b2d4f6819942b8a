import Circle.Base.Leads

/-!
# Where runs come to a standstill

As long as the messages of all runs are bounded, some run leads to a system from
which no run sends or receives anything more.  What such a system has in flight
cannot be received: its receivers do not come to that any more.
-/

namespace FifoNet

variable {ι τ μ σ χ : Type} [DecidableEq ι] [DecidableEq τ] {prog : Program ι τ μ σ χ}
  {g g' : System ι τ μ σ} {i : ι} {input : Input ι τ μ χ} {state : σ}
  {out : Option (Packet ι τ μ)}

/-! ## Some inputs only -/

/-- A program that takes only some of its inputs. -/
def only (prog : Program ι τ μ σ χ) (allowed : Input ι τ μ χ → Bool) : Program ι τ μ σ χ :=
  fun i input state => if allowed input then prog i input state else none

variable {allowed : Input ι τ μ χ → Bool}

omit [DecidableEq ι] [DecidableEq τ] in
theorem only_eq_some_iff {next : σ × Option (Packet ι τ μ)} :
    only prog allowed i input state = some next ↔
      allowed input = true ∧ prog i input state = some next := by
  unfold only
  split
  next hAllowed => exact ⟨fun h => ⟨hAllowed, h⟩, fun h => h.2⟩
  next hNot => exact ⟨nofun, fun h => (hNot h.1).elim⟩

omit [DecidableEq ι] [DecidableEq τ] in
theorem Fires.of_only (h : Fires (only prog allowed) g i input state out) :
    allowed input = true ∧ Fires prog g i input state out :=
  ⟨(only_eq_some_iff.mp h.acts).1, h.admits, (only_eq_some_iff.mp h.acts).2⟩

omit [DecidableEq ι] [DecidableEq τ] in
theorem Fires.only (h : Fires prog g i input state out) (hAllowed : allowed input = true) :
    Fires (only prog allowed) g i input state out :=
  ⟨h.admits, only_eq_some_iff.mpr ⟨hAllowed, h.acts⟩⟩

theorem Leads.of_only (h : Leads (only prog allowed) g g') : Leads prog g g' := by
  obtain ⟨events, hRun⟩ := h
  induction events generalizing g with
  | nil =>
      cases hRun
      exact Leads.refl prog _
  | cons first events ih =>
      obtain ⟨next, hStep, hRest⟩ := Option.bind_eq_some_iff.mp hRun
      obtain ⟨input, state, out, -, hFires, rfl⟩ := step_cases hStep
      exact hFires.of_only.2.leads.trans (ih hRest)

/-! ## Traffic -/

section Traffic

variable [Fintype ι] [Fintype τ]

/-- The number of messages that a process has sent and received. -/
def Node.traffic (node : Node ι τ μ σ) : Nat :=
  ∑ j, ∑ t, ((node.sent j t).length + (node.rcvd j t).length)

theorem Node.traffic_le_after (node : Node ι τ μ σ) (input : Input ι τ μ χ) (state : σ)
    (out : Option (Packet ι τ μ)) : node.traffic ≤ (node.after input state out).traffic := by
  refine Finset.sum_le_sum fun j _ => Finset.sum_le_sum fun t _ => ?_
  exact Nat.add_le_add (node.sent.prefix_send out j t).length_le
    (node.rcvd.prefix_receive input j t).length_le

/-- A message that is sent or received counts. -/
theorem Node.traffic_lt_after (node : Node ι τ μ σ) (state : σ)
    (hBusy : out ≠ none ∨ ∃ src tag msg, input = .recv src tag msg) :
    node.traffic < (node.after input state out).traffic := by
  obtain ⟨j, t, hLess⟩ : ∃ j t, (node.sent j t).length + (node.rcvd j t).length <
      ((node.after input state out).sent j t).length +
        ((node.after input state out).rcvd j t).length := by
    rcases hBusy with hOut | ⟨src, tag, msg, rfl⟩
    · obtain ⟨packet, rfl⟩ := Option.ne_none_iff_exists'.mp hOut
      obtain ⟨dst, tag, msg⟩ := packet
      refine ⟨dst, tag, ?_⟩
      have hRcvd := (node.rcvd.prefix_receive input dst tag).length_le
      rw [Node.after_sent, Node.after_rcvd, Log.send_some, Log.add_self, List.length_append,
        List.length_singleton]
      omega
    · refine ⟨src, tag, ?_⟩
      have hSent := (node.sent.prefix_send out src tag).length_le
      rw [Node.after_sent, Node.after_rcvd, Log.receive_recv, Log.add_self, List.length_append,
        List.length_singleton]
      omega
  have hEach (j : ι) (t : τ) := Nat.add_le_add (node.sent.prefix_send out j t).length_le
    (node.rcvd.prefix_receive input j t).length_le
  refine Finset.sum_lt_sum (fun j _ => Finset.sum_le_sum fun t _ => hEach j t)
    ⟨j, Finset.mem_univ j, ?_⟩
  exact Finset.sum_lt_sum (fun t _ => hEach j t) ⟨t, Finset.mem_univ t, hLess⟩

/-- A step that adds nothing sends nothing and receives nothing. -/
theorem Node.silent_of_traffic_le (node : Node ι τ μ σ)
    (hLe : (node.after input state out).traffic ≤ node.traffic) :
    out = none ∧ ∀ src tag msg, input ≠ .recv src tag msg := by
  constructor
  · by_contra hOut
    exact Nat.not_lt.mpr hLe (node.traffic_lt_after state (Or.inl hOut))
  · intro src tag msg hInput
    exact Nat.not_lt.mpr hLe (node.traffic_lt_after state (Or.inr ⟨src, tag, msg, hInput⟩))

omit [DecidableEq ι] [DecidableEq τ] in
/-- Where every channel carries at most so many messages, the traffic is
bounded. -/
theorem Fifo.traffic_le (hFifo : Fifo g) {bound : Nat}
    (hBound : ∀ i j t, ((g i).sent j t).length ≤ bound) (i : ι) :
    (g i).traffic ≤ ∑ _j : ι, ∑ _t : τ, 2 * bound := by
  refine Finset.sum_le_sum fun j _ => Finset.sum_le_sum fun t _ => ?_
  have hSent := hBound i j t
  have hRcvd := hFifo.length_le j i t
  have hOther := hBound j i t
  omega

end Traffic

/-! ## The most that can be reached -/

/-- The rule for a bounded measure: some run takes it to where no run raises it. -/
theorem exists_maximal (measure : System ι τ μ σ → Nat) {bound : Nat}
    (hBound : ∀ g', Leads prog g g' → measure g' ≤ bound) :
    ∃ g', Leads prog g g' ∧ ∀ g'', Leads prog g' g'' → measure g'' ≤ measure g' := by
  have hStep (g' : System ι τ μ σ) (hReach : Leads prog g g')
      (hNot : ¬ ∀ g'', Leads prog g' g'' → measure g'' ≤ measure g') :
      ∃ g'', Leads prog g' g'' ∧ Leads prog g g'' ∧ bound - measure g'' < bound - measure g' := by
    push Not at hNot
    obtain ⟨g'', hLeads, hMore⟩ := hNot
    have hEnd := hBound g'' (hReach.trans hLeads)
    exact ⟨g'', hLeads, hReach.trans hLeads, by omega⟩
  obtain ⟨g', hLeads, -, hMost⟩ := exists_leads (fun g' => bound - measure g') hStep
    (Leads.refl prog g)
  exact ⟨g', hLeads, hMost⟩

end FifoNet
