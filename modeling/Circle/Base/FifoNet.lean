import Mathlib.Algebra.BigOperators.Group.Finset.Basic
import Mathlib.Data.Fintype.BigOperators
import Mathlib.Data.List.Basic

/-!
# Processes on first-in-first-out channels

A system of deterministic processes that talk over reliable channels, one for
each source, destination and tag.  A process takes one step at a time: on its
own, on receiving the first message of a channel, or on learning that a
channel it sends on has been emptied.  A step sends at most one message.

Every process keeps what it has sent and received on each channel.  The
messages in flight are what is sent and not yet received, so that a statement
about a channel follows from what its two ends know.
-/

namespace FifoNet

variable {ι τ μ σ χ : Type}

/-- What a process has sent to, or received from, each peer with each tag. -/
abbrev Log (ι τ μ : Type) := ι → τ → List μ

/-- A process with its history. -/
structure Node (ι τ μ σ : Type) where
  state : σ
  sent : Log ι τ μ
  rcvd : Log ι τ μ

/-- A message and where it goes. -/
structure Packet (ι τ μ : Type) where
  dst : ι
  tag : τ
  msg : μ

/-- What makes a process take a step. -/
inductive Input (ι τ μ χ : Type) where
  /-- The process goes on, with a choice that its environment makes. -/
  | tick (choice : χ)
  | recv (src : ι) (tag : τ) (msg : μ)
  /-- Everything sent to `dst` with `tag` has been received. -/
  | synced (dst : ι) (tag : τ)

/-- An input as it is picked by a schedule, without the message. -/
inductive Event (ι τ χ : Type) where
  | tick (choice : χ)
  | recv (src : ι) (tag : τ)
  | synced (dst : ι) (tag : τ)

/-- The program of each process; `none` means that it does not take the
input in its state. -/
abbrev Program (ι τ μ σ χ : Type) :=
  ι → Input ι τ μ χ → σ → Option (σ × Option (Packet ι τ μ))

abbrev System (ι τ μ σ : Type) := ι → Node ι τ μ σ

/-! ## Histories -/

section Log

variable [DecidableEq ι] [DecidableEq τ]

def Log.add (log : Log ι τ μ) (peer : ι) (tag : τ) (msg : μ) : Log ι τ μ :=
  fun p t => if p = peer ∧ t = tag then log p t ++ [msg] else log p t

def Log.send (log : Log ι τ μ) : Option (Packet ι τ μ) → Log ι τ μ
  | none => log
  | some packet => log.add packet.dst packet.tag packet.msg

def Log.receive (log : Log ι τ μ) : Input ι τ μ χ → Log ι τ μ
  | .recv src tag msg => log.add src tag msg
  | _ => log

@[simp] theorem Log.add_self (log : Log ι τ μ) (peer : ι) (tag : τ) (msg : μ) :
    log.add peer tag msg peer tag = log peer tag ++ [msg] := by
  simp [Log.add]

theorem Log.add_of_tag_ne (log : Log ι τ μ) (peer : ι) {tag : τ} (msg : μ) (p : ι) {t : τ}
    (hTag : t ≠ tag) : log.add peer tag msg p t = log p t := by
  simp [Log.add, hTag]

theorem Log.add_of_peer_ne (log : Log ι τ μ) {peer : ι} (tag : τ) (msg : μ) {p : ι} (t : τ)
    (hPeer : p ≠ peer) : log.add peer tag msg p t = log p t := by
  simp [Log.add, hPeer]

theorem Log.add_same_tag (log : Log ι τ μ) (peer : ι) (tag : τ) (msg : μ) (p : ι) :
    log.add peer tag msg p tag = if p = peer then log p tag ++ [msg] else log p tag := by
  simp [Log.add]

theorem Log.length_add_same_tag (log : Log ι τ μ) (peer : ι) (tag : τ) (msg : μ) (p : ι) :
    (log.add peer tag msg p tag).length = (log p tag).length + if p = peer then 1 else 0 := by
  rw [Log.add_same_tag]
  split <;> simp

/-- One message more with a tag, in a sum over all peers. -/
theorem Log.sum_add {M : Type} [AddCommMonoid M] [Fintype ι] (f : List μ → M) (log : Log ι τ μ)
    (peer : ι) (tag : τ) (msg : μ) (x : M)
    (hMsg : f (log peer tag ++ [msg]) = f (log peer tag) + x) :
    ∑ p, f (log.add peer tag msg p tag) = ∑ p, f (log p tag) + x := by
  have hEach (p : ι) :
      f (log.add peer tag msg p tag) = f (log p tag) + if p = peer then x else 0 := by
    rw [Log.add_same_tag]
    split
    next hEq => rw [hEq, hMsg]
    next => rw [add_zero]
  simp only [hEach, Finset.sum_add_distrib, Finset.sum_ite_eq', Finset.mem_univ, if_true]

theorem Log.prefix_add (log : Log ι τ μ) (peer : ι) (tag : τ) (msg : μ) (p : ι) (t : τ) :
    log p t <+: log.add peer tag msg p t := by
  unfold Log.add
  split
  · exact List.prefix_append _ _
  · exact List.prefix_rfl

theorem Log.prefix_send (log : Log ι τ μ) (out : Option (Packet ι τ μ)) (p : ι) (t : τ) :
    log p t <+: log.send out p t := by
  cases out with
  | none => exact List.prefix_rfl
  | some packet => exact log.prefix_add _ _ _ p t

theorem Log.prefix_receive (log : Log ι τ μ) (input : Input ι τ μ χ) (p : ι) (t : τ) :
    log p t <+: log.receive input p t := by
  cases input with
  | recv src tag msg => exact log.prefix_add src tag msg p t
  | _ => exact List.prefix_rfl

/-- What a log holds after a send is what it held, or what was sent. -/
theorem Log.mem_send {log : Log ι τ μ} {out : Option (Packet ι τ μ)} {p : ι} {t : τ} {msg : μ}
    (hMem : msg ∈ log.send out p t) :
    msg ∈ log p t ∨ ∃ packet, out = some packet ∧ packet.msg = msg := by
  cases out with
  | none => exact Or.inl hMem
  | some packet =>
      rw [Log.send, Log.add] at hMem
      split at hMem
      · rcases List.mem_append.mp hMem with hOld | hNew
        · exact Or.inl hOld
        · exact Or.inr ⟨packet, rfl, (List.mem_singleton.mp hNew).symm⟩
      · exact Or.inl hMem

theorem Log.send_of_tag_ne (log : Log ι τ μ) {out : Option (Packet ι τ μ)} {tag : τ}
    (hTag : ∀ packet, out = some packet → packet.tag ≠ tag) (p : ι) :
    log.send out p tag = log p tag := by
  cases out with
  | none => rfl
  | some packet => exact log.add_of_tag_ne _ _ _ (hTag packet rfl).symm

@[simp] theorem Log.send_none (log : Log ι τ μ) : log.send none = log := rfl

@[simp] theorem Log.send_some (log : Log ι τ μ) (dst : ι) (tag : τ) (msg : μ) :
    log.send (some ⟨dst, tag, msg⟩) = log.add dst tag msg := rfl

@[simp] theorem Log.receive_tick (log : Log ι τ μ) (choice : χ) :
    log.receive (.tick choice) = log := rfl

@[simp] theorem Log.receive_recv (log : Log ι τ μ) (src : ι) (tag : τ) (msg : μ) :
    log.receive (.recv src tag msg : Input ι τ μ χ) = log.add src tag msg := rfl

end Log

/-! ## Steps of the system -/

/-- The messages of a channel that are sent and not yet received. -/
def inFlight (g : System ι τ μ σ) (src dst : ι) (tag : τ) : List μ :=
  ((g src).sent dst tag).drop ((g dst).rcvd src tag).length

/-- The input that a scheduled event gives to a process. -/
def Event.input (g : System ι τ μ σ) (i : ι) : Event ι τ χ → Option (Input ι τ μ χ)
  | .tick choice => some (.tick choice)
  | .recv src tag => (inFlight g src i tag).head?.map (.recv src tag)
  | .synced dst tag => if (inFlight g i dst tag).isEmpty then some (.synced dst tag) else none

/-- An input that the channels allow. -/
def Admits (g : System ι τ μ σ) (i : ι) : Input ι τ μ χ → Prop
  | .tick _ => True
  | .recv src tag msg => ∃ rest, inFlight g src i tag = msg :: rest
  | .synced dst tag => inFlight g i dst tag = []

theorem admits_of_input {g : System ι τ μ σ} {i : ι} {event : Event ι τ χ}
    {input : Input ι τ μ χ} (h : event.input g i = some input) : Admits g i input := by
  cases event with
  | tick choice =>
      cases h
      trivial
  | recv src tag =>
      obtain ⟨msg, hHead, rfl⟩ := Option.map_eq_some_iff.mp h
      exact List.head?_eq_some_iff.mp hHead
  | synced dst tag =>
      by_cases hEmpty : (inFlight g i dst tag).isEmpty
      · rw [Event.input, if_pos hEmpty] at h
        cases h
        exact List.isEmpty_iff.mp hEmpty
      · rw [Event.input, if_neg hEmpty] at h
        cases h

theorem event_of_input_tick {g : System ι τ μ σ} {i : ι} {event : Event ι τ χ} {choice : χ}
    (h : event.input g i = some (.tick choice)) : event = .tick choice := by
  cases event with
  | tick other =>
      cases h
      rfl
  | recv src tag =>
      obtain ⟨msg, -, hEq⟩ := Option.map_eq_some_iff.mp h
      cases hEq
  | synced dst tag =>
      by_cases hEmpty : (inFlight g i dst tag).isEmpty
      · rw [Event.input, if_pos hEmpty] at h
        cases h
      · rw [Event.input, if_neg hEmpty] at h
        cases h

theorem event_of_input_recv {g : System ι τ μ σ} {i src : ι} {tag : τ} {msg : μ}
    {event : Event ι τ χ} (h : event.input g i = some (.recv src tag msg)) :
    event = .recv src tag ∧ (inFlight g src i tag).head? = some msg := by
  cases event with
  | tick choice => cases h
  | recv src tag =>
      obtain ⟨msg, hHead, hEq⟩ := Option.map_eq_some_iff.mp h
      cases hEq
      exact ⟨rfl, hHead⟩
  | synced dst tag =>
      by_cases hEmpty : (inFlight g i dst tag).isEmpty
      · rw [Event.input, if_pos hEmpty] at h
        cases h
      · rw [Event.input, if_neg hEmpty] at h
        cases h

/-- What a process has received on a channel is a prefix of what was sent. -/
def Fifo (g : System ι τ μ σ) : Prop :=
  ∀ src dst tag, (g dst).rcvd src tag <+: (g src).sent dst tag

theorem Fifo.length_le {g : System ι τ μ σ} (h : Fifo g) (src dst : ι) (tag : τ) :
    ((g dst).rcvd src tag).length ≤ ((g src).sent dst tag).length :=
  (h src dst tag).length_le

/-- What was sent is what was received, then what is in flight. -/
theorem Fifo.append_inFlight {g : System ι τ μ σ} (h : Fifo g) (src dst : ι) (tag : τ) :
    (g dst).rcvd src tag ++ inFlight g src dst tag = (g src).sent dst tag := by
  obtain ⟨rest, hRest⟩ := h src dst tag
  rw [inFlight, ← hRest, List.drop_left]

theorem Fifo.inFlight_eq_nil_iff {g : System ι τ μ σ} (h : Fifo g) (src dst : ι) (tag : τ) :
    inFlight g src dst tag = [] ↔ (g dst).rcvd src tag = (g src).sent dst tag := by
  constructor
  · intro hNil
    simpa [hNil] using h.append_inFlight src dst tag
  · intro hEq
    rw [inFlight, hEq, List.drop_length]

/-- A message that can be received continues what was received before. -/
theorem Fifo.of_admits_recv {g : System ι τ μ σ} (h : Fifo g) {i src : ι} {tag : τ} {msg : μ}
    (hAdmits : Admits g i (.recv src tag msg : Input ι τ μ χ)) :
    (g i).rcvd src tag ++ [msg] <+: (g src).sent i tag := by
  obtain ⟨rest, hRest⟩ := hAdmits
  refine ⟨rest, ?_⟩
  rw [← h.append_inFlight src i tag, hRest, List.append_assoc, List.singleton_append]

theorem Fifo.length_lt_of_admits {g : System ι τ μ σ} (h : Fifo g) {i src : ι} {tag : τ} {msg : μ}
    (hAdmits : Admits g i (.recv src tag msg : Input ι τ μ χ)) :
    ((g i).rcvd src tag).length < ((g src).sent i tag).length := by
  have hLength := (h.of_admits_recv hAdmits).length_le
  rw [List.length_append, List.length_singleton] at hLength
  omega

theorem mem_inFlight_of_admits {g : System ι τ μ σ} {i src : ι} {tag : τ} {msg : μ}
    (hAdmits : Admits g i (.recv src tag msg : Input ι τ μ χ)) : msg ∈ inFlight g src i tag := by
  obtain ⟨rest, hRest⟩ := hAdmits
  rw [hRest]
  exact List.mem_cons_self

/-- What is sent and not yet received can be received. -/
theorem exists_admits {g : System ι τ μ σ} {i src : ι} {tag : τ}
    (h : ((g i).rcvd src tag).length < ((g src).sent i tag).length) :
    ∃ msg, Admits g i (.recv src tag msg : Input ι τ μ χ) := by
  cases hFlight : inFlight g src i tag with
  | nil =>
      have hLength := congrArg List.length hFlight
      rw [inFlight, List.length_drop, List.length_nil] at hLength
      omega
  | cons msg rest => exact ⟨msg, rest, hFlight⟩

/-- A message that is received was sent. -/
theorem mem_sent_of_admits {g : System ι τ μ σ} {i src : ι} {tag : τ} {msg : μ}
    (hAdmits : Admits g i (.recv src tag msg : Input ι τ μ χ)) : msg ∈ (g src).sent i tag :=
  List.mem_of_mem_drop (mem_inFlight_of_admits hAdmits)

variable [DecidableEq ι]

/-- The system after a step of process `i`. -/
def set (g : System ι τ μ σ) (i : ι) (node : Node ι τ μ σ) : System ι τ μ σ :=
  fun j => if j = i then node else g j

@[simp] theorem set_self (g : System ι τ μ σ) (i : ι) (node : Node ι τ μ σ) :
    set g i node i = node := by
  simp [set]

theorem set_of_ne (g : System ι τ μ σ) {i j : ι} (node : Node ι τ μ σ) (hNe : j ≠ i) :
    set g i node j = g j := by
  simp [set, hNe]

/-- What holds of the process that changes, and of the others, holds of all. -/
theorem forall_set {g : System ι τ μ σ} {i : ι} {node : Node ι τ μ σ}
    {P : ι → Node ι τ μ σ → Prop} (hNew : P i node) (hOthers : ∀ j, j ≠ i → P j (g j)) (j : ι) :
    P j (set g i node j) := by
  by_cases hSelf : j = i
  · subst hSelf
    rw [set_self]
    exact hNew
  · rw [set_of_ne g node hSelf]
    exact hOthers j hSelf

variable [DecidableEq τ]

/-- A process after a step. -/
def Node.after (node : Node ι τ μ σ) (input : Input ι τ μ χ) (state : σ)
    (out : Option (Packet ι τ μ)) : Node ι τ μ σ :=
  { state := state, sent := node.sent.send out, rcvd := node.rcvd.receive input }

@[simp] theorem Node.after_state (node : Node ι τ μ σ) (input : Input ι τ μ χ) (state : σ)
    (out : Option (Packet ι τ μ)) : (node.after input state out).state = state := rfl

@[simp] theorem Node.after_sent (node : Node ι τ μ σ) (input : Input ι τ μ χ) (state : σ)
    (out : Option (Packet ι τ μ)) : (node.after input state out).sent = node.sent.send out := rfl

@[simp] theorem Node.after_rcvd (node : Node ι τ μ σ) (input : Input ι τ μ χ) (state : σ)
    (out : Option (Packet ι τ μ)) :
    (node.after input state out).rcvd = node.rcvd.receive input := rfl

/-- What is in flight after a step was in flight before, or has just been
sent. -/
theorem mem_inFlight_set {g : System ι τ μ σ} {i : ι} {input : Input ι τ μ χ} {state : σ}
    {out : Option (Packet ι τ μ)} {src dst : ι} {tag : τ} {msg : μ}
    (hMem : msg ∈ inFlight (set g i ((g i).after input state out)) src dst tag) :
    msg ∈ inFlight g src dst tag ∨ src = i ∧ out = some ⟨dst, tag, msg⟩ := by
  have hRcvd : ((g dst).rcvd src tag).length ≤
      ((set g i ((g i).after input state out) dst).rcvd src tag).length := by
    by_cases hDst : dst = i
    · subst hDst
      rw [set_self, Node.after_rcvd]
      cases input with
      | recv peer t m => exact ((g dst).rcvd.prefix_add peer t m src tag).length_le
      | _ => exact Nat.le_refl _
    · rw [set_of_ne _ _ hDst]
  have hOld := List.drop_subset_drop_left _ hRcvd hMem
  by_cases hSrc : src = i
  · subst hSrc
    rw [set_self, Node.after_sent] at hOld
    cases out with
    | none => exact Or.inl hOld
    | some packet =>
        obtain ⟨peer, t, m⟩ := packet
        rw [Log.send_some] at hOld
        unfold Log.add at hOld
        split at hOld
        next hSame =>
          obtain ⟨rfl, rfl⟩ := hSame
          rw [List.drop_append] at hOld
          rcases List.mem_append.mp hOld with hBefore | hNew
          · exact Or.inl hBefore
          · rw [List.mem_singleton.mp (List.mem_of_mem_drop hNew)]
            exact Or.inr ⟨rfl, rfl⟩
        next => exact Or.inl hOld
  · rw [set_of_ne _ _ hSrc] at hOld
    exact Or.inl hOld

def step (prog : Program ι τ μ σ χ) (g : System ι τ μ σ) (i : ι) (event : Event ι τ χ) :
    Option (System ι τ μ σ) :=
  (event.input g i).bind fun input =>
    (prog i input (g i).state).map fun (state, out) => set g i ((g i).after input state out)

/-- A run of scheduled events. -/
def run (prog : Program ι τ μ σ χ) : System ι τ μ σ → List (ι × Event ι τ χ) →
    Option (System ι τ μ σ)
  | g, [] => some g
  | g, (i, event) :: rest => (step prog g i event).bind fun g => run prog g rest

/-- Process `i` can take an input, and this is what it does. -/
structure Fires (prog : Program ι τ μ σ χ) (g : System ι τ μ σ) (i : ι) (input : Input ι τ μ χ)
    (state : σ) (out : Option (Packet ι τ μ)) : Prop where
  admits : Admits g i input
  acts : prog i input (g i).state = some (state, out)

/-- What a step of the system is. -/
theorem step_cases {prog : Program ι τ μ σ χ} {g g' : System ι τ μ σ} {i : ι}
    {event : Event ι τ χ} (h : step prog g i event = some g') :
    ∃ input state out, event.input g i = some input ∧ Fires prog g i input state out ∧
      g' = set g i ((g i).after input state out) := by
  obtain ⟨input, hInput, hRest⟩ := Option.bind_eq_some_iff.mp h
  obtain ⟨⟨state, out⟩, hActs, rfl⟩ := Option.map_eq_some_iff.mp hRest
  exact ⟨input, state, out, hInput, ⟨admits_of_input hInput, hActs⟩, rfl⟩

/-! ## Runs -/

/-- A system in which nothing has been sent yet. -/
def fresh (states : ι → σ) : System ι τ μ σ :=
  fun i => { state := states i, sent := fun _ _ => [], rcvd := fun _ _ => [] }

/-- The systems that runs lead to when every step is one that `ok` allows. -/
inductive Reachable (prog : Program ι τ μ σ χ) (init : (ι → σ) → Prop)
    (ok : System ι τ μ σ → ι → Event ι τ χ → Prop) : System ι τ μ σ → Prop where
  | start {states : ι → σ} (hInit : init states) : Reachable prog init ok (fresh states)
  | step {g g' : System ι τ μ σ} {i : ι} {event : Event ι τ χ} (hReach : Reachable prog init ok g)
      (hOk : ok g i event) (hStep : step prog g i event = some g') : Reachable prog init ok g'

/-- Every step allowed. -/
def always : System ι τ μ σ → ι → Event ι τ χ → Prop := fun _ _ _ => True

section Reachable

variable {prog : Program ι τ μ σ χ} {init : (ι → σ) → Prop}
  {ok : System ι τ μ σ → ι → Event ι τ χ → Prop}

theorem Reachable.weaken {g : System ι τ μ σ} (h : Reachable prog init ok g)
    {weaker : System ι τ μ σ → ι → Event ι τ χ → Prop}
    (hOk : ∀ g i event, ok g i event → weaker g i event) : Reachable prog init weaker g := by
  induction h with
  | start hInit => exact .start hInit
  | step _ hStepOk hStep ih => exact .step ih (hOk _ _ _ hStepOk) hStep

theorem Reachable.run {g g' : System ι τ μ σ} {events : List (ι × Event ι τ χ)}
    (h : Reachable prog init always g) (hRun : FifoNet.run prog g events = some g') :
    Reachable prog init always g' := by
  induction events generalizing g with
  | nil =>
      cases hRun
      exact h
  | cons first rest ih =>
      obtain ⟨next, hStep, hRest⟩ := Option.bind_eq_some_iff.mp hRun
      exact ih (h.step trivial hStep) hRest

/-- A run that stops at an event that is not allowed. -/
def runWhile (prog : Program ι τ μ σ χ) (ok : System ι τ μ σ → ι → Event ι τ χ → Prop)
    [∀ g i event, Decidable (ok g i event)] : System ι τ μ σ → List (ι × Event ι τ χ) →
    Option (System ι τ μ σ)
  | g, [] => some g
  | g, (i, event) :: rest =>
      if ok g i event then (step prog g i event).bind fun g => runWhile prog ok g rest else none

theorem Reachable.runWhile [∀ g i event, Decidable (ok g i event)] {g g' : System ι τ μ σ}
    {events : List (ι × Event ι τ χ)} (h : Reachable prog init ok g)
    (hRun : FifoNet.runWhile prog ok g events = some g') : Reachable prog init ok g' := by
  induction events generalizing g with
  | nil =>
      cases hRun
      exact h
  | cons first rest ih =>
      unfold FifoNet.runWhile at hRun
      split at hRun
      next hOk =>
        obtain ⟨next, hStep, hRest⟩ := Option.bind_eq_some_iff.mp hRun
        exact ih (h.step hOk hStep) hRest
      next => cases hRun

/-- What is sent stays sent. -/
theorem run_sent_prefix {g g' : System ι τ μ σ} {events : List (ι × Event ι τ χ)}
    (hRun : FifoNet.run prog g events = some g') (src dst : ι) (tag : τ) :
    (g src).sent dst tag <+: (g' src).sent dst tag := by
  induction events generalizing g with
  | nil =>
      cases hRun
      exact List.prefix_rfl
  | cons first rest ih =>
      obtain ⟨next, hStep, hRest⟩ := Option.bind_eq_some_iff.mp hRun
      refine List.IsPrefix.trans ?_ (ih hRest)
      obtain ⟨input, state, out, -, -, rfl⟩ := step_cases hStep
      by_cases hSrc : src = first.1
      · subst hSrc
        rw [set_self]
        exact Log.prefix_send _ out dst tag
      · rw [set_of_ne _ _ hSrc]

/-- A process takes an input that the channels allow. -/
theorem Fires.exists_step {g : System ι τ μ σ} {i : ι} {input : Input ι τ μ χ} {state : σ}
    {out : Option (Packet ι τ μ)} (h : Fires prog g i input state out) :
    ∃ event, FifoNet.step prog g i event = some (set g i ((g i).after input state out)) := by
  obtain ⟨hAdmits, hActs⟩ := h
  cases input with
  | tick choice => exact ⟨.tick choice, by simp [FifoNet.step, Event.input, hActs]⟩
  | recv src tag msg =>
      obtain ⟨rest, hRest⟩ := hAdmits
      exact ⟨.recv src tag, by simp [FifoNet.step, Event.input, hRest, hActs]⟩
  | synced dst tag =>
      have hEmpty : inFlight g i dst tag = [] := hAdmits
      exact ⟨.synced dst tag, by simp [FifoNet.step, Event.input, hEmpty, hActs]⟩

theorem Reachable.fires {g : System ι τ μ σ} (h : Reachable prog init always g) {i : ι}
    {input : Input ι τ μ χ} {state : σ} {out : Option (Packet ι τ μ)}
    (hFires : Fires prog g i input state out) :
    Reachable prog init always (set g i ((g i).after input state out)) := by
  obtain ⟨event, hStep⟩ := hFires.exists_step
  exact h.step trivial hStep

theorem Fifo.set {g : System ι τ μ σ} (h : Fifo g) {i : ι} {input : Input ι τ μ χ} {state : σ}
    {out : Option (Packet ι τ μ)} (hFires : Fires prog g i input state out) :
    Fifo (FifoNet.set g i ((g i).after input state out)) := by
  intro src dst tag
  have hSent : (g src).sent dst tag <+:
      (FifoNet.set g i ((g i).after input state out) src).sent dst tag := by
    by_cases hSrc : src = i
    · subst hSrc
      rw [set_self]
      exact Log.prefix_send _ out dst tag
    · rw [set_of_ne _ _ hSrc]
  refine List.IsPrefix.trans ?_ hSent
  by_cases hDst : dst = i
  · subst hDst
    rw [set_self, Node.after_rcvd]
    cases input with
    | tick choice => exact h src dst tag
    | synced peer t => exact h src dst tag
    | recv peer t msg =>
        rw [Log.receive_recv]
        unfold Log.add
        split
        next hSame =>
          obtain ⟨rfl, rfl⟩ := hSame
          exact h.of_admits_recv hFires.admits
        next => exact h src dst tag
  · rw [set_of_ne _ _ hDst]
    exact h src dst tag

theorem Reachable.fifo {g : System ι τ μ σ} (h : Reachable prog init ok g) : Fifo g := by
  induction h with
  | start hInit => exact fun _ _ _ => List.prefix_rfl
  | step _ _ hStep ih =>
      obtain ⟨input, state, out, -, hFires, rfl⟩ := step_cases hStep
      exact ih.set hFires

/-- The rule for an invariant of the whole system. -/
theorem Reachable.invariant {I : System ι τ μ σ → Prop}
    (hStart : ∀ states, init states → I (fresh states))
    (hStep : ∀ g i event input state out, Reachable prog init ok g → I g → ok g i event →
      event.input g i = some input → Fires prog g i input state out →
      I (set g i ((g i).after input state out)))
    {g : System ι τ μ σ} (h : Reachable prog init ok g) : I g := by
  induction h with
  | start hInit => exact hStart _ hInit
  | step hReach hOk hNext ih =>
      obtain ⟨input, state, out, hInput, hFires, rfl⟩ := step_cases hNext
      exact hStep _ _ _ _ _ _ hReach ih hOk hInput hFires

/-- The rule for what every process knows: a step has to keep it for the
process that takes the step only, and may use it for all of them. -/
theorem Reachable.forall_node {L : ι → Node ι τ μ σ → Prop}
    (hStart : ∀ states, init states → ∀ i,
      L i { state := states i, sent := fun _ _ => [], rcvd := fun _ _ => [] })
    (hStep : ∀ g i input state out, Reachable prog init ok g → (∀ j, L j (g j)) →
      Fires prog g i input state out → L i ((g i).after input state out))
    {g : System ι τ μ σ} (h : Reachable prog init ok g) : ∀ i, L i (g i) := by
  refine h.invariant (I := fun g => ∀ i, L i (g i)) (fun states hInit i => hStart states hInit i) ?_
  intro g i event input state out hReach hAll _ _ hFires j
  by_cases hSelf : j = i
  · subst hSelf
    rw [set_self]
    exact hStep _ _ _ _ _ hReach hAll hFires
  · rw [set_of_ne _ _ hSelf]
    exact hAll j

end Reachable

end FifoNet
