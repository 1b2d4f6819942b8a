import Mathlib.Data.List.Infix

/-!
# Readers of message streams

A protocol in which one thing to say takes several messages is read by an
automaton: it keeps what it needs of the messages so far, and puts out the
things that are completely said.  The automaton also tells which message may
come next, so that a stream can be well formed up to any point.

A receiver has read a prefix of what its peer has written.  What it knows of a
well-formed stream therefore determines the shape of the next message.
-/

/-- An automaton that reads messages `μ` and puts out values `ω`. -/
structure Reader (κ μ ω : Type) where
  next : κ → μ → κ
  out : κ → μ → List ω
  /-- The messages that may come next. -/
  Ok : κ → μ → Prop

namespace Reader

variable {κ μ ω : Type} (R : Reader κ μ ω)

/-- What is kept after a stream. -/
def after (k : κ) (log : List μ) : κ := log.foldl R.next k

/-- What is put out over a stream. -/
def read : κ → List μ → List ω
  | _, [] => []
  | k, msg :: rest => R.out k msg ++ read (R.next k msg) rest

/-- Every message may come where it comes. -/
def Accepts : κ → List μ → Prop
  | _, [] => True
  | k, msg :: rest => R.Ok k msg ∧ Accepts (R.next k msg) rest

@[simp] theorem after_nil (k : κ) : R.after k [] = k := rfl

@[simp] theorem read_nil (k : κ) : R.read k [] = [] := rfl

@[simp] theorem accepts_nil (k : κ) : R.Accepts k [] := trivial

theorem after_append (k : κ) (front back : List μ) :
    R.after k (front ++ back) = R.after (R.after k front) back := List.foldl_append

theorem read_append (k : κ) (front back : List μ) :
    R.read k (front ++ back) = R.read k front ++ R.read (R.after k front) back := by
  induction front generalizing k with
  | nil => rfl
  | cons msg rest ih =>
      show R.out k msg ++ R.read _ (rest ++ back) = R.out k msg ++ R.read _ rest ++ _
      rw [ih, List.append_assoc]
      rfl

theorem accepts_append {k : κ} {front back : List μ} :
    R.Accepts k (front ++ back) ↔ R.Accepts k front ∧ R.Accepts (R.after k front) back := by
  induction front generalizing k with
  | nil => exact (and_iff_right trivial).symm
  | cons msg rest ih =>
      show R.Ok k msg ∧ R.Accepts _ (rest ++ back) ↔ (R.Ok k msg ∧ R.Accepts _ rest) ∧ _
      rw [ih, and_assoc]
      rfl

@[simp] theorem after_snoc (k : κ) (log : List μ) (msg : μ) :
    R.after k (log ++ [msg]) = R.next (R.after k log) msg := R.after_append k log [msg]

@[simp] theorem read_snoc (k : κ) (log : List μ) (msg : μ) :
    R.read k (log ++ [msg]) = R.read k log ++ R.out (R.after k log) msg := by
  rw [read_append]
  exact congrArg _ (List.append_nil _)

@[simp] theorem accepts_snoc {k : κ} {log : List μ} {msg : μ} :
    R.Accepts k (log ++ [msg]) ↔ R.Accepts k log ∧ R.Ok (R.after k log) msg := by
  rw [accepts_append]
  exact and_congr_right fun _ => and_iff_left trivial

variable {R}

/-- What is read of a prefix is a prefix of what is read. -/
theorem read_prefix {front log : List μ} (k : κ) (h : front <+: log) :
    R.read k front <+: R.read k log := by
  obtain ⟨back, rfl⟩ := h
  rw [R.read_append]
  exact List.prefix_append _ _

theorem Accepts.of_prefix {k : κ} {front log : List μ} (h : R.Accepts k log)
    (hPrefix : front <+: log) : R.Accepts k front := by
  obtain ⟨back, rfl⟩ := hPrefix
  exact (R.accepts_append.mp h).1

/-- The message that a receiver gets next is one that may come next. -/
theorem Accepts.next_ok {k : κ} {log front : List μ} {msg : μ} (h : R.Accepts k log)
    (hPrefix : front ++ [msg] <+: log) : R.Ok (R.after k front) msg :=
  (R.accepts_snoc.mp (h.of_prefix hPrefix)).2

end Reader
