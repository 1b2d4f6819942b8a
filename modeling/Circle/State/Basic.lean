import Circle.Base.FifoNet
import Circle.Queue.Transfer
import Circle.TreeState

/-!
# Ranks, messages and choices

The data that the functions of `state.cpp` share.  A rank is a number below
the size `n` of the communicator.  A function that talks to other ranks is cut
into turns at its MPI calls: one turn does what happens on receiving a message
or on a probe that finds none, up to and including the next send.
-/

namespace Circle

/-- The message tags. -/
inductive Tag where
  | workRequest
  | workReply
  | workReceipt
  | token
  | reduce
  | barrier
  | term
  | abortRequest
  | abortReply
  | abortReduce
  deriving DecidableEq, Repr

/-- The colours of a token and of a rank. -/
inductive Color where
  | white
  | black
  | terminate
  deriving DecidableEq, Repr

/-- The user data of a reduction: the bytes at `reduce_buf`, with a
`reduce_buf_size` that fits an `int`.  No bytes are a null pointer and a size of
zero, as long as no callback has stored anything. -/
structure ReduceBuf where
  bytes : List UInt8
  fits : bytes.length ≤ intMax
  deriving DecidableEq, Repr

/-- No user data. -/
def ReduceBuf.null : ReduceBuf where
  bytes := []
  fits := Nat.zero_le _

theorem ReduceBuf.eq_null {buf : ReduceBuf} (h : (buf.bytes.length : Int) = 0) : buf = .null := by
  obtain ⟨bytes, _⟩ := buf
  have hBytes : bytes = [] := List.length_eq_zero_iff.mp (by exact_mod_cast h)
  subst hBytes
  rfl

/-- The messages that ranks send. -/
inductive Msg where
  /-- No data. -/
  | empty
  /-- The header of a work reply. -/
  | ints (values : List Int)
  /-- The bytes of a work reply. -/
  | chars (bytes : List UInt8)
  /-- A token. -/
  | color (token : Color)
  /-- A flag of a termination or abort reduction. -/
  | flag (value : Bool)
  /-- The header of a reduction: whether it is `MSG_VALID`, the number of
  objects, and the number of bytes of user data. -/
  | longs (valid : Bool) (count : Int) (bytes : Int)
  /-- The user data of a reduction. -/
  | data (buf : ReduceBuf)
  deriving DecidableEq, Repr

/-- What all ranks agree on: the number of ranks, the page size, the tree
width, the flags, and the operation of the reduction, given as the data that
its callback leaves for the current data and the data of a child; without a
callback, that is the current data. -/
structure Config (n : Nat) where
  size_pos : 0 < n
  page : PageSize
  width : Nat
  width_pos : 0 < width
  termTree : Bool
  reduceEnabled : Bool
  splitEqual : Bool
  op : ReduceBuf → ReduceBuf → ReduceBuf

/-- What the environment chooses when a rank goes on by itself. -/
inductive Choice (n : Nat) where
  /-- Nothing; where the rank probes for a message, it finds none. -/
  | go
  /-- Somebody sets `ABORT_FLAG`. -/
  | raiseAbort
  /-- What `MPI_Testall` says. -/
  | tested (flag : Bool)
  /-- What `rand_r` draws for the number of items to send. -/
  | draw (value : Nat)
  /-- What `getNextProc` picks. -/
  | next (rank : Option (Fin n))
  /-- What the process callback does with the queue. -/
  | callback (ops : List QueueOp)
  /-- Whether the time for a new reduction has come. -/
  | time (fired : Bool)
  /-- The data that the initial callback of a reduction leaves: what it has
  stored, or what there was if it stores nothing or there is none. -/
  | init (buf : ReduceBuf)

abbrev Packet (n : Nat) := FifoNet.Packet (Fin n) Tag Msg

abbrev Input (n : Nat) := FifoNet.Input (Fin n) Tag Msg (Choice n)

/-- What a turn of a function does: the data it leaves behind, the message it
sends, and its result once it returns. -/
structure Turn (n : Nat) (α ρ : Type) where
  record : α
  out : Option (Packet n)
  result : Option ρ

namespace Turn

variable {n : Nat} {α ρ : Type}

/-- The function goes on. -/
def stays (record : α) : Turn n α ρ := ⟨record, none, none⟩

/-- The function sends a message and goes on. -/
def sends (record : α) (dst : Fin n) (tag : Tag) (msg : Msg) : Turn n α ρ :=
  ⟨record, some ⟨dst, tag, msg⟩, none⟩

/-- The function returns. -/
def returns (record : α) (result : ρ) : Turn n α ρ := ⟨record, none, some result⟩

/-- The function sends a message and returns. -/
def sendsAndReturns (record : α) (dst : Fin n) (tag : Tag) (msg : Msg) (result : ρ) :
    Turn n α ρ :=
  ⟨record, some ⟨dst, tag, msg⟩, some result⟩

end Turn

/-- A turn that neither receives nor sends with a tag. -/
structure Silent {n : Nat} (tag : Tag) (input : Input n) (out : Option (Packet n)) : Prop where
  out : ∀ packet, out = some packet → packet.tag ≠ tag
  input : ∀ src msg, input ≠ .recv src tag msg

section Silent

variable {n : Nat} {tag : Tag} {input : Input n} {out : Option (Packet n)}

theorem silent_tick (tag : Tag) (choice : Choice n) : Silent tag (.tick choice) none where
  out := by simp
  input := by simp

theorem silent_synced (tag : Tag) (dst : Fin n) (t : Tag) : Silent tag (.synced dst t) none where
  out := by simp
  input := by simp

theorem silent_recv {t : Tag} (src : Fin n) (msg : Msg) (hTag : tag ≠ t) :
    Silent tag (.recv src t msg) none where
  out := by simp
  input := by
    intro src' msg' hEq
    injection hEq with _ hSame
    exact hTag hSame.symm

theorem silent_tick_send (choice : Choice n) {t : Tag} (dst : Fin n) (msg : Msg)
    (hTag : tag ≠ t) : Silent tag (.tick choice) (some ⟨dst, t, msg⟩) where
  out := by
    rintro packet ⟨rfl⟩
    exact hTag.symm
  input := by simp

theorem silent_recv_send {t t' : Tag} (src dst : Fin n) (msg msg' : Msg) (hTag : tag ≠ t)
    (hTag' : tag ≠ t') : Silent tag (.recv src t msg) (some ⟨dst, t', msg'⟩) where
  out := by
    rintro packet ⟨rfl⟩
    exact hTag'.symm
  input := (silent_recv src msg hTag).input

theorem Silent.sent (h : Silent tag input out) (log : FifoNet.Log (Fin n) Tag Msg)
    (peer : Fin n) : log.send out peer tag = log peer tag :=
  log.send_of_tag_ne h.out peer

theorem Silent.rcvd (h : Silent tag input out) (log : FifoNet.Log (Fin n) Tag Msg)
    (peer : Fin n) : log.receive input peer tag = log peer tag := by
  cases input with
  | tick choice => rfl
  | synced dst t => rfl
  | recv src t msg =>
      refine log.add_of_tag_ne _ _ _ fun hEq => ?_
      exact h.input src msg (by rw [hEq])

end Silent

/-- How a function ends that can run into an error: it returns, or it stops
the execution (`MPI_Abort`, or a message that does not match its receive). -/
inductive Outcome where
  | returned
  | failed
  deriving DecidableEq, Repr

/-- The tree of a configuration, in exact arithmetic.  `intLinks_of_fits` says
at which widths it is the one that the ranks compute in `int`. -/
def Config.tree {n : Nat} (cfg : Config n) : ParentTree (Fin n) :=
  TreeState.tree n cfg.width cfg.size_pos cfg.width_pos

/-- The children and the parent of a rank. -/
def Config.neighbours {n : Nat} (cfg : Config n) (rank : Fin n) : List (Fin n) :=
  (cfg.tree.parent rank).toList ++ cfg.tree.children rank

/-- The neighbours that a rank reads from its `TreeState`: the children are those
up to the first number that is no rank, and `whole` says that there is none. -/
structure Links (n : Nat) where
  parentRank : Option (Fin n)
  childrenRanks : List (Fin n)
  whole : Bool
  deriving DecidableEq, Repr

/-- The neighbours of a rank in the tree of a configuration. -/
def Config.links {n : Nat} (cfg : Config n) (rank : Fin n) : Links n where
  parentRank := cfg.tree.parent rank
  childrenRanks := cfg.tree.children rank
  whole := true

@[simp] theorem Config.parentRank_links {n : Nat} (cfg : Config n) (rank : Fin n) :
    (cfg.links rank).parentRank = cfg.tree.parent rank := rfl

@[simp] theorem Config.childrenRanks_links {n : Nat} (cfg : Config n) (rank : Fin n) :
    (cfg.links rank).childrenRanks = cfg.tree.children rank := rfl

@[simp] theorem Config.whole_links {n : Nat} (cfg : Config n) (rank : Fin n) :
    (cfg.links rank).whole = true := rfl

/-- `token_src`: the rank before, around the ring. -/
def tokenSrc {n : Nat} (rank : Fin n) : Fin n :=
  ⟨(rank.val + n - 1) % n, Nat.mod_lt _ (Nat.zero_lt_of_lt rank.isLt)⟩

/-- `token_dest`: the rank after, around the ring. -/
def tokenDest {n : Nat} (rank : Fin n) : Fin n :=
  ⟨(rank.val + 1 + n) % n, Nat.mod_lt _ (Nat.zero_lt_of_lt rank.isLt)⟩

end Circle
