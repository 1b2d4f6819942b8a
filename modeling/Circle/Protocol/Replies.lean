import Circle.Base.Reader
import Circle.State.Work

/-!
# The stream of work replies

A reply is a header with no items in it, or a header that announces items and
the bytes that follow.  `replies` reads the replies that are complete in a
stream.  What two ranks know about the messages between them, as far as they
are requests and replies, is a `Ledger`.
-/

namespace Circle

/-- Items that one reply can carry. -/
structure Sendable (items : List Item) : Prop where
  ne_nil : items ≠ []
  nonempty : ∀ item ∈ items, item ≠ []
  count_le : items.length ≤ intMax
  bytes_le : items.flatten.length ≤ intMax

theorem Sendable.sized {items : List Item} (h : Sendable items) : Queue.Sized items where
  count_le := h.count_le
  length_lt := by
    intro item hMem
    have hLength := (List.sublist_flatten_of_mem hMem).length_le
    have hBytes := h.bytes_le
    unfold intMax at hBytes
    omega

/-- Read the replies of one rank to another, as the lists of their items.
Between its two messages a reply is known by its header. -/
def replies : Reader (Option (List Int)) Msg (List Item) where
  next
    | none, .ints (items :: rest) => if 0 < items then some (items :: rest) else none
    | _, _ => none
  out
    | none, .ints (items :: _) => if 0 < items then [] else [[]]
    | some header, .chars payload =>
        [Packed.cut payload (header.tail.tail.map ofInt) payload.length]
    | _, _ => []
  Ok
    | none, .ints (_ :: _) => True
    | some header, .chars payload =>
        ∃ items, Sendable items ∧ header = encodeHeader items ∧ payload = items.flatten
    | _, _ => False

/-- The replies in a stream that carry items. -/
def transfers (log : List Msg) : Nat := (replies.read none log).countP fun items => !items.isEmpty

/-- The items in the replies of a stream. -/
def carried (log : List Msg) : List Item := (replies.read none log).flatten

section Messages

theorem replies_ok_none {msg : Msg} (h : replies.Ok none msg) :
    ∃ items rest, msg = .ints (items :: rest) := by
  cases msg with
  | ints values =>
      cases values with
      | nil => exact h.elim
      | cons items rest => exact ⟨items, rest, rfl⟩
  | _ => exact h.elim

theorem replies_ok_some {header : List Int} {msg : Msg} (h : replies.Ok (some header) msg) :
    ∃ items, Sendable items ∧ header = encodeHeader items ∧ msg = .chars items.flatten := by
  cases msg with
  | chars payload =>
      obtain ⟨items, hItems, hHeader, rfl⟩ := h
      exact ⟨items, hItems, hHeader, rfl⟩
  | _ => exact h.elim

theorem replies_next_none {items : Int} {rest : List Int} :
    replies.next none (.ints (items :: rest)) = if 0 < items then some (items :: rest) else none :=
  rfl

theorem replies_out_none {items : Int} {rest : List Int} :
    replies.out none (.ints (items :: rest)) = if 0 < items then [] else [[]] := rfl

/-- The bytes behind an encoded header are read as the items that were
encoded. -/
theorem replies_out_payload {items : List Item} (h : Sendable items) :
    replies.out (some (encodeHeader items)) (.chars items.flatten) = [items] := by
  show [Packed.cut items.flatten ((encodeHeader items).tail.tail.map ofInt) items.flatten.length] = _
  have hOffsets : (encodeHeader items).tail.tail.map ofInt = Packed.offsetsFrom 0 items :=
    Queue.map_ofInt_offsetsFrom h.nonempty h.bytes_le
  have hCut := Packed.cut_offsetsFrom [] items []
  simp only [List.nil_append, List.append_nil, List.length_nil, Nat.zero_add] at hCut
  rw [hOffsets, hCut]

theorem encodeHeader_cons {items : List Item} (h : items ≠ []) :
    ∃ first rest, encodeHeader items = first :: rest ∧ 0 < first := by
  have hLength := List.length_pos_iff.mpr h
  exact ⟨_, _, rfl, by omega⟩

end Messages

/-! ## Two ranks -/

/-- What a rank knows about the requests and replies between it and a peer:
`opened` is the header that it has sent without the bytes, `waiting` the one it
has received without the bytes, `asked` the number of its open requests, and
`queued` the number of requests of the peer that it has not answered. -/
structure Ledger (opened waiting : Option (List Int)) (asked queued : Nat)
    (sentReplies rcvdReplies : List Msg) (sentRequests rcvdRequests sentReceipts : Nat) :
    Prop where
  accepts : replies.Accepts none sentReplies
  opened_eq : replies.after none sentReplies = opened
  waiting_eq : replies.after none rcvdReplies = waiting
  requests : sentRequests = (replies.read none rcvdReplies).length + asked
  answers : rcvdRequests = (replies.read none sentReplies).length + queued
  receipts : sentReceipts = transfers rcvdReplies

namespace Ledger

variable {opened waiting : Option (List Int)} {asked queued : Nat}
  {sentReplies rcvdReplies : List Msg} {sentRequests rcvdRequests sentReceipts : Nat}

theorem empty : Ledger none none 0 0 [] [] 0 0 0 := by
  constructor <;> simp [transfers]

/-- The peer asks for work. -/
theorem request (h : Ledger opened waiting asked queued sentReplies rcvdReplies sentRequests
      rcvdRequests sentReceipts) :
    Ledger opened waiting asked (queued + 1) sentReplies rcvdReplies sentRequests
      (rcvdRequests + 1) sentReceipts :=
  { h with answers := by rw [h.answers, Nat.add_assoc] }

/-- The rank asks the peer for work. -/
theorem ask (h : Ledger opened waiting asked queued sentReplies rcvdReplies sentRequests
      rcvdRequests sentReceipts) :
    Ledger opened waiting (asked + 1) queued sentReplies rcvdReplies (sentRequests + 1)
      rcvdRequests sentReceipts :=
  { h with requests := by rw [h.requests, Nat.add_assoc] }

/-- The peer gets a reply without items. -/
theorem refuse (h : Ledger none waiting asked (queued + 1) sentReplies rcvdReplies sentRequests
      rcvdRequests sentReceipts) {items : Int} (hItems : items ≤ 0) :
    Ledger none waiting asked queued (sentReplies ++ [.ints [items]]) rcvdReplies sentRequests
      rcvdRequests sentReceipts where
  accepts := by
    rw [replies.accepts_snoc, h.opened_eq]
    exact ⟨h.accepts, trivial⟩
  opened_eq := by
    rw [replies.after_snoc, h.opened_eq, replies_next_none, if_neg (by omega)]
  waiting_eq := h.waiting_eq
  requests := h.requests
  answers := by
    rw [replies.read_snoc, h.opened_eq, replies_out_none, if_neg (by omega), h.answers,
      List.length_append, List.length_singleton]
    omega
  receipts := h.receipts

/-- The peer gets the header of a reply. -/
theorem announce (h : Ledger none waiting asked queued sentReplies rcvdReplies sentRequests
      rcvdRequests sentReceipts) {items : List Item} (hItems : items ≠ []) :
    Ledger (some (encodeHeader items)) waiting asked queued
      (sentReplies ++ [.ints (encodeHeader items)]) rcvdReplies sentRequests rcvdRequests
      sentReceipts := by
  obtain ⟨first, rest, hHeader, hFirst⟩ := encodeHeader_cons hItems
  rw [hHeader]
  exact {
    accepts := by
      rw [replies.accepts_snoc, h.opened_eq]
      exact ⟨h.accepts, trivial⟩
    opened_eq := by rw [replies.after_snoc, h.opened_eq, replies_next_none, if_pos hFirst]
    waiting_eq := h.waiting_eq
    requests := h.requests
    answers := by
      rw [replies.read_snoc, h.opened_eq, replies_out_none, if_pos hFirst, List.append_nil,
        h.answers]
    receipts := h.receipts }

/-- The peer gets the bytes of a reply. -/
theorem deliver {items : List Item} (h : Ledger (some (encodeHeader items)) waiting asked
      (queued + 1) sentReplies rcvdReplies sentRequests rcvdRequests sentReceipts)
    (hItems : Sendable items) :
    Ledger none waiting asked queued (sentReplies ++ [.chars items.flatten]) rcvdReplies
      sentRequests rcvdRequests sentReceipts where
  accepts := by
    rw [replies.accepts_snoc, h.opened_eq]
    exact ⟨h.accepts, items, hItems, rfl, rfl⟩
  opened_eq := by
    rw [replies.after_snoc, h.opened_eq]
    rfl
  waiting_eq := h.waiting_eq
  requests := h.requests
  answers := by
    rw [replies.read_snoc, h.opened_eq, replies_out_payload hItems, h.answers,
      List.length_append, List.length_singleton]
    omega
  receipts := h.receipts

/-- A reply without items arrives. -/
theorem refused (h : Ledger opened none (asked + 1) queued sentReplies rcvdReplies sentRequests
      rcvdRequests sentReceipts) {items : Int} (rest : List Int) (hItems : items ≤ 0) :
    Ledger opened none asked queued sentReplies (rcvdReplies ++ [.ints (items :: rest)])
      sentRequests rcvdRequests sentReceipts where
  accepts := h.accepts
  opened_eq := h.opened_eq
  waiting_eq := by
    rw [replies.after_snoc, h.waiting_eq, replies_next_none, if_neg (by omega)]
  requests := by
    rw [replies.read_snoc, h.waiting_eq, replies_out_none, if_neg (by omega), h.requests,
      List.length_append, List.length_singleton]
    omega
  answers := h.answers
  receipts := by
    unfold transfers
    rw [replies.read_snoc, h.waiting_eq, replies_out_none, if_neg (by omega), List.countP_append]
    exact h.receipts

/-- The header of a reply arrives. -/
theorem announced (h : Ledger opened none asked queued sentReplies rcvdReplies sentRequests
      rcvdRequests sentReceipts) {items : Int} (rest : List Int) (hItems : 0 < items) :
    Ledger opened (some (items :: rest)) asked queued sentReplies
      (rcvdReplies ++ [.ints (items :: rest)]) sentRequests rcvdRequests sentReceipts where
  accepts := h.accepts
  opened_eq := h.opened_eq
  waiting_eq := by rw [replies.after_snoc, h.waiting_eq, replies_next_none, if_pos hItems]
  requests := by
    rw [replies.read_snoc, h.waiting_eq, replies_out_none, if_pos hItems, List.append_nil,
      h.requests]
  answers := h.answers
  receipts := by
    unfold transfers
    rw [replies.read_snoc, h.waiting_eq, replies_out_none, if_pos hItems, List.append_nil]
    exact h.receipts

/-- The bytes of a reply arrive, and a receipt goes out. -/
theorem delivered {items : List Item} (h : Ledger opened (some (encodeHeader items)) (asked + 1)
      queued sentReplies rcvdReplies sentRequests rcvdRequests sentReceipts)
    (hItems : Sendable items) :
    Ledger opened none asked queued sentReplies (rcvdReplies ++ [.chars items.flatten])
      sentRequests rcvdRequests (sentReceipts + 1) where
  accepts := h.accepts
  opened_eq := h.opened_eq
  waiting_eq := by
    rw [replies.after_snoc, h.waiting_eq]
    rfl
  requests := by
    rw [replies.read_snoc, h.waiting_eq, replies_out_payload hItems, h.requests,
      List.length_append, List.length_singleton]
    omega
  answers := h.answers
  receipts := by
    unfold transfers
    rw [replies.read_snoc, h.waiting_eq, replies_out_payload hItems, List.countP_append, h.receipts]
    simp [transfers, hItems.ne_nil]

end Ledger

end Circle
