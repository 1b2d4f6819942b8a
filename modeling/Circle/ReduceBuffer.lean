import Circle.State.Reduce

/-!
# The reduction buffer and its size

`CircleImpl` keeps the user data of a reduction in two members, `reduce_buf`
and `reduce_buf_size`.  `Circle::reduce` replaces both, `reduceCheck` and
`reduceSync` read both.  The two are kept apart here, as in the source, so
that they can disagree.

The operation callback gets the pointer `reduce_buf` itself, and may hand it
back.  `Circle::reduce` frees it before it copies from it, so that what it finds
there is a choice of the allocator.
-/

namespace Circle

/-- `reduce_buf`, where `none` is a null pointer, and `reduce_buf_size`. -/
structure ReduceMembers where
  buf : Option (List UInt8)
  size : Nat
  deriving DecidableEq, Repr

namespace ReduceMembers

/-- The constructors of `CircleImpl`. -/
inductive Constructor where
  | work
  | reduction
  deriving DecidableEq, Repr

/-- Both constructors initialise `reduce_buf` and not `reduce_buf_size`, which
has the value that happens to lie there. -/
def new (_ : Constructor) (garbage : Nat) : ReduceMembers := { buf := none, size := garbage }

/-- `circle::internal::free(&reduce_buf)`. -/
def free (m : ReduceMembers) : ReduceMembers := { m with buf := none }

/-- The memory that the `buf` of a call of `Circle::reduce` points to. -/
inductive Source where
  /-- Memory of the user, with the bytes in it. -/
  | user (content : List UInt8)
  /-- `reduce_buf`, with the bytes that are in it once it is freed. -/
  | own (found : List UInt8)
  deriving DecidableEq, Repr

/-- The `size` bytes that `memcpy` finds. -/
def Source.found : Source → List UInt8
  | .user content => content
  | .own found => found

/-- The bytes behind `buf` as the caller passes it, up to `size` of them. -/
def passed (m : ReduceMembers) : Source → List UInt8
  | .user content => content
  | .own found => (m.buf.getD []).take found.length

/-- `Circle::reduce(buf, size)`. -/
def reduce (m : ReduceMembers) (buf : Source) : ReduceMembers :=
  let m := m.free
  let size := buf.found.length
  if size > 0 then { m with buf := some buf.found, size := size } else m

/-- What is done with the two members. -/
inductive Access where
  | reduce (buf : Source)
  | reduceCheck
  | reduceSync
  deriving DecidableEq, Repr

/-- `reduceCheck` and `reduceSync` only read. -/
def access (m : ReduceMembers) : Access → ReduceMembers
  | .reduce buf => m.reduce buf
  | .reduceCheck => m
  | .reduceSync => m

def run (m : ReduceMembers) (history : List Access) : ReduceMembers := history.foldl access m

/-- What the calls of `Circle::reduce` in a history find. -/
def contents (history : List Access) : List (List UInt8) :=
  history.filterMap fun
    | .reduce buf => some buf.found
    | .reduceCheck => none
    | .reduceSync => none

/-- What the calls of `Circle::reduce` in a history pass. -/
def calls (m : ReduceMembers) : List Access → List (List UInt8)
  | [] => []
  | .reduce buf :: rest => m.passed buf :: calls (m.reduce buf) rest
  | .reduceCheck :: rest => calls m rest
  | .reduceSync :: rest => calls m rest

/-- `int bytes = (int)reduce_buf_size`, which a valid header announces.  The
receiver of an invalid one does not look at it. -/
def announced (m : ReduceMembers) : Int := toInt m.size

/-- The bytes that go out behind a valid header; `none` where `MPI_Send` is
given bytes that are not there. -/
def sent (m : ReduceMembers) : Option (List UInt8) :=
  if 0 < m.announced then
    match m.buf with
    | some bytes =>
        if m.announced ≤ bytes.length then some (bytes.take m.announced.toNat) else none
    | none => none
  else
    some []

/-- Buffer and size match after calls that have passed the given bytes. -/
structure Matches (calls : List (List UInt8)) (m : ReduceMembers) : Prop where
  /-- The pointer is null exactly when the size is zero. -/
  null_iff : m.buf = none ↔ m.size = 0
  /-- Otherwise the buffer is the bytes of the most recent call. -/
  latest : m.size ≠ 0 → ∃ content, calls.getLast? = some content ∧ m.buf = some content ∧
    content.length = m.size
  /-- The header announces as many bytes as are sent. -/
  header : ∃ payload, m.sent = some payload ∧ (payload.length : Int) = m.announced
  /-- No callback gets a null buffer with a size. -/
  callback : ¬ (m.buf = none ∧ m.size ≠ 0)

/-! ## What a history leaves behind -/

theorem run_append (m : ReduceMembers) (history : List Access) (last : Access) :
    m.run (history ++ [last]) = (m.run history).access last := by
  simp [run]

theorem contents_append (history : List Access) (last : Access) :
    contents (history ++ [last]) = contents history ++ contents [last] := by
  simp [contents]

/-- The buffer is the content of the last call, if that has any bytes. -/
theorem buf_run (constructor : Constructor) (garbage : Nat) (history : List Access) :
    ((new constructor garbage).run history).buf =
      (contents history).getLast?.bind fun content =>
        if content.length > 0 then some content else none := by
  induction history using List.reverseRecOn with
  | nil => rfl
  | append_singleton history last ih =>
      rw [run_append, contents_append]
      cases last with
      | reduce buf =>
          show (reduce _ buf).buf = (contents history ++ [buf.found]).getLast?.bind _
          rw [List.getLast?_append_of_ne_nil _ (by simp)]
          simp only [reduce, free, List.getLast?_singleton, Option.bind_some]
          split <;> rfl
      | reduceCheck => simpa [access, contents] using ih
      | reduceSync => simpa [access, contents] using ih

/-- The size is the length of the last call that has any bytes, and what lay
there before if there is none. -/
theorem size_run (constructor : Constructor) (garbage : Nat) (history : List Access) :
    ((new constructor garbage).run history).size =
      (((contents history).filter (·.length > 0)).getLast?.map List.length).getD garbage := by
  induction history using List.reverseRecOn with
  | nil => rfl
  | append_singleton history last ih =>
      rw [run_append, contents_append, List.filter_append]
      cases last with
      | reduce buf =>
          show (reduce _ buf).size = _
          by_cases hBytes : buf.found.length > 0
          · simp [reduce, contents, hBytes]
          · simpa [reduce, free, contents, hBytes] using ih
      | reduceCheck => simpa [access, contents] using ih
      | reduceSync => simpa [access, contents] using ih

/-- Lengths that an `int` does not turn negative. -/
theorem toInt_nonneg_iff {a : Nat} : 0 ≤ toInt a ↔ a % 2 ^ 32 < 2 ^ 31 := by
  unfold toInt
  rw [Int.bmod_eq_emod]
  split <;> omega

theorem toInt_le_self (a : Nat) : toInt a ≤ a := by
  unfold toInt
  rw [Int.bmod_eq_emod]
  split <;> omega

/-- After a call with some bytes, the members are those bytes and their
number. -/
theorem run_of_last {history : List Access} {content : List UInt8}
    (constructor : Constructor) (garbage : Nat)
    (hLast : (contents history).getLast? = some content) (hBytes : 0 < content.length) :
    (new constructor garbage).run history = { buf := some content, size := content.length } := by
  have hBuf := buf_run constructor garbage history
  have hSize := size_run constructor garbage history
  obtain ⟨front, hFront⟩ := List.getLast?_eq_some_iff.mp hLast
  have hFilter : ((contents history).filter (·.length > 0)).getLast? = some content := by
    simp [hFront, hBytes]
  rw [hLast, Option.bind_some, if_pos hBytes] at hBuf
  rw [hFilter, Option.map_some, Option.getD_some] at hSize
  rw [← hBuf, ← hSize]

/-- After a last call without bytes, or no call at all, the pointer is null. -/
theorem buf_run_eq_none (constructor : Constructor) (garbage : Nat) (history : List Access)
    (hLast : ∀ content, (contents history).getLast? = some content → content.length = 0) :
    ((new constructor garbage).run history).buf = none := by
  rw [buf_run]
  cases hCall : (contents history).getLast? with
  | none => rfl
  | some content =>
      rw [Option.bind_some, if_neg (by rw [hLast content hCall]; exact Nat.lt_irrefl 0)]

/-- The size is zero only if it was so from the start and no call had any
bytes. -/
theorem size_run_eq_zero_iff (constructor : Constructor) (garbage : Nat) (history : List Access) :
    ((new constructor garbage).run history).size = 0 ↔
      garbage = 0 ∧ ∀ content ∈ contents history, content.length = 0 := by
  rw [size_run]
  cases hCall : ((contents history).filter (·.length > 0)).getLast? with
  | none =>
      rw [List.getLast?_eq_none_iff, List.filter_eq_nil_iff] at hCall
      have hEmpty : ∀ content ∈ contents history, content.length = 0 := by
        intro content hMem
        have hBytes := hCall content hMem
        simpa using hBytes
      exact ⟨fun hZero => ⟨hZero, hEmpty⟩, fun hBoth => hBoth.1⟩
  | some content =>
      obtain ⟨hMem, hBytes⟩ := List.mem_filter.mp (List.mem_of_getLast? hCall)
      rw [decide_eq_true_eq] at hBytes
      constructor
      · intro hZero
        rw [Option.map_some, Option.getD_some] at hZero
        omega
      · rintro ⟨-, hEmpty⟩
        have hZero := hEmpty content hMem
        omega

theorem matches_of_bytes {calls : List (List UInt8)} {content : List UInt8}
    (hLast : calls.getLast? = some content) (hBytes : 0 < content.length)
    (hInt : content.length % 2 ^ 32 < 2 ^ 31) :
    Matches calls { buf := some content, size := content.length } where
  null_iff := by
    constructor
    · intro hNone
      cases hNone
    · intro hZero
      exact absurd hZero (Nat.ne_of_gt hBytes)
  latest := fun _ => ⟨content, hLast, rfl, rfl⟩
  header := by
    have hNonneg : 0 ≤ toInt content.length := toInt_nonneg_iff.mpr hInt
    have hLe := toInt_le_self content.length
    unfold sent announced
    by_cases hSome : 0 < toInt content.length
    · refine ⟨content.take (toInt content.length).toNat, ?_, ?_⟩
      · rw [if_pos hSome]
        exact if_pos hLe
      · show ((content.take (toInt content.length).toNat).length : Int) = toInt content.length
        rw [List.length_take]
        omega
    · refine ⟨[], if_neg hSome, ?_⟩
      show (0 : Int) = toInt content.length
      omega
  callback := by
    rintro ⟨hNone, -⟩
    cases hNone

theorem matches_null (calls : List (List UInt8)) : Matches calls { buf := none, size := 0 } where
  null_iff := iff_of_true rfl rfl
  latest := fun hSize => absurd rfl hSize
  header := by
    have hZero : toInt 0 = 0 := toInt_of_le (Nat.zero_le _)
    refine ⟨[], if_neg ?_, hZero.symm⟩
    show ¬ 0 < toInt 0
    omega
  callback := fun hBoth => hBoth.2 rfl

/-- Buffer and size match after a history exactly when the last call of
`Circle::reduce` had bytes, found those that it was passed, and the conversion to
`int` does not turn their number negative, or when no call had any and the size
was zero by chance.  A call of size zero drops the buffer and leaves the size,
and one with `reduce_buf` itself finds what the allocator has left of it. -/
theorem matches_iff (constructor : Constructor) (garbage : Nat) (history : List Access) :
    Matches ((new constructor garbage).calls history) ((new constructor garbage).run history) ↔
      (∃ content, ((new constructor garbage).calls history).getLast? = some content ∧
        (contents history).getLast? = some content ∧ 0 < content.length ∧
        content.length % 2 ^ 32 < 2 ^ 31) ∨
      garbage = 0 ∧ ∀ content ∈ contents history, content.length = 0 := by
  constructor
  · intro h
    by_cases hLast : ∃ content, (contents history).getLast? = some content ∧ 0 < content.length
    · obtain ⟨content, hFound, hBytes⟩ := hLast
      rw [run_of_last constructor garbage hFound hBytes] at h
      obtain ⟨passed, hCall, hSame, -⟩ := h.latest (Nat.ne_of_gt hBytes)
      cases hSame
      obtain ⟨payload, -, hLength⟩ := h.header
      refine Or.inl ⟨content, hCall, hFound, hBytes, toInt_nonneg_iff.mp ?_⟩
      change (payload.length : Int) = toInt content.length at hLength
      omega
    · have hNone := buf_run_eq_none constructor garbage history
        fun content hFound => by
          by_contra hBytes
          exact hLast ⟨content, hFound, Nat.pos_of_ne_zero hBytes⟩
      exact Or.inr ((size_run_eq_zero_iff constructor garbage history).mp (h.null_iff.mp hNone))
  · rintro (⟨content, hCall, hFound, hBytes, hInt⟩ | hEmpty)
    · rw [run_of_last constructor garbage hFound hBytes]
      exact matches_of_bytes hCall hBytes hInt
    · have hSize := (size_run_eq_zero_iff constructor garbage history).mpr hEmpty
      have hBuf := buf_run_eq_none constructor garbage history
        fun content hFound => hEmpty.2 content (List.mem_of_getLast? hFound)
      have hMembers : (new constructor garbage).run history = { buf := none, size := 0 } := by
        rw [← hBuf, ← hSize]
      rw [hMembers]
      exact matches_null _

/-- Two bytes and then none leave a null pointer of size two; a new object has
the size that happens to lie there; and the two bytes that a callback hands back
are lost when the allocator has written over them. -/
theorem not_matches_of_zero :
    ¬ Matches ((new .reduction 0).calls [.reduce (.user [1, 2]), .reduceCheck, .reduce (.user [])])
        ((new .reduction 0).run [.reduce (.user [1, 2]), .reduceCheck, .reduce (.user [])]) ∧
      ¬ Matches ((new .work 7).calls []) ((new .work 7).run []) ∧
      ¬ Matches ((new .work 0).calls [.reduce (.user [1, 2]), .reduce (.own [0, 2])])
        ((new .work 0).run [.reduce (.user [1, 2]), .reduce (.own [0, 2])]) := by
  refine ⟨fun h => absurd (h.null_iff.mp rfl) (by decide),
    fun h => absurd (h.null_iff.mp rfl) (by decide), fun h => ?_⟩
  obtain ⟨content, hCall, hBuf, -⟩ := h.latest (by decide)
  cases hCall
  cases hBuf

/-- The size is the number of bytes at the pointer. -/
theorem Matches.size_eq {calls : List (List UInt8)} {m : ReduceMembers} (h : Matches calls m) :
    m.size = (m.buf.getD []).length := by
  by_cases hSize : m.size = 0
  · rw [h.null_iff.mpr hSize, hSize]
    rfl
  · obtain ⟨content, -, hContent, hLength⟩ := h.latest hSize
    rw [hContent, ← hLength]
    rfl

/-- In the protocol the callbacks store `INT_MAX` bytes at most; there the size
that the headers announce is the length of the buffer. -/
theorem Matches.reduceBufSize_eq {n : Nat} {r : Reduce n} {calls : List (List UInt8)}
    {m : ReduceMembers} (h : Matches calls m)
    (hSame : m.buf.getD [] = (r.reduceBuf.map ReduceBuf.bytes).getD []) :
    r.reduceBufSize = m.announced := by
  rw [announced, h.size_eq, hSame, Reduce.reduceBufSize]
  cases r.reduceBuf with
  | none => exact (toInt_of_le (Nat.zero_le _)).symm
  | some buf => exact (toInt_of_le buf.fits).symm

end ReduceMembers
end Circle
