import Mathlib.Data.List.TakeWhile
import Circle.Base.Lines
import Circle.Queue.Refinement

/-!
# Checkpoint files

`Queue::write` empties a queue into the rank's file, one line for each item,
and `Queue::read` pushes the lines of the file.  The items are printed with
`%s`, so a NUL cuts an item short and a newline splits it.

The contents of a file are the bytes that `fprintf` accepted.
-/

namespace Circle

/-- `'\n'`. -/
def newline : UInt8 := 10

/-- An item with neither NUL nor newline. -/
def IsText (item : Item) : Prop := 0 ∉ item ∧ newline ∉ item

instance (item : Item) : Decidable (IsText item) := inferInstanceAs (Decidable (_ ∧ _))

/-- What `%s` prints of an item. -/
def printed (content : Item) : Item := content.takeWhile (· ≠ 0)

/-- The contents of the file `circle<rank>.txt`; `none` is a missing file. -/
abbrev File := Option (List UInt8)

/-- How the file operations of one `write` turn out: `fopen`, `fprintf` for
each line, and `fclose`. -/
structure FileOps where
  opens : Bool
  accepts : Nat → Bool
  closes : Bool

def FileOps.succeed : FileOps := { opens := true, accepts := fun _ => true, closes := true }

namespace Queue

/-- The loop of `Queue::write`: the code, the text so far and the queue. -/
def writeLoop (accepts : Nat → Bool) :
    Nat → Nat → List UInt8 → Queue → Option (Int × List UInt8 × Queue)
  | 0, _, _, _ => none
  | fuel + 1, number, text, q =>
      if q.count > 0 then
        let (rc, content, q) := q.pop []
        if rc < 0 then
          some (-1, text, q)
        else if accepts number then
          writeLoop accepts fuel (number + 1) (text ++ (printed content ++ [newline])) q
        else
          some (-1, text, q)
      else
        some (0, text, q)

/-- `Queue::write`: the code, the file and the queue. -/
def write (ops : FileOps) (file : File) (q : Queue) : Option (Int × File × Queue) :=
  if q.count = 0 then
    some (0, file, q)
  else if ops.opens then do
    let (rc, text, q) ← q.writeLoop ops.accepts (q.count + 1) 0 []
    if rc < 0 then
      some (-1, some text, q)
    else
      some (if ops.closes then 0 else -1, some text, q)
  else
    some (-1, file, q)

/-- Push one content after the other.  The code of a `push` is only logged. -/
def pushAll (page : PageSize) : Queue → List Item → Option Queue
  | q, [] => some q
  | q, content :: rest => do
      let (_, q) ← q.push page content
      pushAll page q rest

/-- `Queue::read`: the code and the queue. -/
def read (page : PageSize) (file : File) (q : Queue) : Option (Int × Queue) :=
  match file with
  | none => some (-1, q)
  | some text => (q.pushAll page (Lines.lines newline text)).map fun q => (0, q)

end Queue

/-! ## Text items -/

theorem printed_of_isText {item : Item} (hText : IsText item) : printed item = item := by
  rw [printed, List.takeWhile_eq_self_iff]
  intro byte hMem
  have hByte : byte ≠ 0 := fun hZero => hText.1 (hZero ▸ hMem)
  simpa using hByte

theorem ne_zero_of_mem_printed {item : Item} {byte : UInt8} (hMem : byte ∈ printed item) :
    byte ≠ 0 := by
  simpa using List.mem_takeWhile_imp hMem

theorem IsText.stored {item : Item} (hText : IsText item) : IsText (Queue.stored item) :=
  ⟨fun hMem => hText.1 (List.mem_of_mem_take hMem), fun hMem => hText.2 (List.mem_of_mem_take hMem)⟩

namespace Queue

/-! ## Pushing a list of contents -/

/-- What a queue keeps of the contents pushed on it. -/
def kept (contents : List Item) : List Item := (contents.map stored).filter (· ≠ [])

theorem kept_cons (content : Item) (rest : List Item) :
    kept (content :: rest) = (if stored content = [] then [] else [stored content]) ++ kept rest := by
  by_cases hNil : stored content = [] <;> simp [kept, hNil]

theorem mem_kept {contents : List Item} {item : Item} (hMem : item ∈ kept contents) :
    item ≠ [] ∧ ∃ content ∈ contents, stored content = item := by
  simp only [kept, List.mem_filter, List.mem_map, ne_eq, decide_not, Bool.not_eq_true',
    decide_eq_false_iff_not] at hMem
  exact ⟨hMem.2, hMem.1⟩

/-- Items that fit are kept as they are. -/
theorem kept_of_sized {items : List Item} (hSized : Sized items)
    (hNonempty : ∀ item ∈ items, item ≠ []) : kept items = items := by
  have hStored : items.map stored = items := by
    conv_rhs => rw [← List.map_id items]
    exact List.map_congr_left fun item hMem => stored_of_lt (hSized.length_lt item hMem)
  rw [kept, hStored, List.filter_eq_self]
  exact fun item hMem => by simpa using hNonempty item hMem

theorem Sized.append_stored {l : List Item} (hSized : Sized l) (hCount : l.length < intMax)
    (content : Item) : Sized (l ++ [stored content]) := by
  refine ⟨by simpa using hCount, ?_⟩
  intro item hMem
  rcases List.mem_append.mp hMem with hOld | hNew
  · exact hSized.length_lt item hOld
  · rw [List.mem_singleton.mp hNew]
    exact length_stored_lt content

/-- A call of `push` that has a result refuses the content or stores it. -/
theorem Holds.push_eq_some {q q' : Queue} {l : List Item} (h : q.Holds l) (hSized : Sized l)
    {page : PageSize} {content : Item} {rc : Int} (hPush : q.push page content = some (rc, q')) :
    (stored content = [] ∧ q' = q) ∨
      (stored content ≠ [] ∧ l.length < intMax ∧ q'.Holds (l ++ [stored content])) := by
  by_cases hNil : stored content = []
  · rw [push_of_stored_eq_nil page q hNil] at hPush
    cases hPush
    exact Or.inl ⟨hNil, rfl⟩
  · by_cases hCount : l.length < intMax
    · obtain ⟨q₁, hResult, hHolds⟩ := h.push page hSized hCount content hNil
      rw [hResult] at hPush
      cases hPush
      exact Or.inr ⟨hNil, hCount, hHolds⟩
    · have hPositive : ¬ toUInt32 content.length ≤ 0 := by
        rw [← length_stored, Nat.le_zero, List.length_eq_zero_iff]
        exact hNil
      have hOverflow : intAdd q.count 1 = none := by
        rw [intAdd, if_neg (by rw [h.count_eq]; omega)]
      simp [Queue.push, hPositive, hOverflow] at hPush

theorem Holds.pushAll_eq_some {page : PageSize} {contents : List Item} :
    ∀ {q q' : Queue} {l : List Item}, q.Holds l → Sized l →
      q.pushAll page contents = some q' →
      q'.Holds (l ++ kept contents) ∧ Sized (l ++ kept contents) := by
  induction contents with
  | nil =>
      intro q q' l h hSized hPush
      cases hPush
      simpa [kept] using And.intro h hSized
  | cons content rest ih =>
      intro q q' l h hSized hPush
      obtain ⟨⟨rc, q₁⟩, hFirst, hRest⟩ := Option.bind_eq_some_iff.mp hPush
      rw [kept_cons]
      rcases h.push_eq_some hSized hFirst with ⟨hNil, rfl⟩ | ⟨hNil, hCount, h₁⟩
      · rw [if_pos hNil, List.nil_append]
        exact ih h hSized hRest
      · rw [if_neg hNil, ← List.append_assoc]
        exact ih h₁ (hSized.append_stored hCount content) hRest

theorem Holds.pushAll (page : PageSize) (contents : List Item) :
    ∀ {q : Queue} {l : List Item}, q.Holds l → Sized l → Sized (l ++ kept contents) →
      ∃ q', q.pushAll page contents = some q' ∧ q'.Holds (l ++ kept contents) := by
  induction contents with
  | nil =>
      intro q l h _ _
      exact ⟨q, rfl, by simpa [kept] using h⟩
  | cons content rest ih =>
      intro q l h hSized hAll
      rw [kept_cons] at hAll ⊢
      by_cases hNil : stored content = []
      · rw [if_pos hNil, List.nil_append] at hAll ⊢
        obtain ⟨q', hRest, h'⟩ := ih h hSized hAll
        refine ⟨q', ?_, h'⟩
        rw [Queue.pushAll, push_of_stored_eq_nil page q hNil]
        exact hRest
      · rw [if_neg hNil, ← List.append_assoc] at hAll ⊢
        have hCount : l.length < intMax := by
          have hLength := hAll.count_le
          simp only [List.length_append, List.length_singleton] at hLength
          omega
        obtain ⟨q₁, hFirst, h₁⟩ := h.push page hSized hCount content hNil
        obtain ⟨q', hRest, h'⟩ := ih h₁ (hSized.append_stored hCount content) hAll
        refine ⟨q', ?_, h'⟩
        rw [Queue.pushAll, hFirst]
        exact hRest

/-! ## Writing -/

/-- How the loop ends.  Either it has printed all items, from the last one to
the first one, or it has stopped at a line that `fprintf` did not accept: the
items behind that one are printed, the ones before it are still in the
queue. -/
theorem Holds.writeLoop_cases (accepts : Nat → Bool) {l : List Item} :
    ∀ {q : Queue}, q.Holds l → ∀ (fuel number : Nat) (text : List UInt8), l.length < fuel →
      (∃ q', q.writeLoop accepts fuel number text =
          some (0, text ++ Lines.unlines newline (l.reverse.map printed), q') ∧ q'.Holds [] ∧
        ∀ line < l.length, accepts (number + line) = true) ∨
      (∃ q' front item back, l = front ++ item :: back ∧
        q.writeLoop accepts fuel number text =
          some (-1, text ++ Lines.unlines newline (back.reverse.map printed), q') ∧
        q'.Holds front ∧ accepts (number + back.length) = false) := by
  induction l using List.reverseRecOn with
  | nil =>
      intro q h fuel number text hFuel
      obtain ⟨fuel, rfl⟩ := Nat.exists_eq_succ_of_ne_zero (Nat.ne_of_gt hFuel)
      have hCount : ¬ q.count > 0 := by simp [h.count_eq]
      exact Or.inl ⟨q, by simp [Queue.writeLoop, hCount], h, by simp⟩
  | append_singleton front item ih =>
      intro q h fuel number text hFuel
      obtain ⟨fuel, rfl⟩ := Nat.exists_eq_succ_of_ne_zero (Nat.ne_of_gt (Nat.zero_lt_of_lt hFuel))
      have hCount : q.count > 0 := by simp [h.count_eq]
      obtain ⟨q₁, hPop, h₁⟩ := h.pop []
      cases hAccept : accepts number with
      | false =>
          refine Or.inr ⟨q₁, front, item, [], rfl, ?_, h₁, hAccept⟩
          rw [Queue.writeLoop, if_pos hCount]
          simp [hPop, hAccept]
      | true =>
          have hTurn : q.writeLoop accepts (fuel + 1) number text =
              q₁.writeLoop accepts fuel (number + 1) (text ++ (printed item ++ [newline])) := by
            rw [Queue.writeLoop, if_pos hCount]
            simp only [hPop, Int.lt_irrefl, if_false, hAccept, if_true]
          rw [hTurn]
          rcases ih h₁ fuel (number + 1) (text ++ (printed item ++ [newline]))
            (by simpa using hFuel) with
            ⟨q', hRest, h', hAll⟩ | ⟨q', front', item', back, rfl, hRest, h', hRefused⟩
          · refine Or.inl ⟨q', by rw [hRest]; simp, h', fun line hLine => ?_⟩
            cases line with
            | zero => exact hAccept
            | succ line =>
                rw [← Nat.add_assoc, Nat.add_right_comm]
                exact hAll line (by simpa using hLine)
          · refine Or.inr ⟨q', front', item', back ++ [item], by simp, by rw [hRest]; simp, h', ?_⟩
            rw [List.length_append, List.length_singleton, ← Nat.add_assoc, Nat.add_right_comm]
            exact hRefused

/-- The loop prints the items from the last one to the first one. -/
theorem Holds.writeLoop {q : Queue} {l : List Item} (h : q.Holds l) (fuel number : Nat)
    (text : List UInt8) (hFuel : l.length < fuel) :
    ∃ q', q.writeLoop (fun _ => true) fuel number text =
        some (0, text ++ Lines.unlines newline (l.reverse.map printed), q') ∧ q'.Holds [] := by
  rcases h.writeLoop_cases (fun _ => true) fuel number text hFuel with
    ⟨q', hLoop, h', -⟩ | ⟨q', front, item, back, -, -, -, hRefused⟩
  · exact ⟨q', hLoop, h'⟩
  · cases hRefused

/-- A `write` of a queue that holds something replaces the file. -/
theorem Holds.write {q : Queue} {l : List Item} (h : q.Holds l) (hItems : l ≠ []) (file : File) :
    ∃ q', q.write .succeed file =
        some (0, some (Lines.unlines newline (l.reverse.map printed)), q') ∧ q'.Holds [] := by
  have hPositive : 0 < l.length := List.length_pos_iff.mpr hItems
  have hCount := h.count_eq
  obtain ⟨q', hLoop, h'⟩ := h.writeLoop (q.count + 1) 0 [] (by omega)
  refine ⟨q', ?_, h'⟩
  rw [Queue.write, if_neg (by omega)]
  simp [FileOps.succeed, hLoop]

theorem write_of_count_eq_zero {q : Queue} (hCount : q.count = 0) (ops : FileOps) (file : File) :
    q.write ops file = some (0, file, q) := by
  rw [Queue.write, if_pos hCount]

/-! ## The round trip -/

theorem sized_nil : Sized [] := ⟨Nat.zero_le _, by simp⟩

/-- Writing `q` and reading the file into `r` gives `r` the items of `q`, each
as often as `q` has it. -/
def RoundTrips (page : PageSize) (file : File) (q r : Queue) : Prop :=
  ∃ file' q' r', q.write .succeed file = some (0, file', q') ∧
    r.read page file' = some (0, r') ∧ r'.items.Perm q.items

/-- The lines of what was written hold neither NUL nor newline. -/
theorem isText_of_mem_lines {items : List Item} {line : Item}
    (hMem : line ∈ Lines.lines newline (Lines.unlines newline (items.map printed))) :
    IsText line := by
  have hSymbols := Lines.mem_of_mem_lines line hMem
  refine ⟨fun hZero => ?_, fun hNewline => (hSymbols newline hNewline).1 rfl⟩
  obtain ⟨hSep, hText⟩ := hSymbols 0 hZero
  rcases Lines.mem_unlines hText with hEq | ⟨block, hBlock, hIn⟩
  · exact hSep hEq
  · obtain ⟨item, -, rfl⟩ := List.mem_map.mp hBlock
    exact ne_zero_of_mem_printed hIn rfl

/-- Text items are the lines of what is written of them. -/
theorem lines_of_isText {items : List Item} (hText : ∀ item ∈ items, IsText item) :
    Lines.lines newline (Lines.unlines newline (items.map printed)) = items := by
  have hPrinted : items.map printed = items := by
    conv_rhs => rw [← List.map_id items]
    exact List.map_congr_left fun item hMem => printed_of_isText (hText item hMem)
  rw [hPrinted]
  exact Lines.lines_unlines fun item hMem => (hText item hMem).2

theorem Sized.reverse {l : List Item} (hSized : Sized l) : Sized l.reverse :=
  ⟨by simpa using hSized.count_le, fun item hMem => hSized.length_lt item (by simpa using hMem)⟩

/-- Reading lines that a queue can hold into an empty queue. -/
theorem IsEmpty.read {r : Queue} (hEmpty : r.IsEmpty) (page : PageSize) (text : List UInt8)
    (hSized : Sized (Lines.lines newline text))
    (hNonempty : ∀ line ∈ Lines.lines newline text, line ≠ []) :
    ∃ r', r.read page (some text) = some (0, r') ∧ r'.Holds (Lines.lines newline text) := by
  have hKept := kept_of_sized hSized hNonempty
  obtain ⟨r', hPush, h'⟩ := Holds.pushAll page (Lines.lines newline text)
    hEmpty.holds sized_nil (by rwa [hKept, List.nil_append])
  rw [hKept, List.nil_append] at h'
  exact ⟨r', by rw [Queue.read, hPush, Option.map_some], h'⟩

/-- What comes back never contains a NUL or a newline. -/
theorem RoundTrips.isText {page : PageSize} {file : File} {q r : Queue} {l : List Item}
    (hTrips : RoundTrips page file q r) (h : q.Holds l) (hItems : l ≠ []) (hEmpty : r.IsEmpty) :
    ∀ item ∈ l, IsText item := by
  intro item hMem
  obtain ⟨file', q', r', hWrite, hRead, hPerm⟩ := hTrips
  obtain ⟨q₁, hWritten, -⟩ := h.write hItems file
  rw [hWritten] at hWrite
  cases hWrite
  obtain ⟨r₁, hPush, hEq⟩ := Option.map_eq_some_iff.mp hRead
  cases hEq
  obtain ⟨hHolds, -⟩ := hEmpty.holds.pushAll_eq_some sized_nil hPush
  rw [hHolds.items_eq, h.items_eq, List.nil_append] at hPerm
  obtain ⟨-, line, hLine, rfl⟩ := mem_kept (hPerm.mem_iff.mpr hMem)
  exact (isText_of_mem_lines hLine).stored

/-- A checkpoint of pushed items round-trips exactly when no item contains a
NUL or a newline. -/
theorem roundTrips_iff (page : PageSize) (contents : List Item) (file : File) (q r : Queue)
    (hPushed : fresh.pushAll page contents = some q) (hCount : q.count ≠ 0) (hEmpty : r.IsEmpty) :
    RoundTrips page file q r ↔ ∀ item ∈ q.items, IsText item := by
  obtain ⟨h, hSized⟩ := holds_fresh.pushAll_eq_some sized_nil hPushed
  rw [List.nil_append] at h hSized
  have hItems : kept contents ≠ [] := by
    intro hNil
    rw [hNil] at h
    exact hCount h.count_eq
  rw [h.items_eq]
  constructor
  · intro hTrips
    exact hTrips.isText h hItems hEmpty
  · intro hText
    obtain ⟨q', hWrite, -⟩ := h.write hItems file
    have hLines := lines_of_isText fun item hMem => hText item (List.mem_reverse.mp hMem)
    obtain ⟨r', hRead, h'⟩ := hEmpty.read page
      (Lines.unlines newline ((kept contents).reverse.map printed))
      (by rw [hLines]; exact hSized.reverse)
      (by rw [hLines]; exact fun line hMem => h.nonempty line (List.mem_reverse.mp hMem))
    refine ⟨_, q', r', hWrite, hRead, ?_⟩
    rw [h'.items_eq, hLines, h.items_eq]
    exact List.reverse_perm _

theorem holds_pushAll_two :
    ∃ q, fresh.pushAll .usual [[65], [66, 67]] = some q ∧ q.Holds [[65], [66, 67]] := by
  have hKept : kept [[65], [66, 67]] = [[65], [66, 67]] :=
    kept_of_sized ⟨by decide, by decide⟩ (by decide)
  obtain ⟨q, hPush, h⟩ := Holds.pushAll .usual [[65], [66, 67]] holds_fresh
    sized_nil (by rw [hKept]; exact ⟨by decide, by decide⟩)
  rw [hKept] at h
  exact ⟨q, hPush, h⟩

/-- The condition holds of a queue of two lines of text. -/
theorem roundTrips_two_lines :
    ∃ q, fresh.pushAll .usual [[65], [66, 67]] = some q ∧
      (RoundTrips .usual none q fresh ↔ ∀ item ∈ q.items, IsText item) := by
  obtain ⟨q, hPush, h⟩ := holds_pushAll_two
  exact ⟨q, hPush, roundTrips_iff .usual _ none q fresh hPush (by rw [h.count_eq]; decide)
    isEmpty_fresh⟩

/-- The integer 1 as an item of four bytes is read back as one byte. -/
theorem not_roundTrips_binary :
    ∃ q, fresh.pushAll .usual [[1, 0, 0, 0]] = some q ∧ q.items = [[1, 0, 0, 0]] ∧
      ¬ RoundTrips .usual none q fresh := by
  have hKept : kept [[1, 0, 0, 0]] = [[1, 0, 0, 0]] :=
    kept_of_sized ⟨by decide, by decide⟩ (by decide)
  obtain ⟨q, hPush, h⟩ := Holds.pushAll .usual [[1, 0, 0, 0]] holds_fresh
    sized_nil (by rw [hKept]; exact ⟨by decide, by decide⟩)
  rw [hKept, List.nil_append] at h
  refine ⟨q, hPush, h.items_eq, ?_⟩
  intro hTrips
  have hText := hTrips.isText h (by simp) isEmpty_fresh [1, 0, 0, 0] (by simp)
  exact hText.1 (by decide)

end Queue

/-! ## Histories of one rank -/

/-- The queue of a rank and its file. -/
structure RankFile where
  queue : Queue
  file : File

/-- What can happen to the two: a call on the queue, or a new process. -/
inductive FileOp where
  | push (content : Item)
  | pop
  | read
  | write
  | restart
  deriving DecidableEq, Repr

/-- Only text is pushed. -/
def FileOp.PushesText : FileOp → Prop
  | .push content => IsText content
  | _ => True

/-- The lines of a file; a missing file has none. -/
def fileLines : File → List Item
  | none => []
  | some text => Lines.lines newline text

namespace RankFile

def start : RankFile := { queue := .fresh, file := none }

/-- Carry out one call, with file operations that succeed. -/
def perform (page : PageSize) (s : RankFile) : FileOp → Option RankFile
  | .push content => (s.queue.push page content).map fun (_, queue) => { s with queue := queue }
  | .pop => some { s with queue := (s.queue.pop []).2.2 }
  | .read => (s.queue.read page s.file).map fun (_, queue) => { s with queue := queue }
  | .write => (s.queue.write .succeed s.file).map fun (_, file, queue) =>
      { queue := queue, file := file }
  | .restart => some { s with queue := .fresh }

def performAll (page : PageSize) : RankFile → List FileOp → Option RankFile
  | s, [] => some s
  | s, op :: rest => (s.perform page op).bind fun s => performAll page s rest

/-- A list that a queue of text can hold. -/
structure TextItems (l : List Item) : Prop where
  sized : Queue.Sized l
  text : ∀ item ∈ l, IsText item
  nonempty : ∀ item ∈ l, item ≠ []

/-- The invariant of a history: queue and file hold text that fits a queue. -/
structure Inv (s : RankFile) : Prop where
  queue : ∃ l, s.queue.Holds l ∧ TextItems l
  file : TextItems (fileLines s.file)

theorem textItems_nil : TextItems [] := ⟨Queue.sized_nil, by simp, by simp⟩

theorem TextItems.reverse {l : List Item} (h : TextItems l) : TextItems l.reverse :=
  ⟨h.sized.reverse, fun item hMem => h.text item (List.mem_reverse.mp hMem),
    fun item hMem => h.nonempty item (List.mem_reverse.mp hMem)⟩

theorem TextItems.front {front : List Item} {item : Item} (h : TextItems (front ++ [item])) :
    TextItems front := by
  have hCount := h.sized.count_le
  simp only [List.length_append, List.length_singleton] at hCount
  exact ⟨⟨by omega, fun other hMem => h.sized.length_lt other (by simp [hMem])⟩,
    fun other hMem => h.text other (by simp [hMem]),
    fun other hMem => h.nonempty other (by simp [hMem])⟩

/-- Pushing text on text. -/
theorem TextItems.append_kept {l contents : List Item} (h : TextItems l)
    (hText : ∀ content ∈ contents, IsText content)
    (hSized : Queue.Sized (l ++ Queue.kept contents)) : TextItems (l ++ Queue.kept contents) := by
  refine ⟨hSized, ?_, ?_⟩
  · intro item hMem
    rcases List.mem_append.mp hMem with hOld | hNew
    · exact h.text item hOld
    · obtain ⟨-, content, hContent, rfl⟩ := Queue.mem_kept hNew
      exact (hText content hContent).stored
  · intro item hMem
    rcases List.mem_append.mp hMem with hOld | hNew
    · exact h.nonempty item hOld
    · exact (Queue.mem_kept hNew).1

theorem inv_start : start.Inv :=
  ⟨⟨[], Queue.holds_fresh, textItems_nil⟩, textItems_nil⟩

/-- The lines of a file written from text are its items, last one first. -/
theorem fileLines_write {l : List Item} (hText : ∀ item ∈ l, IsText item) :
    fileLines (some (Lines.unlines newline (l.reverse.map printed))) = l.reverse :=
  Queue.lines_of_isText fun item hMem => hText item (List.mem_reverse.mp hMem)

/-- Pushing any text keeps the invariant. -/
theorem Inv.pushAll {s : RankFile} (hInv : s.Inv) (page : PageSize) {contents : List Item}
    (hText : ∀ content ∈ contents, IsText content) {queue : Queue}
    (hPush : s.queue.pushAll page contents = some queue) :
    Inv { s with queue := queue } := by
  obtain ⟨⟨l, h, hItems⟩, hFile⟩ := hInv
  obtain ⟨h', hSized⟩ := h.pushAll_eq_some hItems.sized hPush
  exact ⟨⟨_, h', hItems.append_kept hText hSized⟩, hFile⟩

theorem Inv.perform {page : PageSize} {s s' : RankFile} {op : FileOp} (hInv : s.Inv)
    (hText : op.PushesText) (hStep : s.perform page op = some s') : s'.Inv := by
  cases op with
  | push content =>
      obtain ⟨⟨rc, queue⟩, hPush, rfl⟩ := Option.map_eq_some_iff.mp hStep
      have hContents : ∀ other ∈ [content], IsText other := fun other hMem => by
        rw [List.mem_singleton.mp hMem]
        exact hText
      exact hInv.pushAll page hContents (by simp [Queue.pushAll, hPush])
  | pop =>
      obtain ⟨⟨l, h, hItems⟩, hFile⟩ := hInv
      rw [RankFile.perform, Option.some.injEq] at hStep
      subst hStep
      rcases List.eq_nil_or_concat' l with rfl | ⟨front, item, rfl⟩
      · rw [h.pop_nil]
        exact ⟨⟨[], h, hItems⟩, hFile⟩
      · obtain ⟨q', hPop, h'⟩ := h.pop []
        rw [hPop]
        exact ⟨⟨front, h', hItems.front⟩, hFile⟩
  | read =>
      obtain ⟨⟨rc, queue⟩, hRead, rfl⟩ := Option.map_eq_some_iff.mp hStep
      unfold Queue.read at hRead
      split at hRead
      next =>
        cases hRead
        exact hInv
      next text hFile =>
        obtain ⟨queue', hPush, hEq⟩ := Option.map_eq_some_iff.mp hRead
        cases hEq
        have hLines := hInv.file.text
        rw [hFile] at hLines
        exact hInv.pushAll page hLines hPush
  | write =>
      obtain ⟨⟨rc, file, queue⟩, hWrite, rfl⟩ := Option.map_eq_some_iff.mp hStep
      obtain ⟨⟨l, h, hItems⟩, hFile⟩ := hInv
      by_cases hNil : l = []
      · rw [Queue.write_of_count_eq_zero (by rw [h.count_eq, hNil]; rfl)] at hWrite
        cases hWrite
        exact ⟨⟨l, h, hItems⟩, hFile⟩
      · obtain ⟨q', hWritten, h'⟩ := h.write hNil s.file
        rw [hWritten] at hWrite
        cases hWrite
        refine ⟨⟨[], h', textItems_nil⟩, ?_⟩
        rw [fileLines_write hItems.text]
        exact hItems.reverse
  | restart =>
      cases hStep
      exact ⟨⟨[], Queue.holds_fresh, textItems_nil⟩, hInv.file⟩

theorem Inv.performAll {page : PageSize} {ops : List FileOp} :
    ∀ {s s' : RankFile}, s.Inv → (∀ op ∈ ops, op.PushesText) →
      s.performAll page ops = some s' → s'.Inv := by
  induction ops with
  | nil =>
      intro s s' hInv _ hRun
      cases hRun
      exact hInv
  | cons op rest ih =>
      intro s s' hInv hText hRun
      obtain ⟨s₁, hFirst, hRest⟩ := Option.bind_eq_some_iff.mp hRun
      exact ih (hInv.perform (hText op (by simp)) hFirst)
        (fun later hLater => hText later (by simp [hLater])) hRest

/-- A `write` at this point leaves a file whose lines are the items of the
queue, and an empty queue that reads the file gets exactly those items. -/
def Reflects (page : PageSize) (s : RankFile) : Prop :=
  ∃ file queue, s.queue.write .succeed s.file = some (0, file, queue) ∧
    (fileLines file).Perm s.queue.items ∧
    ∀ r : Queue, r.IsEmpty → ∃ rc r', r.read page file = some (rc, r') ∧
      r'.items.Perm s.queue.items

/-- An empty queue writes nothing, so a file with lines is left as it was. -/
theorem Reflects.condition {page : PageSize} {s : RankFile} (hReflects : s.Reflects page)
    (hInv : s.Inv) : s.queue.count ≠ 0 ∨ fileLines s.file = [] := by
  by_cases hCount : s.queue.count = 0
  · obtain ⟨l, h, -⟩ := hInv.queue
    obtain ⟨file, queue, hWrite, hPerm, -⟩ := hReflects
    rw [Queue.write_of_count_eq_zero hCount] at hWrite
    cases hWrite
    have hNil : l = [] := List.length_eq_zero_iff.mp (h.count_eq.symm.trans hCount)
    rw [h.items_eq, hNil] at hPerm
    exact Or.inr hPerm.eq_nil
  · exact Or.inl hCount

/-- A rank reads back lines that fit a queue. -/
theorem read_textItems {r : Queue} (hEmpty : r.IsEmpty) (page : PageSize) {file : File}
    (hFile : TextItems (fileLines file)) :
    ∃ rc r', r.read page file = some (rc, r') ∧ r'.Holds (fileLines file) := by
  cases file with
  | none => exact ⟨-1, r, rfl, hEmpty.holds⟩
  | some text =>
      obtain ⟨r', hRead, h'⟩ := hEmpty.read page text hFile.sized hFile.nonempty
      exact ⟨0, r', hRead, h'⟩

/-- After any history, a `write` leaves a file that reflects the queue exactly
when the queue has an item to write or the file has no lines. -/
theorem reflects_iff (page : PageSize) (history : List FileOp) (s : RankFile)
    (hText : ∀ op ∈ history, op.PushesText) (hRun : start.performAll page history = some s) :
    s.Reflects page ↔ s.queue.count ≠ 0 ∨ fileLines s.file = [] := by
  have hInv : s.Inv := inv_start.performAll hText hRun
  refine ⟨fun hReflects => hReflects.condition hInv, fun hCondition => ?_⟩
  obtain ⟨⟨l, h, hItems⟩, hFile⟩ := hInv
  by_cases hNil : l = []
  · have hCount : s.queue.count = 0 := by
      rw [h.count_eq, hNil]
      rfl
    have hLines : fileLines s.file = [] := hCondition.resolve_left (not_not_intro hCount)
    refine ⟨s.file, s.queue, Queue.write_of_count_eq_zero hCount _ _, ?_, fun r hEmpty => ?_⟩
    · rw [hLines, h.items_eq, hNil]
    · obtain ⟨rc, r', hRead, h'⟩ := read_textItems hEmpty page hFile
      exact ⟨rc, r', hRead, by rw [h'.items_eq, hLines, h.items_eq, hNil]⟩
  · obtain ⟨q', hWritten, -⟩ := h.write hNil s.file
    have hLines := fileLines_write hItems.text
    refine ⟨_, q', hWritten, ?_, fun r hEmpty => ?_⟩
    · rw [hLines, h.items_eq]
      exact List.reverse_perm l
    · obtain ⟨rc, r', hRead, h'⟩ := read_textItems hEmpty page (by rw [hLines]; exact hItems.reverse)
      refine ⟨rc, r', hRead, ?_⟩
      rw [h'.items_eq, hLines, h.items_eq]
      exact List.reverse_perm l

/-- After one push the next `write` reflects the queue. -/
theorem reflects_after_push :
    ∃ s, start.performAll .usual [.push [65]] = some s ∧
      (s.Reflects .usual ↔ s.queue.count ≠ 0 ∨ fileLines s.file = []) := by
  obtain ⟨q, hPush, -⟩ := Queue.holds_fresh.push .usual Queue.sized_nil (by decide) [65]
    (by rw [Queue.stored_of_lt (by decide)]; decide)
  have hRun : start.performAll .usual [.push [65]] = some { queue := q, file := none } := by
    simp [performAll, perform, start, hPush]
  exact ⟨_, hRun, reflects_iff .usual _ _ (by simp [FileOp.PushesText, IsText, newline]) hRun⟩

/-- Push an item and write it; the queue is then empty, and writing again
leaves the line of the item in the file. -/
theorem not_reflects_after_write :
    ∃ s, start.performAll .usual [.push [65], .write] = some s ∧ s.queue.items = [] ∧
      fileLines s.file = [[65]] ∧ ¬ s.Reflects .usual := by
  have hStored : Queue.stored [65] = [65] := Queue.stored_of_lt (by decide)
  obtain ⟨q, hPush, h⟩ := Queue.holds_fresh.push .usual Queue.sized_nil (by decide) [65]
    (by rw [hStored]; decide)
  rw [hStored, List.nil_append] at h
  obtain ⟨q', hWrite, h'⟩ := h.write (by simp) none
  have hLines := fileLines_write (l := [[65]]) (by decide)
  have hRun : start.performAll .usual [.push [65], .write] =
      some { queue := q', file := some (Lines.unlines newline ([[65]].reverse.map printed)) } := by
    simp [performAll, perform, start, hPush, hWrite]
  refine ⟨_, hRun, h'.items_eq, hLines, fun hReflects => ?_⟩
  have hInv := inv_start.performAll (by simp [FileOp.PushesText, IsText, newline]) hRun
  rcases hReflects.condition hInv with hCount | hNil
  · exact hCount h'.count_eq
  · rw [hLines] at hNil
    exact List.cons_ne_nil _ _ hNil

end RankFile

/-! ## A write that fails -/

namespace Queue

/-- The items whose lines `fprintf` accepted in a `write` that left `file`
behind.  Without an open file there are none. -/
def acceptedLines (ops : FileOps) (file : File) : List Item :=
  if ops.opens then fileLines file else []

/-- A `write` that fails loses nothing: the items it leaves in the queue and
those whose lines were accepted are, together, the items the queue held, each
as often as before. -/
def LosesNothing (ops : FileOps) (file : File) (q : Queue) : Prop :=
  ∃ rc file' q', q.write ops file = some (rc, file', q') ∧
    (rc < 0 → (q'.items ++ acceptedLines ops file').Perm q.items)

theorem losesNothing_of_closed {ops : FileOps} {q : Queue} (hCount : q.count ≠ 0)
    (hOpens : ops.opens = false) (file : File) : q.LosesNothing ops file := by
  refine ⟨-1, file, q, ?_, fun _ => ?_⟩
  · rw [Queue.write, if_neg hCount, hOpens]
    rfl
  · rw [acceptedLines, hOpens]
    simp

/-- What an open `write` does, by what becomes of its loop. -/
theorem write_of_opens {ops : FileOps} {q q' : Queue} {rc : Int} {text : List UInt8}
    (hCount : q.count ≠ 0) (hOpens : ops.opens = true)
    (hLoop : q.writeLoop ops.accepts (q.count + 1) 0 [] = some (rc, text, q')) (file : File) :
    q.write ops file =
      some (if rc < 0 then -1 else if ops.closes then 0 else -1, some text, q') := by
  rw [Queue.write, if_neg hCount, hOpens, if_pos rfl, hLoop]
  simp only [Option.bind_eq_bind, Option.bind_some]
  split <;> rfl

/-- When all lines are accepted, the items are in the file. -/
theorem losesNothing_of_accepts {ops : FileOps} {q : Queue} (hInv : q.Inv)
    (hText : ∀ item ∈ q.items, IsText item) (hCount : q.count ≠ 0) (hOpens : ops.opens = true)
    (hAll : ∀ line < q.count, ops.accepts line = true) (file : File) :
    q.LosesNothing ops file := by
  have hLength := hInv.length_items
  rcases hInv.holds.writeLoop_cases ops.accepts (q.count + 1) 0 [] (by omega) with
    ⟨q', hLoop, h', -⟩ | ⟨q', front, item, back, hSplit, -, -, hRefused⟩
  · refine ⟨_, _, q', write_of_opens hCount hOpens hLoop file, fun _ => ?_⟩
    rw [acceptedLines, if_pos hOpens, h'.items_eq, List.nil_append, List.nil_append,
      RankFile.fileLines_write hText]
    exact List.reverse_perm _
  · have hTotal := congrArg List.length hSplit
    simp only [List.length_append, List.length_cons] at hTotal
    rw [Nat.zero_add, hAll back.length (by omega)] at hRefused
    cases hRefused

/-- An item whose line is refused has left the queue already, so an open
`write` that loses nothing has had all lines accepted. -/
theorem LosesNothing.accepts {ops : FileOps} {file : File} {q : Queue}
    (h : q.LosesNothing ops file) (hInv : q.Inv) (hText : ∀ item ∈ q.items, IsText item)
    (hOpens : ops.opens = true) : ∀ line < q.count, ops.accepts line = true := by
  intro line hLine
  have hCount : q.count ≠ 0 := by omega
  have hLength := hInv.length_items
  rcases hInv.holds.writeLoop_cases ops.accepts (q.count + 1) 0 [] (by omega) with
    ⟨q', -, -, hAll⟩ | ⟨q', front, item, back, hSplit, hLoop, h', -⟩
  · simpa using hAll line (by omega)
  · have hBack : ∀ other ∈ back, IsText other := fun other hMem =>
      hText other (by rw [hSplit]; simp [hMem])
    have hTotal := congrArg List.length hSplit
    simp only [List.length_append, List.length_cons] at hTotal
    obtain ⟨rc, file', q'', hEq, hPerm⟩ := h
    rw [write_of_opens hCount hOpens hLoop file, if_pos (by decide)] at hEq
    cases hEq
    -- `item` is neither in the queue nor in the file
    have hSame := (hPerm (by decide)).length_eq
    rw [acceptedLines, if_pos hOpens, h'.items_eq, List.nil_append,
      RankFile.fileLines_write hBack, List.length_append, List.length_reverse] at hSame
    omega

/-- A `write` of text loses nothing exactly when the file does not open or all
lines are accepted. -/
theorem losesNothing_iff (ops : FileOps) (file : File) (q : Queue) (hInv : q.Inv)
    (hText : ∀ item ∈ q.items, IsText item) :
    q.LosesNothing ops file ↔
      ops.opens = false ∨ ∀ line < q.count, ops.accepts line = true := by
  by_cases hCount : q.count = 0
  · refine iff_of_true ⟨0, file, q, write_of_count_eq_zero hCount ops file, ?_⟩ ?_
    · exact fun hNegative => absurd hNegative (Int.lt_irrefl 0)
    · exact Or.inr fun line hLine => by omega
  · cases hOpens : ops.opens with
    | false => exact iff_of_true (losesNothing_of_closed hCount hOpens file) (Or.inl rfl)
    | true =>
        constructor
        · intro h
          exact Or.inr (h.accepts hInv hText hOpens)
        · intro hCondition
          rcases hCondition with hClosed | hAll
          · cases hClosed
          · exact losesNothing_of_accepts hInv hText hCount hOpens hAll file

/-- Nothing is lost of two lines when only `fclose` fails. -/
theorem losesNothing_fclose :
    ∃ q, fresh.pushAll .usual [[65], [66, 67]] = some q ∧
      q.LosesNothing { opens := true, accepts := fun _ => true, closes := false } none := by
  obtain ⟨q, hPush, h⟩ := holds_pushAll_two
  refine ⟨q, hPush, (losesNothing_iff _ none q h.inv ?_).mpr (Or.inr fun _ _ => rfl)⟩
  rw [h.items_eq]
  decide

/-- When the second `fprintf` of two fails, the first item is gone. -/
theorem not_losesNothing_fprintf :
    ∃ q, fresh.pushAll .usual [[65], [66, 67]] = some q ∧
      ¬ q.LosesNothing { opens := true, accepts := (· == 0), closes := true } none := by
  obtain ⟨q, hPush, h⟩ := holds_pushAll_two
  refine ⟨q, hPush, fun hLoses => ?_⟩
  have hSecond := hLoses.accepts h.inv (by rw [h.items_eq]; decide) rfl 1
    (by rw [h.count_eq]; decide)
  exact absurd hSecond (by decide)

end Queue
end Circle
