import Mathlib.Data.List.Basic

/-!
# Blocks ended by a separator

`unlines` ends every block with a separator and `lines` reads the result back,
a block at a time.  What follows the last separator counts as a block unless
it is empty.  The two are inverse on blocks without the separator, and only on
those.
-/

namespace Lines

variable {α : Type}

/-- Every block followed by the separator. -/
def unlines (sep : α) (blocks : List (List α)) : List α :=
  blocks.flatMap fun block => block ++ [sep]

@[simp] theorem unlines_nil (sep : α) : unlines sep [] = [] := rfl

@[simp] theorem unlines_cons (sep : α) (block : List α) (blocks : List (List α)) :
    unlines sep (block :: blocks) = block ++ sep :: unlines sep blocks := by
  simp [unlines]

theorem mem_unlines {sep symbol : α} {blocks : List (List α)}
    (hSymbol : symbol ∈ unlines sep blocks) : symbol = sep ∨ ∃ block ∈ blocks, symbol ∈ block := by
  simp only [unlines, List.mem_flatMap, List.mem_append, List.mem_singleton] at hSymbol
  obtain ⟨block, hBlock, hIn | hSep⟩ := hSymbol
  · exact Or.inr ⟨block, hBlock, hIn⟩
  · exact Or.inl hSep

variable [DecidableEq α]

/-- The blocks of a text. -/
def lines (sep : α) : List α → List (List α)
  | [] => []
  | symbol :: rest =>
      if symbol = sep then
        [] :: lines sep rest
      else
        match lines sep rest with
        | [] => [[symbol]]
        | block :: blocks => (symbol :: block) :: blocks

@[simp] theorem lines_nil (sep : α) : lines sep [] = [] := rfl

/-- A block without the separator is read back whole. -/
theorem lines_append_cons {sep : α} {block : List α} (hBlock : sep ∉ block) (rest : List α) :
    lines sep (block ++ sep :: rest) = block :: lines sep rest := by
  induction block with
  | nil => simp [lines]
  | cons symbol block ih =>
      obtain ⟨hSymbol, hRest⟩ := List.ne_and_not_mem_of_not_mem_cons hBlock
      rw [List.cons_append, lines, if_neg (Ne.symm hSymbol), ih hRest]

theorem lines_unlines {sep : α} {blocks : List (List α)}
    (hBlocks : ∀ block ∈ blocks, sep ∉ block) : lines sep (unlines sep blocks) = blocks := by
  induction blocks with
  | nil => rfl
  | cons block blocks ih =>
      have hBlock := hBlocks block (by simp)
      have hRest := ih fun later hLater => hBlocks later (by simp [hLater])
      rw [unlines_cons, lines_append_cons hBlock, hRest]

/-- No block that is read contains the separator, and every symbol of a block
comes from the text. -/
theorem mem_of_mem_lines {sep : α} {text : List α} :
    ∀ block ∈ lines sep text, ∀ symbol ∈ block, symbol ≠ sep ∧ symbol ∈ text := by
  induction text with
  | nil => simp
  | cons first rest ih =>
      intro block hBlock symbol hSymbol
      rw [lines] at hBlock
      split at hBlock
      · rcases List.mem_cons.mp hBlock with rfl | hLater
        · simp at hSymbol
        · exact ⟨(ih block hLater symbol hSymbol).1,
            List.mem_cons_of_mem _ (ih block hLater symbol hSymbol).2⟩
      next hFirst =>
        cases hLines : lines sep rest with
        | nil =>
            rw [hLines, List.mem_singleton] at hBlock
            rw [hBlock, List.mem_singleton] at hSymbol
            exact ⟨hSymbol ▸ hFirst, by simp [hSymbol]⟩
        | cons head blocks =>
            rw [hLines] at hBlock ih
            rcases List.mem_cons.mp hBlock with rfl | hLater
            · rcases List.mem_cons.mp hSymbol with rfl | hTail
              · exact ⟨hFirst, by simp⟩
              · have hHead := ih head (by simp) symbol hTail
                exact ⟨hHead.1, List.mem_cons_of_mem _ hHead.2⟩
            · have hBlocks := ih block (by simp [hLater]) symbol hSymbol
              exact ⟨hBlocks.1, List.mem_cons_of_mem _ hBlocks.2⟩

end Lines
