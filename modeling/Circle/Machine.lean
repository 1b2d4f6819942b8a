import Mathlib.Tactic

/-!
# Machine integers and growth loops

The queue counts in `int`, addresses its pool with `uintptr_t` and `size_t`,
and puts 32-bit integers on the wire.  Values are natural numbers here; the
conversions and the additions that can leave their type are written out.
Signed overflow has no defined result, which is `none`; unsigned arithmetic
wraps.

The growth loops of the code add a fixed step until a request is met.  They
are run with fuel; `none` means that the loop does not stop.
-/

namespace Circle

/-- `INT_MAX`. -/
def intMax : Nat := 2 ^ 31 - 1

/-- The number of values of `size_t` and `uintptr_t`. -/
def sizeModulus : Nat := 2 ^ 64

theorem intMax_lt_sizeModulus : intMax < sizeModulus := by decide

theorem intMax_le_half : intMax ≤ 2 ^ 63 := by decide

/-- Signed `int` addition of numbers that are not negative. -/
def intAdd (a b : Nat) : Option Nat :=
  if a + b ≤ intMax then some (a + b) else none

/-- Signed `int` multiplication of numbers that are not negative. -/
def intMul (a b : Nat) : Option Nat :=
  if a * b ≤ intMax then some (a * b) else none

/-- Unsigned 64-bit addition. -/
def sizeAdd (a b : Nat) : Nat := (a + b) % sizeModulus

/-- Unsigned 64-bit subtraction. -/
def sizeSub (a b : Nat) : Nat := (a + sizeModulus - b % sizeModulus) % sizeModulus

/-- The conversion `(uint32_t)` of a `size_t`. -/
def toUInt32 (a : Nat) : Nat := a % 2 ^ 32

/-- The conversion `(int)` of a `size_t`. -/
def toInt (a : Nat) : Int := Int.bmod a (2 ^ 32)

/-- The conversion `(uintptr_t)` of an `int`. -/
def ofInt (a : Int) : Nat := (a % (sizeModulus : Int)).toNat

theorem intMul_eq_some {a b : Nat} (hFits : a * b ≤ intMax) : intMul a b = some (a * b) :=
  if_pos hFits

theorem intAdd_eq_some {a b : Nat} (hFits : a + b ≤ intMax) : intAdd a b = some (a + b) :=
  if_pos hFits

theorem intAdd_eq_some_iff {a b c : Nat} :
    intAdd a b = some c ↔ c = a + b ∧ a + b ≤ intMax := by
  unfold intAdd
  split <;> simp_all [eq_comm]

theorem sizeAdd_of_lt {a b : Nat} (hFits : a + b < sizeModulus) : sizeAdd a b = a + b :=
  Nat.mod_eq_of_lt hFits

theorem sizeSub_of_le {a b : Nat} (hle : b ≤ a) (hFits : a < sizeModulus) :
    sizeSub a b = a - b := by
  have hb : b % sizeModulus = b := Nat.mod_eq_of_lt (Nat.lt_of_le_of_lt hle hFits)
  have hShift : a + sizeModulus - b = (a - b) + sizeModulus := by omega
  rw [sizeSub, hb, hShift, Nat.add_mod_right]
  exact Nat.mod_eq_of_lt (by omega)

theorem toUInt32_of_lt {a : Nat} (hFits : a < 2 ^ 32) : toUInt32 a = a :=
  Nat.mod_eq_of_lt hFits

theorem toUInt32_le (a : Nat) : toUInt32 a ≤ a :=
  Nat.mod_le _ _

theorem toUInt32_lt (a : Nat) : toUInt32 a < 2 ^ 32 :=
  Nat.mod_lt _ (by decide)

theorem toInt_of_le {a : Nat} (hFits : a ≤ intMax) : toInt a = a := by
  unfold intMax at hFits
  exact Int.bmod_eq_of_le (by omega) (by omega)

@[simp] theorem ofInt_natCast {a : Nat} (hFits : a < sizeModulus) : ofInt (a : Int) = a := by
  rw [ofInt, ← Int.natCast_mod, Int.toNat_natCast]
  exact Nat.mod_eq_of_lt hFits

/-! ## Growth loops -/

/-- `while (current < amount) current += step;` in `size_t`. -/
def growSize (step amount : Nat) : Nat → Nat → Option Nat
  | 0, _ => none
  | fuel + 1, current =>
      if current < amount then growSize step amount fuel (sizeAdd current step)
      else some current

/-- `while (current < amount) current += step;` in `int`. -/
def growInt (step amount : Nat) : Nat → Nat → Option Nat
  | 0, _ => none
  | fuel + 1, current =>
      if current < amount then (intAdd current step).bind (growInt step amount fuel)
      else some current

/-- A request that leaves room for one more step below the end of the type is
met, without wrapping. -/
theorem growSize_eq_some (step amount : Nat) (hStep : 0 < step)
    (hRoom : amount + step ≤ sizeModulus) (fuel : Nat) :
    ∀ current : Nat, amount ≤ current + fuel →
      ∃ result, growSize step amount (fuel + 1) current = some result ∧
        amount ≤ result ∧ current ≤ result ∧ (result < amount + step ∨ result = current) := by
  induction fuel with
  | zero =>
      intro current hFuel
      exact ⟨current, by rw [growSize, if_neg (by omega)], by omega, Nat.le_refl _, Or.inr rfl⟩
  | succ fuel ih =>
      intro current hFuel
      by_cases hLess : current < amount
      · obtain ⟨result, hResult, hMet, hGrown, hTight⟩ := ih (current + step) (by omega)
        refine ⟨result, ?_, hMet, by omega, Or.inl (by omega)⟩
        rw [growSize, if_pos hLess, sizeAdd_of_lt (by omega)]
        exact hResult
      · exact ⟨current, by rw [growSize, if_neg hLess], by omega, Nat.le_refl _, Or.inr rfl⟩

/-- Some number of steps meets the request without leaving `int`. -/
def GrowthFits (step amount current : Nat) : Prop :=
  ∃ rounds, amount ≤ current + rounds * step ∧ current + rounds * step ≤ intMax

/-- What the `int` loop returns meets the request and is again an `int`. -/
theorem growInt_bounds {step amount : Nat} {fuel current result : Nat}
    (hCurrent : current ≤ intMax) (h : growInt step amount fuel current = some result) :
    amount ≤ result ∧ current ≤ result ∧ result ≤ intMax := by
  induction fuel generalizing current with
  | zero => simp [growInt] at h
  | succ fuel ih =>
      rw [growInt] at h
      split at h
      · obtain ⟨next, hNext, hRest⟩ := Option.bind_eq_some_iff.mp h
        obtain ⟨rfl, hFits⟩ := intAdd_eq_some_iff.mp hNext
        obtain ⟨hMet, hGrown, hInt⟩ := ih hFits hRest
        exact ⟨hMet, by omega, hInt⟩
      · cases h
        exact ⟨by omega, Nat.le_refl _, hCurrent⟩

/-- The `int` loop takes whole steps. -/
theorem growInt_rounds {step amount : Nat} {fuel current result : Nat}
    (h : growInt step amount fuel current = some result) :
    ∃ rounds, result = current + rounds * step := by
  induction fuel generalizing current with
  | zero => simp [growInt] at h
  | succ fuel ih =>
      rw [growInt] at h
      split at h
      · obtain ⟨next, hNext, hRest⟩ := Option.bind_eq_some_iff.mp h
        obtain ⟨rfl, -⟩ := intAdd_eq_some_iff.mp hNext
        obtain ⟨rounds, rfl⟩ := ih hRest
        exact ⟨rounds + 1, by rw [Nat.succ_mul]; omega⟩
      · cases h
        exact ⟨0, by omega⟩

/-- What fits before some whole steps fits after them, and conversely. -/
theorem growthFits_add {step amount current rounds : Nat}
    (hInt : current + rounds * step ≤ intMax) :
    GrowthFits step amount (current + rounds * step) ↔ GrowthFits step amount current := by
  constructor
  · rintro ⟨more, hMet, hFits⟩
    exact ⟨rounds + more, by rw [Nat.add_mul]; omega, by rw [Nat.add_mul]; omega⟩
  · rintro ⟨total, hMet, hFits⟩
    rcases Nat.le_total total rounds with hLess | hMore
    · have hSteps := Nat.mul_le_mul_right step hLess
      exact ⟨0, by omega, by omega⟩
    · obtain ⟨more, rfl⟩ := Nat.exists_eq_add_of_le hMore
      rw [Nat.add_mul] at hMet hFits
      exact ⟨more, by omega, by omega⟩

/-- The `int` loop stops with a result exactly when some number of steps meets
the request within the type. -/
theorem growInt_isSome_iff {step amount : Nat} (hStep : 0 < step) (fuel : Nat) :
    ∀ current : Nat, current ≤ intMax → amount ≤ current + fuel →
      ((growInt step amount (fuel + 1) current).isSome ↔ GrowthFits step amount current) := by
  induction fuel with
  | zero =>
      intro current hCurrent hFuel
      rw [growInt, if_neg (by omega)]
      exact ⟨fun _ => ⟨0, by omega, by omega⟩, fun _ => rfl⟩
  | succ fuel ih =>
      intro current hCurrent hFuel
      rw [growInt]
      split
      next hLess =>
        by_cases hFits : current + step ≤ intMax
        · rw [intAdd_eq_some hFits, Option.bind_some, ih (current + step) hFits (by omega)]
          constructor
          · rintro ⟨rounds, hMet, hInt⟩
            exact ⟨rounds + 1, by rw [Nat.succ_mul]; omega, by rw [Nat.succ_mul]; omega⟩
          · rintro ⟨rounds, hMet, hInt⟩
            cases rounds with
            | zero => omega
            | succ rounds =>
                rw [Nat.succ_mul] at hMet hInt
                exact ⟨rounds, by omega, by omega⟩
        · rw [intAdd, if_neg hFits]
          refine ⟨fun h => by simp at h, ?_⟩
          rintro ⟨rounds, hMet, hInt⟩
          cases rounds with
          | zero => omega
          | succ rounds =>
              rw [Nat.succ_mul] at hMet hInt
              omega
      next hMet => exact ⟨fun _ => ⟨0, by omega, by omega⟩, fun _ => rfl⟩

attribute [irreducible] sizeAdd sizeSub toUInt32 toInt ofInt growSize growInt

end Circle
