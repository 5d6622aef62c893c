import Mathlib.Algebra.Order.Ring.Nat

/-!
# Checked Machine Arithmetic

Arithmetic on 64-bit words that stops the program on overflow, on underflow and on a division by
zero. Words are natural numbers and `none` is the stop, so a computation that ends in `some` is one
over the natural numbers, and the rules of this module say when it does.
-/

namespace KeryxNode

namespace Checked

variable {a b c : ℕ}

/-- A word, if the number fits one. -/
def u64 (n : ℕ) : Option ℕ :=
  if n < 2 ^ 64 then some n else none

/-- A difference that is not negative. -/
def sub (a b : ℕ) : Option ℕ :=
  if b ≤ a then some (a - b) else none

/-- A quotient with a divisor other than zero. -/
def div (a b : ℕ) : Option ℕ :=
  if b = 0 then none else some (a / b)

theorem u64_eq_some : u64 a = some c ↔ a < 2 ^ 64 ∧ c = a := by
  by_cases h : a < 2 ^ 64
  · rw [u64, if_pos h, Option.some.injEq, eq_comm]
    exact (and_iff_right h).symm
  · rw [u64, if_neg h]
    exact ⟨fun h => (by cases h), fun hc => absurd hc.1 h⟩

theorem u64_of_lt (h : a < 2 ^ 64) : u64 a = some a :=
  if_pos h

theorem u64_bind_eq_some {α : Type} {f : ℕ → Option α} {r : α} :
    (u64 a >>= f) = some r ↔ a < 2 ^ 64 ∧ f a = some r := by
  rw [u64]
  split
  · next h => exact (and_iff_right h).symm
  · next h => exact ⟨nofun, fun hr => absurd hr.1 h⟩

theorem sub_bind_eq_some {α : Type} {f : ℕ → Option α} {r : α} :
    (sub a b >>= f) = some r ↔ b ≤ a ∧ f (a - b) = some r := by
  rw [sub]
  split
  · next h => exact (and_iff_right h).symm
  · next h => exact ⟨nofun, fun hr => absurd hr.1 h⟩

theorem sub_of_le (h : b ≤ a) : sub a b = some (a - b) :=
  if_pos h

/-! ### Signed words -/

/-- The signed reading of a word. -/
def asI64 (n : ℕ) : ℤ :=
  if n < 2 ^ 63 then n else (n : ℤ) - 2 ^ 64

/-- A signed word, if the number fits one. -/
def i64 (z : ℤ) : Option ℤ :=
  if -2 ^ 63 ≤ z ∧ z < 2 ^ 63 then some z else none

theorem i64_of_range {z : ℤ} (hlow : -2 ^ 63 ≤ z) (hhigh : z < 2 ^ 63) : i64 z = some z :=
  if_pos ⟨hlow, hhigh⟩

end Checked

end KeryxNode
