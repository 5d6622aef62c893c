import Mathlib.Algebra.Order.Ring.Nat
import Mathlib.Data.Nat.Bitwise
import Mathlib.Tactic.Ring

/-!
# Little-Endian Words

A number as a list of 64-bit words, the lowest first. The rules say what the words of a list are
worth, and what a pass over the words leaves that hands on a carry or moves the bits.
-/

namespace KeryxNode

open List

namespace Limbs

variable {ws : List UInt64}

/-- The number the words spell. -/
def value : List UInt64 → ℕ
  | [] => 0
  | w :: ws => w.toNat + 2 ^ 64 * value ws

theorem pow_words_succ (k : ℕ) : 2 ^ (64 * (k + 1)) = 2 ^ 64 * 2 ^ (64 * k) := by
  rw [Nat.mul_succ, Nat.add_comm, Nat.pow_add]

theorem value_append (ws vs : List UInt64) :
    value (ws ++ vs) = value ws + 2 ^ (64 * ws.length) * value vs := by
  induction ws with
  | nil => simp [value]
  | cons w ws ih =>
    rw [cons_append, value, value, ih, length_cons, pow_words_succ]
    ring

theorem value_lt (ws : List UInt64) : value ws < 2 ^ (64 * ws.length) := by
  induction ws with
  | nil => exact Nat.one_pos
  | cons w ws ih =>
    have hw := w.toNat_lt
    rw [value, length_cons, pow_words_succ]
    omega

/-- The words below a position and those from it on. -/
theorem value_take_add_drop (ws : List UInt64) {k : ℕ} (hk : k ≤ ws.length) :
    value ws = value (ws.take k) + value (ws.drop k) * 2 ^ (64 * k) := by
  conv_lhs => rw [← take_append_drop k ws]
  rw [value_append, length_take_of_le hk, Nat.mul_comm]

/-- The carry beyond `n` words tells whether a number has reached their width. -/
theorem carry_spec {n c p : ℕ} (hn : ws.length = n) (h : value ws + c * 2 ^ (64 * n) = p) :
    value ws = p % 2 ^ (64 * n) ∧ (c ≠ 0 ↔ 2 ^ (64 * n) ≤ p) := by
  have hlt := hn ▸ value_lt ws
  rw [← h]
  refine ⟨by rw [Nat.add_mul_mod_self_right, Nat.mod_eq_of_lt hlt], fun hc => ?_, ?_⟩
  · exact (Nat.le_mul_of_pos_left _ (Nat.pos_of_ne_zero hc)).trans (Nat.le_add_left _ _)
  · rintro hle rfl
    omega

/-- The word at a position, zero past the last. -/
def word (ws : List UInt64) (i : ℕ) : BitVec 64 := (ws[i]?.getD 0).toBitVec

theorem getLsbD_word {i j n : ℕ} (hj : j < 64) (hn : 64 * i + j = n) :
    (word ws i).getLsbD j = (value ws).testBit n := by
  subst hn
  induction ws generalizing i with
  | nil => simp [value, word]
  | cons w ws ih =>
    rw [value, Nat.add_comm w.toNat, Nat.testBit_two_pow_mul_add _ w.toNat_lt]
    cases i with
    | zero => simp [hj, word, BitVec.getLsbD]
    | succ i =>
      rw [if_neg (by omega), show 64 * (i + 1) + j - 64 = 64 * i + j by omega, ← ih]
      simp [word]

/-- Words with the lowest bits of a number spell its remainder. -/
theorem value_map_range {f : ℕ → BitVec 64} {k n : ℕ}
    (hf : ∀ i < k, ∀ j < 64, (f i).getLsbD j = n.testBit (64 * i + j)) :
    value ((range k).map fun i => UInt64.ofBitVec (f i)) = n % 2 ^ (64 * k) := by
  refine Nat.eq_of_testBit_eq fun b => ?_
  have hb : 64 * (b / 64) + b % 64 = b := Nat.div_add_mod b 64
  have hj : b % 64 < 64 := Nat.mod_lt _ (by decide)
  rw [Nat.testBit_mod_two_pow, ← getLsbD_word hj hb]
  by_cases hi : b / 64 < k
  · simp only [word, getElem?_map, getElem?_range hi, Option.map_some, Option.getD_some]
    rw [hf _ hi _ hj, hb, decide_eq_true (by omega), Bool.true_and]
  · simp [word, hi, show ¬ b < 64 * k by omega]

end Limbs

end KeryxNode
