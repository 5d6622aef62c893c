import Mathlib.Tactic.LinearCombination
import Mathlib.Tactic.Set
import KeryxNode.Limbs

/-!
# Multiplication of Wide Integers

The integers of `construct_uint` (`math/src/uint.rs`) are arrays of 64-bit words. A product is
built row by row, one for each word of the second factor; a row stops at the top word of the
result, and the flag collects the carries the rows leave. The limb products beyond the top word
are never looked at. The result is exact modulo the width, the flag only where those products
vanish or the rows overflow without them.

## Main results

* `overflowingMul_exact_iff`: the products, and when exactly the flag of the wide one is right.
* `overflowingMul_missed`: an overflow without a flag.
-/

namespace KeryxNode

/-- An integer of `n` words. -/
abbrev Uint (n : ℕ) := Vector UInt64 n

open List Limbs

namespace Uint

/-- One row: the words of `self` times the word `other`, added to the words of the result from the
row's position on, with the carry of the last word. -/
def mulRow (other : UInt64) : ℕ → List UInt64 → List UInt64 → List UInt64 × ℕ
  | carry, a :: self, r :: result =>
    let n := a.toNat * other.toNat + r.toNat + carry
    let rest := mulRow other (n / 2 ^ 64) self result
    (UInt64.ofNat n :: rest.1, rest.2)
  | carry, _, result => (result, carry)

/-- The rows of some words, with whether one of them left a carry. The first row works on the whole
result; its lowest word is not touched again. -/
def mulRows (self : List UInt64) : List UInt64 → List UInt64 → List UInt64 × Bool
  | [], result => (result, false)
  | other :: others, result =>
    let row := mulRow other 0 self result
    let rest := mulRows self others row.1.tail
    (row.1.take 1 ++ rest.1, decide (row.2 ≠ 0) || rest.2)

/-- The product of two integers of `n` words, and whether it is reported as an overflow. -/
def overflowingMul {n : ℕ} (self other : Uint n) : List UInt64 × Bool :=
  mulRows self.toList other.toList (replicate n 0)

/-- The product with one word, with the carry of the top word. -/
def carryingMulU64 (other : UInt64) : ℕ → List UInt64 → List UInt64 × ℕ
  | carry, [] => ([], carry)
  | carry, a :: self =>
    let n := carry + other.toNat * a.toNat
    let rest := carryingMulU64 other (n / 2 ^ 64) self
    (UInt64.ofNat n :: rest.1, rest.2)

def overflowingMulU64 {n : ℕ} (self : Uint n) (other : UInt64) : List UInt64 × Bool :=
  let (words, carry) := carryingMulU64 other 0 self.toList
  (words, decide (carry ≠ 0))

/-! ### Rows -/

/-- The limb products of some words with `self` that lie below the top of `n` words. -/
def innerSum (self : List UInt64) : List UInt64 → ℕ → ℕ
  | [], _ => 0
  | other :: others, n =>
    other.toNat * value (self.take n) + 2 ^ 64 * innerSum self others (n - 1)

variable {n : ℕ} {self others result : List UInt64}

/-- A row adds its products; what does not fit is the carry. -/
theorem value_mulRow (other : UInt64) (carry : ℕ) (hle : result.length ≤ self.length) :
    (mulRow other carry self result).1.length = result.length ∧
      value (mulRow other carry self result).1
          + (mulRow other carry self result).2 * 2 ^ (64 * result.length)
        = value result + other.toNat * value (self.take result.length) + carry := by
  induction result generalizing self carry with
  | nil => simp [mulRow, value]
  | cons r result ih =>
    cases self with
    | nil => cases hle
    | cons a self =>
      set n := a.toNat * other.toNat + r.toNat + carry with hn
      obtain ⟨hlen, hvalue⟩ := ih (n / 2 ^ 64) (Nat.le_of_succ_le_succ hle)
      have hsplit := Nat.mod_add_div n (2 ^ 64)
      rw [mulRow]
      refine ⟨congrArg (· + 1) hlen, ?_⟩
      simp only [value, length_cons, take_succ_cons, pow_words_succ,
        UInt64.toNat_ofNat', ← hn]
      generalize mulRow other (n / 2 ^ 64) self result = rest at hvalue ⊢
      linear_combination 2 ^ 64 * hvalue + hsplit + hn

/-- **All rows** add their products; the flag tells whether something does not fit. -/
theorem value_mulRows (hself : result.length ≤ self.length) (hle : others.length ≤ result.length) :
    (mulRows self others result).1.length = result.length ∧
      ∃ carry, value (mulRows self others result).1 + carry * 2 ^ (64 * result.length)
          = value result + innerSum self others result.length ∧
        ((mulRows self others result).2 = true ↔ carry ≠ 0) := by
  induction others generalizing result with
  | nil => exact ⟨rfl, 0, by simp [mulRows, innerSum], by simp [mulRows]⟩
  | cons other others ih =>
    obtain ⟨hlen, hvalue⟩ := value_mulRow other 0 hself
    rw [mulRows]
    generalize mulRow other 0 self result = row at hlen hvalue ⊢
    obtain ⟨_ | ⟨w, words⟩, c⟩ := row
    · rw [← hlen] at hle
      cases hle
    · rw [← hlen] at hself hle hvalue ⊢
      obtain ⟨hlength, carry, hsum, hflag⟩ := @ih words (Nat.le_of_succ_le hself)
        (Nat.le_of_succ_le_succ hle)
      refine ⟨congrArg (· + 1) hlength, c + carry, ?_, ?_⟩
      · simp only [take_succ_cons, take_zero, singleton_append, tail_cons, value, innerSum,
          length_cons, pow_words_succ, Nat.add_sub_cancel] at hvalue ⊢
        linear_combination hvalue + 2 ^ 64 * hsum
      · rw [Bool.or_eq_true, decide_eq_true_eq, tail_cons, hflag]
        omega

/-- The product with a word is one row over an empty result. -/
theorem carryingMulU64_eq (other : UInt64) (carry : ℕ) (self : List UInt64) :
    carryingMulU64 other carry self = mulRow other carry self (replicate self.length 0) := by
  induction self generalizing carry with
  | nil => rfl
  | cons a self ih =>
    have hn : carry + other.toNat * a.toNat = a.toNat * other.toNat + (0 : UInt64).toNat + carry :=
      by rw [Nat.mul_comm, Nat.add_comm]; rfl
    simp only [carryingMulU64, length_cons, replicate_succ, mulRow, hn, ih]

/-- What the rows leave out is a multiple of the width: zero if `self` fits the words above every
word that is not zero. -/
theorem exists_beyond (hn : n ≤ self.length) (hle : others.length ≤ n) :
    ∃ beyond, value self * value others = innerSum self others n + beyond * 2 ^ (64 * n) ∧
      (beyond = 0 ↔ ∀ j w, others[j]? = some w → w ≠ 0 → value self < 2 ^ (64 * (n - j))) := by
  induction others generalizing n with
  | nil => exact ⟨0, by simp [innerSum, value], by simp⟩
  | cons other others ih =>
    cases n with
    | zero => cases hle
    | succ n =>
      obtain ⟨beyond, hproduct, hzero⟩ := ih (Nat.le_of_succ_le hn) (Nat.le_of_succ_le_succ hle)
      have hsplit := value_take_add_drop self hn
      have hfits := (carry_spec (length_take_of_le hn) hsplit.symm).2
      refine ⟨other.toNat * value (self.drop (n + 1)) + beyond, ?_, ?_⟩
      · rw [pow_words_succ] at hsplit ⊢
        rw [value, innerSum, Nat.add_sub_cancel]
        linear_combination other.toNat * hsplit + 2 ^ 64 * hproduct
      · rw [← Nat.and_forall_add_one, Nat.add_eq_zero_iff, hzero, Nat.mul_eq_zero]
        simp only [getElem?_cons_zero, getElem?_cons_succ, Option.some.injEq, forall_eq',
          Nat.add_sub_add_right, Nat.sub_zero]
        rw [← Nat.not_le, ← hfits, not_not, or_iff_not_imp_left]
        exact and_congr_left' (imp_congr_left (not_congr (@UInt64.toNat_inj other 0)))

/-- **Products of wide integers**: the words are the product modulo the width, also those of the
product with one word, whose flag is exact. The flag of the wide product is exact if and only if
`self` fits the words left above every word of `other` that is not zero, or the limb products below
the top word reach the width by themselves. -/
theorem overflowingMul_exact_iff (self other : Uint n) (word : UInt64) :
    ((overflowingMul self other).1.length = n ∧ value (overflowingMul self other).1
        = value self.toList * value other.toList % 2 ^ (64 * n)) ∧
      (((overflowingMul self other).2 = true ↔
          2 ^ (64 * n) ≤ value self.toList * value other.toList) ↔
        (∀ j w, other.toList[j]? = some w → w ≠ 0 → value self.toList < 2 ^ (64 * (n - j))) ∨
        2 ^ (64 * n) ≤ innerSum self.toList other.toList n) ∧
      value (overflowingMulU64 self word).1
        = value self.toList * word.toNat % 2 ^ (64 * n) ∧
      ((overflowingMulU64 self word).2 = true ↔
        2 ^ (64 * n) ≤ value self.toList * word.toNat) := by
  have hself : self.toList.length = n := self.length_toList
  have hnone : ∀ k, value (replicate k 0) = 0 := fun k => by
    induction k <;> simp_all [replicate_succ, value]
  obtain ⟨hlen, carry, hsum, hflag⟩ := @value_mulRows self.toList other.toList (replicate n 0)
    (by simp) (by simp)
  rw [length_replicate] at hlen hsum
  rw [hnone, Nat.zero_add] at hsum
  obtain ⟨hmod, hcarry⟩ := carry_spec hlen hsum
  obtain ⟨beyond, hproduct, hzero⟩ := exists_beyond hself.ge other.length_toList.le
  refine ⟨⟨hlen, ?_⟩, ?_, ?_⟩
  · rw [hproduct, Nat.add_mul_mod_self_right]
    exact hmod
  · rw [← hzero, hproduct]
    refine (iff_congr (hflag.trans hcarry) Iff.rfl).trans ?_
    rcases Nat.eq_zero_or_pos beyond with hnone | hpos
    · simp [hnone]
    · have hle := Nat.le_mul_of_pos_left (2 ^ (64 * n)) hpos
      rw [iff_true_right (hle.trans (Nat.le_add_left _ _))]
      exact (or_iff_right hpos.ne').symm
  · obtain ⟨hlength, hvalue⟩ := @value_mulRow self.toList (replicate n 0) word 0 (by simp)
    rw [length_replicate] at hlength hvalue
    rw [hnone, Nat.zero_add, Nat.add_zero, take_of_length_le hself.le, Nat.mul_comm word.toNat]
      at hvalue
    obtain ⟨hmod, hcarry⟩ := carry_spec hlength hvalue
    rw [overflowingMulU64, carryingMulU64_eq, hself]
    exact ⟨hmod, decide_eq_true_iff.trans hcarry⟩

/-- The product of the third word and the second one is beyond 192 bits, and no row carries. -/
theorem overflowingMul_missed :
    overflowingMul (n := 3) #v[0, 0, 1] #v[0, 1, 0] = ([0, 0, 0], false) ∧
      value [0, 0, 1] * value [0, 1, 0] = 2 ^ 192 := by
  decide

end Uint

end KeryxNode
