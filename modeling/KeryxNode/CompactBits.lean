import Mathlib.Data.List.Induction
import Mathlib.Data.Nat.Size
import Mathlib.Tactic.Set
import KeryxNode.Limbs

/-!
# Compact Difficulty Bits

A target of 256 bits is stored in a header as 32 bits, a byte count over a mantissa of 23 bits
(`compact_target_bits` and `from_compact_target_bits`, `math/src/lib.rs`). With the exponent
`e = bits / 8 + 1` both directions are scaling by `256 ^ (e - 3)`: the encoding keeps
`x * 2 ^ 24 / 2 ^ (8 * e)`, and decoding it again clears the bytes below the mantissa. The shifts
are loops over four words (`math/src/uint.rs`).

## Main results

* `compactTargetBits_rounds`: the encoding is monotone, rounds down by less than one part in
  `2 ^ 15`, and is stable.
-/

namespace KeryxNode

namespace Uint256

open Limbs

/-! ### The words of a number -/

/-- The four words of a number, the low word first. -/
def words (x : ℕ) : List UInt64 :=
  (List.range 4).map fun i => UInt64.ofBitVec (BitVec.ofNat 64 (x >>> (64 * i)))

/-- The least number of bits, searched from the highest word. -/
def bits (ws : List UInt64) : ℕ :=
  (ws.zipIdx.reverse.findSome? fun (w, i) =>
    if w ≠ 0 then some (64 * (i + 1) - w.toBitVec.clz.toNat) else none).getD 0

/-- The shift to the left, by its amount modulo the width. The first loop of the source writes the
words from `leftWords` on, the second adds what the word below has shifted out. -/
def overflowingShl (ws : List UInt64) (s : ℕ) : List UInt64 × Bool :=
  let leftWords := s % 256 / 64
  let leftShifts := s % 256 % 64
  ((List.range 4).map fun i => UInt64.ofBitVec <|
    if i < leftWords then 0
    else if 0 < leftShifts ∧ leftWords < i then
      word ws (i - leftWords) <<< leftShifts ||| word ws (i - 1 - leftWords) >>> (64 - leftShifts)
    else word ws (i - leftWords) <<< leftShifts,
    256 ≤ s)

/-- The shift to the right. The loops end at the last word, and `word` is zero past it. -/
def overflowingShr (ws : List UInt64) (s : ℕ) : List UInt64 × Bool :=
  let leftWords := s % 256 / 64
  let leftShifts := s % 256 % 64
  ((List.range 4).map fun i => UInt64.ofBitVec <|
    if 0 < leftShifts then
      word ws (i + leftWords) >>> leftShifts ||| word ws (i + leftWords + 1) <<< (64 - leftShifts)
    else word ws (i + leftWords) >>> leftShifts,
    256 ≤ s)

section Words

variable {ws : List UInt64} {s x : ℕ}

theorem value_words (hx : x < 2 ^ 256) : value (words x) = x := by
  refine (value_map_range fun i _ j hj => ?_).trans (Nat.mod_eq_of_lt hx)
  rw [BitVec.getLsbD_ofNat, decide_eq_true hj, Bool.true_and, Nat.testBit_shiftRight]

theorem length_words : (words x).length = 4 := by
  simp [words]

/-- **The loops shift the number to the left.** -/
theorem value_overflowingShl :
    value (overflowingShl ws s).1 = value ws <<< (s % 256) % 2 ^ 256 := by
  refine value_map_range fun i _ j hj => ?_
  rw [Nat.testBit_shiftLeft]
  generalize s % 256 = t
  split
  · simp
    omega
  split
  · have hle : t ≤ 64 * i + j := by omega
    rw [BitVec.getLsbD_or, BitVec.getLsbD_shiftLeft, BitVec.getLsbD_ushiftRight]
    by_cases h : j < t % 64
    · rw [getLsbD_word (i := i - 1 - t / 64) (n := 64 * i + j - t) (by omega) (by omega)]
      simp [h, hle]
    · rw [BitVec.getLsbD_of_ge _ (64 - t % 64 + j) (by omega),
        getLsbD_word (n := 64 * i + j - t) (by omega) (by omega)]
      simp [h, hj, hle]
  · rw [BitVec.getLsbD_shiftLeft]
    by_cases h : j < t % 64
    · simp [h, show ¬ t ≤ 64 * i + j by omega]
    · rw [getLsbD_word (n := 64 * i + j - t) (by omega) (by omega)]
      simp [h, hj, show t ≤ 64 * i + j by omega]

/-- **The loops shift the number to the right.** -/
theorem value_overflowingShr (hws : ws.length = 4) :
    value (overflowingShr ws s).1 = value ws >>> (s % 256) := by
  have hlt : value ws >>> (s % 256) < 2 ^ 256 :=
    (Nat.shiftRight_le _ _).trans_lt (by simpa [hws] using value_lt ws)
  rw [← Nat.mod_eq_of_lt hlt]
  refine value_map_range fun i _ j hj => ?_
  rw [Nat.testBit_shiftRight]
  generalize s % 256 = t
  split
  · rw [BitVec.getLsbD_or, BitVec.getLsbD_shiftLeft, BitVec.getLsbD_ushiftRight]
    by_cases h : j < 64 - t % 64
    · rw [getLsbD_word (i := i + t / 64) (n := t + (64 * i + j)) (by omega) (by omega)]
      simp [h]
    · rw [BitVec.getLsbD_of_ge _ (t % 64 + j) (by omega),
        getLsbD_word (n := t + (64 * i + j)) (by omega) (by omega)]
      simp [h, hj]
  · rw [BitVec.getLsbD_ushiftRight, getLsbD_word (n := t + (64 * i + j)) (by omega) (by omega)]

/-- **The highest word that is not zero** has the leading bit of the number. -/
theorem bits_eq_size : bits ws = (value ws).size := by
  induction ws using List.reverseRec with
  | nil => rfl
  | append_singleton ws w ih =>
    have hval : value (ws ++ [w]) = value ws + 2 ^ (64 * ws.length) * w.toBitVec.toNat := by
      simp [value_append, value]
    rw [hval]
    by_cases hw : w = 0
    · simp [bits, List.zipIdx_append, hw, ← ih]
    have hbits : bits (ws ++ [w]) = 64 * (ws.length + 1) - w.toBitVec.clz.toNat := by
      simp [bits, List.zipIdx_append, hw]
    have hne : w.toBitVec ≠ 0#64 := fun h => hw (UInt64.toBitVec_inj.mp h)
    have hclz : w.toBitVec.clz.toNat < 64 := BitVec.clz_lt_iff_ne_zero.mpr hne
    have hlt := Nat.mul_le_mul_left (2 ^ (64 * ws.length)) w.toBitVec.toNat_lt_two_pow_sub_clz
    have hle := Nat.mul_le_mul_left (2 ^ (64 * ws.length))
      (BitVec.two_pow_sub_clz_le_toNat_of_ne_zero (by decide) hne)
    rw [← Nat.pow_add] at hlt hle
    rw [hbits, Nat.mul_succ, Nat.add_sub_assoc hclz.le]
    refine le_antisymm ?_ (Nat.size_le.mpr ?_)
    · have := Nat.lt_size.mpr (hle.trans (Nat.le_add_left _ (value ws)))
      omega
    · have := value_lt ws
      rw [Nat.mul_succ] at hlt
      omega

end Words

/-- The target of compact bits. -/
def fromCompactTargetBits (bits : ℕ) : ℕ :=
  let unshiftedExpt := bits >>> 24
  let (mant, expt) :=
    if unshiftedExpt ≤ 3 then ((bits &&& 0xFFFFFF) >>> (8 * (3 - unshiftedExpt)), 0)
    else (bits &&& 0xFFFFFF, 8 * (unshiftedExpt - 3))
  if 0x7FFFFF < mant then 0 else value (overflowingShl (words mant) expt).1

/-- The compact bits of a target. -/
def compactTargetBits (x : ℕ) : ℕ :=
  let size := (bits (words x) + 7) / 8
  let compact :=
    if size ≤ 3 then (x % 2 ^ 64) <<< (8 * (3 - size)) % 2 ^ 64 % 2 ^ 32
    else value (overflowingShr (words x) (8 * (size - 3))).1 % 2 ^ 64 % 2 ^ 32
  if compact &&& 0x00800000 ≠ 0 then compact >>> 8 ||| (size + 1) <<< 24
  else compact ||| size <<< 24

/-- The exponent of a positive number. -/
def expt (x : ℕ) : ℕ := x.size / 8 + 1

/-- The leading bytes at an exponent. -/
def mantissa (x e : ℕ) : ℕ := x * 2 ^ 24 / 2 ^ (8 * e)

variable {x y e m : ℕ}

/-- The leading bytes as a shift to the left or to the right. -/
theorem mantissa_of_le (he : e ≤ 3) : mantissa x e = x * 2 ^ (8 * (3 - e)) := by
  have hpow : (2 : ℕ) ^ 24 = 2 ^ (8 * (3 - e)) * 2 ^ (8 * e) := by
    rw [← Nat.pow_add]
    congr 1
    omega
  rw [mantissa, hpow, ← Nat.mul_assoc, Nat.mul_div_cancel _ (Nat.two_pow_pos _)]

theorem mantissa_of_ge (he : 3 ≤ e) : mantissa x e = x / 2 ^ (8 * (e - 3)) := by
  have hpow : (2 : ℕ) ^ (8 * e) = 2 ^ (8 * (e - 3)) * 2 ^ 24 := by
    rw [← Nat.pow_add]
    congr 1
    omega
  rw [mantissa, hpow, Nat.mul_div_mul_right _ _ (Nat.two_pow_pos 24)]

/-- The bits of the mantissa are those of the number without the lower bytes. -/
theorem le_mantissa_iff {k : ℕ} (hk : 24 ≤ 8 * e + k) :
    2 ^ k ≤ mantissa x e ↔ 8 * e + k < x.size + 24 := by
  obtain ⟨n, hn⟩ := Nat.exists_eq_add_of_le' hk
  rw [mantissa, Nat.le_div_iff_mul_le (Nat.two_pow_pos _), ← Nat.pow_add, Nat.add_comm k, hn,
    Nat.pow_add, Nat.mul_le_mul_right_iff (Nat.two_pow_pos 24), ← Nat.lt_size]
  omega

/-- **The encoding** of a positive number. -/
theorem compactTargetBits_eq (hpos : 0 < x) (hlt : x < 2 ^ 256) :
    mantissa x (expt x) < 2 ^ 23 ∧
      compactTargetBits x = 2 ^ 24 * expt x + mantissa x (expt x) := by
  have hsize : 0 < x.size := Nat.size_pos.mpr hpos
  have hle : x.size ≤ 256 := Nat.size_le.mpr hlt
  have hbound : ∀ {e k}, 24 ≤ 8 * e + k → x.size + 24 ≤ 8 * e + k → mantissa x e < 2 ^ k := by
    intro e k hk hs
    rw [← not_le, le_mantissa_iff hk]
    omega
  have hor : ∀ {m e}, m < 2 ^ 24 → m ||| e <<< 24 = 2 ^ 24 * e + m := fun h => by
    rw [Nat.or_comm, Nat.shiftLeft_eq, Nat.mul_comm, Nat.two_pow_add_eq_or_of_lt h]
  refine ⟨hbound (by rw [expt]; omega) (by rw [expt]; omega), ?_⟩
  unfold compactTargetBits
  rw [bits_eq_size, value_words hlt]
  set size := (x.size + 7) / 8 with hs
  have hm : mantissa x size < 2 ^ 24 := hbound (by omega) (by omega)
  have hcompact : (if size ≤ 3 then (x % 2 ^ 64) <<< (8 * (3 - size)) % 2 ^ 64 % 2 ^ 32
      else value (overflowingShr (words x) (8 * (size - 3))).1 % 2 ^ 64 % 2 ^ 32)
      = mantissa x size := by
    have hmod : mantissa x size % 2 ^ 64 % 2 ^ 32 = mantissa x size := by omega
    split
    · next hsmall =>
      have hx := mantissa_of_le (x := x) hsmall
      have hxlt : x < 2 ^ 64 := by
        have := Nat.le_mul_of_pos_right x (Nat.two_pow_pos (8 * (3 - size)))
        omega
      rw [Nat.mod_eq_of_lt hxlt, Nat.shiftLeft_eq, ← hx, hmod]
    · rw [value_overflowingShr length_words, value_words hlt,
        Nat.mod_eq_of_lt (show 8 * (size - 3) < 256 by omega), Nat.shiftRight_eq_div_pow,
        ← mantissa_of_ge (by omega), hmod]
  -- The sign bit is set if the bits fill the bytes.
  have hsign : mantissa x size &&& 0x00800000 ≠ 0 ↔ x.size = 8 * size := by
    have hbit : mantissa x size &&& 2 ^ 23 ≠ 0 ↔ 2 ^ 23 ≤ mantissa x size := by
      rw [Nat.and_two_pow, Nat.testBit_eq_decide_div_mod_eq]
      simp
      omega
    refine hbit.trans ((le_mantissa_iff (by omega)).trans ?_)
    omega
  dsimp only
  rw [hcompact]
  split
  · next hset =>
    have he : expt x = size + 1 := by
      have := hsign.mp hset
      rw [expt]
      omega
    have hshift : mantissa x size >>> 8 = mantissa x (size + 1) := by
      rw [Nat.shiftRight_eq_div_pow, mantissa, mantissa, Nat.div_div_eq_div_mul, ← Nat.pow_add,
        Nat.mul_succ]
    rw [he, hshift, hor (hbound (by omega) (by omega))]
  · next hset =>
    have he : expt x = size := by
      have := mt hsign.mpr hset
      rw [expt]
      omega
    rw [he, hor hm]

/-- **The decoding** of an exponent and a mantissa. -/
theorem fromCompactTargetBits_eq (hm : m < 2 ^ 23) (he : e < 35) :
    fromCompactTargetBits (2 ^ 24 * e + m)
      = if e ≤ 3 then m / 2 ^ (8 * (3 - e)) else m * 2 ^ (8 * (e - 3)) % 2 ^ 256 := by
  have hexpt : (2 ^ 24 * e + m) >>> 24 = e := by
    rw [Nat.shiftRight_eq_div_pow]
    omega
  have hmant : (2 ^ 24 * e + m) &&& 0xFFFFFF = m := by
    refine (Nat.and_two_pow_sub_one_eq_mod _ 24).trans ?_
    omega
  rw [fromCompactTargetBits, hexpt, hmant]
  by_cases hsmall : e ≤ 3
  · have hle : m / 2 ^ (8 * (3 - e)) ≤ m := Nat.div_le_self _ _
    simp only [if_pos hsmall, Nat.shiftRight_eq_div_pow]
    rw [if_neg (by omega), value_overflowingShl, value_words (by omega), Nat.zero_mod,
      Nat.shiftLeft_zero]
    exact Nat.mod_eq_of_lt (by omega)
  · simp only [if_neg hsmall]
    rw [if_neg (by omega), value_overflowingShl, value_words (by omega),
      Nat.mod_eq_of_lt (show 8 * (e - 3) < 256 by omega), Nat.shiftLeft_eq]

/-- **Encoding and decoding** clears the bytes below the mantissa. -/
theorem fromCompactTargetBits_compactTargetBits (hpos : 0 < x) (hlt : x < 2 ^ 256) :
    fromCompactTargetBits (compactTargetBits x)
      = x / 2 ^ (8 * (expt x - 3)) * 2 ^ (8 * (expt x - 3)) := by
  obtain ⟨hm, hbits⟩ := compactTargetBits_eq hpos hlt
  have he : expt x < 35 := by
    have := Nat.size_le.mpr hlt
    rw [expt]
    omega
  rw [hbits, fromCompactTargetBits_eq hm he]
  split
  · next hsmall =>
    rw [mantissa_of_le hsmall, Nat.mul_div_cancel _ (Nat.two_pow_pos _),
      Nat.sub_eq_zero_of_le hsmall, Nat.mul_zero, Nat.pow_zero, Nat.div_one, Nat.mul_one]
  · rw [mantissa_of_ge (by omega)]
    exact Nat.mod_eq_of_lt ((Nat.div_mul_le_self _ _).trans_lt hlt)

/-- **Compact bits round consistently**: the encoding is monotone, the decoded value is at most the
number, exceeds it less one part in `2 ^ 15` from `2 ^ 15` on and is the number below `2 ^ 23`, and
has the same encoding. -/
theorem compactTargetBits_rounds (x : Fin (2 ^ 256)) :
    (∀ y : Fin (2 ^ 256), x ≤ y → compactTargetBits x ≤ compactTargetBits y) ∧
      fromCompactTargetBits (compactTargetBits x) ≤ x ∧
      (2 ^ 15 ≤ x.val → x.val - x.val / 2 ^ 15 < fromCompactTargetBits (compactTargetBits x)) ∧
      (x.val < 2 ^ 23 → fromCompactTargetBits (compactTargetBits x) = x) ∧
      compactTargetBits (fromCompactTargetBits (compactTargetBits x)) = compactTargetBits x := by
  obtain ⟨x, hlt⟩ := x
  dsimp only
  rcases Nat.eq_zero_or_pos x with rfl | hpos
  · exact ⟨fun y _ => Nat.zero_le _, le_rfl, nofun, fun _ => rfl, rfl⟩
  obtain ⟨hm, hbits⟩ := compactTargetBits_eq hpos hlt
  refine ⟨fun y hxy => ?_, ?_⟩
  · obtain ⟨-, hbits'⟩ := compactTargetBits_eq (hpos.trans_le hxy) y.isLt
    have hexpt : expt x ≤ expt y := Nat.succ_le_succ (Nat.div_le_div_right (Nat.size_le_size hxy))
    rw [hbits, hbits']
    rcases hexpt.eq_or_lt with heq | hless
    · rw [heq]
      exact Nat.add_le_add_left (Nat.div_le_div_right (Nat.mul_le_mul_right _ hxy)) _
    · omega
  have hdecode := fromCompactTargetBits_compactTargetBits hpos hlt
  set low := 8 * (expt x - 3) with hlow
  have hexpt : expt x = x.size / 8 + 1 := rfl
  rcases le_or_gt (expt x) 3 with hsmall | hlarge
  · rw [show low = 0 by omega, Nat.pow_zero, Nat.div_one, Nat.mul_one] at hdecode
    rw [hdecode]
    exact ⟨le_rfl, fun h => by omega, fun _ => rfl, rfl⟩
  -- The leading bit stays, and the cleared bits are below one part in `2 ^ 15`.
  have hlead : ∀ {k}, low + k < x.size → 2 ^ (low + k) ≤ x / 2 ^ low * 2 ^ low := by
    intro k hk
    rw [Nat.pow_add, Nat.mul_comm]
    refine Nat.mul_le_mul_right _ ((Nat.le_div_iff_mul_le (Nat.two_pow_pos _)).mpr ?_)
    rw [← Nat.pow_add, Nat.add_comm, ← Nat.lt_size]
    exact hk
  have hle := Nat.div_mul_le_self x (2 ^ low)
  have hrest := Nat.mod_lt x (Nat.two_pow_pos low)
  have hsplit := Nat.div_add_mod' x (2 ^ low)
  have hpart : 2 ^ low ≤ x / 2 ^ 15 := by
    rw [Nat.le_div_iff_mul_le (by decide), ← Nat.pow_add, ← Nat.lt_size]
    omega
  rw [hdecode]
  refine ⟨hle, fun _ => by omega, fun h => ?_, ?_⟩
  · have := Nat.size_le.mpr h
    omega
  · have hsize : (x / 2 ^ low * 2 ^ low).size = x.size := by
      refine le_antisymm (Nat.size_le_size hle) ?_
      have := Nat.lt_size.mpr (@hlead (x.size - 1 - low) (by omega))
      omega
    have hsame : expt (x / 2 ^ low * 2 ^ low) = expt x := congrArg (· / 8 + 1) hsize
    rw [(compactTargetBits_eq (Nat.size_pos.mp (by omega)) (hle.trans_lt hlt)).2, hbits, hsame,
      mantissa_of_ge hlarge.le, mantissa_of_ge hlarge.le, Nat.mul_div_cancel _ (Nat.two_pow_pos _)]

end Uint256

end KeryxNode
