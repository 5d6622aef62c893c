import KeryxNode.CheckedNat
import KeryxNode.Transactions

/-!
# Storage Mass

The storage mass of a transaction (`consensus/core/src/mass/mod.rs`): the harmonic part of its
outputs less the harmonic or the arithmetic part of its inputs. Two kinds of failure are kept
apart. The outer `none` is a stop of the program, by an overflow or a division by zero; the inner
one is the source's own answer that the mass is too high to be computed.
-/

namespace KeryxNode

open List Option

namespace Tx

open Checked

/-! ### Cells -/

/-- The number of storage units of 100 bytes a coin with this script occupies. -/
def utxoPlurality (spk : ScriptPublicKey) : ℕ :=
  (63 + spk.script.length + 99) / 100

/-- A coin as the mass formula sees it. -/
structure UtxoCell where
  plurality : ℕ
  amount : ℕ
  deriving DecidableEq

def UtxoCell.ofEntry (entry : UtxoEntry) : UtxoCell :=
  ⟨utxoPlurality entry.scriptPublicKey, entry.amount⟩

def UtxoCell.ofOutput (output : TransactionOutput) : UtxoCell :=
  ⟨utxoPlurality output.scriptPublicKey, output.value⟩

theorem one_le_utxoPlurality (spk : ScriptPublicKey) : 1 ≤ utxoPlurality spk := by
  rw [utxoPlurality]
  omega

/-! ### The formula -/

/-- The product of a cell's term, if it fits. -/
def harmonicProduct (stormParam : ℕ) (cell : UtxoCell) : Option ℕ := do
  let product ← u64 (stormParam * cell.plurality)
  u64 (product * cell.plurality)

/-- Adds an output to the total plurality and the harmonic sum. -/
def addOutput (stormParam : ℕ) (acc : ℕ × ℕ) (cell : UtxoCell) : Option (Option (ℕ × ℕ)) := do
  let plurality ← u64 (acc.1 + cell.plurality)
  match harmonicProduct stormParam cell with
  | none => some none
  | some product => do
    let term ← div product cell.amount
    some ((u64 (acc.2 + term)).map fun harmonic => (plurality, harmonic))

/-- The pass over the outputs. -/
def harmonicOuts (stormParam : ℕ) : ℕ × ℕ → List UtxoCell → Option (Option (ℕ × ℕ))
  | acc, [] => some (some acc)
  | acc, cell :: cells =>
    (addOutput stormParam acc cell).bind fun added =>
      match added with
      | none => some none
      | some acc => harmonicOuts stormParam acc cells

/-- The sum of the pluralities of some inputs. -/
def sumPlurality (inputs : List UtxoCell) : Option ℕ :=
  inputs.foldlM (fun acc cell => u64 (acc + cell.plurality)) 0

/-- Whether the inputs enter by their harmonic mean. -/
def relaxedFormulaPath (outsPlurality : ℕ) (inputs : List UtxoCell) : Option Bool :=
  if outsPlurality = 1 then some true
  else if inputs.length > 2 then some false
  else (sumPlurality inputs).map fun insPlurality =>
    decide (insPlurality = 1 ∨ outsPlurality = 2 ∧ insPlurality = 2)

/-- The harmonic part of one input. Here a product that does not fit stops the program. -/
def harmonicIn (stormParam : ℕ) (cell : UtxoCell) : Option ℕ := do
  let product ← harmonicProduct stormParam cell
  div product cell.amount

/-- The harmonic part of the inputs, added up to the largest word. -/
def harmonicIns (stormParam : ℕ) (inputs : List UtxoCell) : Option ℕ :=
  inputs.foldlM (fun total cell =>
    (harmonicIn stormParam cell).map fun current => min (total + current) (2 ^ 64 - 1)) 0

/-- Adds an input to the total plurality and the total amount. -/
def addInput (acc : ℕ × ℕ) (cell : UtxoCell) : Option (ℕ × ℕ) := do
  let plurality ← u64 (acc.1 + cell.plurality)
  let amount ← u64 (acc.2 + cell.amount)
  some (plurality, amount)

/-- The plurality and the amount of the inputs. -/
def sumInputs (inputs : List UtxoCell) : Option (ℕ × ℕ) :=
  inputs.foldlM addInput (0, 0)

/-- The arithmetic part of the inputs: the plurality times the parameter over the mean. -/
def arithmeticPart (stormParam : ℕ) (inputs : List UtxoCell) : Option ℕ := do
  let (insPlurality, sumIns) ← sumInputs inputs
  let meanIns ← div sumIns insPlurality
  let quotient ← div stormParam meanIns
  some (min (insPlurality * quotient) (2 ^ 64 - 1))

/-- The storage mass of some inputs and outputs. -/
def calcStorageMass (isCoinbase : Bool) (inputs outputs : List UtxoCell) (stormParam : ℕ) :
    Option (Option ℕ) :=
  if isCoinbase then some (some 0)
  else
    (harmonicOuts stormParam (0, 0) outputs).bind fun outs =>
      match outs with
      | none => some none
      | some (outsPlurality, harmonic) =>
        if outsPlurality = 0 then some (some 0)
        else
          (relaxedFormulaPath outsPlurality inputs).bind fun relaxed =>
            if relaxed then
              (harmonicIns stormParam inputs).map fun ins => some (harmonic - ins)
            else
              (arithmeticPart stormParam inputs).map fun ins => some (harmonic - ins)

/-! ### Sums of cells -/

def totalPlurality (cells : List UtxoCell) : ℕ :=
  (cells.map UtxoCell.plurality).sum

def totalAmount (cells : List UtxoCell) : ℕ :=
  (cells.map UtxoCell.amount).sum

/-- The harmonic sum over the natural numbers. -/
def harmonicTotal (stormParam : ℕ) (cells : List UtxoCell) : ℕ :=
  (cells.map fun cell => stormParam * cell.plurality * cell.plurality / cell.amount).sum

@[simp] theorem totalPlurality_cons (cell : UtxoCell) (cells : List UtxoCell) :
    totalPlurality (cell :: cells) = cell.plurality + totalPlurality cells := rfl

@[simp] theorem totalAmount_cons (cell : UtxoCell) (cells : List UtxoCell) :
    totalAmount (cell :: cells) = cell.amount + totalAmount cells := rfl

@[simp] theorem harmonicTotal_cons (stormParam : ℕ) (cell : UtxoCell) (cells : List UtxoCell) :
    harmonicTotal stormParam (cell :: cells) =
      stormParam * cell.plurality * cell.plurality / cell.amount + harmonicTotal stormParam cells :=
  rfl

/-- Cells the validator lets pass: positive amounts, and products and pluralities that fit. -/
structure CellsFit (stormParam : ℕ) (cells : List UtxoCell) : Prop where
  amounts : ∀ cell ∈ cells, 0 < cell.amount
  units : ∀ cell ∈ cells, 1 ≤ cell.plurality
  products : ∀ cell ∈ cells, stormParam * cell.plurality * cell.plurality < 2 ^ 64
  total : totalPlurality cells < 2 ^ 64

variable {stormParam : ℕ} {cell : UtxoCell} {cells inputs outputs : List UtxoCell}

theorem CellsFit.tail (h : CellsFit stormParam (cell :: cells)) : CellsFit stormParam cells where
  amounts := fun c hc => h.amounts c (mem_cons_of_mem _ hc)
  units := fun c hc => h.units c (mem_cons_of_mem _ hc)
  products := fun c hc => h.products c (mem_cons_of_mem _ hc)
  total := (Nat.le_add_left _ _).trans_lt h.total

/-- Each cell is at least one unit. -/
theorem CellsFit.length_le (h : CellsFit stormParam cells) :
    cells.length ≤ totalPlurality cells := by
  induction cells with
  | nil => exact Nat.le_refl 0
  | cons cell cells ih =>
    have hunit := h.units cell mem_cons_self
    have hrest := ih h.tail
    rw [length_cons, totalPlurality_cons]
    omega

/-- The product of a term fits in two steps if it fits at all. -/
theorem harmonicProduct_eq (hunit : 1 ≤ cell.plurality)
    (h : stormParam * cell.plurality * cell.plurality < 2 ^ 64) :
    harmonicProduct stormParam cell = some (stormParam * cell.plurality * cell.plurality) := by
  have hfirst : stormParam * cell.plurality < 2 ^ 64 :=
    (Nat.le_mul_of_pos_right _ hunit).trans_lt h
  rw [harmonicProduct, u64_of_lt hfirst, bind_eq_bind, bind_some, u64_of_lt h]

/-! ### Outputs -/

/-- **The pass over the outputs** never stops the program: it returns the two sums, or refuses
exactly if the harmonic sum does not fit. -/
theorem harmonicOuts_eq (h : CellsFit stormParam cells) (acc : ℕ × ℕ)
    (hplurality : acc.1 + totalPlurality cells < 2 ^ 64) (hharmonic : acc.2 < 2 ^ 64) :
    harmonicOuts stormParam acc cells = some (if acc.2 + harmonicTotal stormParam cells < 2 ^ 64
      then some (acc.1 + totalPlurality cells, acc.2 + harmonicTotal stormParam cells)
      else none) := by
  induction cells generalizing acc with
  | nil => exact (congrArg some (if_pos hharmonic)).symm
  | cons cell cells ih =>
    rw [totalPlurality_cons, ← Nat.add_assoc] at hplurality
    rw [harmonicOuts, addOutput, u64_of_lt ((Nat.le_add_right _ _).trans_lt hplurality),
      bind_eq_bind, harmonicProduct_eq (h.units cell mem_cons_self) (h.products cell mem_cons_self),
      harmonicTotal_cons, totalPlurality_cons, ← Nat.add_assoc, ← Nat.add_assoc]
    simp only [div, (h.amounts cell mem_cons_self).ne', if_false, bind_some, u64]
    by_cases hterm : acc.2 + stormParam * cell.plurality * cell.plurality / cell.amount < 2 ^ 64
    · rw [if_pos hterm]
      exact ih h.tail _ hplurality hterm
    · -- the sums only grow, so the total does not fit either
      rw [if_neg hterm, if_neg fun htotal => hterm ((Nat.le_add_right _ _).trans_lt htotal)]
      rfl

/-! ### Inputs -/

theorem foldlM_plurality (acc : ℕ) (h : acc + totalPlurality cells < 2 ^ 64) :
    cells.foldlM (fun acc cell => u64 (acc + cell.plurality)) acc
      = some (acc + totalPlurality cells) := by
  induction cells generalizing acc with
  | nil => rfl
  | cons cell cells ih =>
    rw [totalPlurality_cons, ← Nat.add_assoc] at h
    rw [foldlM_cons, u64_of_lt ((Nat.le_add_right _ _).trans_lt h), bind_eq_bind,
      bind_some, ih _ h, totalPlurality_cons, Nat.add_assoc]

/-- The choice of the formula. -/
theorem relaxedFormulaPath_eq (h : CellsFit stormParam inputs) {outsPlurality : ℕ} :
    relaxedFormulaPath outsPlurality inputs = some (decide (outsPlurality = 1 ∨
      totalPlurality inputs = 1 ∨ outsPlurality = 2 ∧ totalPlurality inputs = 2)) := by
  rw [relaxedFormulaPath]
  by_cases hone : outsPlurality = 1
  · rw [if_pos hone, decide_eq_true (Or.inl hone)]
  · rw [if_neg hone]
    by_cases hlength : inputs.length > 2
    · -- more than two inputs have a plurality above two
      have hle := h.length_le
      rw [if_pos hlength, decide_eq_false (by omega)]
    · have hsum : sumPlurality inputs = some (totalPlurality inputs) := by
        have hfold := foldlM_plurality 0 (by rw [Nat.zero_add]; exact h.total)
        rwa [Nat.zero_add] at hfold
      rw [if_neg hlength, hsum, map_some]
      simp only [hone, false_or]

/-- The harmonic part of fitting inputs is computed. -/
theorem harmonicIns_returns (h : CellsFit stormParam inputs) :
    ∃ n, harmonicIns stormParam inputs = some n := by
  have hrun : ∀ {cells : List UtxoCell}, CellsFit stormParam cells → ∀ acc : ℕ,
      ∃ n, cells.foldlM (fun total cell => (harmonicIn stormParam cell).map fun current =>
        min (total + current) (2 ^ 64 - 1)) acc = some n := by
    intro cells
    induction cells with
    | nil => exact fun _ acc => ⟨acc, rfl⟩
    | cons cell cells ih =>
      intro hfit acc
      have hunit := hfit.units cell mem_cons_self
      have hproduct := hfit.products cell mem_cons_self
      have hamount := hfit.amounts cell mem_cons_self
      have hin : harmonicIn stormParam cell
          = some (stormParam * cell.plurality * cell.plurality / cell.amount) := by
        rw [harmonicIn, harmonicProduct_eq hunit hproduct, bind_eq_bind, bind_some,
          div, if_neg hamount.ne']
      rw [foldlM_cons, hin]
      exact ih hfit.tail _
  exact hrun h 0

theorem foldlM_addInput (acc : ℕ × ℕ) (h : acc.1 + totalPlurality cells < 2 ^ 64)
    (ha : acc.2 < 2 ^ 64) :
    cells.foldlM addInput acc = if acc.2 + totalAmount cells < 2 ^ 64 then
      some (acc.1 + totalPlurality cells, acc.2 + totalAmount cells) else none := by
  induction cells generalizing acc with
  | nil => exact (if_pos ha).symm
  | cons cell cells ih =>
    rw [totalPlurality_cons, ← Nat.add_assoc] at h
    rw [foldlM_cons, addInput, u64_of_lt ((Nat.le_add_right _ _).trans_lt h), bind_eq_bind, u64,
      totalPlurality_cons, totalAmount_cons, ← Nat.add_assoc, ← Nat.add_assoc]
    by_cases hamount : acc.2 + cell.amount < 2 ^ 64
    · rw [if_pos hamount]
      exact ih _ h hamount
    · rw [if_neg fun htotal => hamount ((Nat.le_add_right _ _).trans_lt htotal), if_neg hamount]
      rfl

/-- **The arithmetic part** is computed exactly if there is an input, the amounts add up to a word
and they reach the total plurality, without which the mean is zero. -/
theorem arithmeticPart_eq_some_iff (h : CellsFit stormParam inputs) :
    (∃ n, arithmeticPart stormParam inputs = some n) ↔
      inputs ≠ [] ∧ totalAmount inputs < 2 ^ 64 ∧ totalPlurality inputs ≤ totalAmount inputs := by
  have hsum : sumInputs inputs = if totalAmount inputs < 2 ^ 64 then
      some (totalPlurality inputs, totalAmount inputs) else none := by
    have hfold := foldlM_addInput (0, 0) (by rw [Nat.zero_add]; exact h.total) (by decide)
    rwa [Nat.zero_add, Nat.zero_add] at hfold
  by_cases hamount : totalAmount inputs < 2 ^ 64
  · rw [arithmeticPart, hsum, if_pos hamount, and_iff_right hamount]
    by_cases hnil : inputs = []
    · simp [hnil, div, totalPlurality]
    · have hpos : totalPlurality inputs ≠ 0 :=
        ((length_pos_iff.mpr hnil).trans_le h.length_le).ne'
      by_cases hmean : totalAmount inputs < totalPlurality inputs
      · simp [div, hpos, hmean]
      · simp [div, hpos, hmean, hnil, Nat.not_lt.mp hmean]
  · rw [arithmeticPart, hsum, if_neg hamount]
    exact iff_of_false (by simp) fun hle => hamount hle.2.1

/-! ### The whole formula -/

/-- The mass is defined without looking at the inputs, or their harmonic mean is used, or their
arithmetic mean is a positive number. -/
def MassDefined (isCoinbase : Bool) (inputs outputs : List UtxoCell) (stormParam : ℕ) : Prop :=
  isCoinbase = true ∨ 2 ^ 64 ≤ harmonicTotal stormParam outputs ∨ totalPlurality outputs ≤ 1 ∨
    totalPlurality inputs = 1 ∨ (totalPlurality outputs = 2 ∧ totalPlurality inputs = 2) ∨
    (inputs ≠ [] ∧ totalAmount inputs < 2 ^ 64 ∧ totalPlurality inputs ≤ totalAmount inputs)

instance (isCoinbase : Bool) (inputs outputs : List UtxoCell) (stormParam : ℕ) :
    Decidable (MassDefined isCoinbase inputs outputs stormParam) :=
  inferInstanceAs (Decidable (_ ∨ _))

/-- **The mass of fitting cells** is computed or refused, without a stop of the program, exactly
if it is defined. -/
theorem calcStorageMass_returns_iff {isCoinbase : Bool}
    (hin : isCoinbase = false → CellsFit stormParam inputs)
    (hout : isCoinbase = false → CellsFit stormParam outputs) :
    (∃ mass, calcStorageMass isCoinbase inputs outputs stormParam = some mass) ↔
      MassDefined isCoinbase inputs outputs stormParam := by
  cases isCoinbase with
  | true => exact ⟨fun _ => .inl rfl, fun _ => ⟨some 0, rfl⟩⟩
  | false =>
    have hin := hin rfl
    have houts := harmonicOuts_eq (hout rfl) (0, 0)
      (by rw [Nat.zero_add]; exact (hout rfl).total) (by decide)
    rw [Nat.zero_add, Nat.zero_add] at houts
    rw [calcStorageMass, houts, MassDefined]
    by_cases hharmonic : harmonicTotal stormParam outputs < 2 ^ 64
    · rw [if_pos hharmonic]
      by_cases hzero : totalPlurality outputs = 0
      · simp [hzero]
      · simp only [hzero, relaxedFormulaPath_eq hin, bind_some, decide_eq_true_eq]
        by_cases hrelaxed : totalPlurality outputs = 1 ∨ totalPlurality inputs = 1 ∨
            totalPlurality outputs = 2 ∧ totalPlurality inputs = 2
        · obtain ⟨n, hn⟩ := harmonicIns_returns hin
          rw [if_pos hrelaxed, hn]
          exact ⟨fun _ => by omega, fun _ => ⟨_, rfl⟩⟩
        · rw [if_neg hrelaxed]
          have hpart := arithmeticPart_eq_some_iff hin
          constructor
          · rintro ⟨mass, hmass⟩
            obtain ⟨n, hn, -⟩ := map_eq_some_iff.mp hmass
            exact .inr (.inr (.inr (.inr (.inr (hpart.mp ⟨n, hn⟩)))))
          · intro hdefined
            obtain ⟨n, hn⟩ := hpart.mpr (by
              rcases hdefined with h | h | h | h | h | h
              · cases h
              · omega
              · omega
              · omega
              · omega
              · exact h)
            exact ⟨_, by rw [hn]; rfl⟩
    · rw [if_neg hharmonic]
      exact ⟨fun _ => .inr (.inl (Nat.not_lt.mp hharmonic)), fun _ => ⟨none, rfl⟩⟩

end Tx

end KeryxNode
