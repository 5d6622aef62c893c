import Mathlib.Algebra.BigOperators.Ring.List
import Mathlib.Algebra.Order.BigOperators.Group.List
import Mathlib.Algebra.Order.Ring.Nat
import KeryxNode.CoinAge

/-!
# The Carry-over Creates No Age

All outputs of a script get one anchor, the floor of a weighted average over what survives of the
inputs of the script. Value is counted here unit by unit: every unit of an input has the anchor of
the input, the spent value takes the oldest units, and the youngest ones survive.

## Main results

* `carry_over_creates_no_age`: the outputs of a script have the age of the youngest units of its
  inputs, up to the floor of the average.
-/

namespace KeryxNode

open List

/-- The anchors of the units of value of some inputs, oldest first. -/
def unitAnchors (group : List (ℕ × ℕ)) : List ℕ :=
  (group.flatMap fun i => replicate i.1 i.2).insertionSort (· ≤ ·)

/-- The age mass of the youngest units of value. -/
def youngestAge (group : List (ℕ × ℕ)) (value currentDaa : ℕ) : ℕ :=
  (((unitAnchors group).reverse.take value).map (currentDaa - ·)).sum

/-- The inputs of a script. -/
def inputsOf (inputs : List (ScriptPublicKey × ℕ × ℕ)) (spk : ScriptPublicKey) : List (ℕ × ℕ) :=
  (inputs.filter fun i => decide (i.1 = spk)).map Prod.snd

/-- The value of the outputs of a script. -/
def outputValue (outputs : List (ScriptPublicKey × ℕ)) (spk : ScriptPublicKey) : ℕ :=
  ((outputs.filter fun o => decide (o.1 = spk)).map Prod.snd).sum

/-- The age mass of the outputs of a script, with the anchors they are assigned. -/
def outputAge (inputs : List (ScriptPublicKey × ℕ × ℕ)) (outputs : List (ScriptPublicKey × ℕ))
    (currentDaa : ℕ) (spk : ScriptPublicKey) : ℕ :=
  (((outputs.zip (assignOutputEffectiveDaa inputs outputs currentDaa)).filter fun o =>
    decide (o.1.1 = spk)).map fun o => o.1.2 * (currentDaa - o.2)).sum

variable {group group' : List (ℕ × ℕ)} {outV currentDaa : ℕ}

/-! ### Units of value -/

theorem unitAnchors_perm (h : group.Perm group') : unitAnchors group = unitAnchors group' :=
  (((perm_insertionSort _ _).trans (h.flatMap_right _)).trans (perm_insertionSort _ _).symm)
    |>.eq_of_pairwise' (pairwise_insertionSort _ _) (pairwise_insertionSort _ _)

theorem length_unitAnchors : (unitAnchors group).length = (group.map Prod.fst).sum := by
  simp [unitAnchors]

/-- The units of sorted inputs are sorted. -/
theorem flatMap_sorted :
    (group.insertionSort fun a b => a.2 ≤ b.2).flatMap (fun i => replicate i.1 i.2)
      = unitAnchors group := by
  refine (((perm_insertionSort _ _).flatMap_right _).trans
    (perm_insertionSort _ _).symm).eq_of_pairwise' ?_ (pairwise_insertionSort _ _)
  refine pairwise_flatMap.mpr ⟨fun i _ => pairwise_replicate.mpr (.inr le_rfl), ?_⟩
  refine (pairwise_insertionSort _ _).imp fun {i j} hij x hx y hy => ?_
  rw [(mem_replicate.mp hx).2, (mem_replicate.mp hy).2]
  exact hij

/-- The spent value takes the first units. -/
theorem foldl_consumeOldest (l : List (ℕ × ℕ)) (spent mass : ℕ) :
    (l.foldl consumeOldest (spent, mass)).2
      = mass + ((l.flatMap fun i => replicate i.1 i.2).drop spent).sum := by
  induction l generalizing spent mass with
  | nil => simp
  | cons i l ih =>
    have hspent : spent - min spent i.1 = spent - i.1 := by omega
    have hleft : i.1 - min spent i.1 = i.1 - spent := by omega
    rw [foldl_cons, consumeOldest, ih, flatMap_cons, drop_append, sum_append, drop_replicate,
      sum_replicate_nat, length_replicate, Nat.add_assoc, hspent, hleft]

/-- The anchors of the units of some outputs: the youngest units of the inputs, and new ones. -/
def keptAnchors (group : List (ℕ × ℕ)) (outV currentDaa : ℕ) : List ℕ :=
  (unitAnchors group).drop ((unitAnchors group).length - outV) ++
    replicate (outV - (unitAnchors group).length) currentDaa

/-- **The anchor of a group** is the floor of the average over the units of the outputs. -/
theorem fifoSurvivorAnchor_eq (group : List (ℕ × ℕ)) (hout : 0 < outV) :
    (if group = [] then currentDaa else fifoSurvivorAnchor group outV currentDaa)
      = (keptAnchors group outV currentDaa).sum / outV := by
  have hempty : (group.map Prod.fst).sum = 0 →
      currentDaa = (keptAnchors group outV currentDaa).sum / outV := by
    intro hzero
    rw [← length_unitAnchors] at hzero
    rw [keptAnchors, length_eq_zero_iff.mp hzero]
    simp [hout]
  split
  · next hnil => exact hempty (by rw [hnil]; rfl)
  · rw [fifoSurvivorAnchor]
    split
    · next hzero => exact hempty hzero
    · dsimp only
      rw [foldl_consumeOldest, flatMap_sorted, keptAnchors, length_unitAnchors, sum_append,
        sum_replicate_nat, Nat.zero_add]
      congr 3
      omega

/-- Ages and anchors of some units add up. -/
theorem sum_map_sub_add {l : List ℕ} (h : ∀ a ∈ l, a ≤ currentDaa) :
    (l.map (currentDaa - ·)).sum + l.sum = l.length * currentDaa := by
  induction l with
  | nil => simp
  | cons a l ih =>
    obtain ⟨ha, hl⟩ := forall_mem_cons.mp h
    rw [map_cons, sum_cons, sum_cons, length_cons, Nat.succ_mul, ← ih hl]
    omega

/-- The units of the outputs are as old as the youngest ones of the inputs. -/
theorem age_keptAnchors (h : ∀ i ∈ group, i.2 ≤ currentDaa) :
    youngestAge group (min (group.map Prod.fst).sum outV) currentDaa
      + (keptAnchors group outV currentDaa).sum = outV * currentDaa := by
  have hall : ∀ a ∈ keptAnchors group outV currentDaa, a ≤ currentDaa := by
    refine forall_mem_append.mpr ⟨fun a ha => ?_, fun a ha => (mem_replicate.mp ha).2.le⟩
    obtain ⟨i, hi, ha⟩ := mem_flatMap.mp ((mem_insertionSort _).mp (mem_of_mem_drop ha))
    exact (mem_replicate.mp ha).2 ▸ h i hi
  have hlength : (keptAnchors group outV currentDaa).length = outV := by
    rw [keptAnchors, length_append, length_drop, length_replicate]
    omega
  rw [← hlength, ← sum_map_sub_add hall, hlength]
  congr 1
  rw [youngestAge, ← length_unitAnchors, take_reverse, map_reverse, sum_reverse, keptAnchors,
    map_append, sum_append, map_replicate, Nat.sub_self, sum_replicate_nat]
  congr 3
  omega

/-- **The age of a group** is that of the youngest units, up to the floor. -/
theorem group_age (hout : 0 < outV) (h : ∀ i ∈ group, i.2 ≤ currentDaa) :
    let anchor := if group = [] then currentDaa else fifoSurvivorAnchor group outV currentDaa
    let youngest := youngestAge group (min (group.map Prod.fst).sum outV) currentDaa
    anchor ≤ currentDaa ∧ youngest ≤ outV * (currentDaa - anchor) ∧
      outV * (currentDaa - anchor) < youngest + outV := by
  intro anchor youngest
  have hanchor : anchor = _ := fifoSurvivorAnchor_eq group hout
  have htotal : youngest + _ = _ := age_keptAnchors h
  have hfloor := Nat.div_add_mod (keptAnchors group outV currentDaa).sum outV
  have hmod := Nat.mod_lt (keptAnchors group outV currentDaa).sum hout
  rw [← hanchor] at hfloor
  have hle : anchor ≤ currentDaa := by
    refine Nat.le_of_mul_le_mul_left ?_ hout
    omega
  rw [Nat.mul_sub]
  omega

/-! ### Transactions -/

/-- **The carry-over creates no age.** No anchor lies past the current score, and the outputs of a
script are together as old as the youngest units of its inputs, as many as there are in the
outputs, up to the floor of the average; without inputs their age is zero. The order of the inputs
plays no role. -/
theorem carry_over_creates_no_age (inputs : List (ScriptPublicKey × ℕ × ℕ))
    (outputs : List (ScriptPublicKey × ℕ)) (currentDaa : ℕ) (hpos : ∀ o ∈ outputs, 0 < o.2)
    (hanchors : ∀ i ∈ inputs, i.2.2 ≤ currentDaa) :
    (∀ anchor ∈ assignOutputEffectiveDaa inputs outputs currentDaa, anchor ≤ currentDaa) ∧
    (∀ spk ∈ outputs.map Prod.fst,
      let youngest := youngestAge (inputsOf inputs spk)
        (min ((inputsOf inputs spk).map Prod.fst).sum (outputValue outputs spk)) currentDaa
      youngest ≤ outputAge inputs outputs currentDaa spk ∧
      outputAge inputs outputs currentDaa spk < youngest + outputValue outputs spk ∧
      (inputsOf inputs spk = [] → outputAge inputs outputs currentDaa spk = 0)) ∧
    ∀ inputs', inputs'.Perm inputs → assignOutputEffectiveDaa inputs' outputs currentDaa
      = assignOutputEffectiveDaa inputs outputs currentDaa := by
  set anchorOf : ScriptPublicKey → ℕ := fun spk => if inputsOf inputs spk = [] then currentDaa
    else fifoSurvivorAnchor (inputsOf inputs spk) (outputValue outputs spk) currentDaa
  have hassign : assignOutputEffectiveDaa inputs outputs currentDaa
      = outputs.map fun o => anchorOf o.1 := rfl
  have hvalue : ∀ o ∈ outputs, 0 < outputValue outputs o.1 := by
    intro o ho
    refine (hpos o ho).trans_le (single_le_sum (fun _ _ => Nat.zero_le _) _ ?_)
    exact mem_map_of_mem (mem_filter.mpr ⟨ho, decide_eq_true rfl⟩)
  have hgroup : ∀ spk, ∀ i ∈ inputsOf inputs spk, i.2 ≤ currentDaa := by
    intro spk i hi
    obtain ⟨j, hj, rfl⟩ := mem_map.mp hi
    exact hanchors j (mem_of_mem_filter hj)
  have hage : ∀ spk, outputAge inputs outputs currentDaa spk
      = outputValue outputs spk * (currentDaa - anchorOf spk) := by
    intro spk
    rw [outputAge, hassign, ← map_prod_left_eq_zip, filter_map, map_map, outputValue,
      ← sum_map_mul_right]
    refine congrArg sum (map_congr_left fun o ho => ?_)
    rw [← of_decide_eq_true (mem_filter.mp ho).2]
    rfl
  refine ⟨?_, ?_, fun inputs' hperm => map_congr_left fun o ho => ?_⟩
  · rw [hassign, forall_mem_map]
    exact fun o ho => (group_age (hvalue o ho) (hgroup o.1)).1
  · rw [forall_mem_map]
    intro o ho youngest
    obtain ⟨-, hle, hlt⟩ := group_age (hvalue o ho) (hgroup o.1)
    rw [hage]
    refine ⟨hle, hlt, fun hnone => ?_⟩
    simp [anchorOf, hnone]
  · have hunits : unitAnchors (inputsOf inputs' o.1) = unitAnchors (inputsOf inputs o.1) :=
      unitAnchors_perm ((hperm.filter _).map _)
    refine (fifoSurvivorAnchor_eq (inputsOf inputs' o.1) (hvalue o ho)).trans ?_
    rw [keptAnchors, hunits]
    exact (fifoSurvivorAnchor_eq (inputsOf inputs o.1) (hvalue o ho)).symm

/-- A payment with change: the older input and a part of the other one are spent. -/
theorem carry_over_creates_no_age_change :
    let own : ScriptPublicKey := ⟨0, [1]⟩
    let inputs := [(own, 5, 20), (own, 3, 10)]
    let outputs := [(own, 4), (⟨0, [2]⟩, 4)]
    assignOutputEffectiveDaa inputs outputs 100 = [20, 100] ∧
      outputAge inputs outputs 100 own < youngestAge (inputsOf inputs own) 4 100 + 4 := by
  intro own inputs outputs
  refine ⟨by decide, ?_⟩
  exact ((carry_over_creates_no_age inputs outputs 100 (by decide) (by decide)).2.1 own
    (by decide)).2.1

end KeryxNode
