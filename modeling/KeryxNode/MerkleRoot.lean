import Mathlib.Algebra.Order.Ring.Nat
import Mathlib.Data.Nat.Log
import Mathlib.Data.Nat.Pairing

/-!
# The Merkle Root of a List of Hashes

`calc_merkle_root` (`crypto/merkle/src/lib.rs`) lays the tree out in one array: the hashes, padded
to a power of two, then level after level of inner nodes. A node without children is missing, a
missing right child is hashed as `ZERO_HASH`. Read back as iterated levels, each level determines
the one below it. The module is generic in the hashes, as no function on pairs of 32-byte values is
injective.

## Main results

* `calcMerkleRoot_inj`: lists of leaves with the same root are equal, whatever their lengths.
-/

namespace KeryxNode

open List Function

/-- The hash of two children, injective and never the constant for a missing one. -/
structure BranchHash (D : Type*) where
  merkleHash : D → D → D
  zeroHash : D
  inj : ∀ {a b c d}, merkleHash a b = merkleHash c d → a = c ∧ b = d
  ne_zero : ∀ a b, merkleHash a b ≠ zeroHash

namespace BranchHash

variable {D : Type*} (H : BranchHash D)

/-- The node over the slots `i` and `i + 1`. -/
def node (merkles : ℕ → Option D) (i : ℕ) : Option D :=
  (merkles i).map fun left => H.merkleHash left ((merkles (i + 1)).getD H.zeroHash)

/-- The slots after some rounds of the loop: round `j` reads from slot `2 * j` and writes the slot
`offset`, which starts at `nextPot`. -/
def fill (nextPot rounds : ℕ) (merkles : ℕ → Option D) : ℕ → Option D :=
  (range rounds).foldl (fun merkles j => update merkles (nextPot + j) (H.node merkles (2 * j)))
    merkles

/-- The root of a list of hashes: the last of `2 * nextPot - 1` slots. `none` is a panic. -/
def calcMerkleRoot (hashes : List D) : Option D :=
  if hashes.length = 0 then some H.zeroHash
  else
    let nextPot := 2 ^ Nat.clog 2 hashes.length
    H.fill nextPot (nextPot - 1) (fun i => hashes[i]?) (2 * nextPot - 2)

/-! ### Levels -/

/-- A level of the tree: slots filled from the left, none with the constant. -/
@[ext]
structure Level where
  slots : ℕ → Option D
  closed : ∀ {i}, slots i = none → slots (i + 1) = none
  ne_zero : ∀ i, slots i ≠ some H.zeroHash

variable {H}

/-- The leaves. -/
def Level.leaves (hashes : List D) (h : H.zeroHash ∉ hashes) : Level H where
  slots i := hashes[i]?
  closed hi := getElem?_eq_none_iff.mpr (Nat.le_succ_of_le (getElem?_eq_none_iff.mp hi))
  ne_zero _ hi := h (mem_of_getElem? hi)

/-- The level above. -/
def Level.above (L : Level H) : Level H where
  slots i := H.node L.slots (2 * i)
  closed h := Option.map_eq_none_iff.mpr (L.closed (L.closed (Option.map_eq_none_iff.mp h)))
  ne_zero i h := by
    obtain ⟨left, -, heq⟩ := Option.map_eq_some_iff.mp h
    exact H.ne_zero _ _ heq

variable {L : Level H}

/-- The node over the first slot of a subtree is there if the slot is. -/
theorem slots_iterate_above (height i : ℕ) :
    (Level.above^[height] L).slots i = none ↔ L.slots (2 ^ height * i) = none := by
  induction height generalizing i with
  | zero => rw [Nat.pow_zero, Nat.one_mul]; rfl
  | succ height ih =>
    rw [iterate_succ_apply', Nat.pow_succ, Nat.mul_assoc, ← ih]
    exact Option.map_eq_none_iff

/-- **A level determines the one below it.** -/
theorem above_injective : Injective (Level.above (H := H)) := by
  intro L L' heq
  have hpair : ∀ i, L.slots (2 * i) = L'.slots (2 * i) ∧
      L.slots (2 * i + 1) = L'.slots (2 * i + 1) := by
    intro i
    have hnode : H.node L.slots (2 * i) = H.node L'.slots (2 * i) :=
      congrFun (congrArg Level.slots heq) i
    rw [node, node] at hnode
    cases hl : L.slots (2 * i) with
    | none =>
      rw [hl] at hnode
      have hl' := Option.map_eq_none_iff.mp hnode.symm
      exact ⟨hl'.symm, (L.closed hl).trans (L'.closed hl').symm⟩
    | some left =>
      rw [hl] at hnode
      obtain ⟨left', hl', hhash⟩ := Option.map_eq_some_iff.mp hnode.symm
      obtain ⟨rfl, hright⟩ := H.inj hhash
      refine ⟨hl'.symm, ?_⟩
      -- A right child that is there is not the constant.
      have hne := L.ne_zero (2 * i + 1)
      have hne' := L'.ne_zero (2 * i + 1)
      cases hr : L.slots (2 * i + 1) <;> cases hr' : L'.slots (2 * i + 1) <;> simp_all
  refine Level.ext (funext fun n => ?_)
  rw [← Nat.div_add_mod n 2]
  rcases Nat.mod_two_eq_zero_or_one n with hn | hn <;> rw [hn]
  · exact (hpair _).1
  · exact (hpair _).2

/-! ### The array -/

/-- The loop keeps the leaves, and each slot it fills is the node over its two slots. -/
theorem fill_spec {nextPot rounds : ℕ} (hrounds : rounds < nextPot) (merkles : ℕ → Option D) :
    (∀ i < nextPot, H.fill nextPot rounds merkles i = merkles i) ∧
      ∀ j < rounds, H.fill nextPot rounds merkles (nextPot + j)
        = H.node (H.fill nextPot rounds merkles) (2 * j) := by
  induction rounds with
  | zero => exact ⟨fun _ _ => rfl, nofun⟩
  | succ rounds ih =>
    obtain ⟨hleaves, hnodes⟩ := ih (by omega)
    have hfill : H.fill nextPot (rounds + 1) merkles = update (H.fill nextPot rounds merkles)
        (nextPot + rounds) (H.node (H.fill nextPot rounds merkles) (2 * rounds)) := by
      rw [fill, range_succ, foldl_append]
      rfl
    -- The slot written lies above the slots read up to this round.
    have hnode : ∀ j ≤ rounds, H.node (H.fill nextPot (rounds + 1) merkles) (2 * j)
        = H.node (H.fill nextPot rounds merkles) (2 * j) := by
      intro j hj
      rw [hfill, node, update_of_ne (by omega), update_of_ne (by omega), node]
    refine ⟨fun i hi => ?_, fun j hj => ?_⟩
    · rw [hfill, update_of_ne (by omega), hleaves i hi]
    · rw [hnode j (by omega), hfill]
      rcases eq_or_ne j rounds with rfl | hne
      · exact update_self ..
      · rw [update_of_ne (by omega), hnodes j (by omega)]

/-- A level of `2 ^ height` slots with the levels above it up to slot `2 * nextPot - 2`: that slot
holds the top. -/
theorem top_of_level {nextPot : ℕ} {merkles : ℕ → Option D}
    (hnodes : ∀ j < nextPot - 1, merkles (nextPot + j) = H.node merkles (2 * j))
    {height : ℕ} (hle : 2 ^ height ≤ nextPot)
    (hlevel : ∀ i < 2 ^ height, merkles (2 * nextPot - 2 * 2 ^ height + i) = L.slots i) :
    merkles (2 * nextPot - 2) = (Level.above^[height] L).slots 0 := by
  induction height generalizing L with
  | zero => exact hlevel 0 Nat.one_pos
  | succ height ih =>
    rw [Nat.pow_succ] at hle hlevel
    refine @ih L.above (by omega) fun i hi => ?_
    have hslot : 2 * nextPot - 2 * 2 ^ height + i
        = nextPot + (nextPot - 2 * 2 ^ height + i) := by omega
    have hleft : 2 * (nextPot - 2 * 2 ^ height + i)
        = 2 * nextPot - 2 * (2 ^ height * 2) + 2 * i := by omega
    rw [hslot, hnodes _ (by omega), hleft, node, hlevel _ (by omega), Nat.add_assoc,
      hlevel _ (by omega)]
    rfl

/-- **The root** is the only node of the top level. -/
theorem calcMerkleRoot_eq {hashes : List D} (hne : hashes ≠ []) (h : H.zeroHash ∉ hashes) :
    ∃ root, H.calcMerkleRoot hashes = some root ∧ ∀ i,
      (Level.above^[Nat.clog 2 hashes.length] (.leaves hashes h)).slots i
        = if i = 0 then some root else none := by
  have hpos := length_pos_iff.mpr hne
  have hle := Nat.le_pow_clog Nat.one_lt_two hashes.length
  rw [calcMerkleRoot, if_neg hpos.ne']
  obtain ⟨hleaves, hnodes⟩ := fill_spec (H := H) (Nat.sub_one_lt (Nat.two_pow_pos
    (Nat.clog 2 hashes.length)).ne') fun i => hashes[i]?
  rw [top_of_level (L := .leaves hashes h) hnodes le_rfl fun i hi => by
    rw [Nat.sub_self, Nat.zero_add, hleaves i hi]; rfl]
  obtain ⟨root, hroot⟩ := Option.ne_none_iff_exists'.mp fun hnone =>
    hpos.not_ge (getElem?_eq_none_iff.mp ((slots_iterate_above
      (L := .leaves hashes h) (Nat.clog 2 hashes.length) 0).mp hnone))
  refine ⟨root, hroot, fun i => ?_⟩
  split
  · next hi => rw [hi, hroot]
  · next hi =>
    refine (slots_iterate_above _ i).mpr (getElem?_eq_none_iff.mpr (hle.trans ?_))
    exact Nat.le_mul_of_pos_right _ (Nat.pos_of_ne_zero hi)

/-- Trees with the same top level have the same leaves: a leaf of the lower tree would be a hash on
a level of the higher one. -/
theorem eq_of_top {xs ys : List D} {hx : H.zeroHash ∉ xs} {hy : H.zeroHash ∉ ys} {height more : ℕ}
    (hne : xs ≠ []) (hleaf : ∀ x ∈ xs, ∀ a b, x ≠ H.merkleHash a b)
    (heq : Level.above^[height] (.leaves xs hx) = Level.above^[height + more] (.leaves ys hy)) :
    xs = ys := by
  rw [iterate_add_apply] at heq
  have hslots := congrArg Level.slots (above_injective.iterate height heq)
  cases more with
  | zero => exact ext_getElem? fun i => congrFun hslots i
  | succ more =>
    obtain ⟨x, xs, rfl⟩ := exists_cons_of_ne_nil hne
    rw [iterate_succ_apply'] at hslots
    obtain ⟨left, -, hhash⟩ := Option.map_eq_some_iff.mp (congrFun hslots 0).symm
    exact absurd hhash.symm (hleaf x mem_cons_self _ _)

/-- **The Merkle root determines the list**: every list has a root, and two lists of hashes none of
which is `zeroHash` or an output of `merkleHash` have the same root only if they are equal. -/
theorem calcMerkleRoot_inj (H : BranchHash D) (xs ys : List D)
    (hxs : ∀ x ∈ xs, x ≠ H.zeroHash ∧ ∀ a b, x ≠ H.merkleHash a b)
    (hys : ∀ y ∈ ys, y ≠ H.zeroHash ∧ ∀ a b, y ≠ H.merkleHash a b) :
    (∃ root, H.calcMerkleRoot xs = some root) ∧
      (H.calcMerkleRoot xs = H.calcMerkleRoot ys → xs = ys) := by
  have hx : H.zeroHash ∉ xs := fun hmem => (hxs _ hmem).1 rfl
  have hy : H.zeroHash ∉ ys := fun hmem => (hys _ hmem).1 rfl
  -- The root of a list that is not empty is not that of the empty one.
  have hnil : ∀ {l : List D}, l ≠ [] → H.zeroHash ∉ l →
      H.calcMerkleRoot l ≠ some H.zeroHash := by
    intro l hne hl heq
    obtain ⟨root, hroot, htop⟩ := calcMerkleRoot_eq hne hl
    exact (Level.above^[_] (.leaves l hl)).ne_zero 0 ((htop 0).trans (hroot.symm.trans heq))
  rcases eq_or_ne xs [] with rfl | hxne
  · refine ⟨⟨_, rfl⟩, fun heq => by_contra fun hne => ?_⟩
    exact hnil (Ne.symm hne) hy heq.symm
  obtain ⟨root, hroot, htop⟩ := calcMerkleRoot_eq hxne hx
  refine ⟨⟨root, hroot⟩, fun heq => ?_⟩
  rcases eq_or_ne ys [] with rfl | hyne
  · exact absurd heq (hnil hxne hx)
  obtain ⟨root', hroot', htop'⟩ := calcMerkleRoot_eq hyne hy
  obtain rfl := Option.some.inj (hroot.symm.trans (heq.trans hroot'))
  have htops := Level.ext (funext fun i => (htop i).trans (htop' i).symm)
  rcases le_total (Nat.clog 2 xs.length) (Nat.clog 2 ys.length) with hle | hle
  · obtain ⟨more, hmore⟩ := Nat.exists_eq_add_of_le hle
    exact eq_of_top hxne (fun x h => (hxs x h).2) (hmore ▸ htops)
  · obtain ⟨more, hmore⟩ := Nat.exists_eq_add_of_le hle
    exact (eq_of_top hyne (fun y h => (hys y h).2) (hmore ▸ htops.symm)).symm

/-- A hash to even numbers. -/
def evenHash : BranchHash ℕ where
  merkleHash a b := 2 * Nat.pair a b + 2
  zeroHash := 0
  inj h := Nat.pair_eq_pair.mp (by omega)
  ne_zero _ _ := Nat.succ_ne_zero _

/-- Odd numbers, three and four of them. -/
theorem calcMerkleRoot_inj_odd :
    evenHash.calcMerkleRoot [1, 3, 5] ≠ evenHash.calcMerkleRoot [1, 3, 5, 5] := by
  have hleaf : ∀ l : List ℕ, (∀ x ∈ l, x % 2 = 1) → ∀ x ∈ l, x ≠ 0 ∧
      ∀ a b, x ≠ 2 * Nat.pair a b + 2 := fun l hl x hx => by
    have := hl x hx
    exact ⟨by omega, fun a b => by omega⟩
  intro heq
  have hlists := (calcMerkleRoot_inj evenHash _ _ (hleaf _ (by decide)) (hleaf _ (by decide))).2 heq
  exact absurd hlists (by decide)

end BranchHash

end KeryxNode
