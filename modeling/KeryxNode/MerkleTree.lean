import Mathlib.Algebra.Order.Ring.Nat
import Mathlib.Data.List.Induction
import Mathlib.Data.Nat.Bitwise
import Mathlib.Data.Nat.Log

/-!
# Merkle Trees with a Duplicated Last Node

A level of a tree is folded by hashing its nodes two by two; an odd last node is paired with
itself. The *root* is what is left when a level has one node. An *opening* climbs from a node to
the root along a list of siblings. This module is generic in the digests and in the node hash.

An opening that reaches the root is the genuine one, provided that the hash does not collide on
the pairs of nodes that occur in the tree and in the opening (`Binding`). No length of the path
is assumed: a path of another length than the height of the tree would identify a leaf with an
inner node.
-/

namespace KeryxNode

open List Function Option

namespace Merkle

variable {D : Type*} {level : List D} {idx k : ℕ} {node : D} {sib : D}

/-! ### Levels -/

/-- The nodes of a level two by two; an odd last one is paired with itself. -/
def pairUp : List D → List (D × D)
  | [] => []
  | [a] => [(a, a)]
  | a :: b :: level => (a, b) :: pairUp level

/-- The level above. -/
def foldLevel (pair : D × D → D) (level : List D) : List D :=
  (pairUp level).map pair

/-- The number of folds that take a level of `n` nodes to a single one. -/
def pathLen (n : ℕ) : ℕ :=
  if 1 < n then pathLen ((n + 1) / 2) + 1 else 0

theorem length_pairUp (level : List D) : (pairUp level).length = (level.length + 1) / 2 := by
  induction level using pairUp.induct with
  | case1 => simp [pairUp]
  | case2 a => simp [pairUp]
  | case3 a b level ih =>
    rw [pairUp, length_cons, length_cons, length_cons]
    omega

@[simp] theorem length_foldLevel (pair : D × D → D) (level : List D) :
    (foldLevel pair level).length = (level.length + 1) / 2 := by
  rw [foldLevel, length_map, length_pairUp]

/-- A pair of nodes: the left one, and the right one or the left one again. -/
theorem getElem?_pairUp (level : List D) (i : ℕ) :
    (pairUp level)[i]? = (level[2 * i]?).map fun a => (a, (level[2 * i + 1]?).getD a) := by
  induction level using pairUp.induct generalizing i with
  | case1 => rfl
  | case2 a => cases i <;> rfl
  | case3 a b level ih =>
    cases i with
    | zero => rfl
    | succ i =>
      rw [pairUp, getElem?_cons_succ, ih, Nat.mul_succ]
      rfl

section Hash

variable (pair : D × D → D)

/-- The root of a level, none if it is empty. -/
def root? (level : List D) : Option D :=
  if 1 < level.length then root? (foldLevel pair level) else level.head?
termination_by level.length
decreasing_by
  rw [length_foldLevel]
  omega

/-- The sibling of a node: its neighbour, or the node itself at an odd end. -/
def sibling? (level : List D) (idx : ℕ) : Option D :=
  if idx ^^^ 1 < level.length then level[idx ^^^ 1]? else level[idx]?

/-- The siblings from a node up to the root, none if the index is outside the level. -/
def path? (level : List D) (idx : ℕ) : Option (List D) :=
  if 1 < level.length then do
    let sib ← sibling? level idx
    let rest ← path? (foldLevel pair level) (idx / 2)
    some (sib :: rest)
  else some []
termination_by level.length
decreasing_by
  rw [length_foldLevel]
  omega

/-- A node and its sibling, in the order of the level. -/
def orient (idx : ℕ) (node sib : D) : D × D :=
  if idx % 2 = 0 then (node, sib) else (sib, node)

/-- Climbs from a node along a path. -/
def climb (node : D) (idx : ℕ) : List D → D
  | [] => node
  | sib :: path => climb (pair (orient idx node sib)) (idx / 2) path

/-- The pairs hashed while climbing. -/
def climbPairs (node : D) (idx : ℕ) : List D → List (D × D)
  | [] => []
  | sib :: path => orient idx node sib :: climbPairs (pair (orient idx node sib)) (idx / 2) path

/-- The pairs hashed while a level is folded to its root. -/
def treePairs (level : List D) : List (D × D) :=
  if 1 < level.length then pairUp level ++ treePairs (foldLevel pair level) else []
termination_by level.length
decreasing_by
  rw [length_foldLevel]
  omega

end Hash

/-! ### Siblings -/

/-- The neighbour of an index. -/
theorem xor_one_eq (idx : ℕ) : idx ^^^ 1 = if idx % 2 = 0 then idx + 1 else idx - 1 := by
  have hdiv : (idx ^^^ 1) / 2 = idx / 2 := by rw [Nat.xor_div_two, Nat.xor_zero]
  have hmod : (idx ^^^ 1) % 2 = (idx + 1) % 2 := Nat.xor_mod_two_eq
  split <;> omega

/-- A node has a sibling, and the two are a pair of the level. -/
theorem sibling?_spec (h : level[idx]? = some node) :
    ∃ sib, sibling? level idx = some sib ∧
      (pairUp level)[idx / 2]? = some (orient idx node sib) := by
  have hlt : idx < level.length := (List.getElem?_eq_some_iff.mp h).1
  rw [sibling?, getElem?_pairUp, xor_one_eq]
  by_cases heven : idx % 2 = 0
  · have hleft : 2 * (idx / 2) = idx := by omega
    rw [if_pos heven, hleft, h]
    by_cases hin : idx + 1 < level.length
    · refine ⟨level[idx + 1], ?_, ?_⟩
      · rw [if_pos hin, getElem?_eq_getElem hin]
      · rw [orient, if_pos heven, getElem?_eq_getElem hin]
        rfl
    · refine ⟨node, ?_, ?_⟩
      · rw [if_neg hin]
      · rw [orient, if_pos heven, getElem?_eq_none (not_lt.mp hin)]
        rfl
  · have hleft : 2 * (idx / 2) = idx - 1 := by omega
    have hin : idx - 1 < level.length := by omega
    rw [if_neg heven, if_pos hin, hleft, show idx - 1 + 1 = idx by omega, h,
      getElem?_eq_getElem hin]
    refine ⟨level[idx - 1], rfl, ?_⟩
    rw [orient, if_neg heven]
    rfl

theorem orient_inj {node' sib' : D} (h : orient idx node sib = orient idx node' sib') :
    node = node' ∧ sib = sib' := by
  unfold orient at h
  split at h
  · exact ⟨congrArg Prod.fst h, congrArg Prod.snd h⟩
  · exact ⟨congrArg Prod.snd h, congrArg Prod.fst h⟩

/-- A pair of the level names the node and its sibling. -/
theorem of_getElem?_pairUp (hidx : idx < level.length)
    (h : (pairUp level)[idx / 2]? = some (orient idx node sib)) :
    level[idx]? = some node ∧ sibling? level idx = some sib := by
  obtain ⟨sib', hsib, hpair⟩ := sibling?_spec (getElem?_eq_getElem hidx)
  rw [h] at hpair
  obtain ⟨rfl, rfl⟩ := orient_inj (some.inj hpair)
  exact ⟨getElem?_eq_getElem hidx, hsib⟩

/-- The members of a pair are nodes of the level. -/
theorem mem_of_mem_pairUp {p : D × D} (h : p ∈ pairUp level) :
    p.1 ∈ level ∧ p.2 ∈ level := by
  induction level using pairUp.induct with
  | case1 => cases h
  | case2 a =>
    rw [pairUp, mem_singleton] at h
    rw [h]
    exact ⟨mem_singleton_self a, mem_singleton_self a⟩
  | case3 a b level ih =>
    rcases mem_cons.mp h with rfl | h
    · exact ⟨by simp, by simp⟩
    · exact ⟨by simp [(ih h).1], by simp [(ih h).2]⟩

theorem mem_of_mem_orient {s : List D}
    (h : (orient idx node sib).1 ∈ s ∧ (orient idx node sib).2 ∈ s) : node ∈ s := by
  unfold orient at h
  split at h
  · exact h.1
  · exact h.2

/-! ### Lengths -/

theorem pathLen_of_le {n : ℕ} (h : n ≤ 1) : pathLen n = 0 := by
  rw [pathLen, if_neg (not_lt.mpr h)]

theorem pathLen_of_lt {n : ℕ} (h : 1 < n) : pathLen n = pathLen ((n + 1) / 2) + 1 := by
  rw [pathLen, if_pos h]

theorem pathLen_pos {n : ℕ} : 0 < pathLen n ↔ 1 < n := by
  rw [pathLen]
  split <;> simp [*]

/-- The height of a tree is the logarithm of its width, rounded up. -/
theorem pathLen_eq_clog (n : ℕ) : pathLen n = Nat.clog 2 n := by
  induction n using pathLen.induct with
  | case1 n h ih =>
    rw [pathLen_of_lt h, ih, Nat.clog_of_two_le one_lt_two h]
    rfl
  | case2 n h => rw [pathLen_of_le (not_lt.mp h), Nat.clog_of_right_le_one (not_lt.mp h)]

/-! ### Roots and paths -/

variable {pair : D × D → D}

theorem root?_of_lt (h : 1 < level.length) :
    root? pair level = root? pair (foldLevel pair level) := by
  rw [root?, if_pos h]

theorem root?_of_le (h : level.length ≤ 1) :
    root? pair level = level.head? := by
  rw [root?, if_neg (not_lt.mpr h)]

theorem treePairs_of_lt (h : 1 < level.length) :
    treePairs pair level = pairUp level ++ treePairs pair (foldLevel pair level) := by
  rw [treePairs, if_pos h]

theorem treePairs_of_le (h : level.length ≤ 1) : treePairs pair level = [] := by
  rw [treePairs, if_neg (not_lt.mpr h)]

theorem path?_of_lt (h : 1 < level.length) (idx : ℕ) :
    path? pair level idx = (sibling? level idx).bind fun sib =>
      (path? pair (foldLevel pair level) (idx / 2)).map (sib :: ·) := by
  rw [path?, if_pos h]
  cases sibling? level idx with
  | none => rfl
  | some sib => cases path? pair (foldLevel pair level) (idx / 2) <;> rfl

theorem path?_of_le (h : level.length ≤ 1) (idx : ℕ) :
    path? pair level idx = some [] := by
  rw [path?, if_neg (not_lt.mpr h)]

/-- **The path of a node leads to the root**, over pairs of the tree. -/
theorem path_climbs (pair : D × D → D) (h : level[idx]? = some node) :
    ∃ path r, path? pair level idx = some path ∧ path.length = pathLen level.length ∧
      root? pair level = some r ∧ climb pair node idx path = r ∧
      ∀ p ∈ climbPairs pair node idx path, p ∈ treePairs pair level := by
  induction hn : level.length using Nat.strong_induction_on generalizing level idx node with
  | _ n ih =>
    subst hn
    have hlt : idx < level.length := (List.getElem?_eq_some_iff.mp h).1
    by_cases hlen : 1 < level.length
    · obtain ⟨sib, hsib, hpair⟩ := sibling?_spec h
      have hup : (foldLevel pair level)[idx / 2]? = some (pair (orient idx node sib)) := by
        rw [foldLevel, getElem?_map, hpair]
        rfl
      obtain ⟨path, r, hpath, hlength, hroot, hclimb, hmem⟩ :=
        ih _ (by rw [length_foldLevel]; omega) hup rfl
      refine ⟨sib :: path, r, ?_, ?_, ?_, hclimb, ?_⟩
      · rw [path?_of_lt hlen, hsib, hpath]
        rfl
      · rw [length_cons, hlength, pathLen_of_lt hlen, length_foldLevel]
      · rw [root?_of_lt hlen, hroot]
      · rw [treePairs_of_lt hlen]
        exact forall_mem_cons.mpr ⟨mem_append_left _ (mem_of_getElem? hpair), fun p hp =>
          mem_append_right _ (hmem p hp)⟩
    · have hidx : idx = 0 := by omega
      subst hidx
      refine ⟨[], node, path?_of_le (not_lt.mp hlen) 0, ?_, ?_, rfl, fun p hp => by cases hp⟩
      · rw [pathLen_of_le (not_lt.mp hlen)]
        rfl
      · rw [root?_of_le (not_lt.mp hlen), head?_eq_getElem?, h]

/-! ### Climbing -/

theorem climb_append (pair : D × D → D) (node : D) (idx : ℕ) (path path' : List D) :
    climb pair node idx (path ++ path')
        = climb pair (climb pair node idx path) (idx / 2 ^ path.length) path' ∧
      climbPairs pair node idx (path ++ path') = climbPairs pair node idx path ++
        climbPairs pair (climb pair node idx path) (idx / 2 ^ path.length) path' := by
  induction path generalizing node idx with
  | nil =>
    rw [length_nil, pow_zero, Nat.div_one]
    exact ⟨rfl, rfl⟩
  | cons sib path ih =>
    simp only [cons_append, climb, climbPairs, ih, length_cons, pow_succ',
      Nat.div_div_eq_div_mul, and_self]

/-- Climbing reads no more bits of the index than the path is long. -/
theorem climb_mod (pair : D × D → D) (node : D) (idx : ℕ) (path : List D) :
    climb pair node (idx % 2 ^ path.length) path = climb pair node idx path ∧
      climbPairs pair node (idx % 2 ^ path.length) path = climbPairs pair node idx path := by
  induction path generalizing node idx with
  | nil => exact ⟨rfl, rfl⟩
  | cons sib path ih =>
    have horient : orient (idx % 2 ^ (path.length + 1)) node sib = orient idx node sib := by
      rw [orient, orient, Nat.mod_mod_of_dvd _ (dvd_pow_self 2 (Nat.succ_ne_zero _))]
    have hdiv : idx % 2 ^ (path.length + 1) / 2 = idx / 2 % 2 ^ path.length := by
      rw [pow_succ', Nat.mod_mul_right_div_self]
    simp only [length_cons, climb, climbPairs, horient, hdiv, ih, and_self]

/-! ### Inner levels -/

/-- The width of the level `k` folds up. -/
theorem length_iterate_foldLevel (level : List D) (k : ℕ) :
    ((foldLevel pair)^[k] level).length = (level.length + 2 ^ k - 1) / 2 ^ k := by
  induction k with
  | zero => rw [pow_zero, Nat.div_one]; rfl
  | succ k ih =>
    have hpos : 0 < 2 ^ k := Nat.two_pow_pos k
    rw [iterate_succ_apply', length_foldLevel, ih, ← Nat.add_div_right _ hpos,
      Nat.div_div_eq_div_mul, pow_succ]
    congr 1
    omega

/-- The folds of a tree do not change its root. -/
theorem root?_iterate (hk : k ≤ pathLen level.length) :
    root? pair ((foldLevel pair)^[k] level) = root? pair level := by
  induction k generalizing level with
  | zero => rfl
  | succ k ih =>
    have hlen := pathLen_pos.mp (Nat.zero_lt_of_lt hk)
    rw [pathLen_of_lt hlen, Nat.add_le_add_iff_right, ← length_foldLevel pair] at hk
    rw [iterate_succ_apply, ih hk, ← root?_of_lt hlen]

/-- The path of a node from level `k` on. -/
theorem path?_drop {path : List D} (h : path? pair level idx = some path)
    (hk : k ≤ pathLen level.length) :
    path? pair ((foldLevel pair)^[k] level) (idx / 2 ^ k) = some (path.drop k) := by
  induction k generalizing level idx path with
  | zero => rw [pow_zero, Nat.div_one]; exact h
  | succ k ih =>
    have hlen := pathLen_pos.mp (Nat.zero_lt_of_lt hk)
    rw [pathLen_of_lt hlen, Nat.add_le_add_iff_right, ← length_foldLevel pair] at hk
    rw [path?_of_lt hlen] at h
    obtain ⟨sib, -, h⟩ := Option.bind_eq_some_iff.mp h
    obtain ⟨rest, hrest, rfl⟩ := map_eq_some_iff.mp h
    rw [pow_succ', ← Nat.div_div_eq_div_mul]
    exact ih hrest hk

/-- Pairing up a part of a level that starts and ends at a pair. -/
theorem pairUp_slice (level : List D) (a b : ℕ) :
    pairUp ((level.drop (2 * a)).take (2 * b)) = ((pairUp level).drop a).take b := by
  refine ext_getElem? fun i => ?_
  simp only [getElem?_pairUp, getElem?_take, getElem?_drop]
  by_cases hi : i < b
  · rw [if_pos hi, if_pos (by omega), if_pos (by omega), Nat.mul_add, Nat.add_assoc]
  · rw [if_neg hi, if_neg (by omega), if_neg (by omega)]
    rfl

/-- Folding a part of a level that starts and ends at a pair. -/
theorem foldLevel_slice (level : List D) (a b : ℕ) :
    foldLevel pair ((level.drop (2 * a)).take (2 * b))
      = ((foldLevel pair level).drop a).take b := by
  rw [foldLevel, foldLevel, ← map_drop, ← map_take, pairUp_slice]

/-- **An aligned subtree**: the node above the `2 ^ k` leaves that start at a multiple of `2 ^ k`
is the root of the tree of those leaves. -/
theorem getElem?_iterate_foldLevel (level : List D) (k off : ℕ) :
    ((foldLevel pair)^[k] level)[off]?
      = ((foldLevel pair)^[k] ((level.drop (off * 2 ^ k)).take (2 ^ k))).head? := by
  induction k generalizing level with
  | zero =>
    rw [pow_zero, Nat.mul_one, iterate_zero, id, id, head?_take, if_neg one_ne_zero, head?_drop]
  | succ k ih =>
    rw [iterate_succ_apply, iterate_succ_apply, ih, pow_succ', Nat.mul_left_comm, foldLevel_slice]

/-- The pairs of an aligned subtree are pairs of the tree. -/
theorem treePairs_slice (level : List D) (k off : ℕ) :
    treePairs pair ((level.drop (off * 2 ^ k)).take (2 ^ k)) ⊆ treePairs pair level := by
  induction k generalizing level with
  | zero =>
    rw [pow_zero, treePairs_of_le (length_take_le _ _)]
    exact nil_subset _
  | succ k ih =>
    rw [pow_succ', Nat.mul_left_comm]
    by_cases hlen : 1 < ((level.drop (2 * (off * 2 ^ k))).take (2 * 2 ^ k)).length
    · have hlevel : 1 < level.length := by
        rw [length_take, length_drop] at hlen
        omega
      rw [treePairs_of_lt hlen, treePairs_of_lt hlevel, pairUp_slice, foldLevel_slice]
      refine append_subset.mpr ⟨fun p hp => ?_, fun p hp => ?_⟩
      · exact mem_append_left _ (mem_of_mem_drop (mem_of_mem_take hp))
      · exact mem_append_right _ (ih (foldLevel pair level) hp)
    · rw [treePairs_of_le (not_lt.mp hlen)]
      exact nil_subset _

/-- The pairs above a level are pairs of the tree. -/
theorem treePairs_iterate (level : List D) (k : ℕ) :
    treePairs pair ((foldLevel pair)^[k] level) ⊆ treePairs pair level := by
  induction k generalizing level with
  | zero => exact Subset.refl _
  | succ k ih =>
    refine Subset.trans (ih (foldLevel pair level)) ?_
    by_cases hlen : 1 < level.length
    · rw [treePairs_of_lt hlen]
      exact subset_append_right _ _
    · rw [treePairs_of_le (by rw [length_foldLevel]; omega)]
      exact nil_subset _

/-! ### Binding -/

/-- What a collision-free hash gives for a tree and an opening: their pairs do not collide, the
opened node is no inner node of the tree, and no inner node of the opening is a leaf of it. -/
structure Binding (pair : D × D → D) (leaves : List D) (node : D) (idx : ℕ) (path : List D) :
    Prop where
  pairs : ∀ p ∈ climbPairs pair node idx path, ∀ q ∈ treePairs pair leaves,
    pair p = pair q → p = q
  node_ne : ∀ q ∈ treePairs pair leaves, pair q ≠ node
  leaf_ne : ∀ p ∈ climbPairs pair node idx path, pair p ∉ leaves

/-- The pairs of a level below the root are pairs of the tree. -/
theorem pairUp_subset_treePairs {leaves : List D} (h : k < pathLen leaves.length) :
    ∀ p ∈ pairUp ((foldLevel pair)^[k] leaves), p ∈ treePairs pair leaves := by
  induction k generalizing leaves with
  | zero =>
    intro p hp
    rw [treePairs_of_lt (pathLen_pos.mp h)]
    exact mem_append_left _ hp
  | succ k ih =>
    have hlen := pathLen_pos.mp (Nat.zero_lt_of_lt h)
    rw [pathLen_of_lt hlen, Nat.add_lt_add_iff_right, ← length_foldLevel pair] at h
    intro p hp
    rw [treePairs_of_lt hlen]
    exact mem_append_right _ (ih h p hp)

/-- After as many folds as the tree is high its root is left. -/
theorem iterate_foldLevel_pathLen {leaves : List D} {r : D} (h : root? pair leaves = some r) :
    (foldLevel pair)^[pathLen leaves.length] leaves = [r] := by
  induction hn : leaves.length using Nat.strong_induction_on generalizing leaves with
  | _ n ih =>
    subst hn
    by_cases hlen : 1 < leaves.length
    · rw [root?_of_lt hlen] at h
      have hlt : (foldLevel pair leaves).length < leaves.length := by
        rw [length_foldLevel]
        omega
      rw [pathLen_of_lt hlen, ← length_foldLevel pair]
      exact ih _ hlt h rfl
    · rw [root?_of_le (not_lt.mp hlen)] at h
      rw [pathLen_of_le (not_lt.mp hlen)]
      match leaves with
      | [] => cases h
      | [a] => exact congrArg (fun x => [x]) (some.inj h)
      | _ :: _ :: _ => simp at hlen

namespace Binding

variable {leaves : List D} {node r : D} {idx : ℕ} {path : List D}

/-- Climbing to a node of level `k` passes the levels below it one by one: a path that is too
short ends in an inner node, one that is too long passes a leaf. -/
theorem descend (h : Binding pair leaves node idx path) {k : ℕ} (hk : k ≤ pathLen leaves.length)
    (hmem : climb pair node idx path ∈ (foldLevel pair)^[k] leaves) :
    (path.length ≤ k → node ∈ (foldLevel pair)^[k - path.length] leaves) ∧ path.length ≤ k := by
  induction path using reverseRecOn generalizing k with
  | nil => exact ⟨fun _ => hmem, Nat.zero_le _⟩
  | append_singleton path sib ih =>
    obtain ⟨hclimb, hpairs⟩ := climb_append pair node idx path [sib]
    rw [hclimb] at hmem
    set top := orient (idx / 2 ^ path.length) (climb pair node idx path) sib
    have hlast : top ∈ climbPairs pair node idx (path ++ [sib]) := by
      rw [hpairs]
      exact mem_append_right _ (mem_singleton_self _)
    have hbelow : Binding pair leaves node idx path :=
      { pairs := fun p hp => h.pairs p (by rw [hpairs]; exact mem_append_left _ hp)
        node_ne := h.node_ne
        leaf_ne := fun p hp => h.leaf_ne p (by rw [hpairs]; exact mem_append_left _ hp) }
    cases k with
    | zero => exact absurd hmem (h.leaf_ne top hlast)
    | succ k =>
      rw [iterate_succ_apply'] at hmem
      obtain ⟨q, hq, heq⟩ := mem_map.mp hmem
      have hqtree := pairUp_subset_treePairs hk q hq
      obtain rfl : top = q := h.pairs top hlast q hqtree heq.symm
      obtain ⟨hnode, hle⟩ :=
        ih hbelow (Nat.le_of_succ_le hk) (mem_of_mem_orient (mem_of_mem_pairUp hq))
      rw [length_append, length_singleton]
      refine ⟨fun _ => ?_, Nat.succ_le_succ hle⟩
      rw [Nat.add_sub_add_right]
      exact hnode hle

/-- **A path that leads to the root has the height of the tree.** -/
theorem length_eq (h : Binding pair leaves node idx path) (hroot : root? pair leaves = some r)
    (hclimb : climb pair node idx path = r) : path.length = pathLen leaves.length := by
  have hmem : climb pair node idx path ∈ (foldLevel pair)^[pathLen leaves.length] leaves := by
    rw [iterate_foldLevel_pathLen hroot, hclimb]
    exact mem_singleton_self r
  obtain ⟨hnode, hle⟩ := h.descend le_rfl hmem
  refine le_antisymm hle (not_lt.mp fun hlt => ?_)
  -- Too short a path opens an inner node.
  obtain ⟨k, hk⟩ : ∃ k, pathLen leaves.length - path.length = k + 1 :=
    ⟨pathLen leaves.length - path.length - 1, by omega⟩
  have hinner := hnode hle
  rw [hk, iterate_succ_apply'] at hinner
  obtain ⟨q, hq, heq⟩ := mem_map.mp hinner
  exact h.node_ne q (pairUp_subset_treePairs (by omega) q hq) heq

/-- An opening of the right length, level by level. -/
theorem opening_of_length {level : List D}
    (hpairs : ∀ p ∈ climbPairs pair node idx path, ∀ q ∈ treePairs pair level,
      pair p = pair q → p = q)
    (hlen : path.length = pathLen level.length) (hroot : root? pair level = some r)
    (hclimb : climb pair node idx path = r) (hidx : idx < level.length) :
    level[idx]? = some node ∧ path? pair level idx = some path := by
  induction path generalizing level node idx with
  | nil =>
    have hle : level.length ≤ 1 := not_lt.mp fun hlt => (pathLen_pos.mpr hlt).ne hlen
    have hidx0 : idx = 0 := by omega
    subst hidx0
    rw [root?_of_le hle, head?_eq_getElem?] at hroot
    exact ⟨hroot.trans (congrArg some hclimb.symm), path?_of_le hle 0⟩
  | cons sib path ih =>
    have hlt := pathLen_pos.mp ((Nat.succ_pos _).trans_eq hlen)
    rw [treePairs_of_lt hlt] at hpairs
    rw [pathLen_of_lt hlt, length_cons, Nat.add_right_cancel_iff, ← length_foldLevel pair] at hlen
    rw [root?_of_lt hlt] at hroot
    have hup : idx / 2 < (foldLevel pair level).length := by
      rw [length_foldLevel]
      omega
    obtain ⟨hnode, hpath⟩ := ih
      (fun p hp q hq => hpairs p (mem_cons_of_mem _ hp) q (mem_append_right _ hq))
      hlen hroot hclimb hup
    -- The parent is the hash of a pair of the level, hence of the opened one.
    rw [foldLevel, getElem?_map] at hnode
    obtain ⟨q, hq, heq⟩ := map_eq_some_iff.mp hnode
    obtain rfl := hpairs (orient idx node sib) mem_cons_self q
      (mem_append_left _ (mem_of_getElem? hq)) heq.symm
    obtain ⟨hfound, hsib⟩ := of_getElem?_pairUp hidx hq
    refine ⟨hfound, ?_⟩
    rw [path?_of_lt hlt, hsib, hpath]
    rfl

/-- **An opening that reaches the root is genuine**: it opens the leaf at its index, along the
path of that leaf. -/
theorem opening (h : Binding pair leaves node idx path) (hroot : root? pair leaves = some r)
    (hclimb : climb pair node idx path = r) (hidx : idx < leaves.length) :
    leaves[idx]? = some node ∧ path? pair leaves idx = some path :=
  opening_of_length h.pairs (h.length_eq hroot hclimb) hroot hclimb hidx

end Binding

end Merkle

end KeryxNode
