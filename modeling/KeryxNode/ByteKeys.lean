import Mathlib.Data.List.Lex
import KeryxNode.ByteCodec
import KeryxNode.OrdMapScan

/-!
# Byte Keys

An ordered key-value store orders its keys bytewise. Numbers written big-endian with a fixed
width keep their order under a common prefix (`ByteKey.append_beBytes_lt`), so the entries of
one prefix are read in numeric order, and the last entry at or below a number is found by one
reverse seek bounded to the prefix (`OrdMap.seekForPrev`).
-/

namespace KeryxNode

open List UInt8

/-! ### The order of the keys -/

/-- A key of an ordered store. -/
structure ByteKey where
  bytes : List UInt8
  deriving Repr

namespace ByteKey

/-- The bytes as numbers, which are compared lexicographically. -/
def key (k : ByteKey) : List ℕ :=
  k.bytes.map toNat

theorem key_injective : Function.Injective key := by
  rintro ⟨a⟩ ⟨b⟩ h
  have hmap : Function.Injective UInt8.toNat := fun _ _ => UInt8.toNat_inj.mp
  exact congrArg mk (map_injective_iff.mpr hmap h)

instance : LinearOrder ByteKey :=
  LinearOrder.lift' key key_injective

end ByteKey

namespace ByteCodec

theorem beValue_cons (b : UInt8) (bs : List UInt8) :
    beValue (b :: bs) = b.toNat * 256 ^ bs.length + beValue bs := by
  rw [beValue, reverse_cons, leValue_append, beValue]
  simp [leValue]
  ring

theorem beValue_lt (bs : List UInt8) : beValue bs < 256 ^ bs.length := by
  rw [← length_reverse]
  exact leValue_lt bs.reverse

/-- Bytes of one length that come earlier spell a smaller number. -/
theorem beValue_lt_of_lt {as bs : List UInt8} (hlen : as.length = bs.length)
    (h : as.map toNat < bs.map toNat) : beValue as < beValue bs := by
  induction as generalizing bs with
  | nil =>
    obtain rfl := length_eq_zero_iff.mp hlen.symm
    exact absurd h (lt_irrefl _)
  | cons a as ih =>
    cases bs with
    | nil => cases hlen
    | cons b bs =>
      have hlen' : as.length = bs.length := Nat.succ.inj hlen
      rw [map_cons, map_cons, cons_lt_cons_iff] at h
      rw [beValue_cons, beValue_cons, hlen']
      rcases h with hlt | ⟨heq, hrest⟩
      · have hbound := beValue_lt as
        rw [hlen'] at hbound
        have hmul : (a.toNat + 1) * 256 ^ bs.length ≤ b.toNat * 256 ^ bs.length :=
          Nat.mul_le_mul_right _ hlt
        rw [Nat.add_mul] at hmul
        omega
      · have := ih hlen' hrest
        rw [heq]
        omega

end ByteCodec

open ByteCodec

namespace ByteKey

/-- A common prefix does not matter. -/
theorem append_lt_append_iff (p a b : List UInt8) :
    (⟨p ++ a⟩ : ByteKey) < ⟨p ++ b⟩ ↔ a.map toNat < b.map toNat := by
  change (p ++ a).map toNat < (p ++ b).map toNat ↔ _
  induction p with
  | nil => rfl
  | cons c p ih =>
    rw [cons_append, cons_append, map_cons, map_cons, cons_lt_cons_iff, ih]
    simp

/-- Numbers that fit the width are read back. -/
theorem append_beBytes_inj {p : List UInt8} {w i j : ℕ} (hi : i < 256 ^ w) (hj : j < 256 ^ w)
    (h : p ++ beBytes w i = p ++ beBytes w j) : i = j := by
  have hvalue := congrArg beValue (append_cancel_left h)
  rwa [beValue_beBytes, beValue_beBytes, Nat.mod_eq_of_lt hi, Nat.mod_eq_of_lt hj] at hvalue

/-- **Big-endian numbers keep their order** under a prefix. -/
theorem append_beBytes_lt {p : List UInt8} {w i j : ℕ} (hj : j < 256 ^ w) (h : i < j) :
    (⟨p ++ beBytes w i⟩ : ByteKey) < ⟨p ++ beBytes w j⟩ := by
  have hi := h.trans hj
  rcases lt_trichotomy (⟨p ++ beBytes w i⟩ : ByteKey) ⟨p ++ beBytes w j⟩ with hlt | heq | hgt
  · exact hlt
  · exact absurd (append_beBytes_inj hi hj (congrArg bytes heq)) h.ne
  · rw [append_lt_append_iff] at hgt
    have := beValue_lt_of_lt (by simp) hgt
    rw [beValue_beBytes, beValue_beBytes, Nat.mod_eq_of_lt hi, Nat.mod_eq_of_lt hj] at this
    omega

end ByteKey

/-! ### Bounded seeks -/

namespace OrdMap

universe v

variable {V : Type v}

/-- The entries whose key starts with the given bytes. -/
def prefixRange (m : OrdMap ByteKey V) (range : List UInt8) : List (ByteKey × V) :=
  m.entries.filter fun e => range.isPrefixOf e.1.bytes

/-- The value at the last key at or below `seek` among those that start with `range`. -/
def seekForPrev (m : OrdMap ByteKey V) (range : List UInt8) (seek : ByteKey) : Option V :=
  (((m.prefixRange range).filter fun e => decide (e.1 ≤ seek)).getLast?).map Prod.snd

variable {m : OrdMap ByteKey V} {range : List UInt8} {seek k : ByteKey} {v : V}

theorem mem_prefixRange {e : ByteKey × V} :
    e ∈ m.prefixRange range ↔ m.get? e.1 = some e.2 ∧ range <+: e.1.bytes := by
  rw [prefixRange, mem_filter, isPrefixOf_iff_prefix, get?_eq_some_iff]

theorem sorted_prefixRange (m : OrdMap ByteKey V) (range : List UInt8) :
    (m.prefixRange range).Pairwise fun a b => a.1 < b.1 :=
  m.sorted.filter _

/-- **A bounded reverse seek** finds the greatest key of the range at or below the target. -/
theorem seekForPrev_eq_some (hk : m.get? k = some v) (hrange : range <+: k.bytes)
    (hle : k ≤ seek)
    (hmax : ∀ j u, m.get? j = some u → range <+: j.bytes → j ≤ seek → j ≤ k) :
    m.seekForPrev range seek = some v := by
  have hlast : ((m.prefixRange range).filter fun e => decide (e.1 ≤ seek)).getLast?
      = some (k, v) := by
    refine getLast?_eq_some_of_sorted Prod.fst ((sorted_prefixRange m range).filter _)
      (mem_filter.mpr ⟨mem_prefixRange.mpr ⟨hk, hrange⟩, decide_eq_true hle⟩) fun y hy => ?_
    obtain ⟨hmem, hy⟩ := mem_filter.mp hy
    obtain ⟨hget, hyr⟩ := mem_prefixRange.mp hmem
    exact hmax y.1 y.2 hget hyr (of_decide_eq_true hy)
  rw [seekForPrev, hlast]
  rfl

/-- It finds nothing where the range has no key at or below the target. -/
theorem seekForPrev_eq_none
    (h : ∀ j u, m.get? j = some u → range <+: j.bytes → ¬ j ≤ seek) :
    m.seekForPrev range seek = none := by
  rw [seekForPrev, filter_eq_nil_iff.mpr fun e he => ?_]
  · rfl
  · obtain ⟨hget, hr⟩ := mem_prefixRange.mp he
    simpa using h e.1 e.2 hget hr

end OrdMap

end KeryxNode
