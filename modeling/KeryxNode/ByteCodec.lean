import Mathlib.Algebra.Order.Ring.Nat
import Mathlib.Tactic.Ring
import KeryxNode.OrdMap

/-!
# Byte Codecs

A small library for length-prefixed binary formats. A *decoder* reads a value off the front
of a byte string or fails with a message; an encoding is a plain byte string. What connects
the two is `Reads d bytes a`: whatever follows `bytes`, the decoder consumes exactly `bytes`
and returns `a`. The relation composes along the monad, so the round trip of a format is
assembled field by field in the order the format writes them.

Lengths are written with a fixed width, as `len as u32` writes them: a longer collection
loses its high digits. The bound is therefore a hypothesis of the rules that read a length
back, never part of an encoder.

A format with fixed offsets is read by *slices* instead, `slice bytes start stop`; the rules for
a slice of an appended string find the field that was written there.
-/

namespace KeryxNode

open List OrdMap

namespace ByteCodec

variable {message : String} {w : ℕ} {K V : Type} {reject : V → Bool}

/-! ### Fixed-width numbers -/

/-- The `w` little-endian bytes of `n`; higher digits are lost. -/
def leBytes : ℕ → ℕ → List UInt8
  | 0, _ => []
  | w + 1, n => UInt8.ofNat n :: leBytes w (n / 256)

/-- The number little-endian bytes spell. -/
def leValue : List UInt8 → ℕ
  | [] => 0
  | b :: bs => b.toNat + 256 * leValue bs

@[simp] theorem length_leBytes (w n : ℕ) : (leBytes w n).length = w := by
  induction w generalizing n with
  | zero => rfl
  | succ w ih => rw [leBytes, length_cons, ih]

/-- Writing keeps the number up to the width. -/
theorem leValue_leBytes (w n : ℕ) : leValue (leBytes w n) = n % 256 ^ w := by
  induction w generalizing n with
  | zero => simp [leBytes, leValue, Nat.mod_one]
  | succ w ih =>
    rw [leBytes, leValue, ih, pow_succ', Nat.mod_mul, UInt8.toNat_ofNat']

theorem leValue_append (as bs : List UInt8) :
    leValue (as ++ bs) = leValue as + 256 ^ as.length * leValue bs := by
  induction as with
  | nil => simp [leValue]
  | cons a as ih =>
    rw [cons_append, leValue, leValue, ih, length_cons]
    ring

theorem leValue_lt (l : List UInt8) : leValue l < 256 ^ l.length := by
  induction l with
  | nil => exact Nat.one_pos
  | cons a l ih =>
    have ha : a.toNat < 256 := a.toNat_lt
    rw [leValue, length_cons]
    omega

/-- Reading and writing back keeps the bytes. -/
theorem leBytes_leValue (l : List UInt8) : leBytes l.length (leValue l) = l := by
  induction l with
  | nil => rfl
  | cons a l ih =>
    have ha : a.toNat < 256 := a.toNat_lt
    have hlow : UInt8.ofNat (a.toNat + 256 * leValue l) = a := by
      rw [← UInt8.toNat_inj, UInt8.toNat_ofNat']
      omega
    rw [leValue, length_cons, leBytes, hlow, Nat.add_mul_div_left _ _ (by decide),
      Nat.div_eq_of_lt ha, Nat.zero_add, ih]

/-- The `w` big-endian bytes of `n`. -/
def beBytes (w n : ℕ) : List UInt8 :=
  (leBytes w n).reverse

/-- The number big-endian bytes spell. -/
def beValue (bs : List UInt8) : ℕ :=
  leValue bs.reverse

@[simp] theorem length_beBytes (w n : ℕ) : (beBytes w n).length = w := by
  rw [beBytes, length_reverse, length_leBytes]

theorem beValue_beBytes (w n : ℕ) : beValue (beBytes w n) = n % 256 ^ w := by
  rw [beValue, beBytes, reverse_reverse, leValue_leBytes]

/-! ### Slices -/

/-- The bytes from `start` up to `stop`. -/
def slice (bytes : List UInt8) (start stop : ℕ) : List UInt8 :=
  (bytes.drop start).take (stop - start)

section Slices

variable {l r : List UInt8} {start stop : ℕ}

/-- A slice within the first part. -/
@[simp] theorem slice_append_left (h : stop ≤ l.length) :
    slice (l ++ r) start stop = slice l start stop := by
  rw [slice, slice, drop_append, take_append_of_le_length]
  rw [length_drop]
  omega

/-- A slice past the first part. -/
@[simp] theorem slice_append_right (h : l.length ≤ start) :
    slice (l ++ r) start stop = slice r (start - l.length) (stop - l.length) := by
  rw [slice, drop_append, drop_eq_nil_of_le h]
  congr 1
  omega

theorem slice_append_add {n : ℕ} (h : l.length = n) (a b : ℕ) :
    slice (l ++ r) (n + a) (n + b) = slice r a b := by
  rw [slice_append_right (h ▸ Nat.le_add_right n a), h, Nat.add_sub_cancel_left,
    Nat.add_sub_cancel_left]

/-- A slice past the first byte. -/
@[simp] theorem slice_cons_of_pos (b : UInt8) (h : 0 < start) :
    slice (b :: l) start stop = slice l (start - 1) (stop - 1) :=
  slice_append_right (l := [b]) h

@[simp] theorem slice_all (h : l.length = stop) : slice l 0 stop = l := by
  rw [slice, drop_zero, Nat.sub_zero, take_of_length_le h.le]

/-- Two slices that meet. -/
theorem slice_append_slice (bytes : List UInt8) {a b c : ℕ} (hab : a ≤ b) (hbc : b ≤ c) :
    slice bytes a b ++ slice bytes b c = slice bytes a c := by
  have hdrop : bytes.drop b = (bytes.drop a).drop (b - a) := by
    rw [drop_drop, Nat.add_sub_of_le hab]
  rw [slice, slice, hdrop, ← take_add]
  congr 1
  omega

/-- Blocks of one width cut out of a string, put together again. -/
theorem flatten_slices (bytes : List UInt8) (base w n : ℕ) :
    ((range n).map fun i => slice bytes (base + i * w) (base + (i + 1) * w)).flatten
      = slice bytes base (base + n * w) := by
  induction n with
  | zero => simp [slice]
  | succ n ih =>
    rw [range_succ, map_append, flatten_append, ih, map_singleton, flatten_singleton]
    exact slice_append_slice bytes (Nat.le_add_right _ _) (by rw [Nat.succ_mul]; omega)

/-- Blocks of one width are read off a string one by one. -/
theorem slices_flatten {blocks : List (List UInt8)} (hw : ∀ b ∈ blocks, b.length = w)
    (front rest : List UInt8) :
    ((range blocks.length).map fun i => slice (front ++ blocks.flatten ++ rest)
      (front.length + i * w) (front.length + (i + 1) * w)) = blocks := by
  induction blocks generalizing front with
  | nil => rfl
  | cons b blocks ih =>
    obtain ⟨rfl, hw⟩ := forall_mem_cons.mp hw
    rw [length_cons, range_succ_eq_map, map_cons, map_map]
    congr 1
    · rw [flatten_cons, append_assoc, append_assoc, slice_append_add rfl, Nat.zero_add,
        Nat.zero_mul, Nat.one_mul, slice_append_left le_rfl, slice_all rfl]
    · refine Eq.trans (map_congr_left fun i _ => ?_) (ih hw (front ++ b))
      simp only [Function.comp_apply, flatten_cons, append_assoc, length_append, Nat.succ_mul,
        Nat.add_assoc, Nat.add_comm, Nat.add_left_comm]

end Slices

/-! ### Decoders -/

/-- A decoder: consumes a front part of the bytes, or fails with a message. -/
abbrev Decoder (α : Type) := StateT (List UInt8) (Except String) α

/-- Takes the next `n` bytes. -/
def take (n : ℕ) : Decoder (List UInt8) := fun bytes =>
  if n ≤ bytes.length then .ok (bytes.take n, bytes.drop n) else .error "truncated snapshot"

/-- Reads a little-endian number of `w` bytes. -/
def readLe (w : ℕ) : Decoder ℕ := do
  return leValue (← take w)

/-- Reads a big-endian number of `w` bytes. -/
def readBe (w : ℕ) : Decoder ℕ := do
  return beValue (← take w)

/-- Reads `n` values in a row. -/
def times {α : Type} (d : Decoder α) : ℕ → Decoder (List α)
  | 0 => pure []
  | n + 1 => do
    let a ← d
    let rest ← times d n
    return a :: rest

/-- Reads a `u32` count and that many values. -/
def counted {α : Type} (d : Decoder α) : Decoder (List α) := do
  times d (← readLe 4)

/-- Reads an optional value behind its tag byte. -/
def readOption {α : Type} (message : String) (d : Decoder α) : Decoder (Option α) := do
  match ← readLe 1 with
  | 0 => return none
  | 1 => return some (← d)
  | _ => throw message

/-- Reads `n` entries into a map; a rejected value or a repeated key fails. -/
def readEntries {K V : Type} [LinearOrder K] (message : String)
    (entry : Decoder (K × V)) (reject : V → Bool) : ℕ → OrdMap K V → Decoder (OrdMap K V)
  | 0, m => pure m
  | n + 1, m => do
    let e ← entry
    if reject e.2 || m.contains e.1 then throw message
    else readEntries message entry reject n (m.insert e.1 e.2)

/-- Reads a `u32` count and that many entries into an empty map. -/
def readMap {K V : Type} [LinearOrder K] (message : String) (entry : Decoder (K × V))
    (reject : V → Bool) : Decoder (OrdMap K V) := do
  readEntries message entry reject (← readLe 4) .empty

/-! ### Encoders -/

/-- The count of a list as a `u32`, then its values. -/
def putCounted {α : Type} (enc : α → List UInt8) (l : List α) : List UInt8 :=
  leBytes 4 l.length ++ l.flatMap enc

/-- A tag byte, then the value if there is one. -/
def putOption {α : Type} (enc : α → List UInt8) : Option α → List UInt8
  | none => leBytes 1 0
  | some a => leBytes 1 1 ++ enc a

/-! ### Reading back what was written -/

/-- The decoder consumes exactly `bytes`, whatever follows, and returns `a`. -/
def Reads {α : Type} (d : Decoder α) (bytes : List UInt8) (a : α) : Prop :=
  ∀ rest, d (bytes ++ rest) = .ok (a, rest)

namespace Reads

variable {α β : Type} {d : Decoder α} {bytes : List UInt8} {a : α}

theorem pure (a : α) : Reads (Pure.pure a) [] a := fun _ => rfl

theorem bind {f : α → Decoder β} {bytes' : List UInt8} {b : β} (hd : Reads d bytes a)
    (hf : Reads (f a) bytes' b) :
    Reads (d >>= f) (bytes ++ bytes') b := by
  intro rest
  rw [append_assoc]
  change (d (bytes ++ (bytes' ++ rest)) >>= fun r => f r.1 r.2) = _
  rw [hd (bytes' ++ rest)]
  exact hf rest

/-- A value computed from what was read. -/
theorem map (f : α → β) (hd : Reads d bytes a) :
    Reads (d >>= fun x => Pure.pure (f x)) bytes (f a) := by
  have h : Reads (d >>= fun x => .pure (f x)) (bytes ++ []) (f a) :=
    hd.bind (.pure (f a))
  rwa [append_nil] at h

/-- The last field of a record: what was read, computed on, is what is returned. -/
theorem last {f : α → β} {b : β} (hd : Reads d bytes a) (hb : f a = b) :
    Reads (d >>= fun x => Pure.pure (f x)) bytes b :=
  hb ▸ hd.map f

end Reads

theorem reads_take (bytes : List UInt8) : Reads (take bytes.length) bytes bytes := by
  intro rest
  rw [take, if_pos (by simp), take_left, drop_left]

theorem reads_le {n : ℕ} (h : n < 2 ^ (8 * w)) : Reads (readLe w) (leBytes w n) n := by
  have ht := reads_take (leBytes w n)
  rw [length_leBytes] at ht
  rw [pow_mul] at h
  exact ht.last (by rw [leValue_leBytes]; exact Nat.mod_eq_of_lt h)

theorem reads_be {n : ℕ} (h : n < 2 ^ (8 * w)) : Reads (readBe w) (beBytes w n) n := by
  have ht := reads_take (beBytes w n)
  rw [length_beBytes] at ht
  rw [pow_mul] at h
  exact ht.last (by rw [beValue_beBytes]; exact Nat.mod_eq_of_lt h)

/-- A list written value after value is read back by its length. -/
theorem reads_times {α : Type} {d : Decoder α} {enc : α → List UInt8} {l : List α}
    (h : ∀ a ∈ l, Reads d (enc a) a) : Reads (times d l.length) (l.flatMap enc) l := by
  induction l with
  | nil => exact .pure []
  | cons a l ih =>
    refine (h a mem_cons_self).bind ?_
    exact (ih fun b hb => h b (mem_cons_of_mem _ hb)).map _

/-- Sorted entries written one after the other extend the map they are read into. -/
theorem reads_entries_foldl [LinearOrder K] {entry : Decoder (K × V)} {enc : K × V → List UInt8} :
    ∀ {l : List (K × V)} {m : OrdMap K V}, (∀ e ∈ l, Reads entry (enc e) e) →
      (∀ e ∈ l, reject e.2 = false) → l.Pairwise (fun a b => a.1 < b.1) →
      (∀ e ∈ l, m.get? e.1 = none) →
      Reads (readEntries message entry reject l.length m) (l.flatMap enc)
        (l.foldl (fun m e => m.insert e.1 e.2) m)
  | [], m, _, _, _, _ => Reads.pure m
  | e :: l, m, hread, hok, hsorted, hfresh => by
    obtain ⟨hlt, hl⟩ := pairwise_cons.mp hsorted
    refine (hread e mem_cons_self).bind ?_
    have hnew : m.contains e.1 = false :=
      contains_eq_false.mpr (hfresh e mem_cons_self)
    rw [hok e mem_cons_self, hnew]
    refine reads_entries_foldl (fun a ha => hread a (mem_cons_of_mem _ ha))
      (fun a ha => hok a (mem_cons_of_mem _ ha)) hl fun a ha => ?_
    rw [get?_insert_of_ne _ _ (hlt a ha).ne']
    exact hfresh a (mem_cons_of_mem _ ha)

/-- A counted list is read back if its count fits. -/
theorem reads_counted {α : Type} {d : Decoder α} {enc : α → List UInt8} {l : List α}
    (hlen : l.length < 2 ^ 32) (h : ∀ a ∈ l, Reads d (enc a) a) :
    Reads (counted d) (putCounted enc l) l :=
  (reads_le hlen).bind (reads_times h)

/-- A tagged value is read back. -/
theorem reads_option {α : Type} {d : Decoder α} {enc : α → List UInt8} {o : Option α}
    (h : ∀ a, o = some a → Reads d (enc a) a) :
    Reads (readOption message d) (putOption enc o) o := by
  cases o with
  | none =>
    have ht : Reads (readLe 1) (leBytes 1 0) 0 := reads_le (by norm_num)
    have h0 := ht.bind (f := fun t : ℕ => match t with
      | 0 => (return none : Decoder (Option α))
      | 1 => return some (← d)
      | _ => throw message) (.pure none)
    rwa [append_nil] at h0
  | some a =>
    have ht : Reads (readLe 1) (leBytes 1 1) 1 := reads_le (by norm_num)
    exact ht.bind ((h a rfl).map some)

/-- A map written in key order is read back. -/
theorem reads_entries [LinearOrder K] {entry : Decoder (K × V)}
    {enc : K × V → List UInt8} {m : OrdMap K V} (hread : ∀ e ∈ m.entries, Reads entry (enc e) e)
    (hok : ∀ e ∈ m.entries, reject e.2 = false) :
    Reads (readEntries message entry reject m.size .empty) (m.entries.flatMap enc) m := by
  have h : Reads (readEntries message entry reject m.size .empty) _ _ :=
    reads_entries_foldl hread hok m.sorted fun _ _ => rfl
  rwa [show m.entries.foldl (fun m e => m.insert e.1 e.2) empty = m from
    overlay_empty_left m] at h

/-- A counted map is read back if its count fits. -/
theorem reads_map [LinearOrder K] {entry : Decoder (K × V)}
    {enc : K × V → List UInt8} {m : OrdMap K V} (hsize : m.size < 2 ^ 32)
    (hread : ∀ e ∈ m.entries, Reads entry (enc e) e) (hok : ∀ e ∈ m.entries, reject e.2 = false) :
    Reads (readMap message entry reject) (putCounted enc m.entries) m :=
  (reads_le hsize).bind (reads_entries hread hok)

end ByteCodec

end KeryxNode
