import Mathlib.Data.Finset.Insert
import KeryxNode.ByteKeys
import KeryxNode.CheckedNat
import KeryxNode.UtxoDiff

/-!
# The UTXO Index

Beside the virtual UTXO set a node may keep its coins by script (`indexes/utxoindex`), with their
total amount and the virtual parents they belong to. The database is ordered by the bytes of a
script, with its length, and those of the outpoint. So the coins of a script are a map of their
own, ordered by the bytes of the outpoint: the id, and the output index in little-endian order.

Queries hold the lock of the index for one chunk at a time, and updates get in between.

## Main results

* `chunked_scan_exact`: a query counts what stays in the index once, if the coin each chunk ends
  with stays until the next chunk is read.
* `chunked_scan_misses`: a coin that is missed, since the one before it was spent.
-/

namespace KeryxNode

open OrdMap List ByteCodec

/-- The key of a coin below its script: the transaction id and the 4 bytes of the output index. -/
structure TransactionOutpointKey where
  transactionId : Hash
  index : Fin (2 ^ 32)
  deriving DecidableEq, Repr

namespace TransactionOutpointKey

/-- The bytes of a key, compared from the left. A hash is the big-endian number of its bytes. -/
def bytes (k : TransactionOutpointKey) : Hash ×ₗ ByteKey :=
  toLex (k.transactionId, ⟨leBytes 4 k.index⟩)

theorem bytes_injective : Function.Injective bytes := by
  rintro ⟨t, i⟩ ⟨t', i'⟩ h
  obtain ⟨rfl, hindex⟩ := Prod.mk.inj h
  have hvalue : leValue (leBytes 4 i) = leValue (leBytes 4 i') :=
    congrArg leValue (congrArg ByteKey.bytes hindex)
  have hlt : ∀ i : Fin (2 ^ 32), i.val < 256 ^ 4 := Fin.isLt
  rw [leValue_leBytes, leValue_leBytes, Nat.mod_eq_of_lt (hlt i), Nat.mod_eq_of_lt (hlt i')]
    at hvalue
  rw [Fin.ext hvalue]

instance : LinearOrder TransactionOutpointKey :=
  LinearOrder.lift' bytes bytes_injective

/-- The low byte of an index is compared first. -/
example : [⟨7, 256⟩, ⟨7, 1⟩, ⟨7, 2⟩].Pairwise fun a b : TransactionOutpointKey => a < b := by
  decide

end TransactionOutpointKey

/-- The key of an outpoint, whose index has 32 bits. -/
def TransactionOutpoint.indexKey (o : TransactionOutpoint) : TransactionOutpointKey :=
  ⟨o.transactionId, Fin.ofNat _ o.index⟩

/-- What the index keeps of a coin. -/
structure CompactUtxoEntry where
  amount : ℕ
  blockDaaScore : ℕ
  isCoinbase : Bool
  deriving DecidableEq, Repr

def UtxoEntry.compact (e : UtxoEntry) : CompactUtxoEntry :=
  ⟨e.amount, e.blockDaaScore, e.isCoinbase⟩

/-- The database: the coins of each script, the circulating supply and the virtual parents. -/
structure IndexStore where
  utxos : ScriptPublicKey → OrdMap TransactionOutpointKey CompactUtxoEntry := fun _ => .empty
  supply : Option ℕ := none
  tips : Option (Finset Hash) := none

/-- One write to the database. -/
inductive IndexWrite where
  | delete (outpoint : TransactionOutpoint) (entry : UtxoEntry)
  | put (outpoint : TransactionOutpoint) (entry : UtxoEntry)
  | deleteAll
  | setSupply (supply : Option ℕ)
  | setTips (tips : Option (Finset Hash))

namespace IndexStore

variable (store : IndexStore)

/-- Changes the coins of one script. -/
def modifyScript (spk : ScriptPublicKey) (f : OrdMap TransactionOutpointKey CompactUtxoEntry →
    OrdMap TransactionOutpointKey CompactUtxoEntry) : IndexStore :=
  { store with utxos := Function.update store.utxos spk (f (store.utxos spk)) }

def write : IndexWrite → IndexStore
  | .delete o e => store.modifyScript e.scriptPublicKey fun m => m.erase o.indexKey
  | .put o e => store.modifyScript e.scriptPublicKey fun m => m.insert o.indexKey e.compact
  | .deleteAll => { store with utxos := fun _ => .empty }
  | .setSupply supply => { store with supply }
  | .setTips tips => { store with tips }

/-! ### Updates -/

/-- The change of the supply, in signed words: additions, then removals; a panic on overflow. -/
def supplyChange (add remove : List (TransactionOutpoint × UtxoEntry)) : Option ℤ := do
  let added ← add.foldlM (fun s e => Checked.i64 (s + Checked.asI64 e.2.amount)) 0
  remove.foldlM (fun s e => Checked.i64 (s - Checked.asI64 e.2.amount)) added

/-- `saturating_add_signed`. -/
def saturatingAddSigned (supply : ℕ) (delta : ℤ) : ℕ :=
  min (supply + delta).toNat (2 ^ 64 - 1)

/-- The writes of an update, removals first, and whether it returns: without a stored supply it
ends with an error before the parents are written. -/
def updateWrites (diff : UtxoDiff) (tips : Finset Hash) : Option (List IndexWrite × Bool) := do
  let delta ← supplyChange diff.add.entries diff.remove.entries
  let changes := diff.remove.entries.map (fun e => .delete e.1 e.2) ++
    diff.add.entries.map fun e => .put e.1 e.2
  match store.supply with
  | none => return (changes, false)
  | some supply =>
    let supplied := if delta = 0 then [] else
      [IndexWrite.setSupply (some (saturatingAddSigned supply delta))]
    return (changes ++ supplied ++ [.setTips (some tips)], true)

/-- The database after an update. -/
def update (diff : UtxoDiff) (tips : Finset Hash) : Option IndexStore :=
  (store.updateWrites diff tips).map fun writes => writes.1.foldl write store

/-! ### Queries -/

end IndexStore

/-- The most coins a query reads while it holds the lock. -/
def utxoScanChunk : ℕ := 8192

/-- The chunks that a query for a script counts, which finds the index in one state after the
other. The entries, the balance and the number of the coins are folded from them. -/
def scanScript (spk : ScriptPublicKey) (states : List IndexStore) :
    Option (List (List (TransactionOutpointKey × CompactUtxoEntry))) :=
  scanChunks utxoScanChunk none (states.map fun store => store.utxos spk)

/-- **A query in chunks** counts a coin that is in the index at every chunk exactly once, and a coin
it counts was there when its chunk was read, if the coin that each chunk ends with is still there
when the next one is read. -/
theorem chunked_scan_exact (spk : ScriptPublicKey) (states : List IndexStore)
    (chunks : List (List (TransactionOutpointKey × CompactUtxoEntry)))
    (hscan : scanScript spk states = some chunks)
    (hresume : Resumable utxoScanChunk none (states.map fun store => store.utxos spk)) :
    (∀ o e, (∀ store ∈ states, (store.utxos spk).get? o = some e) →
        chunks.flatten.count (o, e) = 1) ∧
      Forall₂ (fun store c => ∀ x ∈ c, (store.utxos spk).get? x.1 = some x.2) states chunks := by
  obtain ⟨hsorted, -, heach⟩ := of_scanChunks (by decide) hscan
  refine ⟨fun o e hstays => ?_, forall₂_map_left_iff.mp heach⟩
  have hmem := mem_of_scanChunks (by decide) hscan hresume (fun j hj => by cases hj)
    fun m hm => by
      obtain ⟨store, hstore, rfl⟩ := mem_map.mp hm
      exact hstays store hstore
  exact count_eq_one_of_mem (hsorted.imp fun h heq => (heq ▸ h).false) hmem

/-! ### Two chunks -/

def crowdScript : ScriptPublicKey := ⟨0, []⟩

/-- The only output of the transaction `i`. -/
def crowdOutpoint (i : ℕ) : TransactionOutpoint := ⟨Fin.ofNat _ i, 0⟩

def crowdEntry : UtxoEntry := ⟨1, crowdScript, 0, false, 0⟩

def crowdCoin (i : ℕ) : TransactionOutpointKey × CompactUtxoEntry :=
  ((crowdOutpoint i).indexKey, crowdEntry.compact)

/-- The last coin of the first chunk. -/
def crowdLast : ℕ := 8191

/-- One coin more than a chunk holds. -/
def crowdCoins : OrdMap TransactionOutpointKey CompactUtxoEntry where
  entries := (range crowdLast).map crowdCoin ++ [crowdCoin crowdLast, crowdCoin (crowdLast + 1)]
  sorted := by
    have hrange : (range (crowdLast + 1 + 1)).map crowdCoin = (range crowdLast).map crowdCoin ++
        [crowdCoin crowdLast, crowdCoin (crowdLast + 1)] := by
      rw [range_succ, range_succ, map_append, map_append, append_assoc]
      rfl
    have hbound : crowdLast + 1 + 1 < 2 ^ 256 := by decide
    rw [← hrange]
    refine pairwise_map.mpr (pairwise_lt_range.imp_of_mem fun {i j} hi hj hij => ?_)
    have hj' := (mem_range.mp hj).trans hbound
    refine Prod.Lex.toLex_lt_toLex.mpr (.inl (Fin.lt_def.mpr ?_))
    change i % 2 ^ 256 < j % 2 ^ 256
    rwa [Nat.mod_eq_of_lt (hij.trans hj'), Nat.mod_eq_of_lt hj']

def crowdIndex : IndexStore where
  utxos spk := if spk = crowdScript then crowdCoins else .empty
  supply := some (crowdLast + 2)
  tips := some {0}

theorem utxos_crowdIndex : crowdIndex.utxos crowdScript = crowdCoins := by
  simp only [crowdIndex, if_true]

/-- The index after a coin of the crowd is spent. -/
theorem update_crowdIndex (i : ℕ) :
    ∃ last, crowdIndex.update { remove := empty.insert (crowdOutpoint i) crowdEntry } {1}
        = some last ∧
      last.utxos crowdScript = crowdCoins.erase (crowdOutpoint i).indexKey :=
  ⟨_, rfl, rfl⟩

/-- The first coin is spent between the chunks. The query resumes at the last coin of the first
chunk and counts the one after it. -/
theorem chunked_scan_exact_crowd :
    ∃ last chunks, crowdIndex.update { remove := empty.insert (crowdOutpoint 0) crowdEntry } {1}
        = some last ∧
      scanScript crowdScript [crowdIndex, last] = some chunks ∧ chunks.length = 2 ∧
      chunks.flatten.count (crowdCoin (crowdLast + 1)) = 1 := by
  obtain ⟨last, hlast, hutxos⟩ := update_crowdIndex 0
  have hsplit : crowdCoins.entries = (range crowdLast).map crowdCoin ++
      [crowdCoin crowdLast, crowdCoin (crowdLast + 1)] := by rw [crowdCoins]
  have hkept : ∀ x ∈ [crowdCoin crowdLast, crowdCoin (crowdLast + 1)],
      x.1 ≠ (crowdOutpoint 0).indexKey := by decide
  obtain ⟨front, hfront, hentries⟩ := entries_erase_append hsplit hkept
  have hbelow : ∀ x ∈ front, x.1 < (crowdCoin crowdLast).1 := fun x hx =>
    (pairwise_append.mp (hsplit ▸ crowdCoins.sorted)).2.2 x (hfront hx) _ mem_cons_self
  rw [← hutxos] at hentries
  have hheld : ∀ x ∈ [crowdCoin crowdLast, crowdCoin (crowdLast + 1)],
      (last.utxos crowdScript).get? x.1 = some x.2 := fun x hx =>
    get?_eq_some_iff.mpr (hentries ▸ mem_append_right _ hx)
  obtain ⟨hscan, hresume⟩ := scanChunks_two hsplit (by rw [length_map, length_range]; rfl)
    (rest_of_split hentries hbelow le_rfl) (by decide : 1 < utxoScanChunk)
  have hresumable := hresume (contains_eq_true.mpr ⟨_, hheld _ mem_cons_self⟩)
  have hstates : [crowdIndex, last].map (fun store => store.utxos crowdScript)
      = [crowdCoins, last.utxos crowdScript] := by rw [map_cons, map_singleton, utxos_crowdIndex]
  rw [← hstates] at hscan hresumable
  refine ⟨last, _, hlast, hscan, by rw [length_cons, length_singleton],
    (chunked_scan_exact crowdScript _ _ hscan hresumable).1 _ _ fun store hstore => ?_⟩
  rcases mem_pair.mp hstore with rfl | rfl
  · rw [utxos_crowdIndex]
    exact get?_eq_some_iff.mpr (hsplit ▸ mem_append_right _ (mem_cons_of_mem _ mem_cons_self))
  · exact hheld _ (mem_cons_of_mem _ mem_cons_self)

/-- The last coin of the first chunk is spent before the second one is read, which skips the coin
after it. -/
theorem chunked_scan_misses :
    ∃ last chunks, crowdIndex.update
        { remove := empty.insert (crowdOutpoint crowdLast) crowdEntry } {1} = some last ∧
      scanScript crowdScript [crowdIndex, last] = some chunks ∧
      (∀ store ∈ [crowdIndex, last], (store.utxos crowdScript).get?
        (crowdOutpoint (crowdLast + 1)).indexKey = some crowdEntry.compact) ∧
      chunks.flatten.count (crowdCoin (crowdLast + 1)) = 0 := by
  obtain ⟨last, hlast, hutxos⟩ := update_crowdIndex crowdLast
  have hne : (crowdOutpoint (crowdLast + 1)).indexKey ≠ (crowdOutpoint crowdLast).indexKey := by
    decide
  have hheld : crowdCoins.get? (crowdOutpoint (crowdLast + 1)).indexKey = some crowdEntry.compact :=
    get?_eq_some_iff.mpr (mem_append_right _ (mem_cons_of_mem _ mem_cons_self))
  have hscan : scanScript crowdScript [crowdIndex, last]
      = some [(range crowdLast).map crowdCoin ++ [crowdCoin crowdLast], []] := by
    rw [scanScript, map_cons, map_cons, hutxos]
    exact scanChunks_erase rfl (by rw [length_map, length_range]; rfl)
  refine ⟨last, _, hlast, hscan, ?_, ?_⟩
  · intro store hstore
    rcases mem_pair.mp hstore with rfl | rfl
    · exact hheld
    · rw [hutxos, get?_erase_of_ne _ hne]
      exact hheld
  · refine count_eq_zero.mpr fun hmem => ?_
    rw [flatten_cons, flatten_singleton, append_nil] at hmem
    have hsplit : crowdCoins.entries = (range crowdLast).map crowdCoin ++ [crowdCoin crowdLast] ++
        [crowdCoin (crowdLast + 1)] := append_cons ..
    exact ((pairwise_append.mp (hsplit ▸ crowdCoins.sorted)).2.2 _ hmem _ mem_cons_self).false

end KeryxNode
