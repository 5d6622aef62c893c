import KeryxNode.OrdMapSum
import KeryxNode.PomSound
import KeryxNode.PomWire

/-!
# The Schedule of the Compact Form

Encoder and decoder of the compact form walk the same levels. A *schedule* relates the supplied
nodes of such a walk with the paths of the tiles: at every level the missing siblings are the next
nodes, and the completed level has the next entry of every path. The decoder succeeds exactly along
a schedule, and the encoder emits the nodes of the schedule of its paths.
-/

namespace KeryxNode

open List Merkle OrdMap

namespace Pom

variable {idxs ks : List ℕ} {supplied : List Bytes32} {cursor : ℕ}

/-! ### Missing siblings -/

section Levels

variable {levelLen idx sib : ℕ} {known full : Level} {vals : List Bytes32}

theorem needsSibling_eq_some :
    needsSibling idx levelLen known = some sib ↔
      (idx ^^^ 1 < levelLen ∧ known.get? (idx ^^^ 1) = none) ∧ idx ^^^ 1 = sib := by
  rw [needsSibling]
  split <;> simp_all

/-- The node has a sibling that is not known. -/
def isAsked (levelLen : ℕ) (known : Level) (idx : ℕ) : Bool :=
  (needsSibling idx levelLen known).isSome

/-- The known nodes whose sibling has to be supplied, in the order of the walk. -/
def asked (levelLen : ℕ) (known : Level) : List ℕ :=
  known.keys.filter (isAsked levelLen known)

theorem mem_asked :
    idx ∈ asked levelLen known ↔
      idx ∈ known.keys ∧ idx ^^^ 1 < levelLen ∧ known.get? (idx ^^^ 1) = none := by
  rw [asked, mem_filter, isAsked, Option.isSome_iff_exists]
  simp only [needsSibling_eq_some, exists_and_left, exists_eq', and_true]

theorem nodup_asked (levelLen : ℕ) (known : Level) : (asked levelLen known).Nodup :=
  known.nodup_keys.filter _

/-- A level with these siblings filled in. -/
def completeLevel (known : Level) (idxs : List ℕ) (vals : List Bytes32) : Level :=
  (idxs.zip vals).foldl (fun full e => full.insert (e.1 ^^^ 1) e.2) known

theorem xor_one_inj {i j : ℕ} : i ^^^ 1 = j ^^^ 1 ↔ i = j :=
  ⟨fun h => by
    have := congrArg (· ^^^ 1) h
    simpa [Nat.xor_assoc] using this, fun h => h ▸ rfl⟩

theorem get?_completeLevel_of_not_mem {k : ℕ} (h : ∀ idx ∈ idxs, idx ^^^ 1 ≠ k) :
    (completeLevel known idxs vals).get? k = known.get? k :=
  get?_foldl_insert_of_ne _ (fun _ he => (h _ (of_mem_zip he).1).symm) known

/-- The supplied siblings are where they belong. -/
theorem get?_completeLevel (hnodup : idxs.Nodup) {e : ℕ × Bytes32} (he : e ∈ idxs.zip vals) :
    (completeLevel known idxs vals).get? (e.1 ^^^ 1) = some e.2 := by
  induction idxs generalizing known vals with
  | nil => cases he
  | cons idx idxs ih =>
    cases vals with
    | nil => cases he
    | cons v vals =>
      obtain ⟨hnot, hnodup⟩ := nodup_cons.mp hnodup
      change (completeLevel (known.insert (idx ^^^ 1) v) idxs vals).get? (e.1 ^^^ 1) = _
      rcases mem_cons.mp he with rfl | he
      · rw [get?_completeLevel_of_not_mem, get?_insert_self]
        intro i hi heq
        obtain rfl : i = idx := xor_one_inj.mp heq
        exact hnot hi
      · exact ih hnodup he

/-- Known nodes stay in a completed level. -/
theorem get?_completeLevel_of_known {v : Bytes32} (h : known.get? idx = some v) :
    (completeLevel known (asked levelLen known) vals).get? idx = some v := by
  rw [get?_completeLevel_of_not_mem, h]
  intro i hi heq
  obtain ⟨-, -, hnone⟩ := mem_asked.mp hi
  rw [heq, h] at hnone
  cases hnone

theorem mem_zip_of_mem {α β : Type} {l : List α} {l' : List β} (h : l.length = l'.length) {a : α}
    (ha : a ∈ l) : ∃ b, (a, b) ∈ l.zip l' := by
  obtain ⟨e, he, rfl⟩ := mem_map.mp (map_fst_zip h.le ▸ ha)
  exact ⟨e.2, he⟩

/-- A completed level has the siblings of all known nodes. -/
theorem exists_get?_sibling (hlength : vals.length = (asked levelLen known).length)
    (hidx : idx ∈ known.keys) (hlt : idx ^^^ 1 < levelLen) :
    ∃ v, (completeLevel known (asked levelLen known) vals).get? (idx ^^^ 1) = some v := by
  cases hsib : known.get? (idx ^^^ 1) with
  | some v => exact ⟨v, get?_completeLevel_of_known hsib⟩
  | none =>
    obtain ⟨v, hv⟩ := mem_zip_of_mem hlength.symm (mem_asked.mpr ⟨hidx, hlt, hsib⟩)
    exact ⟨v, get?_completeLevel (nodup_asked levelLen known) hv⟩

/-! ### One level of the two walks -/

/-- The encoder's fold: it emits the claimed siblings of the nodes that ask for one. -/
theorem emitSibling_run {claimed : Level} {nodes : List Bytes32}
    (h : (ks.filter (isAsked levelLen known)).map claimed.get? = vals.map some) :
    ks.foldlM (emitSibling levelLen known claimed) (full, nodes)
      = .ok (completeLevel full (ks.filter (isAsked levelLen known)) vals, nodes ++ vals) := by
  induction ks generalizing full nodes vals with
  | nil =>
    obtain rfl : vals = [] := by simpa using h.symm
    rw [append_nil]
    rfl
  | cons idx ks ih =>
    rw [foldlM_cons, emitSibling]
    cases hneeds : needsSibling idx levelLen known with
    | none =>
      have hskip : ¬ isAsked levelLen known idx = true := by rw [isAsked, hneeds]; decide
      rw [filter_cons_of_neg hskip] at h ⊢
      exact ih h
    | some sib =>
      have hask : isAsked levelLen known idx = true := by rw [isAsked, hneeds]; rfl
      obtain ⟨-, rfl⟩ := needsSibling_eq_some.mp hneeds
      rw [filter_cons_of_pos hask] at h ⊢
      obtain ⟨v, vals, rfl, hv, h⟩ := map_eq_cons_iff.mp h.symm
      simp only [← hv]
      exact (ih h.symm).trans (by rw [append_assoc]; rfl)

/-- The decoder's fold: it takes the next supplied nodes for the nodes that ask for a sibling. -/
theorem takeSibling_run {cursor' : ℕ} {full' : Level} :
    ks.foldlM (takeSibling levelLen known supplied) (full, cursor) = .ok (full', cursor') ↔
      ∃ vals rest, supplied.drop cursor = vals ++ rest ∧
        vals.length = (ks.filter (isAsked levelLen known)).length ∧
        full' = completeLevel full (ks.filter (isAsked levelLen known)) vals ∧
        cursor' = cursor + vals.length := by
  induction ks generalizing full cursor with
  | nil =>
    constructor
    · intro h
      cases h
      exact ⟨[], _, rfl, rfl, rfl, rfl⟩
    · rintro ⟨vals, rest, -, hlength, rfl, rfl⟩
      obtain rfl := length_eq_zero_iff.mp hlength
      rfl
  | cons idx ks ih =>
    rw [foldlM_cons, takeSibling]
    cases hneeds : needsSibling idx levelLen known with
    | none =>
      have hskip : ¬ isAsked levelLen known idx = true := by rw [isAsked, hneeds]; decide
      rw [filter_cons_of_neg hskip]
      exact ih
    | some sib =>
      have hask : isAsked levelLen known idx = true := by rw [isAsked, hneeds]; rfl
      obtain ⟨-, rfl⟩ := needsSibling_eq_some.mp hneeds
      rw [filter_cons_of_pos hask]
      simp only [← head?_drop]
      cases hdrop : supplied.drop cursor with
      | nil =>
        constructor
        · intro h
          cases h
        · rintro ⟨vals, rest, htake, hlength, -⟩
          obtain ⟨rfl, -⟩ := append_eq_nil_iff.mp htake.symm
          cases hlength
      | cons v tail =>
        have htail : supplied.drop (cursor + 1) = tail := by rw [← tail_drop, hdrop, tail_cons]
        refine Iff.trans ih ⟨?_, ?_⟩
        · rintro ⟨vals, rest, htake, hlength, rfl, rfl⟩
          refine ⟨v :: vals, rest, ?_, congrArg (· + 1) hlength, rfl, ?_⟩
          · rw [← htail, htake, cons_append]
          · rw [length_cons]
            omega
        · rintro ⟨vals, rest, htake, hlength, rfl, rfl⟩
          cases vals with
          | nil => cases hlength
          | cons v vals =>
            cases htake
            refine ⟨vals, rest, htail, Nat.succ.inj hlength, rfl, ?_⟩
            rw [length_cons]
            omega

end Levels

/-! ### Parents -/

section Parents

variable {blake : List UInt8 → Bytes32} {levelLen idx : ℕ} {full next next' : Level}

/-- What folding one parent does: nothing if it is there, otherwise it needs both children. -/
theorem foldParent_eq_ok :
    foldParent blake levelLen full next idx = .ok next' ↔
      (idx / 2 ∈ next.keys ∧ next' = next) ∨
      (idx / 2 ∉ next.keys ∧ ∃ l r, full.get? (idx / 2 * 2) = some l ∧
        (if idx / 2 * 2 + 1 < levelLen then full.get? (idx / 2 * 2 + 1) = some r else r = l) ∧
        next' = next.insert (idx / 2) (hashPair blake (l, r))) := by
  rw [foldParent]
  by_cases hmem : idx / 2 ∈ next.keys
  · rw [if_pos (contains_eq_true.mpr (mem_keys_iff.mp hmem))]
    simp only [hmem, true_and, not_true_eq_false, false_and, or_false, Except.ok.injEq]
    exact eq_comm
  · rw [if_neg (mt contains_eq_true.mp (mt mem_keys_iff.mpr hmem))]
    simp only [hmem]
    cases hl : full.get? (idx / 2 * 2) with
    | none => simp
    | some l =>
      by_cases hlt : idx / 2 * 2 + 1 < levelLen
      · simp only [if_pos hlt]
        cases hr : full.get? (idx / 2 * 2 + 1) with
        | none => simp
        | some r => simp [eq_comm]
      · simp [if_neg hlt, eq_comm]

/-- The parents of a level. -/
theorem mem_keys_foldParents
    (h : ks.foldlM (foldParent blake levelLen full) next = .ok next') (k : ℕ) :
    k ∈ next'.keys ↔ k ∈ next.keys ∨ ∃ idx ∈ ks, idx / 2 = k := by
  induction ks generalizing next with
  | nil =>
    cases h
    simp
  | cons idx ks ih =>
    obtain ⟨mid, hmid, h⟩ := bind_eq_ok h
    rw [ih h, exists_mem_cons_iff]
    rcases foldParent_eq_ok.mp hmid with ⟨hthere, rfl⟩ | ⟨-, l, r, -, -, rfl⟩
    · rw [← or_assoc, or_iff_left_of_imp fun hk : idx / 2 = k => hk ▸ hthere]
    · rw [mem_keys_insert, or_assoc, or_left_comm, eq_comm]

end Parents

/-! ### Schedules -/

/-- The supplied nodes of a walk and the paths of the tiles above it. -/
inductive Schedule (blake : List UInt8 → Bytes32) (offsets : List ℕ) :
    ℕ → ℕ → ℕ → Level → List Bytes32 → List (List Bytes32) → Prop
  | done (level levelLen : ℕ) (known : Level) :
      Schedule blake offsets 0 level levelLen known [] (offsets.map fun _ => [])
  | level {plen level levelLen : ℕ} {known next : Level} {vals entries nodes : List Bytes32}
      {paths : List (List Bytes32)}
      (supplied : vals.length = (asked levelLen known).length)
      (entered : offsets.mapM (pathEntry level levelLen
        (completeLevel known (asked levelLen known) vals)) = .ok entries)
      (folded : known.keys.foldlM (foldParent blake levelLen
        (completeLevel known (asked levelLen known) vals)) .empty = .ok next)
      (rest : Schedule blake offsets plen (level + 1) ((levelLen + 1) / 2) next nodes paths) :
      Schedule blake offsets (plen + 1) level levelLen known (vals ++ nodes)
        (zipWith cons entries paths)

section Walks

variable {blake : List UInt8 → Bytes32} {offsets : List ℕ} {plen level levelLen : ℕ}
  {known : Level} {nodes : List Bytes32} {paths : List (List Bytes32)} {full : Level}
  {vals : List Bytes32} {v : Bytes32}

/-- A schedule has one path for each tile, with one entry for each level. -/
theorem Schedule.paths_length (h : Schedule blake offsets plen level levelLen known nodes paths) :
    paths.length = offsets.length ∧ ∀ path ∈ paths, path.length = plen := by
  induction h with
  | done level levelLen known =>
    refine ⟨length_map _, fun path hpath => ?_⟩
    obtain ⟨-, -, rfl⟩ := mem_map.mp hpath
    rfl
  | level supplied entered folded rest ih =>
    have hentries := (mapM_eq_ok.mp entered).length_eq
    refine ⟨by rw [length_zipWith, ← hentries, ih.1, Nat.min_self], fun path hpath => ?_⟩
    obtain ⟨i, hi⟩ := mem_iff_getElem?.mp hpath
    obtain ⟨v, path', -, hpath', rfl⟩ := getElem?_zipWith_eq_some.mp hi
    rw [length_cons, ih.2 path' (mem_of_getElem? hpath')]

/-- Entries pushed to the paths one level at a time. -/
theorem zipWith_snoc_append (pre : List (List Bytes32)) (entries : List Bytes32)
    (paths : List (List Bytes32)) :
    zipWith (· ++ ·) (zipWith (fun path v => path ++ [v]) pre entries) paths
      = zipWith (· ++ ·) pre (zipWith cons entries paths) := by
  induction pre generalizing entries paths with
  | nil => rfl
  | cons path pre ih =>
    cases entries with
    | nil => rfl
    | cons v entries =>
      cases paths with
      | nil => rfl
      | cons p paths =>
        simp only [zipWith_cons_cons, append_assoc, singleton_append, ih]

/-- One level of a walk. -/
theorem walkLevels_succ_eq_ok {σ : Type}
    {visit : ℕ → ℕ → Level → σ → Except PomWireError (Level × σ)} {s r : σ} :
    walkLevels blake visit (plen + 1) level levelLen known s = .ok r ↔
      ∃ full s' next, visit level levelLen known s = .ok (full, s') ∧
        known.keys.foldlM (foldParent blake levelLen full) .empty = .ok next ∧
        walkLevels blake visit plen (level + 1) ((levelLen + 1) / 2) next s' = .ok r := by
  rw [walkLevels, bind_eq_ok_iff, Prod.exists]
  simp only [bind_eq_ok_iff, exists_and_left]

/-- What the decoder does at one level. -/
theorem decodeVisit_eq_ok {pre : List (List Bytes32)} {s : ℕ × List (List Bytes32)} :
    decodeVisit offsets supplied level levelLen known (cursor, pre) = .ok (full, s) ↔
      ∃ vals rest entries, supplied.drop cursor = vals ++ rest ∧
        vals.length = (asked levelLen known).length ∧
        full = completeLevel known (asked levelLen known) vals ∧
        offsets.mapM (pathEntry level levelLen full) = .ok entries ∧
        s = (cursor + vals.length, zipWith (fun path v => path ++ [v]) pre entries) := by
  rw [decodeVisit, bind_eq_ok_iff, Prod.exists]
  simp only [bind_eq_ok_iff, takeSibling_run]
  constructor
  · rintro ⟨full', cursor', ⟨vals, rest, hdrop, hlength, rfl, rfl⟩, entries, hentries, h⟩
    cases h
    exact ⟨vals, rest, entries, hdrop, hlength, rfl, hentries, rfl⟩
  · rintro ⟨vals, rest, entries, hdrop, hlength, rfl, hentries, rfl⟩
    exact ⟨_, _, ⟨vals, rest, hdrop, hlength, rfl, rfl⟩, entries, hentries, rfl⟩

/-- **The decoder follows a schedule**: it takes its nodes and rebuilds its paths. -/
theorem decodeWalk_iff {cursor' : ℕ}
    {pre out : List (List Bytes32)} (hpre : pre.length = offsets.length) :
    walkLevels blake (decodeVisit offsets supplied) plen level levelLen known (cursor, pre)
        = .ok (cursor', out) ↔
      ∃ nodes rest paths, supplied.drop cursor = nodes ++ rest ∧
        cursor' = cursor + nodes.length ∧ out = zipWith (· ++ ·) pre paths ∧
        Schedule blake offsets plen level levelLen known nodes paths := by
  induction plen generalizing level levelLen known cursor pre with
  | zero =>
    have hsame : zipWith (· ++ ·) pre (offsets.map fun _ => ([] : List Bytes32)) = pre := by
      refine ext_getElem (by simp [hpre]) fun i h₁ h₂ => ?_
      simp
    constructor
    · intro h
      cases h
      exact ⟨[], _, _, rfl, rfl, hsame.symm, .done level levelLen known⟩
    · rintro ⟨nodes, rest, paths, -, rfl, rfl, hschedule⟩
      cases hschedule
      rw [hsame]
      rfl
  | succ plen ih =>
    have hpushed : ∀ {full entries}, offsets.mapM (pathEntry level levelLen full) = .ok entries →
        (zipWith (fun path v => path ++ [v]) pre entries).length = offsets.length := by
      intro full entries hentries
      rw [length_zipWith, ← (mapM_eq_ok.mp hentries).length_eq, hpre, Nat.min_self]
    rw [walkLevels_succ_eq_ok]
    constructor
    · rintro ⟨full, s, next, hvisit, hnext, h⟩
      obtain ⟨vals, rest, entries, hdrop, hlength, rfl, hentries, rfl⟩ :=
        decodeVisit_eq_ok.mp hvisit
      obtain ⟨nodes, rest', paths, hdrop', rfl, rfl, hschedule⟩ := (ih (hpushed hentries)).mp h
      refine ⟨vals ++ nodes, rest', zipWith cons entries paths, ?_, ?_,
        zipWith_snoc_append pre entries paths, .level hlength hentries hnext hschedule⟩
      · rw [← drop_drop, hdrop, drop_left] at hdrop'
        rw [hdrop, hdrop', append_assoc]
      · rw [length_append, Nat.add_assoc]
    · rintro ⟨nodes, rest, paths, hdrop, rfl, rfl, hschedule⟩
      cases hschedule with
      | @level _ _ _ _ next vals entries nodes paths hlength hentries hnext hrest =>
        rw [append_assoc] at hdrop
        refine ⟨_, _, next, decodeVisit_eq_ok.mpr ⟨vals, nodes ++ rest, entries, hdrop, hlength,
          rfl, hentries, rfl⟩, hnext, (ih (hpushed hentries)).mpr
          ⟨nodes, rest, paths, ?_, ?_, (zipWith_snoc_append pre entries paths).symm, hrest⟩⟩
        · rw [← drop_drop, hdrop, drop_left]
        · rw [length_append, Nat.add_assoc]

/-! ### The encoder -/

/-- The node a path entry is read from. -/
def entryKey (levelLen anc : ℕ) : ℕ :=
  if anc ^^^ 1 < levelLen then anc ^^^ 1 else anc

theorem pathEntry_eq_ok {off : ℕ} :
    pathEntry level levelLen full off = .ok v ↔
      full.get? (entryKey levelLen (off / 2 ^ level)) = some v := by
  rw [pathEntry, entryKey]
  split <;> simp_all

/-- Paths whose entries follow from the ancestors are consistent. -/
theorem claimSibling_run {claim : ℕ → Bytes32} {tiles : List (ℕ × List Bytes32)} {claimed : Level}
    (hbefore : ∀ k v, claimed.get? k = some v → v = claim k)
    (h : ∀ t ∈ tiles, t.2.getD level default = claim (t.1 / 2 ^ level)) :
    ∃ claimed', tiles.foldlM (claimSibling level) claimed = .ok claimed' ∧
      ∀ k, (k ∈ claimed.keys ∨ ∃ t ∈ tiles, t.1 / 2 ^ level = k) →
        claimed'.get? k = some (claim k) := by
  induction tiles generalizing claimed with
  | nil =>
    refine ⟨claimed, rfl, fun k hk => ?_⟩
    obtain ⟨v, hv⟩ := mem_keys_iff.mp (hk.resolve_right fun ⟨_, ht, _⟩ => (by cases ht))
    rw [hv, hbefore k v hv]
  | cons t tiles ih =>
    have hv := h t mem_cons_self
    have hstep : claimSibling level claimed t
        = .ok (claimed.insert (t.1 / 2 ^ level) (claim (t.1 / 2 ^ level))) := by
      rw [claimSibling, hv]
      cases hprev : claimed.get? (t.1 / 2 ^ level) with
      | none => simp
      | some prev => simp [hbefore _ _ hprev]
    have hafter : ∀ k v,
        (claimed.insert (t.1 / 2 ^ level) (claim (t.1 / 2 ^ level))).get? k = some v →
          v = claim k := fun _ _ hk => forall_get?_insert hk rfl hbefore
    obtain ⟨claimed', hrun, hclaimed⟩ := ih hafter fun t ht => h t (mem_cons_of_mem _ ht)
    refine ⟨claimed', ?_, fun k hk => hclaimed k ?_⟩
    · rw [foldlM_cons, hstep]
      exact hrun
    · rw [mem_keys_insert]
      rw [exists_mem_cons_iff] at hk
      rcases hk with hk | hk | hk
      · exact .inl (.inr hk)
      · exact .inl (.inl hk.symm)
      · exact .inr hk

/-- The known nodes of a level are the ancestors of the tiles. -/
def IsAncestors (offsets : List ℕ) (level : ℕ) (known : Level) : Prop :=
  ∀ k, k ∈ known.keys ↔ ∃ off ∈ offsets, off / 2 ^ level = k

theorem IsAncestors.next (h : IsAncestors offsets level known) {next : Level}
    (hnext : known.keys.foldlM (foldParent blake levelLen full) .empty = .ok next) :
    IsAncestors offsets (level + 1) next := by
  intro k
  rw [mem_keys_foldParents hnext]
  constructor
  · rintro (hk | ⟨idx, hidx, rfl⟩)
    · cases hk
    · obtain ⟨off, hoff, rfl⟩ := (h idx).mp hidx
      exact ⟨off, hoff, by rw [pow_succ, Nat.div_div_eq_div_mul]⟩
  · rintro ⟨off, hoff, rfl⟩
    exact .inr ⟨off / 2 ^ level, (h _).mpr ⟨off, hoff, rfl⟩,
      by rw [pow_succ, Nat.div_div_eq_div_mul]⟩

/-- What the encoder does at one level: the paths claim the siblings of a completed level, and
those that are missing are emitted. -/
theorem encodeVisit_eq {merkle : List (List Bytes32)} {entries : List Bytes32}
    (hmerkle : merkle.length = offsets.length) (hknown : IsAncestors offsets level known)
    (hlength : vals.length = (asked levelLen known).length)
    (hentries : offsets.mapM (pathEntry level levelLen
      (completeLevel known (asked levelLen known) vals)) = .ok entries)
    (hpaths : merkle.map (·.getD level default) = entries) (acc : List Bytes32) :
    encodeVisit offsets merkle level levelLen known acc
      = .ok (completeLevel known (asked levelLen known) vals, acc ++ vals) := by
  set full := completeLevel known (asked levelLen known) vals with hfull
  set claim : ℕ → Bytes32 := fun k => (full.get? (entryKey levelLen k)).getD default
  have hentry : ∀ t ∈ offsets.zip merkle, t.2.getD level default = claim (t.1 / 2 ^ level) := by
    intro t ht
    have hread := (forall₂_iff_zip.mp
      (forall₂_map_right_iff.mp (mapM_eq_ok.mp (hpaths ▸ hentries)))).2 ht
    exact (congrArg (Option.getD · default) (pathEntry_eq_ok.mp hread)).symm
  have hempty : ∀ k v, (empty : Level).get? k = some v → v = claim k :=
    fun k v hk => (by cases hk)
  obtain ⟨claimed, hrun, hclaimed⟩ := claimSibling_run hempty hentry
  have hask : (asked levelLen known).map claimed.get? = vals.map some := by
    rw [← forall₂_eq_eq_eq, forall₂_map_left_iff, forall₂_map_right_iff, forall₂_iff_zip]
    refine ⟨hlength.symm, fun {idx v} he => ?_⟩
    obtain ⟨hidx, hlt, -⟩ := mem_asked.mp (of_mem_zip he).1
    obtain ⟨off, hoff, hanc⟩ := (hknown _).mp hidx
    obtain ⟨path, hpath⟩ := mem_zip_of_mem hmerkle.symm hoff
    have hsib : full.get? (idx ^^^ 1) = some v := get?_completeLevel (nodup_asked levelLen known) he
    rw [hclaimed _ (.inr ⟨_, hpath, hanc⟩)]
    simp only [claim, entryKey, if_pos hlt, hsib, Option.getD_some]
  rw [encodeVisit, hrun]
  exact emitSibling_run hask

/-- **The encoder emits the nodes of the schedule** of its paths. -/
theorem Schedule.encode (h : Schedule blake offsets plen level levelLen known nodes paths)
    {merkle : List (List Bytes32)} (hmerkle : merkle.length = offsets.length)
    (hpaths : merkle.map (drop level) = paths) (hknown : IsAncestors offsets level known)
    (acc : List Bytes32) :
    walkLevels blake (encodeVisit offsets merkle) plen level levelLen known acc
      = .ok (acc ++ nodes) := by
  induction h generalizing acc with
  | done level levelLen known =>
    rw [append_nil]
    rfl
  | @level plen level levelLen known next vals entries nodes paths hlength hentries hnext hrest
      ih =>
      have hcount : entries.length = paths.length := by
        rw [hrest.paths_length.1, (mapM_eq_ok.mp hentries).length_eq]
      have hheads : merkle.map (·.getD level default) = entries := by
        have h := congrArg (List.map fun path => path.head?.getD default) hpaths
        rw [map_zipWith] at h
        simpa [Function.comp_def] using
          h.trans (map_zip_eq_zipWith.symm.trans (map_fst_zip hcount.le))
      have htails : merkle.map (drop (level + 1)) = paths := by
        have h := congrArg (map tail) hpaths
        rw [map_zipWith] at h
        simpa [Function.comp_def] using
          h.trans (map_zip_eq_zipWith.symm.trans (map_snd_zip hcount.ge))
      refine walkLevels_succ_eq_ok.mpr ⟨_, _, next,
        encodeVisit_eq hmerkle hknown hlength hentries hheads acc, hnext, ?_⟩
      rw [ih htails (hknown.next hnext), append_assoc]

/-- A schedule supplies at most one node for each tile and level. -/
theorem Schedule.nodes_length_le (h : Schedule blake offsets plen level levelLen known nodes paths)
    (hknown : IsAncestors offsets level known) : nodes.length ≤ plen * offsets.length := by
  induction h with
  | done level levelLen known => exact Nat.zero_le _
  | @level plen level levelLen known next vals entries nodes paths hlength hentries hnext hrest
      ih =>
      have hkeys : known.keys.length ≤ (offsets.map (· / 2 ^ level)).length := by
        refine (known.nodup_keys.subperm fun k hk => ?_).length_le
        obtain ⟨off, hoff, rfl⟩ := (hknown k).mp hk
        exact mem_map_of_mem hoff
      rw [length_map] at hkeys
      have hvals : vals.length ≤ offsets.length :=
        hlength.trans_le ((length_filter_le _ _).trans hkeys)
      have hnodes := ih (hknown.next hnext)
      rw [length_append, Nat.succ_mul]
      omega

/-! ### Genuine paths -/

/-- The known nodes are nodes of a level of a tree. -/
def Agrees (known : Level) (tree : List Bytes32) : Prop :=
  ∀ k v, known.get? k = some v → tree[k]? = some v

variable {tree : List Bytes32}

theorem Agrees.insert (h : Agrees known tree) {k : ℕ} (hv : tree[k]? = some v) :
    Agrees (known.insert k v) tree :=
  fun _ _ hk => forall_get?_insert hk hv h

theorem Agrees.completeLevel (h : Agrees known tree)
    (hvals : Forall₂ (fun idx v => tree[idx ^^^ 1]? = some v) idxs vals) :
    Agrees (completeLevel known idxs vals) tree :=
  foldlRecOn _ _ (motive := (Agrees · tree)) h fun _ hknown _ he =>
    hknown.insert ((forall₂_iff_zip.mp hvals).2 he)

/-- A level that has both children of the parents of some nodes. -/
def Covers (levelLen : ℕ) (full : Level) (ks : List ℕ) : Prop :=
  ∀ idx ∈ ks, ∀ child, child / 2 = idx / 2 → child < levelLen → child ∈ full.keys

/-- The parents of a genuine level can be folded, and are genuine. -/
theorem foldParents_of_agrees (blake : List UInt8 → Bytes32)
    (next : Level) (hfull : Agrees full tree) (hcovers : Covers tree.length full ks)
    (hks : ∀ k ∈ ks, k < tree.length)
    (hnext : Agrees next (foldLevel (hashPair blake) tree)) :
    ∃ next', ks.foldlM (foldParent blake tree.length full) next = .ok next' ∧
      Agrees next' (foldLevel (hashPair blake) tree) := by
  induction ks generalizing next with
  | nil => exact ⟨next, rfl, hnext⟩
  | cons idx ks ih =>
    have hrest : Covers tree.length full ks := fun k hk => hcovers k (mem_cons_of_mem _ hk)
    have hlt := hks idx mem_cons_self
    suffices hstep : ∃ mid, foldParent blake tree.length full next idx = .ok mid ∧
        Agrees mid (foldLevel (hashPair blake) tree) by
      obtain ⟨mid, hmid, hagrees⟩ := hstep
      rw [foldlM_cons, hmid]
      exact ih mid hrest (fun k hk => hks k (mem_cons_of_mem _ hk)) hagrees
    by_cases hthere : idx / 2 ∈ next.keys
    · exact ⟨next, foldParent_eq_ok.mpr (.inl ⟨hthere, rfl⟩), hnext⟩
    obtain ⟨l, hl⟩ := mem_keys_iff.mp
      (hcovers idx mem_cons_self (idx / 2 * 2) (by omega) (by omega))
    have hl' := hfull _ _ hl
    by_cases hright : idx / 2 * 2 + 1 < tree.length
    · obtain ⟨r, hr⟩ := mem_keys_iff.mp
        (hcovers idx mem_cons_self (idx / 2 * 2 + 1) (by omega) hright)
      refine ⟨_, foldParent_eq_ok.mpr (.inr ⟨hthere, l, r, hl, ?_, rfl⟩), hnext.insert ?_⟩
      · rw [if_pos hright, hr]
      · rw [foldLevel, getElem?_map, getElem?_pairUp, Nat.mul_comm, hl', hfull _ _ hr]
        rfl
    · refine ⟨_, foldParent_eq_ok.mpr (.inr ⟨hthere, l, l, hl, ?_, rfl⟩), hnext.insert ?_⟩
      · rw [if_neg hright]
      · rw [foldLevel, getElem?_map, getElem?_pairUp, Nat.mul_comm, hl',
          getElem?_eq_none (not_lt.mp hright)]
        rfl

/-- The siblings a genuine level is completed with. -/
def genuineSiblings (tree : List Bytes32) (known : Level) : List Bytes32 :=
  (asked tree.length known).map fun idx => tree.getD (idx ^^^ 1) default

theorem Agrees.genuineSiblings (h : Agrees known tree) :
    Agrees (Pom.completeLevel known (asked tree.length known) (genuineSiblings tree known))
      tree := by
  refine h.completeLevel (forall₂_map_right_iff.mpr (forall₂_same.mpr fun idx hidx => ?_))
  obtain ⟨-, hlt, -⟩ := mem_asked.mp hidx
  rw [getElem?_eq_getElem hlt, getD_eq_getElem _ _ hlt]

/-- A completed level has the children of all parents. -/
theorem covers_completeLevel (hlength : vals.length = (asked levelLen known).length) :
    Covers levelLen (completeLevel known (asked levelLen known) vals) known.keys := by
  intro idx hidx child hparent hlt
  have hcases : child = idx ∨ child = idx ^^^ 1 := by
    rw [xor_one_eq]
    split <;> omega
  rcases hcases with rfl | rfl
  · obtain ⟨v, hv⟩ := mem_keys_iff.mp hidx
    exact mem_keys_iff.mpr ⟨v, get?_completeLevel_of_known hv⟩
  · exact mem_keys_iff.mpr (exists_get?_sibling hlength hidx hlt)

theorem sibling?_eq (tree : List Bytes32) (idx : ℕ) :
    sibling? tree idx = tree[entryKey tree.length idx]? := by
  rw [sibling?, entryKey]
  split <;> rfl

/-- A genuine level has the siblings of its known nodes. -/
theorem get?_entryKey {anc : ℕ} (hfull : Agrees full tree)
    (hcovers : Covers tree.length full known.keys) (hanc : anc ∈ known.keys)
    (hlt : anc < tree.length) :
    ∃ v, full.get? (entryKey tree.length anc) = some v ∧ sibling? tree anc = some v := by
  have hkey : entryKey tree.length anc ∈ full.keys := by
    refine hcovers anc hanc _ ?_ ?_
    · rw [entryKey, xor_one_eq]
      split <;> split <;> omega
    · rw [entryKey]
      split <;> assumption
  obtain ⟨v, hv⟩ := mem_keys_iff.mp hkey
  exact ⟨v, hv, (sibling?_eq tree anc).trans (hfull _ _ hv)⟩

/-- **The genuine paths of a tree have a schedule**: the missing siblings are nodes of the tree. -/
theorem schedule_of_agrees (blake : List UInt8 → Bytes32) (hagrees : Agrees known tree)
    (hknown : IsAncestors offsets level known)
    (hlt : ∀ off ∈ offsets, off / 2 ^ level < tree.length) :
    ∃ nodes, Schedule blake offsets (pathLen tree.length) level tree.length known nodes
      (offsets.map fun off =>
        (path? (hashPair blake) tree (off / 2 ^ level)).getD []) := by
  induction hn : pathLen tree.length generalizing tree level known with
  | zero =>
    have hle : tree.length ≤ 1 := not_lt.mp fun hlt => (pathLen_pos.mpr hlt).ne' hn
    refine ⟨[], ?_⟩
    simp only [path?_of_le hle]
    exact .done level tree.length known
  | succ n ih =>
    have hwide := pathLen_pos.mp ((Nat.succ_pos n).trans_eq hn.symm)
    have hlength : (genuineSiblings tree known).length = (asked tree.length known).length :=
      length_map _
    set full := completeLevel known (asked tree.length known) (genuineSiblings tree known)
    have hfull : Agrees full tree := hagrees.genuineSiblings
    have hcovers : Covers tree.length full known.keys := covers_completeLevel hlength
    have hkeys : ∀ k ∈ known.keys, k < tree.length := by
      intro k hk
      obtain ⟨off, hoff, rfl⟩ := (hknown k).mp hk
      exact hlt off hoff
    obtain ⟨next, hnext, hagrees'⟩ :=
      foldParents_of_agrees blake .empty hfull hcovers hkeys fun k v hk => (by cases hk)
    have hlt' : ∀ off ∈ offsets, off / 2 ^ (level + 1)
        < (foldLevel (hashPair blake) tree).length := by
      intro off hoff
      have := hlt off hoff
      rw [length_foldLevel, pow_succ, ← Nat.div_div_eq_div_mul]
      omega
    obtain ⟨nodes, hrest⟩ := ih hagrees' (hknown.next hnext) hlt' (by
      rw [pathLen_of_lt hwide] at hn
      rw [length_foldLevel]
      exact Nat.succ.inj hn)
    rw [length_foldLevel] at hrest
    -- The entries of this level are the siblings of the ancestors.
    have hentry : ∀ off ∈ offsets, ∃ v, sibling? tree (off / 2 ^ level) = some v ∧
        pathEntry level tree.length full off = .ok v := by
      intro off hoff
      obtain ⟨v, hv, hsib⟩ := get?_entryKey hfull hcovers ((hknown _).mpr ⟨off, hoff, rfl⟩)
        (hlt off hoff)
      exact ⟨v, hsib, pathEntry_eq_ok.mpr hv⟩
    have hentries : offsets.mapM (pathEntry level tree.length full)
        = .ok (offsets.map fun off => (sibling? tree (off / 2 ^ level)).getD default) := by
      refine mapM_eq_ok.mpr (forall₂_map_right_iff.mpr (forall₂_same.mpr fun off hoff => ?_))
      obtain ⟨v, hsib, hv⟩ := hentry off hoff
      rw [hv, hsib]
      rfl
    refine ⟨Pom.genuineSiblings tree known ++ nodes, ?_⟩
    have hpaths : (offsets.map fun off =>
        (path? (hashPair blake) tree (off / 2 ^ level)).getD [])
        = zipWith cons
          (offsets.map fun off => (sibling? tree (off / 2 ^ level)).getD default)
          (offsets.map fun off => (path? (hashPair blake)
            (foldLevel (hashPair blake) tree) (off / 2 ^ (level + 1))).getD []) := by
      rw [zipWith_map, zipWith_self]
      refine map_congr_left fun off hoff => ?_
      obtain ⟨v, hsib, -⟩ := hentry off hoff
      obtain ⟨path, -, hpath, -⟩ := path_climbs (hashPair blake)
        (getElem?_eq_getElem (hlt' off hoff))
      rw [path?_of_lt hwide, hsib, Nat.div_div_eq_div_mul, ← pow_succ, hpath]
      rfl
    rw [hpaths]
    exact .level hlength hentries hnext hrest

end Walks

end Pom

end KeryxNode
