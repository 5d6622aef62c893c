import KeryxNode.OrdMap

/-!
# Range Scans over Ordered Maps

A range of an ordered store is read by seeking to its first key and iterating while the keys
stay below its end. On sorted entries that is a filter (`scan_eq_filter`), which is how every
reader of a range is reasoned about.

A reader that does not hold the store for the whole range reads it in chunks, and resumes after the
last key it has read: it seeks to that key and skips the entry it finds. If the key is gone by then
it skips another one (`mem_of_scanChunks`).
-/

namespace KeryxNode

open List

universe u v

/-- On a list where the property passes to earlier elements, dropping the front is
filtering. -/
theorem dropWhile_eq_filter {α : Type u} {p : α → Bool} {l : List α}
    (h : l.Pairwise fun a b => p b = true → p a = true) :
    l.dropWhile p = l.filter fun a => !p a := by
  induction l with
  | nil => rfl
  | cons a l ih =>
    obtain ⟨hhead, htail⟩ := pairwise_cons.mp h
    cases hp : p a with
    | true => rw [dropWhile_cons_of_pos hp, ih htail, filter_cons_of_neg (by simp [hp])]
    | false =>
      rw [dropWhile_cons_of_neg (by simp [hp]), filter_cons_of_pos (by simp [hp])]
      congr 1
      refine (filter_eq_self.mpr fun b hb => ?_).symm
      have : p b ≠ true := fun hpb => by simp [hhead b hb hpb] at hp
      simpa using this

/-- On such a list, taking the front is filtering. -/
theorem takeWhile_eq_filter {α : Type u} {p : α → Bool} {l : List α}
    (h : l.Pairwise fun a b => p b = true → p a = true) : l.takeWhile p = l.filter p := by
  induction l with
  | nil => rfl
  | cons a l ih =>
    obtain ⟨hhead, htail⟩ := pairwise_cons.mp h
    cases hp : p a with
    | true => rw [takeWhile_cons_of_pos hp, ih htail, filter_cons_of_pos hp]
    | false =>
      rw [takeWhile_cons_of_neg (by simp [hp]), filter_cons_of_neg (by simp [hp])]
      refine (filter_eq_nil_iff.mpr fun b hb hpb => ?_).symm
      simp [hhead b hb hpb] at hp

/-- A list of increasing scores splits at a score. -/
theorem filter_le_append_filter_lt {α : Type u} {f : α → ℕ} {l : List α}
    (h : l.Pairwise fun a b => f a < f b) (d : ℕ) :
    (l.filter fun a => decide (f a ≤ d)) ++ l.filter (fun a => decide (d < f a)) = l := by
  have hinit : l.Pairwise fun a b => decide (f b ≤ d) = true → decide (f a ≤ d) = true :=
    h.imp fun hab hb => decide_eq_true (hab.le.trans (of_decide_eq_true hb))
  have hhigh : (fun a => decide (d < f a)) = fun a => !decide (f a ≤ d) := by
    simp only [← not_le, decide_not]
  rw [hhigh, ← takeWhile_eq_filter hinit, ← dropWhile_eq_filter hinit, takeWhile_append_dropWhile]

namespace OrdMap

variable {K : Type u} {V : Type v} [LinearOrder K]

/-- The entries from the first key that is not `below`, as long as the keys are `upTo`. -/
def scan (m : OrdMap K V) (below upTo : K → Bool) : List (K × V) :=
  (m.entries.dropWhile fun e => below e.1).takeWhile fun e => upTo e.1

/-- **A scan is a filter**, where both bounds are initial segments of the keys. -/
theorem scan_eq_filter (m : OrdMap K V) {below upTo : K → Bool}
    (hbelow : ∀ j k, j < k → below k = true → below j = true)
    (hupTo : ∀ j k, j < k → upTo k = true → upTo j = true) :
    m.scan below upTo = m.entries.filter fun e => !below e.1 && upTo e.1 := by
  have hdrop := dropWhile_eq_filter (p := fun e : K × V => below e.1)
    (m.sorted.imp fun {a b} hab => hbelow a.1 b.1 hab)
  have htake := takeWhile_eq_filter (p := fun e : K × V => upTo e.1)
    ((m.sorted.imp fun {a b} hab => hupTo a.1 b.1 hab).filter fun e => !below e.1)
  rw [scan, hdrop, htake, filter_filter]
  exact filter_congr fun e _ => Bool.and_comm _ _

/-! ### Chunked scans -/

/-- The entries from the start, or from the first key at or after the one to resume after without
the entry found there. -/
def rest (m : OrdMap K V) : Option K → List (K × V)
  | none => m.entries
  | some k => (m.entries.dropWhile fun e => decide (e.1 < k)).drop 1

/-- The chunks of a scan that finds the map in one state after the other. It resumes after the last
key of a full chunk and ends with a chunk that is not full. -/
def scanChunks (limit : ℕ) : Option K → List (OrdMap K V) → Option (List (List (K × V)))
  | _, [] => none
  | resumeAfter, m :: states =>
    let c := (m.rest resumeAfter).take limit
    if c.length < limit then if states.isEmpty then some [c] else none
    else (scanChunks limit (c.getLast?.map Prod.fst) states).map (c :: ·)

/-- The key to resume after is there whenever a chunk is read. -/
def Resumable (limit : ℕ) : Option K → List (OrdMap K V) → Prop
  | _, [] => True
  | resumeAfter, m :: states => (∀ k ∈ resumeAfter, m.contains k = true) ∧
    Resumable limit (((m.rest resumeAfter).take limit).getLast?.map Prod.fst) states

variable {m : OrdMap K V} {r : Option K} {limit : ℕ} {k : K} {v : V} {e : K × V}
  {states : List (OrdMap K V)} {chunks : List (List (K × V))}

theorem sorted_rest (m : OrdMap K V) (r : Option K) : (m.rest r).Pairwise fun a b => a.1 < b.1 := by
  cases r with
  | none => exact m.sorted
  | some k => exact m.sorted.sublist ((drop_sublist _ _).trans (dropWhile_sublist _))

/-- The first key that is not earlier is left out. -/
theorem rest_of_split {a b : List (K × V)} (h : m.entries = a ++ e :: b) (ha : ∀ x ∈ a, x.1 < k)
    (he : k ≤ e.1) : m.rest (some k) = b := by
  rw [rest, h, dropWhile_append_of_pos fun x hx => decide_eq_true (ha x hx),
    dropWhile_cons_of_neg (by simpa using he), drop_one, tail_cons]

/-- Only later keys are read. -/
theorem of_mem_rest (h : e ∈ m.rest r) : m.get? e.1 = some e.2 ∧ ∀ k ∈ r, k < e.1 := by
  cases r with
  | none => exact ⟨get?_eq_some_iff.mpr h, fun k hk => by cases hk⟩
  | some k =>
    have hfilter := dropWhile_eq_filter (p := fun e : K × V => decide (e.1 < k))
      (m.sorted.imp fun {a b} hab hb => decide_eq_true (hab.trans (of_decide_eq_true hb)))
    have hsorted := m.sorted.filter fun e => !decide (e.1 < k)
    rw [rest, hfilter] at h
    cases hlist : m.entries.filter fun e => !decide (e.1 < k) with
    | nil => rw [hlist] at h; cases h
    | cons x l =>
      rw [hlist] at h hsorted
      have hx := (mem_filter.mp (hlist ▸ mem_cons_self : x ∈ m.entries.filter _)).2
      have he := (mem_filter.mp (hlist ▸ mem_cons_of_mem x h : e ∈ m.entries.filter _)).1
      refine ⟨get?_eq_some_iff.mpr he, fun j hj => ?_⟩
      cases hj
      exact lt_of_le_of_lt (not_lt.mp (by simpa using hx)) ((pairwise_cons.mp hsorted).1 e h)

/-- All later keys are, if the one to resume after is there. -/
theorem mem_rest (hr : ∀ j ∈ r, m.contains j = true ∧ j < k) (h : m.get? k = some v) :
    (k, v) ∈ m.rest r := by
  have hmem := get?_eq_some_iff.mp h
  cases r with
  | none => exact hmem
  | some j =>
    obtain ⟨hj, hlt⟩ := hr j rfl
    obtain ⟨w, hw⟩ := contains_eq_true.mp hj
    obtain ⟨a, b, hab⟩ := append_of_mem (get?_eq_some_iff.mp hw)
    have ha : ∀ x ∈ a, x.1 < j := fun x hx =>
      (pairwise_append.mp (hab ▸ m.sorted)).2.2 x hx _ mem_cons_self
    rw [rest_of_split hab ha le_rfl]
    rw [hab, mem_append, mem_cons] at hmem
    rcases hmem with hk | ⟨rfl, -⟩ | hb
    · exact absurd hlt (ha _ hk).asymm
    · exact absurd hlt (lt_irrefl _)
    · exact hb

/-- A full chunk ends with its greatest key. -/
theorem exists_last (hlimit : 0 < limit) (h : ¬ ((m.rest r).take limit).length < limit) :
    ∃ x ∈ (m.rest r).take limit, ((m.rest r).take limit).getLast? = some x ∧
      ∀ e ∈ (m.rest r).take limit, e.1 ≤ x.1 := by
  have hsorted := (sorted_rest m r).sublist (take_sublist limit _)
  rcases eq_nil_or_concat ((m.rest r).take limit) with hnil | ⟨l, x, hlast⟩
  · rw [hnil] at h
    exact absurd hlimit h
  · rw [hlast, concat_eq_append] at hsorted ⊢
    exact ⟨x, mem_append_right l mem_cons_self, getLast?_concat, forall_mem_append.mpr
      ⟨fun e he => ((pairwise_append.mp hsorted).2.2 e he x mem_cons_self).le,
        forall_mem_singleton.mpr le_rfl⟩⟩

section

variable (hlimit : 0 < limit) (h : scanChunks limit r states = some chunks)
include hlimit h

/-- **What a scan returns**: ascending keys after the one to resume after, each with the value it
had when its chunk was read. -/
theorem of_scanChunks : (chunks.flatten.Pairwise fun a b => a.1 < b.1) ∧
    (∀ e ∈ chunks.flatten, ∀ k ∈ r, k < e.1) ∧
    Forall₂ (fun m c => ∀ e ∈ c, m.get? e.1 = some e.2) states chunks := by
  induction states generalizing r chunks with
  | nil => cases h
  | cons m states ih =>
    have hchunk : ∀ e ∈ (m.rest r).take limit, _ := fun e he => of_mem_rest (mem_of_mem_take he)
    have hsorted := (sorted_rest m r).sublist (take_sublist limit _)
    rw [scanChunks] at h
    split at h
    · split at h
      · next hnil =>
        cases h
        obtain rfl := isEmpty_iff.mp hnil
        rw [flatten_singleton]
        exact ⟨hsorted, fun e he => (hchunk e he).2, .cons (fun e he => (hchunk e he).1) .nil⟩
      · cases h
    · next hfull =>
      obtain ⟨later, hlater, rfl⟩ := Option.map_eq_some_iff.mp h
      obtain ⟨x, hx, hlast, hmax⟩ := exists_last hlimit hfull
      obtain ⟨hasc, hafter, heach⟩ := ih hlater
      have hlt : ∀ b ∈ later.flatten, x.1 < b.1 := fun b hb => hafter b hb x.1 (by rw [hlast]; rfl)
      refine ⟨pairwise_append.mpr ⟨hsorted, hasc, fun a ha b hb => (hmax a ha).trans_lt (hlt b hb)⟩,
        fun e he k hk => ?_, .cons (fun e he => (hchunk e he).1) heach⟩
      rcases mem_append.mp he with he | he
      · exact (hchunk e he).2 k hk
      · exact ((hchunk x hx).2 k hk).trans (hlt e he)

/-- **A scan misses nothing that stays**, if the keys it resumes after stay too. -/
theorem mem_of_scanChunks (hresume : Resumable limit r states) (hk : ∀ j ∈ r, j < k)
    (hget : ∀ m ∈ states, m.get? k = some v) : (k, v) ∈ chunks.flatten := by
  induction states generalizing r chunks with
  | nil => cases h
  | cons m states ih =>
    obtain ⟨hthere, hresume⟩ := hresume
    have hmem := mem_rest (fun j hj => ⟨hthere j hj, hk j hj⟩) (hget m mem_cons_self)
    rw [scanChunks] at h
    split at h
    · next hshort =>
      split at h
      · cases h
        rw [length_take, inf_lt_left, not_le] at hshort
        rwa [flatten_singleton, take_of_length_le hshort.le]
      · cases h
    · next hfull =>
      obtain ⟨later, hlater, rfl⟩ := Option.map_eq_some_iff.mp h
      obtain ⟨x, hx, hlast, -⟩ := exists_last hlimit hfull
      rw [flatten_cons, mem_append]
      rw [← take_append_drop limit (m.rest r)] at hmem
      refine (mem_append.mp hmem).imp_right fun hdrop => ih hlater hresume (fun j hj => ?_)
        fun m' hm' => hget m' (mem_cons_of_mem m hm')
      rw [hlast] at hj
      cases hj
      have hsorted := sorted_rest m r
      rw [← take_append_drop limit (m.rest r)] at hsorted
      exact (pairwise_append.mp hsorted).2.2 x hx _ hdrop

end

/-- A scan of two chunks: the first is full, and the second is what is read after its last key. -/
theorem scanChunks_two {m' : OrdMap K V} {a b c : List (K × V)}
    (h : m.entries = a ++ (k, v) :: b) (hlimit : a.length + 1 = limit)
    (hrest : m'.rest (some k) = c) (hshort : c.length < limit) :
    scanChunks limit none [m, m'] = some [a ++ [(k, v)], c] ∧
      (m'.contains k = true → Resumable limit none [m, m']) := by
  have hfirst : (m.rest none).take limit = a ++ [(k, v)] := by
    rw [rest, h, ← hlimit, take_length_add_append]
    rfl
  have hfull : ¬ (a ++ [(k, v)]).length < limit := by simp [hlimit]
  constructor
  · rw [scanChunks, hfirst, if_neg hfull, getLast?_concat, Option.map_some, scanChunks, hrest,
      take_of_length_le hshort.le, if_pos hshort]
    rfl
  · intro hthere
    rw [Resumable, hfirst, getLast?_concat]
    exact ⟨fun j hj => (by cases hj), fun j hj => Option.some.inj hj ▸ hthere, trivial⟩

/-- Erasing a key leaves the entries of other keys where they are. -/
theorem entries_erase_append {a b : List (K × V)} (h : m.entries = a ++ b)
    (hb : ∀ x ∈ b, x.1 ≠ k) : ∃ a' ⊆ a, (m.erase k).entries = a' ++ b := by
  refine ⟨a.filter fun x => decide (x.1 ≠ k), filter_subset_self _, ?_⟩
  change m.entries.filter _ = _
  rw [h, filter_append]
  exact congrArg _ (filter_eq_self.mpr fun x hx => decide_eq_true (hb x hx))

/-- **A scan misses the entry after its last key**, if that key goes before the scan resumes. -/
theorem scanChunks_erase {a : List (K × V)} (h : m.entries = a ++ [(k, v), e])
    (hlimit : a.length + 1 = limit) :
    scanChunks limit none [m, m.erase k] = some [a ++ [(k, v)], []] := by
  obtain ⟨-, hke, hak⟩ := pairwise_append.mp (h ▸ m.sorted)
  have hlt : k < e.1 := (pairwise_cons.mp hke).1 e mem_cons_self
  have ha : ∀ x ∈ a, x.1 < k := fun x hx => hak x hx _ mem_cons_self
  have hentries : (m.erase k).entries = a ++ [e] := by
    change m.entries.filter _ = _
    rw [h, filter_append, filter_cons_of_neg (by simp), filter_cons_of_pos (by simpa using hlt.ne'),
      filter_nil, filter_eq_self.mpr fun x hx => by simpa using (ha x hx).ne]
  exact (scanChunks_two h hlimit (rest_of_split hentries ha hlt.le)
    (by rw [length_nil]; omega)).1

end OrdMap

end KeryxNode
