import Mathlib.Data.List.Chain
import Mathlib.Order.Basic

/-!
# Run-Length Code with Cumulative Counts

A list with long runs is kept as its runs, each with the number of entries up to its end. An entry
is read by looking for the first run that ends after it, and appended by lengthening the last run
or by opening a new one.
-/

namespace KeryxNode

open List Option Prod

universe u

/-- Runs of equal entries, each with the number of entries up to its end. -/
structure RunLength (α : Type u) where
  runs : List (ℕ × α)
  increasing : (0 :: runs.map fst).IsChain (· < ·)
  deriving DecidableEq

namespace RunLength

variable {α : Type u} {runs : List (ℕ × α)} (start : ℕ)

/-- The number of entries up to the end of the runs, of which `start` come before them. -/
def endOf (start : ℕ) (runs : List (ℕ × α)) : ℕ :=
  (runs.getLast?.map fst).getD start

/-- The entries of the runs that start after `start` entries. -/
def expandFrom : ℕ → List (ℕ × α) → List α
  | _, [] => []
  | start, (count, x) :: runs => replicate (count - start) x ++ expandFrom count runs

/-- No runs. -/
def empty : RunLength α :=
  ⟨[], isChain_singleton 0⟩

/-- The list the runs stand for. -/
def expand (r : RunLength α) : List α :=
  expandFrom 0 r.runs

/-- The number of entries. -/
def expandedLen (r : RunLength α) : ℕ :=
  endOf 0 r.runs

/-- The entry at an index: the value of the first run that ends after it. -/
def get (r : RunLength α) (index : ℕ) : Option α :=
  if r.expandedLen ≤ index then none
  else if index = 0 then r.runs.head?.map snd
  else (r.runs[r.runs.findIdx fun run => !decide (run.1 - 1 < index)]?).map snd

/-! ### The expanded list -/

@[simp]
theorem endOf_nil : endOf start ([] : List (ℕ × α)) = start :=
  rfl

@[simp]
theorem endOf_cons (run : ℕ × α) (runs : List (ℕ × α)) :
    endOf start (run :: runs) = endOf run.1 runs := by
  rw [endOf, endOf, getLast?_cons]
  cases runs.getLast? <;> rfl

@[simp]
theorem endOf_concat (run : ℕ × α) (runs : List (ℕ × α)) :
    endOf start (runs ++ [run]) = run.1 := by
  simp [endOf]

/-- A further run may follow if its count is larger. -/
theorem isChain_concat {start : ℕ} {run : ℕ × α} :
    (start :: (runs ++ [run]).map fst).IsChain (· < ·) ↔
      (start :: runs.map fst).IsChain (· < ·) ∧ endOf start runs < run.1 := by
  induction runs generalizing start with
  | nil => simp
  | cons head runs ih =>
    rw [cons_append, map_cons, isChain_cons_cons, ih, map_cons,
      isChain_cons_cons, endOf_cons, and_assoc]

theorem expandFrom_concat (count : ℕ) (x : α) (runs : List (ℕ × α)) :
    expandFrom start (runs ++ [(count, x)])
      = expandFrom start runs ++ replicate (count - endOf start runs) x := by
  induction runs generalizing start with
  | nil => simp [expandFrom]
  | cons head runs ih =>
    rw [cons_append, expandFrom, ih, expandFrom, endOf_cons, append_assoc]

theorem length_expandFrom {start : ℕ} (h : (start :: runs.map fst).IsChain (· < ·)) :
    start + (expandFrom start runs).length = endOf start runs := by
  induction runs generalizing start with
  | nil => rfl
  | cons head runs ih =>
    rw [map_cons, isChain_cons_cons] at h
    have htail := ih h.2
    rw [expandFrom, length_append, length_replicate, endOf_cons]
    omega

@[simp]
theorem length_expand (r : RunLength α) : r.expand.length = r.expandedLen := by
  have h := length_expandFrom r.increasing
  rwa [Nat.zero_add] at h

/-- An entry of the expanded list belongs to the first run that ends after it. Counts are positive,
so `count - 1 < index` says that a run ends before the entry. -/
theorem getElem?_expandFrom {start index : ℕ} (h : (start :: runs.map fst).IsChain (· < ·))
    (hstart : start ≤ index) :
    (expandFrom start runs)[index - start]?
      = (runs.find? fun run => !decide (run.1 - 1 < index)).map snd := by
  induction runs generalizing start with
  | nil => rfl
  | cons head runs ih =>
    obtain ⟨count, x⟩ := head
    rw [map_cons, isChain_cons_cons] at h
    rw [expandFrom]
    by_cases hlt : index < count
    · have hends : (!decide (count - 1 < index)) = true := by simp; omega
      rw [find?_cons, hends, getElem?_append_left (by simp; omega),
        getElem?_replicate_of_lt (by omega)]
      rfl
    · have hends : (!decide (count - 1 < index)) = false := by simp; omega
      rw [find?_cons, hends, getElem?_append_right (by simp; omega),
        length_replicate, ← ih h.2 (Nat.le_of_not_lt hlt)]
      congr 1
      omega

/-- Reading an entry reads the expanded list. -/
theorem get_eq (r : RunLength α) (index : ℕ) : r.get index = r.expand[index]? := by
  have hentry := getElem?_expandFrom r.increasing (Nat.zero_le index)
  rw [Nat.sub_zero] at hentry
  change _ = (expandFrom 0 r.runs)[index]?
  rw [get]
  split
  · next hlen =>
    exact (getElem?_eq_none (r.length_expand ▸ hlen)).symm
  · split
    · next hzero =>
      -- No run ends before the first entry.
      subst hzero
      rw [hentry]
      cases r.runs <;> rfl
    · rw [hentry, find?_eq_getElem?_findIdx]

/-! ### Appending -/

section Push

variable [DecidableEq α] {limit : ℕ} {x : α}

/-- The runs after an entry was appended; none if a count would exceed the limit. -/
def pushRuns (limit : ℕ) (runs : List (ℕ × α)) (x : α) : Option (List (ℕ × α)) :=
  match runs.getLast? with
  | some (count, last) =>
    if count + 1 ≤ limit then
      if last = x then some (runs.dropLast ++ [(count + 1, last)])
      else some (runs ++ [(count + 1, x)])
    else none
  | none => some [(1, x)]

/-- What appending does: it lengthens the last run or opens a new one. -/
theorem pushRuns_cases {runs runs' : List (ℕ × α)} (h : pushRuns limit runs x = some runs') :
    (∃ front count, runs = front ++ [(count, x)] ∧ runs' = front ++ [(count + 1, x)]) ∨
      runs' = runs ++ [(endOf 0 runs + 1, x)] := by
  obtain rfl | ⟨front, ⟨count, last⟩, rfl⟩ := eq_nil_or_concat runs
  · exact .inr (some.inj h).symm
  · rw [concat_eq_append, pushRuns, getLast?_concat] at h
    dsimp only at h
    split at h
    · split at h
      · next hlast =>
        obtain rfl := hlast
        rw [dropLast_concat] at h
        exact .inl ⟨front, count, concat_eq_append, (some.inj h).symm⟩
      · rw [concat_eq_append, endOf_concat]
        exact .inr (some.inj h).symm
    · cases h

theorem increasing_of_pushRuns {runs runs' : List (ℕ × α)}
    (hruns : (0 :: runs.map fst).IsChain (· < ·)) (h : pushRuns limit runs x = some runs') :
    (0 :: runs'.map fst).IsChain (· < ·) := by
  obtain ⟨front, count, rfl, rfl⟩ | rfl := pushRuns_cases h
  · obtain ⟨hfront, hlt⟩ := isChain_concat.mp hruns
    exact isChain_concat.mpr ⟨hfront, Nat.lt_succ_of_lt hlt⟩
  · exact isChain_concat.mpr ⟨hruns, Nat.lt_succ_self _⟩

/-- Appends an entry; none if there are as many entries as the limit allows. -/
def push (limit : ℕ) (r : RunLength α) (x : α) : Option (RunLength α) :=
  pmap RunLength.mk (pushRuns limit r.runs x)
    fun _ h => increasing_of_pushRuns r.increasing h

theorem push_eq_some {r r' : RunLength α} :
    r.push limit x = some r' ↔ pushRuns limit r.runs x = some r'.runs := by
  rw [push, pmap_eq_some_iff]
  constructor
  · rintro ⟨runs, hruns, h, rfl⟩
    exact h
  · intro h
    exact ⟨r'.runs, increasing_of_pushRuns r.increasing h, h, rfl⟩

/-- Appending an entry appends it to the expanded list. -/
theorem expand_of_push {r r' : RunLength α} (h : r.push limit x = some r') :
    r'.expand = r.expand ++ [x] := by
  have hincreasing := r.increasing
  rw [expand, expand]
  obtain ⟨front, count, hruns, hruns'⟩ | hruns' := pushRuns_cases (push_eq_some.mp h)
  · rw [hruns] at hincreasing
    have hlt := (isChain_concat.mp hincreasing).2
    rw [hruns, hruns', expandFrom_concat, expandFrom_concat, append_assoc,
      append_cancel_left_eq, ← replicate_succ']
    congr 1
    omega
  · rw [hruns', expandFrom_concat, Nat.add_sub_cancel_left]
    rfl

/-- Appending fails only at the limit. -/
theorem exists_push {r : RunLength α} (x : α) (h : r.expand.length < limit) :
    ∃ r', r.push limit x = some r' := by
  rw [length_expand, expandedLen] at h
  have hsome : ∃ runs', pushRuns limit r.runs x = some runs' := by
    obtain hnil | ⟨front, ⟨count, last⟩, hruns⟩ := eq_nil_or_concat r.runs
    · exact ⟨[(1, x)], by rw [hnil]; rfl⟩
    · rw [hruns, concat_eq_append, endOf_concat] at h
      rw [hruns, concat_eq_append, pushRuns, getLast?_concat]
      dsimp only at h ⊢
      rw [if_pos (Nat.succ_le_of_lt h)]
      split
      · exact ⟨_, rfl⟩
      · exact ⟨_, rfl⟩
  obtain ⟨runs', hruns'⟩ := hsome
  exact ⟨⟨runs', increasing_of_pushRuns r.increasing hruns'⟩, push_eq_some.mpr hruns'⟩

end Push

end RunLength

end KeryxNode
