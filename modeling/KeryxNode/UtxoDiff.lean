import KeryxNode.CoinAge
import KeryxNode.OrdMapSum

/-!
# UTXO Diffs

A diff is two collections of coins, added and removed, as
`consensus/core/src/utxo/utxo_diff.rs` keeps them. Diffs are read over a base view
(`composed`), applied to a stored set (`writeTo`), composed with one another
(`withDiffInPlace`) and grown by accepted transactions (`addTransaction`). A collection is a
hash map in the source; here it is an ordered one, which fixes the outpoint an error reports
and nothing else.

Composition works outpoint by outpoint: a removal annihilates the pending addition of the
same coin, an addition annihilates the pending removal only if it restores the same score and
anchor. `get?_withDiffInPlace` gives that pointwise form, and every fact about composed diffs
is read off it.

## Main results

* `with_diff_composition`: composing is applying one diff after the other, and composing with
  the reversal takes it back.
-/

namespace KeryxNode

open OrdMap List Option

/-- Coins by outpoint. -/
abbrev UtxoCollection := OrdMap TransactionOutpoint UtxoEntry

/-- A read-only view of coins. -/
abbrev UtxoView := TransactionOutpoint → Option UtxoEntry

/-- The errors of the diff algebra. -/
inductive UtxoAlgebraError where
  /-- Both in `self.remove` and in `other.remove`. -/
  | duplicateRemovePoint (outpoint : TransactionOutpoint)
  /-- Both in `self.add` and in `other.add`. -/
  | duplicateAddPoint (outpoint : TransactionOutpoint)
  /-- Removed twice. -/
  | doubleRemoveCall (outpoint : TransactionOutpoint)
  /-- Added twice. -/
  | doubleAddCall (outpoint : TransactionOutpoint)
  deriving DecidableEq, Repr

/-! ### Collections -/

namespace UtxoCollection

/-- Whether the outpoint is held with the given creation score: the identity of a coin. -/
def containsWithDaaScore (c : UtxoCollection) (o : TransactionOutpoint) (daaScore : ℕ) : Bool :=
  match c.get? o with
  | some entry => decide (entry.blockDaaScore = daaScore)
  | none => false

/-- Whether the outpoint is held with the creation score and the anchor of `entry`. -/
def containsMatchingEntry (c : UtxoCollection) (o : TransactionOutpoint) (entry : UtxoEntry) :
    Bool :=
  match c.get? o with
  | some existing =>
    decide (existing.blockDaaScore = entry.blockDaaScore ∧
      existing.effectiveDaa = entry.effectiveDaa)
  | none => false

/-- Removes the outpoints of `other`. -/
def removeCollection (c other : UtxoCollection) : UtxoCollection :=
  c.eraseAll other.keys

/-- The first common outpoint whose two entries satisfy the rule. -/
def intersectsWithRule (c other : UtxoCollection)
    (rule : TransactionOutpoint → UtxoEntry → UtxoEntry → Bool) : Option TransactionOutpoint :=
  (c.entries.find? fun e => (other.get? e.1).any (rule e.1 e.2)).map Prod.fst

/-- Splits `this` by a test into what is written to `result` and what to `remainder`. -/
def splitInPlace (hit : TransactionOutpoint → UtxoEntry → Bool)
    (this result remainder : UtxoCollection) : UtxoCollection × UtxoCollection :=
  this.entries.foldl (fun s e =>
    if hit e.1 e.2 then (s.1.insert e.1 e.2, s.2) else (s.1, s.2.insert e.1 e.2))
    (result, remainder)

/-- Splits `this` into the coins `other` holds and the others. -/
def intersectionWithRemainderHavingDaaScoreInPlace (this other result remainder : UtxoCollection) :
    UtxoCollection × UtxoCollection :=
  splitInPlace (fun o entry => containsWithDaaScore other o entry.blockDaaScore) this result
    remainder

/-- Splits `this` into the coins `other` holds with the same anchor and the others. -/
def intersectionWithRemainderMatchingEntryInPlace (this other result remainder : UtxoCollection) :
    UtxoCollection × UtxoCollection :=
  splitInPlace (fun o entry => containsMatchingEntry other o entry) this result remainder

/-- No rule fires exactly when no common outpoint satisfies it. -/
theorem intersectsWithRule_eq_none {c other : UtxoCollection}
    {rule : TransactionOutpoint → UtxoEntry → UtxoEntry → Bool} :
    intersectsWithRule c other rule = none ↔
      ∀ o e e', c.get? o = some e → other.get? o = some e' → rule o e e' = false := by
  rw [intersectsWithRule, map_eq_none_iff, find?_eq_none]
  constructor
  · intro h o e e' he he'
    have hnot := h (o, e) (get?_eq_some_iff.mp he)
    simpa [he'] using hnot
  · rintro h ⟨o, e⟩ he
    rw [Bool.not_eq_true]
    cases he' : other.get? o with
    | none => rfl
    | some e' => exact h o e e' (get?_eq_some_iff.mpr he) he'

/-- The two halves of a split are the two halves of the entries, written in order. -/
theorem splitInPlace_eq (hit : TransactionOutpoint → UtxoEntry → Bool)
    (l : List (TransactionOutpoint × UtxoEntry)) (result remainder : UtxoCollection) :
    l.foldl (fun s e =>
      if hit e.1 e.2 then (s.1.insert e.1 e.2, s.2) else (s.1, s.2.insert e.1 e.2))
      (result, remainder)
    = ((l.filter fun e => hit e.1 e.2).foldl (fun m e => m.insert e.1 e.2) result,
        (l.filter fun e => !hit e.1 e.2).foldl (fun m e => m.insert e.1 e.2) remainder) := by
  induction l generalizing result remainder with
  | nil => rfl
  | cons e l ih =>
    cases hhit : hit e.1 e.2 <;> simp [hhit, ih]

/-- Both halves of a split at an outpoint. -/
theorem get?_splitInPlace (hit : TransactionOutpoint → UtxoEntry → Bool)
    (this result remainder : UtxoCollection) (o : TransactionOutpoint) :
    (splitInPlace hit this result remainder).1.get? o
        = ((this.get? o).filter (hit o)).or (result.get? o) ∧
      (splitInPlace hit this result remainder).2.get? o
        = ((this.get? o).filter fun e => !hit o e).or (remainder.get? o) := by
  rw [splitInPlace, splitInPlace_eq]
  constructor
  · rw [← get?_filter, ← get?_overlay]
    rfl
  · rw [← get?_filter fun o e => !hit o e, ← get?_overlay]
    rfl

end UtxoCollection

open UtxoCollection (intersectsWithRule containsWithDaaScore removeCollection get?_splitInPlace
  containsMatchingEntry intersectsWithRule_eq_none)

/-! ### Diffs -/

/-- Coins added and coins removed. -/
structure UtxoDiff where
  add : UtxoCollection := .empty
  remove : UtxoCollection := .empty
  deriving DecidableEq

namespace UtxoDiff

variable {u a r a' r' : Option UtxoEntry} {d d' : UtxoDiff} {U : UtxoView}

/-- The diff that takes a diff back. -/
def asReversed (d : UtxoDiff) : UtxoDiff :=
  ⟨d.remove, d.add⟩

/-- A view under a diff: what is added, else what is not removed. -/
def composed (d : UtxoDiff) (base : UtxoView) : UtxoView := fun o =>
  match d.add.get? o with
  | some entry => some entry
  | none => if d.remove.contains o then none else base o

/-- Applies a diff to a stored set: removals, then additions. -/
def writeTo (d : UtxoDiff) (set : UtxoCollection) : UtxoCollection :=
  set.replace d.remove d.add

/-- Composes `other` onto `self`. The result is the receiver afterwards and the outcome. -/
def withDiffInPlace (self other : UtxoDiff) : UtxoDiff × Except UtxoAlgebraError Unit :=
  match intersectsWithRule other.remove self.remove fun o entryToAdd _ =>
      !containsWithDaaScore self.add o entryToAdd.blockDaaScore with
  | some offending => (self, .error (.duplicateRemovePoint offending))
  | none =>
    match intersectsWithRule other.add self.add fun o _ existing =>
        !containsWithDaaScore other.remove o existing.blockDaaScore with
    | some offending => (self, .error (.duplicateAddPoint offending))
    | none =>
      -- A removal matches a pending addition on the coin's identity alone.
      let removals := UtxoCollection.intersectionWithRemainderHavingDaaScoreInPlace
        other.remove self.add .empty self.remove
      let add := removeCollection self.add removals.1
      -- An addition matches a pending removal only with the anchor it had.
      let additions := UtxoCollection.intersectionWithRemainderMatchingEntryInPlace
        other.add removals.2 .empty add
      ({ add := additions.2
         remove := removeCollection removals.2 additions.1 }, .ok ())

/-! ### One outpoint of a diff -/

/-- What a view holding `u` shows under an addition `a` and a removal `r`. -/
def readAt (u a r : Option UtxoEntry) : Option UtxoEntry :=
  match a with
  | some entry => some entry
  | none => if r.isSome then none else u

theorem readAt_eq_some {e : UtxoEntry} :
    readAt u a r = some e ↔ a = some e ∨ a = none ∧ r = none ∧ u = some e := by
  cases a <;> cases r <;> simp [readAt]

theorem readAt_eq_none : readAt u a r = none ↔ a = none ∧ (u = none ∨ r.isSome = true) := by
  cases a <;> cases r <;> simp [readAt]

/-- Whether the coin held is the one of `entry`. -/
def sameCoin (held : Option UtxoEntry) (entry : UtxoEntry) : Bool :=
  match held with
  | some existing => decide (existing.blockDaaScore = entry.blockDaaScore)
  | none => false

/-- Whether the coin held is the one of `entry`, with its anchor. -/
def sameEntry (held : Option UtxoEntry) (entry : UtxoEntry) : Bool :=
  match held with
  | some existing =>
    decide (existing.blockDaaScore = entry.blockDaaScore ∧
      existing.effectiveDaa = entry.effectiveDaa)
  | none => false

/-- The removal pending after `r'` came onto `a` and `r`. -/
def removeAfter (a r r' : Option UtxoEntry) : Option UtxoEntry :=
  (r'.filter fun e => !sameCoin a e).or r

/-- The addition pending after `r'` came onto `a`. -/
def addAfter (a r' : Option UtxoEntry) : Option UtxoEntry :=
  if (r'.filter (sameCoin a)).isSome then none else a

/-- One outpoint of a composed diff: addition and removal. -/
def composeAt (a r a' r' : Option UtxoEntry) : Option UtxoEntry × Option UtxoEntry :=
  ((a'.filter fun e => !sameEntry (removeAfter a r r') e).or (addAfter a r'),
    if (a'.filter (sameEntry (removeAfter a r r'))).isSome then none else removeAfter a r r')

theorem composed_eq_readAt (d : UtxoDiff) (U : UtxoView) (o : TransactionOutpoint) :
    d.composed U o = readAt (U o) (d.add.get? o) (d.remove.get? o) := rfl

/-- Applying a diff to a set is reading it over the set. -/
theorem get?_writeTo (d : UtxoDiff) (set : UtxoCollection) :
    (d.writeTo set).get? = d.composed set.get? := by
  funext o
  rw [writeTo, get?_replace, composed]
  cases d.add.get? o <;> rfl

/-- The lookup after removing what a split kept. -/
theorem get?_removeCollection (c gone : UtxoCollection) (o : TransactionOutpoint) :
    (removeCollection c gone).get? o
      = if (gone.get? o).isSome then none else c.get? o := by
  rw [removeCollection, get?_eraseAll]
  by_cases ho : o ∈ gone.keys
  · rw [if_pos ho, if_pos (isSome_iff_exists.mpr (mem_keys_iff.mp ho))]
  · rw [if_neg ho, not_mem_keys_iff.mp ho]
    rfl

/-- The composed diff at an outpoint, when no check fails. -/
theorem get?_withDiffInPlace {self other : UtxoDiff}
    (h : (self.withDiffInPlace other).2 = .ok ()) (o : TransactionOutpoint) :
    ((self.withDiffInPlace other).1.add.get? o, (self.withDiffInPlace other).1.remove.get? o)
      = composeAt (self.add.get? o) (self.remove.get? o) (other.add.get? o)
          (other.remove.get? o) := by
  rw [withDiffInPlace] at h ⊢
  split at h
  · cases h
  · split at h
    · cases h
    · simp only [UtxoCollection.intersectionWithRemainderHavingDaaScoreInPlace,
        UtxoCollection.intersectionWithRemainderMatchingEntryInPlace, get?_removeCollection,
        (get?_splitInPlace _ _ _ _ o).1,
        (get?_splitInPlace _ _ _ _ o).2, get?_empty, or_none]
      have hmatch : ∀ e, containsMatchingEntry
          (UtxoCollection.splitInPlace
            (fun o e => containsWithDaaScore self.add o e.blockDaaScore)
            other.remove .empty self.remove).2 o e
          = sameEntry (removeAfter (self.add.get? o) (self.remove.get? o) (other.remove.get? o))
              e := by
        intro e
        rw [containsMatchingEntry, (get?_splitInPlace _ _ _ _ o).2]
        rfl
      simp only [hmatch, removeAfter]
      rfl

/-! ### Diffs that apply -/

/-- At one outpoint: a removal is of the entry held, an addition is to an absent or removed
outpoint. -/
structure AppliesAt (u a r : Option UtxoEntry) : Prop where
  removed : ∀ e, r = some e → u = some e
  added : ∀ e, a = some e → u = none ∨ r.isSome = true

/-- The diff applies to the view. -/
def Applies (d : UtxoDiff) (U : UtxoView) : Prop :=
  ∀ o, AppliesAt (U o) (d.add.get? o) (d.remove.get? o)

/-- Entries that agree on creation score and anchor are the same entry. -/
def Determined (es : List (Option UtxoEntry)) : Prop :=
  ∀ e e', some e ∈ es → some e' ∈ es → e.blockDaaScore = e'.blockDaaScore →
    e.effectiveDaa = e'.effectiveDaa → e = e'

theorem Determined.mono {es es' : List (Option UtxoEntry)} (h : Determined es')
    (hsub : ∀ e, some e ∈ es → some e ∈ es') : Determined es :=
  fun e e' he he' => h e e' (hsub e he) (hsub e' he')

/-- A coin that is held and not removed is not added. -/
theorem AppliesAt.add_eq_none {e : UtxoEntry} (h : AppliesAt u a r) (hu : u = some e)
    (hr : r = none) : a = none :=
  Option.eq_none_iff_forall_ne_some.mpr fun x hx => by simpa [hu, hr] using h.added x hx

/-- A diff that applies takes itself back. -/
theorem AppliesAt.reversed (h : AppliesAt u a r) :
    AppliesAt (readAt u a r) r a where
  removed e he := by simp [readAt, he]
  added e he := by
    cases a with
    | none => exact .inl (by simp [readAt, he])
    | some e' => exact .inr rfl

/-- Taking a diff back restores what was held. -/
theorem AppliesAt.readAt_reversed (h : AppliesAt u a r) :
    readAt (readAt u a r) r a = u := by
  cases r with
  | some e => exact (h.removed e rfl).symm
  | none =>
    cases a with
    | none => rfl
    | some e => simpa [readAt, eq_comm] using h.added e rfl

/-- Two diffs that apply in turn pass both checks of the composition. -/
theorem AppliesAt.sameCoin_of (h : AppliesAt u a r) (h' : AppliesAt (readAt u a r) a' r') :
    (∀ e e', r' = some e → r = some e' → sameCoin a e = true) ∧
      ∀ e e', a' = some e → a = some e' → sameCoin r' e' = true := by
  constructor
  · rintro e e' rfl rfl
    rcases readAt_eq_some.mp (h'.removed e rfl) with rfl | ⟨-, hnone, -⟩
    · simp [sameCoin]
    · cases hnone
  · rintro e e' rfl rfl
    rcases h'.added e rfl with hnone | hsome
    · cases (readAt_eq_none.mp hnone).1
    · obtain ⟨x, rfl⟩ := isSome_iff_exists.mp hsome
      obtain rfl : e' = x := some.inj (h'.removed x rfl)
      simp [sameCoin]

/-- After a removal that applies, the pending removal is of the base entry or there is none,
and the pending addition is the one of the first diff or there is none. -/
theorem AppliesAt.after (h : AppliesAt u a r) (h' : AppliesAt (readAt u a r) a' r') :
    AppliesAt u (addAfter a r') (removeAfter a r r') ∧
      readAt u (addAfter a r') (removeAfter a r r') = readAt (readAt u a r) none r' := by
  cases r' with
  | none =>
    simp only [addAfter, removeAfter, filter_none, none_or]
    exact ⟨h, by simp [readAt]⟩
  | some e =>
    rcases readAt_eq_some.mp (h'.removed e rfl) with rfl | ⟨rfl, rfl, rfl⟩
    · have hrem : removeAfter (some e) r (some e) = r := by
        simp [removeAfter, sameCoin, filter_some]
      have hadd : addAfter (some e) (some e) = none := by simp [addAfter, sameCoin]
      rw [hrem, hadd]
      refine ⟨⟨h.removed, fun y hy => (by cases hy)⟩, ?_⟩
      -- The second diff removes what the first adds: the base entry is removed or absent.
      exact readAt_eq_none.mpr ⟨rfl, h.added e rfl⟩
    · have hrem : removeAfter none none (some e) = some e := by
        simp [removeAfter, sameCoin]
      rw [hrem]
      refine ⟨⟨fun _ => id, fun y hy => ?_⟩, ?_⟩
      · simp [addAfter] at hy
      · simp [readAt, addAfter]

/-- After an addition that applies: an entry restored is the base entry, any other one is
written. -/
theorem AppliesAt.restore (h : AppliesAt u a r)
    (ha : ∀ e, a' = some e → a = none) (hu : ∀ e, a' = some e → readAt u none r = none)
    (hdet : Determined [u, a']) :
    let a₂ := (a'.filter fun e => !sameEntry r e).or a
    let r₂ := if (a'.filter (sameEntry r)).isSome then none else r
    AppliesAt u a₂ r₂ ∧ readAt u a₂ r₂ = readAt (readAt u a r) a' none := by
  cases a' with
  | none =>
    exact ⟨h, by simp [readAt]⟩
  | some e =>
    obtain rfl := ha e rfl
    have hgone := hu e rfl
    cases hsame : sameEntry r e with
    | false =>
      simp only [filter_some, hsame]
      exact ⟨⟨h.removed, fun _ _ => (readAt_eq_none.mp hgone).2⟩, rfl⟩
    | true =>
      cases r with
      | none => simp [sameEntry] at hsame
      | some y =>
        have huy := h.removed y rfl
        obtain ⟨hscore, hanchor⟩ := of_decide_eq_true hsame
        obtain rfl : y = e := hdet y e (by simp [huy]) (by simp) hscore hanchor
        simp only [filter_some, hsame]
        refine ⟨⟨fun z hz => (by cases hz), fun z hz => (by cases hz)⟩, ?_⟩
        simp [readAt, huy]

/-- **One outpoint of a composition** reads as the two diffs in turn, and applies. -/
theorem AppliesAt.compose (h : AppliesAt u a r)
    (h' : AppliesAt (readAt u a r) a' r') (hdet : Determined [u, a']) :
    AppliesAt u (composeAt a r a' r').1 (composeAt a r a' r').2 ∧
      readAt u (composeAt a r a' r').1 (composeAt a r a' r').2 = readAt (readAt u a r) a' r' := by
  obtain ⟨happ, hread⟩ := h.after h'
  have hfree : ∀ e, a' = some e → readAt u (addAfter a r') (removeAfter a r r') = none := by
    intro e he
    rw [hread]
    rcases h'.added e he with hnone | hsome
    · rw [hnone]
      cases r' <;> rfl
    · simp [readAt, hsome]
  have hadd : ∀ e, a' = some e → addAfter a r' = none := fun e he =>
    (readAt_eq_none.mp (hfree e he)).1
  obtain ⟨happ', hread'⟩ := happ.restore hadd (fun e he => hadd e he ▸ hfree e he) hdet
  refine ⟨happ', hread'.trans ?_⟩
  rw [hread]
  cases a' <;> rfl

/-- Diffs that apply in turn compose without error. -/
theorem withDiffInPlace_ok (h : d.Applies U)
    (h' : d'.Applies (d.composed U)) : (d.withDiffInPlace d').2 = .ok () := by
  have hremove : intersectsWithRule d'.remove d.remove (fun o e _ =>
      !containsWithDaaScore d.add o e.blockDaaScore) = none := by
    refine intersectsWithRule_eq_none.mpr fun o e e' he he' => ?_
    rw [Bool.not_eq_false']
    exact ((h o).sameCoin_of (h' o)).1 e e' he he'
  have hadd : intersectsWithRule d'.add d.add (fun o _ e =>
      !containsWithDaaScore d'.remove o e.blockDaaScore) = none := by
    refine intersectsWithRule_eq_none.mpr fun o e e' he he' => ?_
    rw [Bool.not_eq_false']
    exact ((h o).sameCoin_of (h' o)).2 e e' he he'
  rw [withDiffInPlace, hremove]
  simp only [hadd]

/-- **Composition**: the composed diff applies to the base and reads as the two in turn. -/
theorem composed_withDiffInPlace (h : d.Applies U)
    (h' : d'.Applies (d.composed U)) (hdet : ∀ o, Determined [U o, d'.add.get? o]) :
    (d.withDiffInPlace d').1.Applies U ∧
      (d.withDiffInPlace d').1.composed U = d'.composed (d.composed U) := by
  have hpoint : ∀ o, AppliesAt (U o) ((d.withDiffInPlace d').1.add.get? o)
        ((d.withDiffInPlace d').1.remove.get? o) ∧
      (d.withDiffInPlace d').1.composed U o = d'.composed (d.composed U) o := by
    intro o
    obtain ⟨hadd, hremove⟩ := Prod.mk.inj (get?_withDiffInPlace (withDiffInPlace_ok h h') o)
    rw [composed_eq_readAt, hadd, hremove]
    exact (h o).compose (h' o) (hdet o)
  exact ⟨fun o => (hpoint o).1, funext fun o => (hpoint o).2⟩

/-- A failed composition leaves the receiver as it was. -/
theorem withDiffInPlace_error {e : UtxoAlgebraError}
    (h : (d.withDiffInPlace d').2 = .error e) : (d.withDiffInPlace d').1 = d := by
  rw [withDiffInPlace] at h ⊢
  split at h
  · rfl
  · split at h
    · rfl
    · cases h

/-- A diff applies if its entries do. -/
theorem Applies.of_entries (hremove : ∀ e ∈ d.remove.entries, U e.1 = some e.2)
    (hadd : ∀ e ∈ d.add.entries, U e.1 = none ∨ d.remove.contains e.1 = true) :
    d.Applies U := fun o =>
  ⟨fun e he => hremove (o, e) (get?_eq_some_iff.mp he),
    fun e he => hadd (o, e) (get?_eq_some_iff.mp he)⟩

end UtxoDiff

open UtxoDiff in
/-- **Diff composition.** For diffs that apply in turn to a view on which an outpoint with its
creation score and anchor determines the coin, composing succeeds and reads as the two diffs
in turn, and composing with the reversal of the second reads as the first again. Whatever the
diffs, a failed composition leaves its receiver unchanged. -/
theorem with_diff_composition (U : UtxoView) (d₁ d₂ : UtxoDiff) (h₁ : d₁.Applies U)
    (h₂ : d₂.Applies (d₁.composed U))
    (hdet : ∀ o, Determined [U o, d₁.add.get? o, d₂.add.get? o]) :
    let both := d₁.withDiffInPlace d₂
    let back := both.1.withDiffInPlace d₂.asReversed
    both.2 = .ok () ∧ (∀ o, both.1.composed U o = d₂.composed (d₁.composed U) o) ∧
      back.2 = .ok () ∧ (∀ o, back.1.composed U o = d₁.composed U o) ∧
      ∀ (d d' : UtxoDiff) (e : UtxoAlgebraError),
        (d.withDiffInPlace d').2 = .error e → (d.withDiffInPlace d').1 = d := by
  have hdet₂ : ∀ o, Determined [U o, d₂.add.get? o] := fun o =>
    (hdet o).mono fun e he => by
      rcases mem_pair.mp he with he | he <;> simp [he]
  obtain ⟨happ, hread⟩ := composed_withDiffInPlace h₁ h₂ hdet₂
  -- The reversal applies where the second diff has been applied.
  have hrev : d₂.asReversed.Applies ((d₁.withDiffInPlace d₂).1.composed U) := by
    rw [hread]
    exact fun o => (h₂ o).reversed
  have hdet₃ : ∀ o, Determined [U o, d₂.asReversed.add.get? o] := by
    intro o
    refine (hdet o).mono fun e he => ?_
    rcases mem_pair.mp he with he | he
    · simp [he]
    · rcases readAt_eq_some.mp ((h₂ o).removed e he.symm) with he | ⟨-, -, he⟩ <;> simp [he]
  obtain ⟨-, hback⟩ := composed_withDiffInPlace happ hrev hdet₃
  refine ⟨withDiffInPlace_ok h₁ h₂, congrFun hread, withDiffInPlace_ok happ hrev, fun o => ?_,
    fun _ _ _ => withDiffInPlace_error⟩
  rw [hback, hread]
  exact (h₂ o).readAt_reversed

/-- One coin of output `(1, 0)`, created at score 10. -/
def sampleCoin (amount effectiveDaa : ℕ) : UtxoCollection :=
  .insert .empty ⟨1, 0⟩ ⟨amount, ⟨0, []⟩, 10, false, effectiveDaa⟩

/-- A coin is removed and added again with an older anchor. -/
theorem with_diff_composition_reanchored :
    (({ remove := sampleCoin 5 10 } : UtxoDiff).withDiffInPlace { add := sampleCoin 5 8 }).2
        = .ok () ∧
      ((({ remove := sampleCoin 5 10 } : UtxoDiff).withDiffInPlace
        { add := sampleCoin 5 8 }).1.composed (sampleCoin 5 10).get? ⟨1, 0⟩).map
          UtxoEntry.effectiveDaa = some 8 := by
  obtain ⟨hok, hread, -⟩ := with_diff_composition (sampleCoin 5 10).get?
    { remove := sampleCoin 5 10 } { add := sampleCoin 5 8 }
    (UtxoDiff.Applies.of_entries (by decide) (by decide))
    (UtxoDiff.Applies.of_entries (by decide) (by decide))
    (by
      intro o e e' he he' _ hanchor
      have hentry : ∀ {a x}, (sampleCoin 5 a).get? o = some x →
          x = ⟨5, ⟨0, []⟩, 10, false, a⟩ := by
        intro a x hx
        have hmem := get?_eq_some_iff.mp hx
        exact (Prod.mk.inj (mem_singleton.mp hmem)).2
      have hanchors : ∀ {x}, some x ∈ [(sampleCoin 5 10).get? o, none, (sampleCoin 5 8).get? o] →
          x = ⟨5, ⟨0, []⟩, 10, false, x.effectiveDaa⟩ := by
        intro x hx
        simp only [mem_cons, reduceCtorEq, not_mem_nil, or_false, false_or] at hx
        rcases hx with hx | hx <;> rw [hentry hx.symm]
      rw [hanchors he, hanchors he', hanchor])
  exact ⟨hok, by rw [hread]; decide⟩

/-- A coin removed and added again with another amount: both diffs apply, and the composed
one shows the old amount. -/
theorem with_diff_composition_amount :
    ({ remove := sampleCoin 5 10 } : UtxoDiff).Applies (sampleCoin 5 10).get? ∧
      ({ add := sampleCoin 6 10 } : UtxoDiff).Applies
        (({ remove := sampleCoin 5 10 } : UtxoDiff).composed (sampleCoin 5 10).get?) ∧
      (({ remove := sampleCoin 5 10 } : UtxoDiff).withDiffInPlace
        { add := sampleCoin 6 10 }).1.composed (sampleCoin 5 10).get? ⟨1, 0⟩
      ≠ ({ add := sampleCoin 6 10 } : UtxoDiff).composed
          (({ remove := sampleCoin 5 10 } : UtxoDiff).composed (sampleCoin 5 10).get?) ⟨1, 0⟩ :=
  ⟨UtxoDiff.Applies.of_entries (by decide) (by decide),
    UtxoDiff.Applies.of_entries (by decide) (by decide), by decide⟩

end KeryxNode
