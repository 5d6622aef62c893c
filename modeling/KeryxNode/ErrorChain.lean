import Mathlib.Data.List.Forall2

/-!
# Chains of Checks

Validation is a chain of checks that stops at the first error. These rules peel such a chain
apart: if it ends in a value, every check was passed. A check that can also stop the program has
two kinds of failure, kept apart by `Stop`.
-/

namespace KeryxNode

open List Option Except

variable {α ε β : Type} {b : β} {x : Except ε α} {f : α → Except ε β}

/-- A chain ends in a value if its first link does and the rest does from there. -/
theorem bind_eq_ok_iff :
    (x >>= f) = .ok b ↔ ∃ a, x = .ok a ∧ f a = .ok b := by
  cases x <;> simp [bind, Except.bind]

/-- A chain that ends in a value passed its first link. -/
theorem bind_eq_ok (h : (x >>= f) = .ok b) :
    ∃ a, x = .ok a ∧ f a = .ok b :=
  bind_eq_ok_iff.mp h

/-- A chain whose first link is a check passes both. -/
theorem bind_unit_eq_ok {x : Except ε Unit} {f : Unit → Except ε β} :
    (x >>= f) = .ok b ↔ x = .ok () ∧ f () = .ok b := by
  rw [bind_eq_ok_iff]
  exact ⟨fun ⟨_, h, hf⟩ => ⟨h, hf⟩, fun ⟨h, hf⟩ => ⟨_, h, hf⟩⟩

variable {a : α}

/-- Naming an error otherwise changes no success. -/
theorem mapError_eq_ok {ε' : Type} {f : ε → ε'} :
    x.mapError f = .ok a ↔ x = .ok a := by
  cases x <;> simp [Except.mapError]

/-- A mapped result is a value if the result is. -/
theorem map_eq_ok {f : α → β} :
    x.map f = .ok b ↔ ∃ a, x = .ok a ∧ f a = b := by
  cases x <;> simp [Except.map]

/-- A check of all elements passes each of them. -/
theorem forM_eq_ok {l : List α} {f : α → Except ε Unit} :
    l.forM f = .ok () ↔ ∀ a ∈ l, f a = .ok () := by
  induction l with
  | nil => exact ⟨fun _ _ ha => (by cases ha), fun _ => rfl⟩
  | cons a l ih =>
    rw [forall_mem_cons, ← ih]
    exact bind_unit_eq_ok

variable {as : List α} {bs : List β}

/-- Results found one by one. -/
theorem mapM_eq_ok :
    as.mapM f = .ok bs ↔ List.Forall₂ (fun a b => f a = .ok b) as bs := by
  induction as generalizing bs with
  | nil =>
    rw [forall₂_nil_left_iff]
    exact ⟨fun h => (ok.inj h).symm, fun h => h ▸ rfl⟩
  | cons a as ih =>
    rw [mapM_cons, forall₂_cons_left_iff]
    constructor
    · intro h
      obtain ⟨b, hb, h⟩ := bind_eq_ok h
      obtain ⟨bs', hbs, h⟩ := bind_eq_ok h
      exact ⟨b, bs', hb, ih.mp hbs, (ok.inj h).symm⟩
    · rintro ⟨b, bs', hb, hbs, rfl⟩
      rw [hb, ih.mpr hbs]
      rfl

variable {f : α → Option β}

/-- Values found one by one. -/
theorem mapM_eq_some :
    as.mapM f = some bs ↔ List.Forall₂ (fun a b => f a = some b) as bs := by
  induction as generalizing bs with
  | nil =>
    rw [forall₂_nil_left_iff]
    exact ⟨fun h => (some.inj h).symm, fun h => h ▸ rfl⟩
  | cons a as ih =>
    rw [mapM_cons, forall₂_cons_left_iff]
    simp only [bind_eq_bind, bind_eq_some_iff, ih]
    constructor
    · rintro ⟨b, hb, bs', hbs, h⟩
      exact ⟨b, bs', hb, hbs, (some.inj h).symm⟩
    · rintro ⟨b, bs', hb, hbs, rfl⟩
      exact ⟨b, hb, bs', hbs, rfl⟩

/-- Results found one by one are found together. -/
theorem mapM_eq_some_map {g : α → β} {l : List α} (h : ∀ a ∈ l, f a = some (g a)) :
    l.mapM f = some (l.map g) := by
  rw [mapM_eq_some, forall₂_map_right_iff, forall₂_same]
  exact h

theorem bind_eq_some_iff {x : Option α} {f : α → Option β} :
    (x >>= f) = some b ↔ ∃ a, x = some a ∧ f a = some b :=
  Option.bind_eq_some_iff

theorem some_bind (a : α) (f : α → Option β) : (some a >>= f) = f a := rfl

/-- What is found is found at some element. -/
theorem mem_of_mapM_eq_some (h : as.mapM f = some bs) :
    b ∈ bs ↔ ∃ a ∈ as, f a = some b := by
  induction mapM_eq_some.mp h with
  | nil => simp
  | @cons a b' as bs hab hall ih =>
    rw [mem_cons, ih (mapM_eq_some.mpr hall), exists_mem_cons_iff, hab, some_inj, eq_comm]

/-- Something is found at every element. -/
theorem exists_of_mapM_eq_some (h : as.mapM f = some bs) (ha : a ∈ as) :
    ∃ b, f a = some b := by
  induction mapM_eq_some.mp h with
  | nil => cases ha
  | @cons a' b as bs hab hall ih =>
    obtain rfl | htail := mem_cons.mp ha
    · exact ⟨b, hab⟩
    · exact ih (mapM_eq_some.mpr hall) htail

/-- Elements that each have a related one form a related list. -/
theorem exists_forall₂ {r : α → β → Prop} (h : ∀ a ∈ as, ∃ b, r a b) :
    ∃ bs, List.Forall₂ r as bs := by
  induction as with
  | nil => exact ⟨[], Forall₂.nil⟩
  | cons a as ih =>
    obtain ⟨b, hb⟩ := h a mem_cons_self
    obtain ⟨bs, hbs⟩ := ih fun a' ha' => h a' (mem_cons_of_mem _ ha')
    exact ⟨b :: bs, Forall₂.cons hb hbs⟩

/-- A check that fails with an error was passed if the result is a value. -/
theorem ite_error_eq_ok {p : Prop} [Decidable p] {e : ε} :
    (if p then .error e else x) = .ok a ↔ ¬ p ∧ x = .ok a := by
  split <;> simp_all

/-- A check that is made under a condition. -/
theorem ite_ok_eq_ok {p : Prop} [Decidable p] {x : Except ε Unit} :
    (if p then x else .ok ()) = .ok () ↔ (p → x = .ok ()) := by
  split <;> simp_all

/-- The same for a program that may stop without a result. -/
theorem ite_some_error_eq_ok {p : Prop} [Decidable p] {e : ε} {x : Option (Except ε α)} :
    (if p then some (.error e) else x) = some (.ok a) ↔ ¬ p ∧ x = some (.ok a) := by
  split <;> simp_all

/-- What a program returns without an error. -/
theorem eq_some_ok_of_mem {x : Option (Except ε α)} (h : a ∈ x.bind Except.toOption) :
    x = some (.ok a) := by
  obtain ⟨_ | b, rfl, hb⟩ := Option.bind_eq_some_iff.mp h
  · cases hb
  · cases hb
    rfl

/-! ### Rejections and stops -/

/-- Why a check did not end in a value: it rejected its input, or it stopped the program. -/
inductive Stop (ε : Type) where
  | rejected (e : ε)
  | panicked
  deriving DecidableEq

/-- A computation that stops the program if it has no value. -/
def orPanic {ε α : Type} : Option α → Except (Stop ε) α
  | some a => .ok a
  | none => .error .panicked

/-- A check that can only reject. -/
def orReject {ε α : Type} : Except ε α → Except (Stop ε) α
  | .ok a => .ok a
  | .error e => .error (.rejected e)

theorem orPanic_eq_ok {x : Option α} :
    (orPanic x : Except (Stop ε) α) = .ok a ↔ x = some a := by
  cases x <;> simp [orPanic]

theorem orReject_eq_ok :
    orReject x = .ok a ↔ x = .ok a := by
  cases x <;> simp [orReject]

/-- Links that do not stop the program form a chain that does not. -/
theorem bind_ne_panicked {x : Except (Stop ε) α} {f : α → Except (Stop ε) β}
    (hx : x ≠ .error .panicked) (hf : ∀ a, x = .ok a → f a ≠ .error .panicked) :
    (x >>= f) ≠ .error .panicked := by
  cases x with
  | error e => exact fun h => hx (congrArg _ (error.inj h))
  | ok a => exact hf a rfl

end KeryxNode
