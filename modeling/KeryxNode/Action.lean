import Mathlib.Data.Option.Basic

/-!
# Computations over a State

A method with exclusive access to a state may change it, return early with an error, or panic. An
error does not undo what was changed before it, so the state comes with the result in both cases;
a panic leaves no state. The rules of this module carry an invariant of the state through such
computations and peel a sequence of them apart.
-/

namespace KeryxNode

open Option List

/-- A computation over a state. `none` is a panic; a value or an error comes with the state the
computation had reached. -/
def Action (σ ε α : Type) : Type :=
  σ → Option (Except ε α × σ)

namespace Action

variable {σ τ ε α β : Type} {x : Action σ ε α} {r : Except ε α} {a : α} {s t : σ}
  {f : α → Action σ ε β} {l : List α}

/-- Goes on with the value found; an error or a panic ends the computation. -/
def andThen (x : Action σ ε α) (f : α → Action σ ε β) : Action σ ε β :=
  fun s => (x s).bind fun p =>
    match p.1 with
    | .error e => some (.error e, p.2)
    | .ok a => f a p.2

instance : Monad (Action σ ε) where
  pure a := fun s => some (.ok a, s)
  bind := andThen

instance : LawfulMonad (Action σ ε) :=
  LawfulMonad.mk' _
    (fun x => by
      funext s
      change (x s).bind _ = x s
      rcases x s with _ | ⟨_ | _, _⟩ <;> rfl)
    (fun _ _ => rfl)
    (fun x f g => by
      funext s
      change ((x s).bind _).bind _ = (x s).bind _
      rcases x s with _ | ⟨_ | _, _⟩ <;> rfl)

/-- Returns an error. -/
def throw (e : ε) : Action σ ε α :=
  fun s => some (.error e, s)

/-- Returns what was found, as a value or as an error. -/
def ofExcept (r : Except ε α) : Action σ ε α :=
  fun s => some (r, s)

/-- The value of an option; a panic if there is none. -/
def unwrap (o : Option α) : Action σ ε α :=
  fun s => o.map fun a => (.ok a, s)

/-- The state itself. -/
def get : Action σ ε σ :=
  fun s => some (.ok s, s)

/-- Reads something of the state. -/
def read (f : σ → α) : Action σ ε α :=
  fun s => some (.ok (f s), s)

/-- Changes the state. -/
def modify (f : σ → σ) : Action σ ε Unit :=
  fun s => some (.ok (), f s)

/-- Changes the state; a panic if there is no new one. -/
def tryModify (f : σ → Option σ) : Action σ ε Unit :=
  fun s => (f s).map fun t => (.ok (), t)

/-- A computation over a part of the state. -/
def zoom (part : σ → τ) (update : σ → τ → σ) (x : Action τ ε α) : Action σ ε α :=
  fun s => (x (part s)).map fun p => (p.1, update s p.2)

/-- A computation whose errors are caught and handed on as values. -/
def attempt (x : Action σ ε α) : Action σ ε (Except ε α) :=
  fun s => (x s).map fun p => (.ok p.1, p.2)

/-- The value and the state of a computation that returns a value. -/
def returns (x : Action σ ε α) (s : σ) : Option (α × σ) :=
  match x s with
  | some (.ok a, t) => some (a, t)
  | _ => none

/-! ### Peeling a sequence -/

theorem returns_eq_some :
    x.returns s = some (a, t) ↔ x s = some (.ok a, t) := by
  rw [returns]
  rcases x s with _ | ⟨_ | b, u⟩ <;> simp

/-- A sequence ends after its first part, with an error, or after both. -/
theorem bind_eq_some {r : Except ε β} :
    (x >>= f) s = some (r, t) ↔
      (∃ e, x s = some (.error e, t) ∧ r = .error e) ∨
        ∃ a u, x s = some (.ok a, u) ∧ f a u = some (r, t) := by
  change (x s).bind _ = _ ↔ _
  rcases x s with _ | ⟨e | a, u⟩
  · exact ⟨nofun, by rintro (⟨_, h, -⟩ | ⟨_, _, h, -⟩) <;> cases h⟩
  · constructor
    · intro h
      cases h
      exact .inl ⟨e, rfl, rfl⟩
    · rintro (⟨_, h, rfl⟩ | ⟨_, _, h, -⟩)
      · cases h
        rfl
      · cases h
  · constructor
    · exact fun h => .inr ⟨a, u, rfl, h⟩
    · rintro (⟨_, h, -⟩ | ⟨_, _, h, hf⟩)
      · cases h
      · cases h
        exact hf

/-- A sequence that returns a value did so in both parts. -/
theorem bind_eq_ok {b : β} :
    (x >>= f) s = some (.ok b, t) ↔
      ∃ a u, x s = some (.ok a, u) ∧ f a u = some (.ok b, t) := by
  rw [bind_eq_some]
  exact ⟨fun h => h.resolve_left (by rintro ⟨_, -, h⟩; cases h), Or.inr⟩

theorem pure_eq_some :
    (pure a : Action σ ε α) s = some (r, t) ↔ r = .ok a ∧ t = s := by
  constructor
  · intro h
    cases h
    exact ⟨rfl, rfl⟩
  · rintro ⟨rfl, rfl⟩
    rfl

/-- A computation that starts with a value that has to be there. -/
theorem unwrap_bind_eq_some {o : Option α} {r : Except ε β} :
    (unwrap o >>= f) s = some (r, t) ↔ ∃ a, o = some a ∧ f a s = some (r, t) := by
  cases o with
  | none => exact ⟨fun h => (by cases h), fun ⟨_, h, _⟩ => (by cases h)⟩
  | some a => exact ⟨fun h => ⟨a, rfl, h⟩, fun ⟨_, h, hf⟩ => some.inj h ▸ hf⟩

/-- A computation that starts by looking at its state. -/
theorem get_bind (f : σ → Action σ ε β) (s : σ) : (get >>= f) s = f s s := rfl

/-- A computation that starts with a check. -/
theorem ofExcept_bind_eq_ok {b : β} :
    (ofExcept r >>= f) s = some (.ok b, t) ↔ ∃ a, r = .ok a ∧ f a s = some (.ok b, t) := by
  cases r with
  | error e => exact ⟨fun h => (by cases h), fun ⟨_, h, _⟩ => (by cases h)⟩
  | ok a => exact ⟨fun h => ⟨a, rfl, h⟩, fun ⟨_, h, hf⟩ => Except.ok.inj h ▸ hf⟩

/-- A computation over a part of the state reaches what it reaches there. -/
theorem zoom_eq_some {part : σ → τ} {update : σ → τ → σ} {x : Action τ ε α} :
    zoom part update x s = some (r, t) ↔
      ∃ u, x (part s) = some (r, u) ∧ t = update s u := by
  rw [zoom, map_eq_some_iff]
  constructor
  · rintro ⟨⟨r', u⟩, hx, h⟩
    cases h
    exact ⟨u, hx, rfl⟩
  · rintro ⟨u, hx, rfl⟩
    exact ⟨(r, u), hx, rfl⟩

theorem forM_nil_eq_ok {f : α → Action σ ε Unit} :
    ([] : List α).forM f s = some (.ok (), t) ↔ t = s := by
  constructor
  · intro h
    cases h
    rfl
  · rintro rfl
    rfl

/-- A loop that runs to its end did so at every element. -/
theorem forM_cons_eq_ok {f : α → Action σ ε Unit} :
    (a :: l).forM f s = some (.ok (), t) ↔
      ∃ u, f a s = some (.ok (), u) ∧ l.forM f u = some (.ok (), t) := by
  change (f a >>= fun _ => l.forM f) s = _ ↔ _
  rw [bind_eq_ok]
  exact ⟨fun ⟨_, u, h⟩ => ⟨u, h⟩, fun ⟨u, h⟩ => ⟨(), u, h⟩⟩

theorem forM_map (g : α → β) (f : β → Action σ ε Unit) (l : List α) :
    (l.map g).forM f = l.forM fun a => f (g a) := by
  induction l with
  | nil => rfl
  | cons a l ih =>
    change (f (g a) >>= fun _ => (l.map g).forM f) = _
    rw [ih]
    rfl

theorem tryModify_eq_some {f : σ → Option σ} {r : Except ε Unit} :
    (tryModify f : Action σ ε Unit) s = some (r, t) ↔ r = .ok () ∧ f s = some t := by
  rw [tryModify, map_eq_some_iff]
  constructor
  · rintro ⟨u, hu, h⟩
    cases h
    exact ⟨rfl, hu⟩
  · rintro ⟨rfl, ht⟩
    exact ⟨t, ht, rfl⟩

/-! ### Invariants -/

/-- From states with one property a computation only reaches states with another, whether it returns
a value or an error. -/
def Leads (I : σ → Prop) (x : Action σ ε α) (J : σ → Prop) : Prop :=
  ∀ s r t, I s → x s = some (r, t) → J t

namespace Leads

variable {I J K : σ → Prop} {x : Action σ ε α}

/-- The first part leads to a property from which the second part leads on; if the first part fails,
its property has to do. -/
theorem bind (hKJ : ∀ s, K s → J s) (hx : Leads I x K)
    (hf : ∀ a, Leads K (f a) J) : Leads I (x >>= f) J := by
  intro s r t hs h
  rcases bind_eq_some.mp h with ⟨e, hxs, -⟩ | ⟨a, u, hxs, hft⟩
  · exact hKJ t (hx s _ t hs hxs)
  · exact hf a u r t (hx s _ u hs hxs) hft

theorem ite {p : Prop} [Decidable p] {y : Action σ ε α} (hx : p → Leads I x J)
    (hy : ¬p → Leads I y J) : Leads I (if p then x else y) J := by
  by_cases hp : p
  · rw [if_pos hp]
    exact hx hp
  · rw [if_neg hp]
    exact hy hp

end Leads

/-- A computation keeps an invariant of the state, whether it returns a value or an error. -/
def Keeps (I : σ → Prop) (x : Action σ ε α) : Prop :=
  ∀ s r t, I s → x s = some (r, t) → I t

namespace Keeps

variable {I : σ → Prop} {x : Action σ ε α}

theorem bind (hx : Keeps I x) (hf : ∀ a, Keeps I (f a)) :
    Keeps I (x >>= f) :=
  Leads.bind (fun _ h => h) hx hf

theorem of_unchanged (h : ∀ s r t, x s = some (r, t) → t = s) : Keeps I x := by
  intro s r t hs hx
  rw [h s r t hx]
  exact hs

theorem pure (a : α) : Keeps I (Pure.pure a : Action σ ε α) :=
  of_unchanged fun _ _ _ h => (pure_eq_some.mp h).2

theorem throw (e : ε) : Keeps I (Action.throw e : Action σ ε α) :=
  of_unchanged fun _ _ _ h => by cases h; rfl

theorem ofExcept (r : Except ε α) : Keeps I (Action.ofExcept r : Action σ ε α) :=
  of_unchanged fun _ _ _ h => by cases h; rfl

theorem get : Keeps I (Action.get : Action σ ε σ) :=
  of_unchanged fun _ _ _ h => by cases h; rfl

theorem read (f : σ → α) : Keeps I (Action.read f : Action σ ε α) :=
  of_unchanged fun _ _ _ h => by cases h; rfl

theorem unwrap (o : Option α) : Keeps I (Action.unwrap o : Action σ ε α) :=
  of_unchanged fun _ _ _ h => by
    rw [Action.unwrap, map_eq_some_iff] at h
    obtain ⟨_, -, h⟩ := h
    cases h
    rfl

theorem modify {f : σ → σ} (hf : ∀ s, I s → I (f s)) :
    Keeps I (Action.modify f : Action σ ε Unit) := by
  intro s r t hs h
  cases h
  exact hf s hs

theorem tryModify {f : σ → Option σ} (hf : ∀ s t, I s → f s = some t → I t) :
    Keeps I (Action.tryModify f : Action σ ε Unit) :=
  fun s _ t hs h => hf s t hs (tryModify_eq_some.mp h).2

theorem attempt (hx : Keeps I x) : Keeps I x.attempt := by
  intro s r t hs h
  rw [Action.attempt, map_eq_some_iff] at h
  obtain ⟨⟨r', u⟩, hu, h⟩ := h
  cases h
  exact hx s r' u hs hu

/-- A computation over a part keeps an invariant that its own steps keep for the part. -/
theorem zoom {part : σ → τ} {update : σ → τ → σ} {y : Action τ ε α}
    (h : ∀ s r u, I s → y (part s) = some (r, u) → I (update s u)) :
    Keeps I (Action.zoom part update y) := by
  intro s r t hs hy
  obtain ⟨u, hu, rfl⟩ := zoom_eq_some.mp hy
  exact h s r u hs hu

theorem ite {p : Prop} [Decidable p] {y : Action σ ε α} (hx : p → Keeps I x)
    (hy : ¬p → Keeps I y) : Keeps I (if p then x else y) :=
  Leads.ite hx hy

theorem forM {f : α → Action σ ε Unit} (hf : ∀ a ∈ l, Keeps I (f a)) :
    Keeps I (l.forM f) := by
  induction l with
  | nil => exact pure ()
  | cons a l ih =>
    exact bind (hf a mem_cons_self) fun _ =>
      ih fun b hb => hf b (mem_cons_of_mem a hb)

theorem mapM (hf : ∀ a ∈ l, Keeps I (f a)) :
    Keeps I (l.mapM f) := by
  induction l with
  | nil => exact pure []
  | cons a l ih =>
    rw [mapM_cons]
    exact bind (hf a mem_cons_self) fun _ =>
      bind (ih fun b hb => hf b (mem_cons_of_mem a hb)) fun _ => pure _

end Keeps

theorem Leads.of_keeps {I J : σ → Prop} {x : Action σ ε α} (hIJ : ∀ s, I s → J s)
    (hx : Keeps I x) : Leads I x J :=
  fun s r t hs h => hIJ t (hx s r t hs h)

end Action

end KeryxNode
