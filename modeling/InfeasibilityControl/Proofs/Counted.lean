import InfeasibilityControl.Ledger

set_option autoImplicit false
set_option relaxedAutoImplicit false

/-!
What a counted computation returns.

`Returns m l a l'` says that the computation `m`, started with the ledger `l`, ends without a fault,
with the value `a` and the ledger `l'`. Each way of building a computation has a rule that opens it,
so that a run is taken apart from its last step to its first.
-/

namespace InfeasibilityControl.Counted

variable {K α β : Type}

/-- The computation ends without a fault, with this value and this ledger. -/
def Returns (m : Counted K α) (l : Ledger K) (a : α) (l' : Ledger K) : Prop :=
  (m.run.run l).run = (.ok a, l')

variable {l l' : Ledger K} {a : α} {b : β}

theorem Returns.unique {m : Counted K α} {a' : α} {l'' : Ledger K} (h : Returns m l a l')
    (h' : Returns m l a' l'') : a = a' ∧ l' = l'' := by
  have he := h.symm.trans h'
  simpa using he

@[simp] theorem returns_pure {x : α} :
    Returns (pure x : Counted K α) l a l' ↔ a = x ∧ l' = l := by
  change ((Except.ok x, l) = (Except.ok a, l')) ↔ _
  simp [eq_comm]

theorem run_bind (m : Counted K α) (f : α → Counted K β) (l : Ledger K) :
    ((m >>= f).run.run l).run =
      match (m.run.run l).run with
      | (.ok a, l₁) => ((f a).run.run l₁).run
      | (.error fault, l₁) => (.error fault, l₁) := by
  simp only [bind, ExceptT.bind, ExceptT.mk, ExceptT.bindCont, ExceptT.run, StateT.run, StateT.bind,
    Id.run]
  rcases m l with ⟨x, l₁⟩
  cases x <;> rfl

@[simp] theorem returns_bind {m : Counted K α} {f : α → Counted K β} :
    Returns (m >>= f) l b l' ↔ ∃ a l₁, Returns m l a l₁ ∧ Returns (f a) l₁ b l' := by
  simp only [Returns, run_bind]
  rcases (m.run.run l).run with ⟨x, l₁⟩
  cases x with
  | error fault => simp
  | ok x =>
    simp only [Prod.mk.injEq, Except.ok.injEq]
    constructor
    · intro h
      exact ⟨x, l₁, ⟨rfl, rfl⟩, h⟩
    · rintro ⟨_, _, ⟨rfl, rfl⟩, h⟩
      exact h

theorem Returns.pure : Returns (pure a : Counted K α) l a l := returns_pure.2 ⟨rfl, rfl⟩

theorem Returns.bind {m : Counted K α} {f : α → Counted K β} {l₁ : Ledger K}
    (hm : Returns m l a l₁) (hf : Returns (f a) l₁ b l') : Returns (m >>= f) l b l' :=
  returns_bind.2 ⟨a, l₁, hm, hf⟩

@[simp] theorem returns_map {m : Counted K α} {f : α → β} :
    Returns (f <$> m) l b l' ↔ ∃ a, Returns m l a l' ∧ b = f a := by
  rw [map_eq_pure_bind]
  simp only [returns_bind, returns_pure]
  constructor
  · rintro ⟨a, _, h, rfl, rfl⟩
    exact ⟨a, h, rfl⟩
  · rintro ⟨a, h, rfl⟩
    exact ⟨a, l', h, rfl, rfl⟩

@[simp] theorem not_returns_throw {fault : Fault} :
    ¬ Returns (throw fault : Counted K α) l a l' := by
  intro h
  have he : ((Except.error fault : Except Fault α), l) = (.ok a, l') := h
  simp at he

@[simp] theorem returns_except {e : Except Fault α} :
    Returns (liftM e : Counted K α) l a l' ↔ e = .ok a ∧ l' = l := by
  change ((e, l) = (.ok a, l')) ↔ _
  simp [eq_comm]

@[simp] theorem returns_state {m : StateM (Ledger K) α} :
    Returns (liftM m : Counted K α) l a l' ↔ (m.run l).run = (a, l') := by
  change ((Except.ok (m.run l).run.1, (m.run l).run.2) = (Except.ok a, l')) ↔ _
  rcases (m.run l).run with ⟨x, l₁⟩
  simp

@[simp] theorem returns_modify {f : Ledger K → Ledger K} {u : Unit} :
    Returns (modify f : Counted K Unit) l u l' ↔ l' = f l := by
  change ((Except.ok (), f l) = (Except.ok u, l')) ↔ _
  simp [eq_comm]

@[simp] theorem returns_modifyGet {f : Ledger K → α × Ledger K} :
    Returns (modifyGet f : Counted K α) l a l' ↔ f l = (a, l') := by
  change ((Except.ok (f l).1, (f l).2) = (Except.ok a, l')) ↔ _
  simp [Prod.ext_iff]

@[simp] theorem returns_get {x : Ledger K} :
    Returns (get : Counted K (Ledger K)) l x l' ↔ x = l ∧ l' = l := by
  change ((Except.ok l, l) = (Except.ok x, l')) ↔ _
  simp [eq_comm]

/-- The value of a computation, if it ends without a fault. -/
def value? (m : Counted K α) (l : Ledger K) : Option α := (m.run.run l).run.1.toOption

theorem value?_eq_some_iff {m : Counted K α} : value? m l = some a ↔ ∃ l', Returns m l a l' := by
  simp only [value?, Returns]
  rcases (m.run.run l).run with ⟨x, l₁⟩
  cases x <;> simp [Except.toOption, eq_comm]

theorem except_bind_eq_ok {x : Except Fault α} {f : α → Except Fault β} :
    (x >>= f) = .ok b ↔ ∃ a, x = .ok a ∧ f a = .ok b := by
  cases x with
  | error fault => simp [bind, Except.bind]
  | ok a => simp [bind, Except.bind]

theorem except_map_eq_ok {x : Except Fault α} {f : α → β} :
    x.map f = .ok b ↔ ∃ a, x = .ok a ∧ f a = b := by
  cases x with
  | error fault => simp [Except.map]
  | ok a => simp [Except.map]

theorem returns_ite {p : Prop} [Decidable p] {m n : Counted K α} :
    Returns (if p then m else n) l a l' ↔ (p ∧ Returns m l a l') ∨ (¬ p ∧ Returns n l a l') := by
  split <;> simp [*]

/-- Whatever the ledger, the computation returns this value. -/
def Always (m : Counted K α) (a : α) : Prop := ∀ l, ∃ l', Returns m l a l'

/-- What the computation returns does not depend on the ledger. -/
def IsBlind (m : Counted K α) : Prop := ∀ l a l', Returns m l a l' → Always m a

theorem isBlind_pure {a : α} : IsBlind (pure a : Counted K α) := by
  intro l b l' h l₁
  obtain ⟨rfl, -⟩ := returns_pure.1 h
  exact ⟨l₁, .pure⟩

theorem isBlind_throw {fault : Fault} : IsBlind (throw fault : Counted K α) := by
  intro l a l' h
  exact absurd h not_returns_throw

theorem isBlind_except {e : Except Fault α} : IsBlind (liftM e : Counted K α) := by
  intro l a l' h l₁
  obtain ⟨ha, -⟩ := returns_except.1 h
  exact ⟨l₁, returns_except.2 ⟨ha, rfl⟩⟩

theorem isBlind_modify {f : Ledger K → Ledger K} : IsBlind (modify f : Counted K Unit) := by
  intro l a l' _ l₁
  exact ⟨f l₁, returns_modify.2 rfl⟩

theorem isBlind_bind {m : Counted K α} {f : α → Counted K β} (hm : IsBlind m)
    (hf : ∀ a, IsBlind (f a)) : IsBlind (m >>= f) := by
  intro l b l' h l₁
  obtain ⟨a, l₂, ha, hb⟩ := returns_bind.1 h
  obtain ⟨l₃, ha'⟩ := hm _ _ _ ha l₁
  obtain ⟨l₄, hb'⟩ := hf a _ _ _ hb l₃
  exact ⟨l₄, ha'.bind hb'⟩

theorem isBlind_ite {p : Prop} [Decidable p] {m n : Counted K α} (hm : IsBlind m)
    (hn : IsBlind n) : IsBlind (if p then m else n) := by
  split
  · exact hm
  · exact hn

end InfeasibilityControl.Counted
