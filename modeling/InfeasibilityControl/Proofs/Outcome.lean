import InfeasibilityControl.Proofs.Counted
import Mathlib.Data.List.Infix

set_option autoImplicit false
set_option relaxedAutoImplicit false

/-!
How a computation ends, with a value or with a fault, and the ledger that it leaves.

`Writes` bounds the rows that a computation reports, however it ends. Two computations that are to
do the same until a budget is spent are compared by `Agrees`: if the first one stays within the
budget, the second one ends in the same way. A forerunner goes further. When it exceeds the budget,
all that it has reported but its last row is reported by the other one, too.
-/

namespace InfeasibilityControl

variable {K α β γ δ : Type}

namespace Ledger

/-- One ledger continues the other: no evaluation is taken back, and at most so many rows are
added. -/
structure Extends (rows : Nat) (l l' : Ledger K) : Prop where
  evaluations : l.counters.evaluations ≤ l'.counters.evaluations
  rows : ∃ new, l'.rows = l.rows ++ new ∧ new.length ≤ rows

variable {i j : Nat} {l l' l'' : Ledger K}

theorem Extends.refl : Extends i l l := ⟨Nat.le_refl _, [], by simp, by simp⟩

theorem Extends.of_rows_eq (hevaluations : l.counters.evaluations ≤ l'.counters.evaluations)
    (hrows : l'.rows = l.rows) : Extends 0 l l' :=
  ⟨hevaluations, [], by simp [hrows], by simp⟩

theorem Extends.mono (h : Extends i l l') (hle : i ≤ j) : Extends j l l' := by
  obtain ⟨new, hnew, hlength⟩ := h.rows
  exact ⟨h.evaluations, new, hnew, hlength.trans hle⟩

theorem Extends.trans (h : Extends i l l') (h' : Extends j l' l'') : Extends (i + j) l l'' := by
  obtain ⟨new, hnew, hlength⟩ := h.rows
  obtain ⟨new', hnew', hlength'⟩ := h'.rows
  refine ⟨h.evaluations.trans h'.evaluations, new ++ new', ?_, ?_⟩
  · rw [hnew', hnew, List.append_assoc]
  · rw [List.length_append]
    omega

theorem Extends.isPrefix (h : Extends i l l') : l.rows <+: l'.rows := by
  obtain ⟨new, hnew, -⟩ := h.rows
  exact ⟨new, hnew.symm⟩

theorem Extends.rows_eq (h : Extends 0 l l') : l'.rows = l.rows := by
  obtain ⟨new, hnew, hlength⟩ := h.rows
  rw [hnew, List.length_eq_zero_iff.1 (Nat.le_zero.1 hlength), List.append_nil]

theorem Extends.dropLast_isPrefix (h : Extends 1 l l') : l'.rows.dropLast <+: l.rows := by
  obtain ⟨new, hnew, hlength⟩ := h.rows
  rw [hnew]
  match new, hlength with
  | [], _ =>
    rw [List.append_nil]
    exact List.dropLast_prefix _
  | [row], _ =>
    rw [List.dropLast_concat]

end Ledger

namespace Counted

/-- How a computation ends and the ledger that it leaves. -/
def outcome (m : Counted K α) (l : Ledger K) : Except Fault α × Ledger K := (m.run.run l).run

/-- The ledger that a computation leaves. -/
def after (m : Counted K α) (l : Ledger K) : Ledger K := (m.outcome l).2

variable {i j : Nat} {m : Counted K α} {f : α → Counted K β} {l l' : Ledger K} {a : α}

theorem returns_iff_outcome : Returns m l a l' ↔ m.outcome l = (.ok a, l') := Iff.rfl

theorem Returns.after_eq (h : Returns m l a l') : m.after l = l' := by
  rw [after, returns_iff_outcome.1 h]

theorem outcome_bind (m : Counted K α) (f : α → Counted K β) (l : Ledger K) :
    (m >>= f).outcome l = match m.outcome l with
      | (.ok a, l₁) => (f a).outcome l₁
      | (.error fault, l₁) => (.error fault, l₁) :=
  run_bind m f l

theorem outcome_cases (m : Counted K α) (l : Ledger K) :
    (∃ fault, m.outcome l = (.error fault, m.after l)) ∨ ∃ a, Returns m l a (m.after l) := by
  rw [after]
  rcases h : m.outcome l with ⟨x, l₁⟩
  cases x with
  | error fault => exact .inl ⟨fault, rfl⟩
  | ok a => exact .inr ⟨a, h⟩

theorem outcome_bind_of_returns (h : Returns m l a l') :
    (m >>= f).outcome l = (f a).outcome l' := by
  rw [outcome_bind, returns_iff_outcome.1 h]

theorem outcome_bind_of_error {fault : Fault} (h : m.outcome l = (.error fault, l')) :
    (m >>= f).outcome l = (.error fault, l') := by
  rw [outcome_bind, h]

theorem after_bind_of_returns (h : Returns m l a l') : (m >>= f).after l = (f a).after l' := by
  rw [after, outcome_bind_of_returns h, after]

theorem after_bind_of_error {fault : Fault} (h : m.outcome l = (.error fault, l')) :
    (m >>= f).after l = l' := by
  rw [after, outcome_bind_of_error h]

/-- However the computation ends, it has taken back no evaluation and reported at most so many
rows. -/
def Writes (rows : Nat) (m : Counted K α) : Prop :=
  ∀ l : Ledger K, l.Extends rows (m.after l)

theorem Writes.mono (h : Writes i m) (hle : i ≤ j) : Writes j m := fun l => (h l).mono hle

theorem Writes.extends (h : Writes i m) (hm : Returns m l a l') : l.Extends i l' := by
  rw [← hm.after_eq]
  exact h l

theorem writes_pure {x : α} : Writes i (pure x : Counted K α) := fun _ => .refl

theorem writes_throw {fault : Fault} : Writes i (throw fault : Counted K α) := fun _ => .refl

theorem writes_except {e : Except Fault α} : Writes i (liftM e : Counted K α) := fun _ => .refl

theorem writes_get : Writes i (get : Counted K (Ledger K)) := fun _ => .refl

theorem writes_modify {g : Ledger K → Ledger K} (h : ∀ l : Ledger K, l.Extends i (g l)) :
    Writes i (modify g : Counted K Unit) := h

theorem writes_modifyGet {g : Ledger K → α × Ledger K} (h : ∀ l : Ledger K, l.Extends i (g l).2) :
    Writes i (modifyGet g : Counted K α) := h

theorem Writes.bind (hm : Writes i m) (hf : ∀ a, Writes j (f a)) : Writes (i + j) (m >>= f) := by
  intro l
  obtain ⟨fault, h⟩ | ⟨a, h⟩ := outcome_cases m l
  · rw [after_bind_of_error h]
    exact (hm l).mono (Nat.le_add_right i j)
  · rw [after_bind_of_returns h]
    exact (hm l).trans (hf a _)

theorem Writes.then (hm : Writes 0 m) (hf : ∀ a, Writes j (f a)) : Writes j (m >>= f) :=
  (hm.bind hf).mono (Nat.zero_add j).le

theorem Writes.ite {p : Prop} [Decidable p] {m n : Counted K α} (hm : Writes i m)
    (hn : Writes i n) : Writes i (if p then m else n) := by
  split
  · exact hm
  · exact hn

variable {limit : Int}

/-- The first computation takes no evaluation back. If it stays within a limit of evaluations, the
second one ends as it does: with the same fault or with what `g` makes of the same value, and with
the same ledger. -/
structure Agrees (limit : Int) (g : α → β) (m : Counted K α) (m' : Counted K β) (l : Ledger K) :
    Prop where
  grows : l.counters.evaluations ≤ (m.after l).counters.evaluations
  ends : ((m.after l).counters.evaluations : Int) ≤ limit →
    m'.outcome l = ((m.outcome l).1.map g, m.after l)

theorem Agrees.returns {g : α → β} {m' : Counted K β} (h : Agrees limit g m m' l)
    (hm : Returns m l a l') (hlimit : (l'.counters.evaluations : Int) ≤ limit) :
    Returns m' l (g a) l' := by
  rw [← hm.after_eq] at hlimit ⊢
  rw [returns_iff_outcome, h.ends hlimit, returns_iff_outcome.1 hm]
  rfl

theorem Agrees.error {g : α → β} {m' : Counted K β} {fault : Fault} (h : Agrees limit g m m' l)
    (hm : m.outcome l = (.error fault, l')) (hlimit : (l'.counters.evaluations : Int) ≤ limit) :
    m'.outcome l = (.error fault, l') := by
  have hafter : m.after l = l' := by rw [after, hm]
  rw [← hafter] at hlimit ⊢
  rw [h.ends hlimit, hm]
  rfl

theorem Agrees.refl (h : Writes i m) : Agrees limit id m m l := by
  refine ⟨(h l).evaluations, fun _ => ?_⟩
  rw [Except.map_id]
  rfl

theorem agrees_pure (g : α → β) (x : α) :
    Agrees limit g (pure x : Counted K α) (pure (g x)) l :=
  ⟨Nat.le_refl _, fun _ => rfl⟩

theorem agrees_throw {fault : Fault} (g : α → β) :
    Agrees limit g (throw fault : Counted K α) (throw fault) l :=
  ⟨Nat.le_refl _, fun _ => rfl⟩

theorem Agrees.of_lt {g : α → β} {m' : Counted K β} (h : Writes i m)
    (hlimit : limit < l.counters.evaluations) : Agrees limit g m m' l := by
  have hgrows := (h l).evaluations
  exact ⟨hgrows, fun hends => by omega⟩

theorem Agrees.bind {g : α → β} {h : γ → δ} {m' : Counted K β} {f : α → Counted K γ}
    {f' : β → Counted K δ} (hm : Agrees limit g m m' l)
    (hf : ∀ a l₁, Returns m l a l₁ → Agrees limit h (f a) (f' (g a)) l₁) :
    Agrees limit h (m >>= f) (m' >>= f') l := by
  obtain ⟨fault, hend⟩ | ⟨a, hend⟩ := outcome_cases m l
  · refine ⟨?_, fun hlimit => ?_⟩
    · rw [after_bind_of_error hend]
      exact hm.grows
    · rw [after_bind_of_error hend] at hlimit ⊢
      rw [outcome_bind_of_error hend, outcome_bind_of_error (hm.error hend hlimit)]
      rfl
  · have hrest := hf a _ hend
    refine ⟨?_, fun hlimit => ?_⟩
    · rw [after_bind_of_returns hend]
      exact hm.grows.trans hrest.grows
    · rw [after_bind_of_returns hend] at hlimit ⊢
      have hfirst : ((m.after l).counters.evaluations : Int) ≤ limit :=
        Int.le_trans (Int.ofNat_le.2 hrest.grows) hlimit
      rw [outcome_bind_of_returns hend, outcome_bind_of_returns (hm.returns hend hfirst)]
      exact hrest.ends hlimit

theorem Writes.agrees_bind {h : β → γ} {f' : α → Counted K γ} (hm : Writes i m)
    (hf : ∀ a l₁, Returns m l a l₁ → Agrees limit h (f a) (f' a) l₁) :
    Agrees limit h (m >>= f) (m >>= f') l :=
  (Agrees.refl hm).bind hf

theorem Agrees.ite {p : Prop} [Decidable p] {g : α → β} {m n : Counted K α} {m' n' : Counted K β}
    (hm : Agrees limit g m m' l) (hn : Agrees limit g n n' l) :
    Agrees limit g (if p then m else n) (if p then m' else n') l := by
  split
  · exact hm
  · exact hn

/-- One computation runs ahead of another: it agrees with it within a limit of evaluations, and in
any case only its last row need be its own. -/
structure Foreruns (limit : Int) (m m' : Counted K α) (l : Ledger K) : Prop where
  agrees : Agrees limit id m m' l
  rows : (m.after l).rows.dropLast <+: (m'.after l).rows

theorem foreruns_pure (x : α) : Foreruns limit (pure x : Counted K α) (pure x) l :=
  ⟨agrees_pure id x, List.dropLast_prefix _⟩

theorem Writes.foreruns_bind {f' : α → Counted K β} (hm : Writes i m)
    (hf : ∀ a l₁, Returns m l a l₁ → Foreruns limit (f a) (f' a) l₁) :
    Foreruns limit (m >>= f) (m >>= f') l := by
  refine ⟨hm.agrees_bind fun a l₁ h => (hf a l₁ h).agrees, ?_⟩
  obtain ⟨fault, hend⟩ | ⟨a, hend⟩ := outcome_cases m l
  · rw [after_bind_of_error hend, after_bind_of_error hend]
    exact List.dropLast_prefix _
  · rw [after_bind_of_returns hend, after_bind_of_returns hend]
    exact (hf a _ hend).rows

/-- A stage that may exceed the limit comes before the rest of a computation. If it does exceed it,
the rest reports nothing. -/
theorem Foreruns.bind {g : α → β} {m' : Counted K β} {f : α → Counted K γ} {f' : β → Counted K γ}
    (hm : Agrees limit g m m' l) (hstage : Writes 1 m) (hwrites' : Writes j (m' >>= f'))
    (hstops : ∀ a l₁, Returns m l a l₁ → limit < l₁.counters.evaluations → Writes 0 (f a))
    (hf : ∀ a l₁, Returns m l a l₁ → Foreruns limit (f a) (f' (g a)) l₁) :
    Foreruns limit (m >>= f) (m' >>= f') l := by
  refine ⟨hm.bind fun a l₁ h => (hf a l₁ h).agrees, ?_⟩
  by_cases hlimit : ((m.after l).counters.evaluations : Int) ≤ limit
  · obtain ⟨fault, hend⟩ | ⟨a, hend⟩ := outcome_cases m l
    · rw [after_bind_of_error hend, after_bind_of_error (hm.error hend hlimit)]
      exact List.dropLast_prefix _
    · rw [after_bind_of_returns hend, after_bind_of_returns (hm.returns hend hlimit)]
      exact (hf a _ hend).rows
  · have hrows : ((m >>= f).after l).rows = (m.after l).rows := by
      obtain ⟨fault, hend⟩ | ⟨a, hend⟩ := outcome_cases m l
      · rw [after_bind_of_error hend]
      · rw [after_bind_of_returns hend]
        exact (hstops a _ hend (Int.not_le.1 hlimit) _).rows_eq
    rw [hrows]
    exact (hstage l).dropLast_isPrefix.trans (hwrites' l).isPrefix

theorem Foreruns.then {m' : Counted K α} {f f' : α → Counted K β} (hm : Foreruns limit m m' l)
    (hf : ∀ a l₁, Agrees limit id (f a) (f' a) l₁) (hwrites : ∀ a, Writes 0 (f a))
    (hwrites' : ∀ a, Writes j (f' a)) : Foreruns limit (m >>= f) (m' >>= f') l := by
  refine ⟨hm.agrees.bind fun a l₁ _ => hf a l₁, ?_⟩
  have hrows : ((m >>= f).after l).rows = (m.after l).rows := by
    obtain ⟨fault, hend⟩ | ⟨a, hend⟩ := outcome_cases m l
    · rw [after_bind_of_error hend]
    · rw [after_bind_of_returns hend]
      exact (hwrites a _).rows_eq
  have hrows' : (m'.after l).rows <+: ((m' >>= f').after l).rows := by
    obtain ⟨fault, hend⟩ | ⟨a, hend⟩ := outcome_cases m' l
    · rw [after_bind_of_error hend]
    · rw [after_bind_of_returns hend]
      exact (hwrites' a _).isPrefix
  rw [hrows]
  exact hm.rows.trans hrows'

end Counted

end InfeasibilityControl
