import InfeasibilityControl.Proofs.Run.Stages

set_option autoImplicit false
set_option relaxedAutoImplicit false

/-!
The course of a run: every state it passes through, whether or not it comes to an end.

A round goes through three moments. `Reaches` collects the states at each of them; a run that ends,
ends in a state before a round. `Reaches.rule` is the induction along the course: what the start
brings about and each stage keeps holds wherever the run gets.
-/

namespace InfeasibilityControl

open Counted (Returns)
open Ledger (Spends Rests Quiet)

/-- Where in a round a run stands. -/
inductive Moment
  /-- Before a normal step; the flag tells whether the last one is to be repeated. -/
  | before (again : Bool)
  /-- After a normal step. -/
  | restored
  /-- After the restored point was judged. -/
  | judged

variable {K : Type} [Scalar K]

/-- The origin is to be found on a line, and all its points are equally good. -/
def flatLine : Problem Float where
  name := "flat_line"
  start := [1]
  constraintCount := 1
  inequalityCount := 0
  bounded := false
  evaluationTime := 0
  objective := fun _ => .ok 0
  gradient := fun _ => .ok [0]
  constraints := fun x => .ok x
  jacobianPattern := [⟨0, 0⟩]
  jacobianValues := fun _ => .ok [1]
  hessianPattern := []
  hessianValues := fun _ _ _ => .ok []

theorem flatLine_still : (Ledger.empty : Ledger Float).clock.IsStill flatLine.evaluationTime :=
  ⟨rfl, fun _ => rfl⟩

/-- A parabola on a line, with its least value at the origin and constraints that hold everywhere. -/
def parabola : Problem Float where
  name := "parabola"
  start := [1]
  constraintCount := 1
  inequalityCount := 0
  bounded := false
  evaluationTime := 0
  objective := fun x => .ok (Vec.dot x x)
  gradient := fun x => .ok (Vec.plus x x)
  constraints := fun _ => .ok [0]
  jacobianPattern := []
  jacobianValues := fun _ => .ok []
  hessianPattern := [⟨0, 0⟩]
  hessianValues := fun _ _ _ => .ok [2]

namespace RunState

/-- The round goes on from a restored point: the point is inside the radius or the run ends. -/
def settles (r : RunState K) : Bool :=
  decide (r.iterate.primalNorm ≤ r.iterate.radius) || r.tired.isSome || r.infeasible

/-- The run ends at a judged point. -/
def rests (r : RunState K) : Bool := r.solved || r.tired.isSome || r.infeasible

omit [Scalar K] in
theorem tired_of_isOver {r : RunState K} (h : r.isOver = false) : r.tired = none := by
  simp only [isOver, Bool.or_eq_false_iff] at h
  simpa using h.1.1.2

omit [Scalar K] in
theorem tired_of_rests {r : RunState K} (h : r.rests = false) : r.tired = none := by
  simp only [rests, Bool.or_eq_false_iff] at h
  simpa using h.1.2

/-- The judgement of a restored point. -/
structure Judges (c : RunContext K) (r r' : RunState K) (l l' : Ledger K) : Prop where
  state : ∃ g? solved, r' = { r with iterate := r.iterate.recalling g?, solved }
  coherent : r'.iterate.IsCoherent
  solved : r'.solved = true ↔ r'.iterate.Passes c.tolerances
  quiet : Quiet l l'

theorem Restores.settles {c : RunContext K} {r r' : RunState K} {l l' : Ledger K}
    {o : NormalOutcome K} (h : Restores c r o r' l l')
    (hclock : l.clock.NeverGoesBack c.problem.evaluationTime) : r'.settles = true := by
  obtain ⟨l₁, hfollows, -⟩ := h.follows
  unfold RunState.settles
  cases hstatus : o.status with
  | success =>
    have hinside := hfollows.success_iff.1 hstatus
    rw [NormalOutcome.primalNorm, ← h.iterate.constraints, ← h.iterate.radius] at hinside
    simp [Iterate.primalNorm, hinside]
  | infeasible =>
    have hflag := h.infeasible
    simp [hflag, hstatus]
  | exhausted limit =>
    have htired := h.exhausted hclock limit hstatus
    rw [Option.ne_none_iff_isSome] at htired
    simp [htired]

end RunState

open RunState (isSolved Starts Restores Judges Descends)

section

variable (p : Problem K) (settings : Settings K) (policy : RegularizationPolicy K)
  (start? : Option (Vec K)) (l₀ : Ledger K)

/-- The states that a run reaches. -/
inductive Reaches : RunContext K → Moment → RunState K → Ledger K → Prop
  | begun {c : RunContext K} {r : RunState K} {l : Ledger K}
      (step : Returns (startRun p settings policy start?) l₀ (c, r) l) :
      Reaches c (.before false) r l
  | restored {c : RunContext K} {again : Bool} {r r' : RunState K} {l l' : Ledger K}
      (h : Reaches c (.before again) r l) (goes : (r.isOver && !again) = false)
      (step : Returns (r.restore c) l r' l') : Reaches c .restored r' l'
  | repeated {c : RunContext K} {r : RunState K} {l : Ledger K}
      (h : Reaches c .restored r l) (outside : r.settles = false) : Reaches c (.before true) r l
  | judged {c : RunContext K} {r : RunState K} {l l' : Ledger K} {solved : Bool} {s : Iterate K}
      (h : Reaches c .restored r l) (inside : r.settles = true)
      (step : Returns (isSolved r.iterate c.tolerances) l (solved, s) l') :
      Reaches c .judged { r with iterate := s, solved } l'
  | ended {c : RunContext K} {r : RunState K} {l : Ledger K}
      (h : Reaches c .judged r l) (stays : r.rests = true) : Reaches c (.before false) r l
  | descended {c : RunContext K} {r r' : RunState K} {l l' : Ledger K}
      (h : Reaches c .judged r l) (goes : r.rests = false)
      (step : Returns (r.descend c) l r' l') : Reaches c (.before false) r' l'

end

/-- A property of each stage of a run and the stages before it. -/
def EachStage {K : Type} (P : List (Stage K) → Stage K → Prop) (stages : List (Stage K)) : Prop :=
  ∀ before s after, stages = before ++ s :: after → P before s

omit [Scalar K] in
theorem eachStage_nil {P : List (Stage K) → Stage K → Prop} : EachStage P [] := by
  intro before s after h
  simp at h

omit [Scalar K] in
theorem eachStage_append {P : List (Stage K) → Stage K → Prop} {stages : List (Stage K)}
    {s : Stage K} : EachStage P (stages ++ [s]) ↔ EachStage P stages ∧ P stages s := by
  constructor
  · intro h
    refine ⟨fun before t after ht => h before t (after ++ [s]) ?_, h stages s [] rfl⟩
    rw [ht, List.append_assoc, List.cons_append]
  · rintro ⟨h, hs⟩ before t after ht
    rcases List.eq_nil_or_concat after with rfl | ⟨after, last, rfl⟩
    · obtain ⟨rfl, hst⟩ := List.append_inj' ht rfl
      cases hst
      exact hs
    · refine h before t after ?_
      rw [List.concat_eq_append, ← List.cons_append, ← List.append_assoc] at ht
      exact (List.append_inj' ht rfl).1

namespace Reaches

variable {p : Problem K} {settings : Settings K} {policy : RegularizationPolicy K}
  {start? : Option (Vec K)} {l₀ l l' : Ledger K} {c : RunContext K} {m : Moment}
  {r r' : RunState K}

theorem coherent (h : Reaches p settings policy start? l₀ c m r l) : r.iterate.IsCoherent := by
  induction h with
  | begun step => exact (startRun_returns step).coherent
  | restored h goes step ih =>
    obtain ⟨o, hstep⟩ := RunState.restore_returns step ih
    exact hstep.coherent
  | repeated h outside ih => exact ih
  | judged h inside step ih =>
    obtain ⟨-, -, hcoherent, -⟩ := RunState.isSolved_returns step ih
    exact hcoherent
  | ended h stays ih => exact ih
  | descended h goes step ih =>
    obtain ⟨o, hstep⟩ := RunState.descend_returns step ih
    exact hstep.coherent

/-- Induction along the course of a run: what the start brings about and each stage keeps. -/
theorem rule {P : RunContext K → Moment → RunState K → Ledger K → Prop}
    (h : Reaches p settings policy start? l₀ c m r l)
    (begun : ∀ c r l, Starts p settings policy start? c r l₀ l → P c (.before false) r l)
    (restored : ∀ c again r o r' l l', Reaches p settings policy start? l₀ c (.before again) r l →
      P c (.before again) r l → (r.isOver && !again) = false → Restores c r o r' l l' →
      P c .restored r' l')
    (repeated : ∀ c r l, Reaches p settings policy start? l₀ c .restored r l → P c .restored r l →
      r.settles = false → P c (.before true) r l)
    (judged : ∀ c r r' l l', Reaches p settings policy start? l₀ c .restored r l →
      P c .restored r l → r.settles = true → Judges c r r' l l' → P c .judged r' l')
    (ended : ∀ c r l, Reaches p settings policy start? l₀ c .judged r l → P c .judged r l →
      r.rests = true → P c (.before false) r l)
    (descended : ∀ c r o r' l l', Reaches p settings policy start? l₀ c .judged r l →
      P c .judged r l → r.rests = false → Descends c r o r' l l' → P c (.before false) r' l') :
    P c m r l := by
  induction h with
  | begun step => exact begun _ _ _ (startRun_returns step)
  | restored h goes step ih =>
    obtain ⟨o, hstep⟩ := RunState.restore_returns step h.coherent
    exact restored _ _ _ o _ _ _ h ih goes hstep
  | repeated h outside ih => exact repeated _ _ _ h ih outside
  | judged h inside step ih =>
    obtain ⟨hsolved, ⟨g?, rfl⟩, hcoherent, hquiet⟩ := RunState.isSolved_returns step h.coherent
    exact judged _ _ _ _ _ h ih inside ⟨⟨g?, _, rfl⟩, hcoherent, hsolved, hquiet⟩
  | ended h stays ih => exact ended _ _ _ h ih stays
  | descended h goes step ih =>
    obtain ⟨o, hstep⟩ := RunState.descend_returns step h.coherent
    exact descended _ _ o _ _ _ h ih goes hstep

/-- Induction along the course of a run for what holds at every moment of a round alike. -/
theorem steadyRule {P : RunContext K → RunState K → Ledger K → Prop}
    (h : Reaches p settings policy start? l₀ c m r l)
    (begun : ∀ c r l, Starts p settings policy start? c r l₀ l → P c r l)
    (restored : ∀ c again r o r' l l', Reaches p settings policy start? l₀ c (.before again) r l →
      P c r l → (r.isOver && !again) = false → Restores c r o r' l l' → P c r' l')
    (judged : ∀ c r r' l l', P c r l → Judges c r r' l l' → P c r' l')
    (descended : ∀ c r o r' l l', Reaches p settings policy start? l₀ c .judged r l →
      P c r l → r.rests = false → Descends c r o r' l l' → P c r' l') : P c r l :=
  h.rule (P := fun c _ r l => P c r l) begun restored (fun _ _ _ _ hr _ => hr)
    (fun c r r' l l' _ hr _ hstep => judged c r r' l l' hr hstep) (fun _ _ _ _ hr _ => hr) descended

theorem started (h : Reaches p settings policy start? l₀ c m r l) :
    ∃ r₁ l₁, Starts p settings policy start? c r₁ l₀ l₁ := by
  induction h with
  | begun step => exact ⟨_, _, startRun_returns step⟩
  | restored h goes step ih => exact ih
  | repeated h outside ih => exact ih
  | judged h inside step ih => exact ih
  | ended h stays ih => exact ih
  | descended h goes step ih => exact ih

/-- Before a round that repeats nothing, and at a judged point, a run is solved exactly if its
iterate passes both tests. -/
theorem solved_iff (h : Reaches p settings policy start? l₀ c m r l)
    (hm : m = .judged ∨ m = .before false) : r.solved = true ↔ r.iterate.Passes c.tolerances := by
  induction h with
  | begun step => exact (startRun_returns step).solved
  | restored h goes step ih => simp at hm
  | repeated h outside ih => simp at hm
  | judged h inside step ih =>
    obtain ⟨hsolved, ⟨g?, rfl⟩, -, -⟩ := RunState.isSolved_returns step h.coherent
    exact hsolved
  | ended h stays ih => exact ih (.inl rfl)
  | descended h goes step ih =>
    obtain ⟨o, hstep⟩ := RunState.descend_returns step h.coherent
    exact hstep.solved

theorem problem_eq (h : Reaches p settings policy start? l₀ c m r l) : c.problem = p := by
  obtain ⟨r₁, l₁, hstarts⟩ := h.started
  exact hstarts.context.1

theorem settings_eq (h : Reaches p settings policy start? l₀ c m r l) : c.settings = settings := by
  obtain ⟨r₁, l₁, hstarts⟩ := h.started
  exact hstarts.context.2.1

theorem maxEvaluations_eq (h : Reaches p settings policy start? l₀ c m r l) :
    c.budget.maxEvaluations = settings.maxEvaluations := by
  obtain ⟨r₁, l₁, hstarts⟩ := h.started
  exact hstarts.budget.1

theorem spends (h : Reaches p settings policy start? l₀ c m r l) :
    ∃ w, Spends p.evaluationTime w l₀.restart l := by
  refine h.steadyRule (P := fun _ _ l => ∃ w, Spends p.evaluationTime w l₀.restart l) ?_ ?_ ?_ ?_
  · intro c r l hstep
    exact ⟨_, hstep.spent⟩
  · rintro c again r o r' l l' h ⟨w, hw⟩ - hstep
    obtain ⟨w', hspent⟩ := hstep.spends
    rw [h.problem_eq] at hspent
    exact ⟨_, hw.trans hspent⟩
  · rintro c r r' l l' ⟨w, hw⟩ hstep
    exact ⟨w, hw.rests hstep.quiet.toRests⟩
  · rintro c r o r' l l' h ⟨w, hw⟩ - hstep
    obtain ⟨w', hspent⟩ := hstep.spends
    rw [h.problem_eq] at hspent
    exact ⟨_, hw.trans hspent⟩

/-- The last check of the budget came to the verdict that the run knows of, and nothing was
evaluated since. -/
theorem told (h : Reaches p settings policy start? l₀ c m r l) :
    c.budget.Told p.evaluationTime r.tired l₀.restart l := by
  refine h.steadyRule (P := fun c r l => c.budget.Told p.evaluationTime r.tired l₀.restart l)
    ?_ ?_ ?_ ?_
  · intro c r l hstep
    exact hstep.told
  · rintro c again r o r' l l' h - - hstep
    obtain ⟨w, hw⟩ := h.spends
    have htold := hstep.told
    rw [h.problem_eq] at htold
    exact htold.after hw
  · rintro c r r' l l' htold hstep
    obtain ⟨g?, solved, rfl⟩ := hstep.state
    exact htold.quiet hstep.quiet
  · rintro c r o r' l l' h - - hstep
    obtain ⟨w, hw⟩ := h.spends
    have htold := hstep.told
    rw [h.problem_eq] at htold
    exact htold.after hw

theorem evaluations_le (h : Reaches p settings policy start? l₀ c m r l) (htired : r.tired = none) :
    (l.counters.evaluations : Int) ≤ settings.maxEvaluations := by
  obtain ⟨v, l₁, -, -, hverdict, hrests⟩ := h.told
  rw [htired] at hverdict
  rw [← h.maxEvaluations_eq, hrests.evaluations]
  exact Int.not_lt.1 (Budget.verdict_look_eq_none_iff.1 hverdict).1

theorem goes {again : Bool} (h : Reaches p settings policy start? l₀ c (.before again) r l)
    (hgoes : (r.isOver && !again) = false) : r.tired = none ∧ r.infeasible = false := by
  cases again with
  | false =>
    have hover : r.isOver = false := by simpa using hgoes
    refine ⟨RunState.tired_of_isOver hover, ?_⟩
    simp only [RunState.isOver, Bool.or_eq_false_iff] at hover
    exact hover.1.2
  | true =>
    cases h with
    | repeated h outside =>
      simp only [RunState.settles, Bool.or_eq_false_iff] at outside
      exact ⟨by simpa using outside.1.2, outside.2⟩

theorem neverGoesBack (h : Reaches p settings policy start? l₀ c m r l)
    (hclock : l₀.clock.NeverGoesBack p.evaluationTime) :
    l.clock.NeverGoesBack c.problem.evaluationTime := by
  obtain ⟨w, hw⟩ := h.spends
  rw [h.problem_eq]
  exact hw.neverGoesBack hclock

theorem settles (h : Reaches p settings policy start? l₀ c .restored r l)
    (hclock : l₀.clock.NeverGoesBack p.evaluationTime) : r.settles = true := by
  cases h with
  | restored h goes step =>
    obtain ⟨o, hstep⟩ := RunState.restore_returns step h.coherent
    exact hstep.settles (h.neverGoesBack hclock)

theorem not_again (hclock : l₀.clock.NeverGoesBack p.evaluationTime) :
    ¬ Reaches p settings policy start? l₀ c (.before true) r l := by
  intro h
  cases h with
  | repeated h outside =>
    rw [h.settles hclock] at outside
    cases outside

end Reaches

namespace RunState

variable (r : RunState K) (c : RunContext K)

/-- What is left of a round at a judged point. -/
def proceed : Counted K (RunState K × Bool) := do
  if r.rests then return (r, false)
  else return (← r.descend c, false)

/-- What is left of a round at a restored point. -/
def resume : Counted K (RunState K × Bool) := do
  if r.settles then
    let (solved, iterate) ← isSolved r.iterate c.tolerances
    { r with iterate, solved }.proceed c
  else return (r, true)

theorem advance_eq : r.advance c = r.restore c >>= fun r => r.resume c := rfl

end RunState

namespace RunState

variable {p : Problem K} {settings : Settings K} {policy : RegularizationPolicy K}
  {start? : Option (Vec K)} {l₀ l l' : Ledger K} {c : RunContext K} {r r' : RunState K}

/-- A round restores feasibility, and where that settles the point it is judged; where the run does
not rest there a tangent stage follows. -/
theorem advance_cases {again : Bool} (h : Returns (r.advance c) l (r', again) l') :
    ∃ r₁ l₁, Returns (r.restore c) l r₁ l₁ ∧
      ((r₁.settles = false ∧ again = true ∧ r' = r₁ ∧ l' = l₁) ∨
        r₁.settles = true ∧ again = false ∧ ∃ solved s l₂,
          Returns (isSolved r₁.iterate c.tolerances) l₁ (solved, s) l₂ ∧
          ((rests { r₁ with iterate := s, solved } = true ∧
              r' = { r₁ with iterate := s, solved } ∧ l' = l₂) ∨
            rests { r₁ with iterate := s, solved } = false ∧
              Returns (descend { r₁ with iterate := s, solved } c) l₂ r' l')) := by
  simp only [advance_eq, resume, proceed, Counted.returns_bind, Counted.returns_ite,
    Counted.returns_pure, Prod.mk.injEq, Bool.not_eq_true] at h
  obtain ⟨r₁, l₁, hrestore, ⟨hsettles, ⟨solved, s⟩, l₂, hsolved, h⟩ | ⟨hopen, ⟨rfl, rfl⟩, rfl⟩⟩ := h
  · refine ⟨r₁, l₁, hrestore, .inr ?_⟩
    obtain ⟨hrests, ⟨rfl, rfl⟩, rfl⟩ | ⟨hgoes, _, _, hdescend, ⟨rfl, rfl⟩, rfl⟩ := h
    · exact ⟨hsettles, rfl, solved, s, l', hsolved, .inl ⟨hrests, rfl, rfl⟩⟩
    · exact ⟨hsettles, rfl, solved, s, l₂, hsolved, .inr ⟨hgoes, hdescend⟩⟩
  · exact ⟨r', l', hrestore, .inl ⟨hopen, rfl, rfl, rfl⟩⟩

theorem advance_reaches {again again' : Bool}
    (hr : Reaches p settings policy start? l₀ c (.before again) r l)
    (goes : (r.isOver && !again) = false) (h : Returns (r.advance c) l (r', again') l') :
    Reaches p settings policy start? l₀ c (.before again') r' l' := by
  obtain ⟨r₁, l₁, hrestore, h⟩ := advance_cases h
  have hrestored := hr.restored goes hrestore
  obtain ⟨hopen, rfl, rfl, rfl⟩ | ⟨hsettles, rfl, solved, s, l₂, hsolved, h⟩ := h
  · exact hrestored.repeated hopen
  · have hjudged := hrestored.judged hsettles hsolved
    obtain ⟨hrests, rfl, rfl⟩ | ⟨hgoes, hdescend⟩ := h
    · exact hjudged.ended hrests
    · exact hjudged.descended hgoes hdescend

private theorem over_reaches {again : Bool}
    (hr : Reaches p settings policy start? l₀ c (.before again) r l)
    (h : (r.isOver && !again) = true) :
    Reaches p settings policy start? l₀ c (.before false) r l ∧ r.isOver = true := by
  obtain ⟨hover, hagain⟩ := Bool.and_eq_true_iff.1 h
  simp only [Bool.not_eq_true'] at hagain
  subst hagain
  exact ⟨hr, hover⟩

theorem repeatRounds_reaches {rounds : Nat} {again : Bool} {last : RunState K}
    (hr : Reaches p settings policy start? l₀ c (.before again) r l)
    (h : Returns (repeatRounds c rounds r again) l (some last) l') :
    Reaches p settings policy start? l₀ c (.before false) last l' ∧ last.isOver = true := by
  induction rounds generalizing r again l with
  | zero =>
    simp only [repeatRounds, Counted.returns_pure] at h
    obtain ⟨hlast, rfl⟩ := h
    split at hlast
    · rename_i hover
      cases hlast
      exact over_reaches hr hover
    · cases hlast
  | succ rounds ih =>
    simp only [repeatRounds, Counted.returns_bind, Counted.returns_ite, Counted.returns_pure] at h
    obtain ⟨hover, hlast, rfl⟩ | ⟨hgoes, ⟨r₁, again₁⟩, l₁, hadvance, h⟩ := h
    · cases hlast
      exact over_reaches hr hover
    · exact ih (advance_reaches hr (by simpa using hgoes) hadvance) h

end RunState

/-- What is left of a run at a moment, with so many rounds to come after the present one. -/
def Moment.remainder (c : RunContext K) (rounds : Nat) (r : RunState K) :
    Moment → Counted K (Option (RunState K))
  | .before again => RunState.repeatRounds c rounds r again
  | .restored => do
      let (r, again) ← r.resume c
      RunState.repeatRounds c rounds r again
  | .judged => do
      let (r, again) ← r.proceed c
      RunState.repeatRounds c rounds r again

/-- From a state that a run reaches the run goes on as it does from its start, with the rounds that
it took to get there added. -/
theorem Reaches.remainder {p : Problem K} {settings : Settings K}
    {policy : RegularizationPolicy K} {start? : Option (Vec K)} {l₀ l : Ledger K}
    {c : RunContext K} {m : Moment} {r : RunState K}
    (h : Reaches p settings policy start? l₀ c m r l) :
    ∃ r₀ l₁ made, Returns (startRun p settings policy start?) l₀ (c, r₀) l₁ ∧
      ∀ rounds last? l', Returns (m.remainder c rounds r) l last? l' →
        Returns (RunState.repeatRounds c (made + rounds) r₀ false) l₁ last? l' := by
  induction h with
  | begun step =>
    refine ⟨_, _, 0, step, fun rounds last? l' hrest => ?_⟩
    rw [Nat.zero_add]
    exact hrest
  | restored h goes step ih =>
    obtain ⟨r₀, l₁, made, hstart, hmade⟩ := ih
    refine ⟨r₀, l₁, made + 1, hstart, fun rounds last? l' hrest => ?_⟩
    obtain ⟨⟨r₂, again⟩, l₂, hresume, hrounds⟩ := Counted.returns_bind.1 hrest
    rw [Nat.add_assoc, Nat.add_comm 1 rounds]
    refine hmade (rounds + 1) last? l' ?_
    simp only [Moment.remainder, RunState.repeatRounds, RunState.advance_eq, Counted.returns_ite,
      Counted.returns_bind]
    exact .inr ⟨by simp [goes], _, _, ⟨_, _, step, hresume⟩, hrounds⟩
  | repeated h outside ih =>
    obtain ⟨r₀, l₁, made, hstart, hmade⟩ := ih
    refine ⟨r₀, l₁, made, hstart, fun rounds last? l' hrest => hmade rounds last? l' ?_⟩
    simp only [Moment.remainder, RunState.resume, outside, Counted.returns_bind,
      Counted.returns_ite, Counted.returns_pure]
    exact ⟨_, _, .inr ⟨by simp, rfl, rfl⟩, hrest⟩
  | judged h inside step ih =>
    obtain ⟨r₀, l₁, made, hstart, hmade⟩ := ih
    refine ⟨r₀, l₁, made, hstart, fun rounds last? l' hrest => hmade rounds last? l' ?_⟩
    obtain ⟨x, l₂, hproceed, hrounds⟩ := Counted.returns_bind.1 hrest
    simp only [Moment.remainder, RunState.resume, inside, Counted.returns_bind,
      Counted.returns_ite, Counted.returns_pure]
    exact ⟨x, l₂, .inl ⟨trivial, _, _, step, hproceed⟩, hrounds⟩
  | ended h stays ih =>
    obtain ⟨r₀, l₁, made, hstart, hmade⟩ := ih
    refine ⟨r₀, l₁, made, hstart, fun rounds last? l' hrest => hmade rounds last? l' ?_⟩
    simp only [Moment.remainder, RunState.proceed, stays, Counted.returns_bind,
      Counted.returns_ite, Counted.returns_pure]
    exact ⟨_, _, .inl ⟨trivial, rfl, rfl⟩, hrest⟩
  | descended h goes step ih =>
    obtain ⟨r₀, l₁, made, hstart, hmade⟩ := ih
    refine ⟨r₀, l₁, made, hstart, fun rounds last? l' hrest => hmade rounds last? l' ?_⟩
    simp only [Moment.remainder, RunState.proceed, goes, Counted.returns_bind,
      Counted.returns_ite, Counted.returns_pure]
    exact ⟨_, _, .inr ⟨by simp, _, _, step, rfl, rfl⟩, hrest⟩

theorem solveWithin_finishes {p : Problem K} {settings : Settings K}
    {policy : RegularizationPolicy K} {start? : Option (Vec K)} {l l' : Ledger K} {rounds : Nat}
    {res : RunResult K}
    (h : Returns (solveWithin p settings policy start? rounds) l (some res) l') :
    ∃ c r l₁, Reaches p settings policy start? l c (.before false) r l₁ ∧ r.isOver = true ∧
      Returns (finishRun c r) l₁ res l' := by
  simp only [solveWithin, Counted.returns_bind] at h
  obtain ⟨⟨c, r⟩, l₁, hstart, last?, l₂, hrounds, h⟩ := h
  cases last? with
  | none =>
    simp only [Counted.returns_pure] at h
    cases h.1
  | some last =>
    simp only [Counted.returns_bind, Counted.returns_pure, Option.some.injEq] at h
    obtain ⟨_, _, hfinish, rfl, rfl⟩ := h
    obtain ⟨hreaches, hover⟩ := RunState.repeatRounds_reaches (.begun hstart) hrounds
    exact ⟨c, last, l₂, hreaches, hover, hfinish⟩

theorem solveWithin_returns {p : Problem K} {settings : Settings K}
    {policy : RegularizationPolicy K} {start? : Option (Vec K)} {l l' : Ledger K} {rounds : Nat}
    {res : RunResult K}
    (h : Returns (solveWithin p settings policy start? rounds) l (some res) l') :
    ∃ c r l₁, Reaches p settings policy start? l c (.before false) r l₁ ∧ r.isOver = true ∧
      res.Reports c r l' ∧ Quiet l₁ l' := by
  obtain ⟨c, r, l₁, hreaches, hover, hfinish⟩ := solveWithin_finishes h
  obtain ⟨hreports, hquiet⟩ := finishRun_returns hfinish hreaches.coherent
  exact ⟨c, r, l₁, hreaches, hover, hreports, hquiet⟩

theorem exists_run (p : Problem K) (settings : Settings K) (policy : RegularizationPolicy K)
    (start? : Option (Vec K)) (l₀ : Ledger K) (rounds : Nat) (test : RunResult K → Bool)
    (h : (Counted.value? (solveWithin p settings policy start? rounds) l₀).any
      (fun res? => res?.any test) = true) :
    ∃ res l, Returns (solveWithin p settings policy start? rounds) l₀ (some res) l ∧
      test res = true := by
  obtain ⟨res?, hvalue, hres⟩ := (Option.any_eq_true _ _).1 h
  obtain ⟨res, rfl, htest⟩ := (Option.any_eq_true _ _).1 hres
  obtain ⟨l, hreturns⟩ := Counted.value?_eq_some_iff.1 hvalue
  exact ⟨res, l, hreturns, htest⟩

theorem flatLine_ends : ∃ res l,
    Returns (solveWithin flatLine Settings.standard (.fixed .standard) none 5) .empty (some res) l ∧
      res.status = .firstOrder := by
  obtain ⟨res, l, h, hstatus⟩ := exists_run flatLine .standard (.fixed .standard) none .empty 5
    (fun res => decide (res.status = .firstOrder)) (by decide +kernel)
  exact ⟨res, l, h, of_decide_eq_true hstatus⟩

end InfeasibilityControl
