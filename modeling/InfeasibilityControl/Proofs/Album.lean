import Mathlib
import InfeasibilityControl.Proofs.Order.Exact
import InfeasibilityControl.Proofs.Snapshot

set_option autoImplicit false
set_option relaxedAutoImplicit false

/-!
Albums of snapshots.

Any snapshot of an album may be read and revised, in any order. What is found is what iterates
without a memory would give, and an album only grows. One product with a transposed Jacobian is paid
for each snapshot of which the gradient of the Lagrangian or its norm is read, however often.
-/

namespace InfeasibilityControl

open Counted (Returns)

variable {K : Type}

/-- What can be done with the snapshot at a place of an album. A revised snapshot comes last. -/
inductive AlbumOperation (K : Type)
  | read (place : Nat) (q : Quantity)
  | revise (place : Nat) (r : Revision K)

namespace AlbumOperation

/-- The place of the snapshot that is read or revised. -/
def place : AlbumOperation K → Nat
  | .read place _ | .revise place _ => place

/-- The place of the snapshot whose gradient of the Lagrangian is needed, if any. -/
def gradientPlace? : AlbumOperation K → Option Nat
  | .read place q => if q.needsGradient then some place else none
  | .revise .. => none

/-- The places of the snapshots of which the gradient of the Lagrangian or its norm is read. -/
def gradientPlaces (operations : List (AlbumOperation K)) : Finset Nat :=
  (operations.filterMap gradientPlace?).toFinset

@[simp] theorem gradientPlaces_nil : gradientPlaces ([] : List (AlbumOperation K)) = ∅ := rfl

theorem gradientPlaces_cons (operation : AlbumOperation K) (rest : List (AlbumOperation K)) :
    gradientPlaces (operation :: rest) =
      operation.gradientPlace?.toFinset ∪ gradientPlaces rest := by
  rw [gradientPlaces, List.filterMap_cons]
  cases operation.gradientPlace? with
  | none => rw [Option.toFinset_none, Finset.empty_union, gradientPlaces]
  | some place =>
    rw [Option.toFinset_some, Finset.singleton_union, gradientPlaces]
    exact List.toFinset_cons

theorem mem_gradientPlace?_read {place other : Nat} {q : Quantity} :
    other ∈ (read place q : AlbumOperation K).gradientPlace?.toFinset ↔
      q.needsGradient = true ∧ other = place := by
  rw [gradientPlace?]
  split <;> simp [*]

variable [Scalar K]

/-- What an operation finds among iterates that have no memory. -/
def answer (parts : List (Iterate K)) : AlbumOperation K → Except Fault (Option (Finding K))
  | .read place q => match parts[place]? with
      | some s => (s.fresh q).map some
      | none => .ok none
  | .revise .. => .ok none

omit [Scalar K] in
/-- The iterates after an operation: a revised one is new, the others stay as they are. -/
def grow (parts : List (Iterate K)) : AlbumOperation K → List (Iterate K)
  | .read .. => parts
  | .revise place r => parts ++ (parts[place]?.map fun s => s.revise r).toList

/-- What the operations find, one after the other, among iterates that have no memory. -/
def answers : List (Iterate K) → List (AlbumOperation K) →
    Except Fault (List (Option (Finding K)))
  | _, [] => return []
  | parts, operation :: rest => return (← operation.answer parts) ::
      (← answers (operation.grow parts) rest)

omit [Scalar K] in
/-- The iterates after a sequence of operations. -/
def growth (parts : List (Iterate K)) (operations : List (AlbumOperation K)) : List (Iterate K) :=
  operations.foldl grow parts

omit [Scalar K] in
/-- Whatever is read or revised was there before. -/
def HavePlaces : List (Iterate K) → List (AlbumOperation K) → Prop
  | _, [] => True
  | parts, operation :: rest =>
      operation.place < parts.length ∧ HavePlaces (operation.grow parts) rest

variable {parts : List (Iterate K)}

omit [Scalar K] in
theorem prefix_grow (operation : AlbumOperation K) : parts <+: operation.grow parts := by
  cases operation with
  | read => exact List.prefix_rfl
  | revise => exact List.prefix_append _ _

omit [Scalar K] in
theorem prefix_growth (operations : List (AlbumOperation K)) :
    parts <+: growth parts operations := by
  induction operations generalizing parts with
  | nil => exact List.prefix_rfl
  | cons operation rest ih => exact (prefix_grow operation).trans ih

omit [Scalar K] in
theorem growth_append (before after : List (AlbumOperation K)) :
    growth parts (before ++ after) = growth (growth parts before) after :=
  List.foldl_append

omit [Scalar K] in
theorem HavePlaces.of_append {before after : List (AlbumOperation K)}
    (h : HavePlaces parts (before ++ after)) : HavePlaces parts before := by
  induction before generalizing parts with
  | nil => trivial
  | cons operation rest ih => exact ⟨h.1, ih h.2⟩

theorem exists_of_answers {before after : List (AlbumOperation K)} {place : Nat} {q : Quantity}
    {found : List (Option (Finding K))}
    (hplaces : HavePlaces parts (before ++ .read place q :: after))
    (h : answers parts (before ++ .read place q :: after) = .ok found) :
    ∃ s a, (growth parts (before ++ .read place q :: after))[place]? = some s ∧
      s.fresh q = .ok a ∧ found[before.length]? = some (some a) := by
  induction before generalizing parts found with
  | nil =>
    have hplace : place < parts.length := hplaces.1
    obtain ⟨found₁, hfirst, h⟩ := Counted.except_bind_eq_ok.1 h
    obtain ⟨others, -, h⟩ := Counted.except_bind_eq_ok.1 h
    cases h
    rw [answer, List.getElem?_eq_getElem hplace] at hfirst
    obtain ⟨a, ha, rfl⟩ := Counted.except_map_eq_ok.1 hfirst
    exact ⟨parts[place], a, List.prefix_iff_getElem?.1 (prefix_growth _) place hplace, ha, rfl⟩
  | cons operation rest ih =>
    obtain ⟨found₁, -, h⟩ := Counted.except_bind_eq_ok.1 h
    obtain ⟨others, hothers, h⟩ := Counted.except_bind_eq_ok.1 h
    cases h
    exact ih hplaces.2 hothers

end AlbumOperation

/-- Snapshots in the order in which they were made. -/
abbrev Album (K : Type) := List (Snapshot K)

namespace Album

open AlbumOperation (gradientPlaces growth answers HavePlaces)

/-- The iterates of an album without their memories. -/
def parts (album : Album K) : List (Iterate K) := album.map Snapshot.parts

/-- The places of the snapshots that remember their gradient of the Lagrangian. -/
def remembering (album : Album K) : Finset Nat :=
  (Finset.range album.length).filter fun place =>
    (album[place]?.any Snapshot.remembersGradient) = true

theorem mem_remembering {album : Album K} {place : Nat} :
    place ∈ album.remembering ↔ ∃ s, album[place]? = some s ∧ s.remembersGradient = true := by
  simp only [remembering, Finset.mem_filter, Finset.mem_range, Option.any_eq_true]
  refine and_iff_right_of_imp ?_
  rintro ⟨s, hs, -⟩
  exact (List.getElem?_eq_some_iff.1 hs).1

variable [Scalar K]

/-- Carry out an operation. What is read of a snapshot is remembered in its place. -/
def perform (album : Album K) :
    AlbumOperation K → Counted K (Option (Finding K) × Album K)
  | .read place q => do
      match album[place]? with
      | some s =>
          let (found, s) ← s.read q
          return (some found, album.set place s)
      | none => return (none, album)
  | .revise place r => return (none, album ++ (album[place]?.map fun s => s.revise r).toList)

/-- Carry out operations, one after the other. -/
def performAll (album : Album K) :
    List (AlbumOperation K) → Counted K (List (Option (Finding K)) × Album K)
  | [] => return ([], album)
  | operation :: rest => do
      let (found, album) ← album.perform operation
      let (others, album) ← Album.performAll album rest
      return (found :: others, album)

/-- Each snapshot of an album is coherent. -/
def IsCoherent (album : Album K) : Prop := ∀ s ∈ album, s.IsCoherent

/-- What operations leave of an album: the parts that iterates without a memory have, memories that
belong to them, and all the gradients of the Lagrangian that were needed. -/
structure IsCarriedOut (album : Album K) (parts : List (Iterate K)) (needed : Finset Nat)
    (album' : Album K) : Prop where
  parts : album'.parts = parts
  coherent : album'.IsCoherent
  remembering : album'.remembering = album.remembering ∪ needed

variable {album : Album K} {place : Nat} {s s' t : Snapshot K} {q : Quantity}

omit [Scalar K] in
theorem getElem?_parts (album : Album K) (place : Nat) :
    album.parts[place]? = album[place]?.map Snapshot.parts := List.getElem?_map

omit [Scalar K] in
theorem parts_append (first second : Album K) :
    Album.parts (first ++ second) = first.parts ++ second.parts := List.map_append

omit [Scalar K] in
theorem mem_remembering_of_getElem? (hs : album[place]? = some s) :
    place ∈ album.remembering ↔ s.remembersGradient = true := by
  rw [mem_remembering, hs]
  simp only [Option.some.injEq, exists_eq_left']

omit [Scalar K] in
theorem remembering_append_new (ht : t.IsNew) :
    Album.remembering (album ++ [t]) = album.remembering := by
  ext place
  rw [mem_remembering, mem_remembering]
  rcases lt_or_ge place album.length with hold | hnew
  · rw [List.getElem?_append_left hold]
  · rw [List.getElem?_append_right hnew, List.getElem?_eq_none hnew]
    refine iff_of_false ?_ nofun
    rintro ⟨s, hs, hremembers⟩
    obtain rfl := List.mem_singleton.1 (List.mem_of_getElem? hs)
    rw [ht.remembersGradient_eq] at hremembers
    cases hremembers

omit [Scalar K] in
theorem remembering_of_isNew (h : ∀ s ∈ album, s.IsNew) : album.remembering = ∅ := by
  refine Finset.eq_empty_of_forall_notMem fun place hplace => ?_
  obtain ⟨s, hs, hremembers⟩ := mem_remembering.1 hplace
  rw [(h s (List.mem_of_getElem? hs)).remembersGradient_eq] at hremembers
  cases hremembers

theorem remembering_set (hs : album[place]? = some s) (h : s.IsRead q s') :
    Album.remembering (album.set place s') = album.remembering ∪
      (AlbumOperation.read place q : AlbumOperation K).gradientPlace?.toFinset := by
  ext other
  rw [Finset.mem_union, AlbumOperation.mem_gradientPlace?_read]
  by_cases hother : other = place
  · subst hother
    have hs' : (album.set other s')[other]? = some s' :=
      List.getElem?_set_self (List.getElem?_eq_some_iff.1 hs).1
    rw [mem_remembering_of_getElem? hs', mem_remembering_of_getElem? hs, h.remembers,
      Bool.or_eq_true, and_iff_left rfl]
  · rw [mem_remembering, List.getElem?_set_ne (Ne.symm hother), ← mem_remembering,
      or_iff_left fun hread => hother hread.2]

omit [Scalar K] in
theorem parts_set (hs : album[place]? = some s) (h : s'.parts = s.parts) :
    Album.parts (album.set place s') = album.parts := by
  obtain ⟨_, rfl⟩ := List.getElem?_eq_some_iff.1 hs
  rw [parts, List.map_set, h, ← List.map_set, List.set_getElem_self]
  rfl

omit [Scalar K] in
theorem cost_eq_card (hs : album[place]? = some s) (q : Quantity) :
    s.iterate.cost q =
      ((AlbumOperation.read place q : AlbumOperation K).gradientPlace?.toFinset \
        album.remembering).card := by
  have hremembers : place ∈ album.remembering ↔ s.iterate.remembersGradient = true :=
    mem_remembering_of_getElem? hs
  rw [Iterate.cost, AlbumOperation.gradientPlace?]
  cases q.needsGradient with
  | false => simp
  | true =>
    rw [if_pos rfl, Option.toFinset_some, Bool.true_and]
    by_cases hplace : place ∈ album.remembering
    · rw [hremembers.1 hplace, Finset.sdiff_eq_empty_iff_subset.2
        (Finset.singleton_subset_iff.2 hplace)]
      rfl
    · rw [Bool.eq_false_iff.2 (mt hremembers.2 hplace),
        Finset.sdiff_eq_self_of_disjoint (Finset.disjoint_singleton_left.2 hplace)]
      rfl

theorem isCarriedOut_read (hcoherent : album.IsCoherent) (hs : album[place]? = some s)
    (h : s.IsRead q s') :
    album.IsCarriedOut album.parts
      (AlbumOperation.read place q : AlbumOperation K).gradientPlace?.toFinset
      (album.set place s') where
  parts := parts_set hs h.parts
  coherent := by
    intro t ht
    obtain hold | rfl := List.mem_or_eq_of_mem_set ht
    · exact hcoherent t hold
    · exact h.coherent
  remembering := remembering_set hs h

theorem isCarriedOut_revise (hcoherent : album.IsCoherent) (s : Snapshot K) (r : Revision K) :
    album.IsCarriedOut (album.parts ++ [s.parts.revise r]) ∅ (album ++ [s.revise r]) where
  parts := parts_append album [s.revise r]
  coherent := by
    intro t ht
    rcases List.mem_append.1 ht with hold | hlast
    · exact hcoherent t hold
    · rw [List.mem_singleton.1 hlast]
      exact (s.isNew_revise r).isCoherent
  remembering := by rw [remembering_append_new (s.isNew_revise r), Finset.union_empty]

theorem perform_returns (hcoherent : album.IsCoherent) (hmatched : ∀ s ∈ album.parts, s.IsMatched)
    (operation : AlbumOperation K) (hplace : operation.place < album.parts.length) (l : Ledger K) :
    ∃ found album', operation.answer album.parts = .ok found ∧
      album.IsCarriedOut (operation.grow album.parts) operation.gradientPlace?.toFinset album' ∧
      Returns (album.perform operation) l (found, album')
        (l.afterTransposedProducts
          (operation.gradientPlace?.toFinset \ album.remembering).card) := by
  rw [parts, List.length_map] at hplace
  obtain ⟨s, hs⟩ : ∃ s, album[operation.place]? = some s := ⟨_, List.getElem?_eq_getElem hplace⟩
  have hparts : album.parts[operation.place]? = some s.parts := by
    rw [getElem?_parts, hs, Option.map_some]
  cases operation with
  | read place q =>
    obtain ⟨a, s', ha, hread, hreturns⟩ :=
      (hcoherent s (List.mem_of_getElem? hs)).read_returns
        (hmatched s.parts (List.mem_of_getElem? hparts)) q l
    rw [AlbumOperation.place] at hs hparts
    refine ⟨some a, album.set place s', ?_, isCarriedOut_read hcoherent hs hread, ?_⟩
    · rw [AlbumOperation.answer, hparts]
      simp only [ha, Except.map]
    · rw [← cost_eq_card hs]
      simp only [perform, hs]
      exact hreturns.bind .pure
  | revise place r =>
    rw [AlbumOperation.place] at hs hparts
    refine ⟨none, album ++ [s.revise r], rfl, ?_, ?_⟩
    · rw [AlbumOperation.grow, hparts]
      exact isCarriedOut_revise hcoherent s r
    · simp only [perform, hs]
      rw [AlbumOperation.gradientPlace?, Option.toFinset_none, Finset.empty_sdiff]
      exact .pure

private theorem card_union_sdiff (first rest there : Finset Nat) :
    ((first ∪ rest) \ there).card =
      (first \ there).card + (rest \ (there ∪ first)).card := by
  have hsplit : (first ∪ rest) \ there = first \ there ∪ rest \ (there ∪ first) := by
    ext place
    simp only [Finset.mem_sdiff, Finset.mem_union]
    tauto
  have hdisjoint : Disjoint (first \ there) (rest \ (there ∪ first)) := by
    rw [Finset.disjoint_left]
    intro place hfirst hrest
    simp only [Finset.mem_sdiff, Finset.mem_union] at hfirst hrest
    tauto
  rw [hsplit, Finset.card_union_of_disjoint hdisjoint]

/-- Operations find what iterates without a memory give, and cost a product for each snapshot whose
gradient of the Lagrangian is needed and was not remembered at the beginning. -/
theorem performAll_returns (hcoherent : album.IsCoherent) (operations : List (AlbumOperation K))
    (hmatched : ∀ s ∈ growth album.parts operations, s.IsMatched)
    (hplaces : HavePlaces album.parts operations) (l : Ledger K) :
    ∃ found album', answers album.parts operations = .ok found ∧
      album.IsCarriedOut (growth album.parts operations) (gradientPlaces operations) album' ∧
      Returns (album.performAll operations) l (found, album')
        (l.afterTransposedProducts (gradientPlaces operations \ album.remembering).card) := by
  -- The first operation leaves another coherent album, which remembers what it needed; the rest is
  -- carried out on that one.
  induction operations generalizing album l with
  | nil =>
    refine ⟨[], album, rfl, ⟨rfl, hcoherent, (Finset.union_empty _).symm⟩, ?_⟩
    rw [AlbumOperation.gradientPlaces_nil, Finset.empty_sdiff]
    exact .pure
  | cons operation rest ih =>
    obtain ⟨hplace, hrest⟩ := hplaces
    have hhere : ∀ s ∈ album.parts, s.IsMatched := fun s hs =>
      hmatched s ((AlbumOperation.prefix_growth (operation :: rest)).subset hs)
    obtain ⟨a, album₁, ha, hfirst, hreturns₁⟩ :=
      perform_returns hcoherent hhere operation hplace l
    rw [← hfirst.parts] at hrest
    obtain ⟨found, album₂, hfound, hthen, hreturns₂⟩ := ih hfirst.coherent
      (by rw [hfirst.parts]; exact hmatched) hrest (l.afterTransposedProducts _)
    refine ⟨a :: found, album₂, ?_, ⟨?_, hthen.coherent, ?_⟩, ?_⟩
    · rw [answers, ha, ← hfirst.parts, hfound]
      rfl
    · rw [hthen.parts, hfirst.parts]
      rfl
    · rw [hthen.remembering, hfirst.remembering, AlbumOperation.gradientPlaces_cons,
        Finset.union_assoc]
    · rw [AlbumOperation.gradientPlaces_cons, card_union_sdiff, ← hfirst.remembering,
        ← Ledger.afterTransposedProducts_add]
      exact hreturns₁.bind (hreturns₂.bind .pure)

/-- Whatever is read and revised in whatever order, each reading finds what the parts of its
snapshot make, and no snapshot's parts are ever changed. A product with a transposed Jacobian is
made for each snapshot of which the gradient of the Lagrangian or its norm is read, and nothing else
is put on the ledger. -/
theorem performAll_asFresh (hnew : ∀ s ∈ album, s.IsNew) (operations : List (AlbumOperation K))
    (hmatched : ∀ s ∈ growth album.parts operations, s.IsMatched)
    (hplaces : HavePlaces album.parts operations) (l : Ledger K) :
    ∃ found album',
      Returns (album.performAll operations) l (found, album')
        (l.afterTransposedProducts (gradientPlaces operations).card) ∧
      (∀ before place q after, operations = before ++ .read place q :: after →
        ∃ s a, album'.parts[place]? = some s ∧ s.fresh q = .ok a ∧
          found[before.length]? = some (some a)) ∧
      album'.parts = growth album.parts operations ∧
      ∀ before after found₁ middle l₁, operations = before ++ after →
        Returns (album.performAll before) l (found₁, middle) l₁ →
        middle.parts <+: album'.parts := by
  have hcoherent : album.IsCoherent := fun s hs => (hnew s hs).isCoherent
  obtain ⟨found, album', hfound, hcarried, hreturns⟩ :=
    performAll_returns hcoherent operations hmatched hplaces l
  rw [remembering_of_isNew hnew, Finset.sdiff_empty] at hreturns
  refine ⟨found, album', hreturns, ?_, hcarried.parts, ?_⟩
  · rintro before place q after rfl
    rw [hcarried.parts]
    exact AlbumOperation.exists_of_answers hplaces hfound
  · -- The operations up to some moment are themselves operations on the album.
    rintro before after found₁ middle l₁ rfl hbefore
    rw [AlbumOperation.growth_append] at hmatched hcarried
    have hkept : growth album.parts before <+: growth (growth album.parts before) after :=
      AlbumOperation.prefix_growth after
    obtain ⟨_, _, -, hearlier, hreturns₁⟩ := performAll_returns hcoherent before
      (fun s hs => hmatched s (hkept.subset hs)) hplaces.of_append l
    obtain ⟨hpair, -⟩ := hbefore.unique hreturns₁
    cases hpair
    rw [hearlier.parts, hcarried.parts]
    exact hkept

/-- The first coordinate as an objective, on the line on which the coordinates add up to one, with a
multiplier. -/
noncomputable def onLine (y : ℝ) : Iterate ℝ :=
  ⟨[1, 0], 1, [0], [1, 0], ⟨1, 2, [[some 1, some 1]]⟩, [y], 1, 0, none⟩

theorem onLine_isMatched (y : ℝ) : (onLine y).IsMatched :=
  ⟨rfl, rfl, rfl, rfl, rfl, rfl, by simp [onLine]⟩

theorem onLine_fresh (y : ℝ) :
    (onLine y).fresh .lagrangianGradient = .ok (.vector [1 + y, y]) := by
  have hcount : (onLine y).multipliers.length = (onLine y).jacobian.rowCount := rfl
  have himage : (onLine y).jacobian.applyTransposed (onLine y).multipliers = [y, y] := by
    simp [onLine, SparseMatrix.applyTransposed, SparseMatrix.addRow, Vec.zeros]
  have hsum : Vec.add (onLine y).gradient [y, y] = .ok [1 + y, y] := by
    simp [onLine, Vec.add, Vec.combine]
  rw [Iterate.fresh, Iterate.freshLagrangianGradient, if_pos hcount, himage, hsum]
  rfl

noncomputable def onLineAlbum : Album ℝ := [.ofIterate (onLine (-1))]

/-- The multiplier is replaced after the first reading, and both snapshots are read twice. -/
noncomputable def rereadings : List (AlbumOperation ℝ) :=
  [.read 0 (.figure .dualNorm), .revise 0 { Revision.none with multipliers := some [0] },
    .read 1 .lagrangianGradient, .read 0 .lagrangianGradient, .read 1 (.figure .dualNorm),
    .read 0 (.figure .gradientNorm)]

/-- The new multiplier turns `(0, -1)` into `(1, 0)`, and the first snapshot keeps the former. Two
products are made for the four readings that need one. -/
theorem rereadings_asFresh :
    (∀ s ∈ onLineAlbum, s.IsNew) ∧
      (∀ s ∈ growth onLineAlbum.parts rereadings, s.IsMatched) ∧
      HavePlaces onLineAlbum.parts rereadings ∧
      ∃ found album', Returns (onLineAlbum.performAll rereadings) Ledger.empty (found, album')
          (Ledger.empty.afterTransposedProducts 2) ∧
        found[2]? = some (some (.vector [1, 0])) ∧
        found[3]? = some (some (.vector [0, -1])) ∧
        album'.parts = [onLine (-1), onLine 0] := by
  have hnew : ∀ s ∈ onLineAlbum, s.IsNew := by
    intro s hs
    rw [List.mem_singleton.1 hs]
    exact ⟨rfl, fun _ => rfl⟩
  have hgrowth : growth onLineAlbum.parts rereadings = [onLine (-1), onLine 0] := rfl
  have hmatched : ∀ s ∈ growth onLineAlbum.parts rereadings, s.IsMatched := by
    rw [hgrowth]
    simp only [List.mem_cons, List.not_mem_nil, or_false, forall_eq_or_imp, forall_eq]
    exact ⟨onLine_isMatched _, onLine_isMatched _⟩
  have hplaces : HavePlaces onLineAlbum.parts rereadings := by
    simp [onLineAlbum, rereadings, HavePlaces, AlbumOperation.place, AlbumOperation.grow, parts]
  obtain ⟨found, album', hreturns, hfresh, hparts, -⟩ :=
    performAll_asFresh hnew rereadings hmatched hplaces Ledger.empty
  rw [hgrowth] at hparts
  refine ⟨hnew, hmatched, hplaces, found, album', hreturns, ?_, ?_, hparts⟩
  · obtain ⟨s, a, hs, ha, hfound⟩ := hfresh (rereadings.take 2) 1 .lagrangianGradient _ rfl
    rw [hparts] at hs
    cases hs
    rw [onLine_fresh, add_zero] at ha
    cases ha
    exact hfound
  · obtain ⟨s, a, hs, ha, hfound⟩ := hfresh (rereadings.take 3) 0 .lagrangianGradient _ rfl
    rw [hparts] at hs
    cases hs
    rw [onLine_fresh, add_neg_cancel] at ha
    cases ha
    exact hfound

end Album

end InfeasibilityControl
