import InfeasibilityControl.Vec

set_option autoImplicit false
set_option relaxedAutoImplicit false

/-!
Matrices with stored and absent entries, and the linear operators they act as.

Only stored entries take part in a product, so a stored zero meets an infinite coordinate and an
absent entry does not.
-/

namespace InfeasibilityControl

/-- A linear operator, given by its products and those of its transpose. -/
structure Operator (K : Type) where
  rowCount : Nat
  columnCount : Nat
  apply : Vec K → Vec K
  applyTransposed : Vec K → Vec K

/-- The transposed operator. -/
def Operator.transpose {K : Type} (A : Operator K) : Operator K :=
  ⟨A.columnCount, A.rowCount, A.applyTransposed, A.apply⟩

/-- A matrix as its rows, with `none` where no entry is stored. -/
structure SparseMatrix (K : Type) where
  rowCount : Nat
  columnCount : Nat
  rows : List (List (Option K))

/-- The row and column of an entry. A position need not lie inside a matrix. -/
abbrev Position := Int × Int

/-- The position in a row and a column. -/
def Position.inRow (row column : Nat) : Position := (row, column)

/-- A position on the diagonal. -/
def Position.diagonal (i : Nat) : Position := (i, i)

/-- The position in a matrix that has so many rows more on top. -/
def Position.below (rowCount : Nat) (p : Position) : Position := (rowCount + p.1, p.2)

/-- The position lies inside a matrix of the given shape. -/
def Position.isInside (p : Position) (rowCount columnCount : Nat) : Bool :=
  0 ≤ p.1 && p.1 < rowCount && 0 ≤ p.2 && p.2 < columnCount

namespace SparseMatrix

variable {K : Type} [Scalar K]

/-- The entries at one place added up, if there are any. -/
def gather (values : List K) : Option K :=
  match values with
  | [] => none
  | first :: others => some (others.foldl (fun s a => s + a) first)

/-- Every entry of a matrix with the given number of columns stored. -/
def ofRows (columnCount : Nat) (rows : List (Vec K)) : SparseMatrix K :=
  ⟨rows.length, columnCount, rows.map fun row => row.map some⟩

/-- Consecutive pieces of one length. -/
def cut (length : Nat) : Nat → List K → List (Vec K)
  | 0, _ => []
  | count + 1, entries => entries.take length :: cut length count (entries.drop length)

/-- The rows, provided that they have one length. -/
def rectangular (rows : List (Vec K)) : Except Fault (List (Vec K)) :=
  if rows.all fun row => row.length == (rows.headD []).length then .ok rows
  else .error .shapeMismatch

/-- All entries of a matrix, row after row. -/
def ofEntries (rowCount columnCount : Nat) (entries : List K) : SparseMatrix K :=
  ofRows columnCount (cut columnCount rowCount entries)

/-- The same matrix without its stored zeros. -/
def dropZeros (A : SparseMatrix K) : SparseMatrix K :=
  { A with rows := A.rows.map fun row => row.map fun entry => entry.filter fun a => !(a == 0) }

/-- Coordinate form put into rows. Entries at one place add up in their order; the values must
match the positions in number, and the positions must lie inside the matrix. -/
def ofCoordinates (rowCount columnCount : Nat) (positions : List Position) (values : List K) :
    Except Fault (SparseMatrix K) :=
  if positions.length = values.length ∧
      positions.all fun p => p.isInside rowCount columnCount then
    let entries := positions.zip values
    .ok ⟨rowCount, columnCount, (List.range rowCount).map fun (i : Nat) =>
      let row := entries.filter fun e => e.1.1 == (i : Int)
      (List.range columnCount).map fun (j : Nat) =>
        gather ((row.filter fun e => e.1.2 == (j : Int)).map fun e => e.2)⟩
  else .error .shapeMismatch

/-- The entries with zeros in the places where none is stored. -/
def toRows (A : SparseMatrix K) : List (Vec K) :=
  A.rows.map fun row => row.map fun entry => entry.getD 0

/-- The product of a row with a vector. -/
def rowProduct (row : List (Option K)) (v : Vec K) : K :=
  (row.zip v).foldl (fun s p => match p.1 with | none => s | some a => s + a * p.2) 0

/-- Add a multiple of a row to a vector. -/
def addRow (factor : K) (sum : Vec K) (row : List (Option K)) : Vec K :=
  List.zipWith (fun s entry => match entry with | none => s | some a => s + a * factor) sum row

/-- The product with a vector. -/
def apply (A : SparseMatrix K) (v : Vec K) : Vec K := A.rows.map fun row => rowProduct row v

/-- The product of the transposed matrix with a vector. -/
def applyTransposed (A : SparseMatrix K) (w : Vec K) : Vec K :=
  (A.rows.zip w).foldl (fun sum p => addRow p.2 sum p.1) (Vec.zeros A.columnCount)

/-- The operator of the products with the matrix. -/
def operator (A : SparseMatrix K) : Operator K :=
  ⟨A.rowCount, A.columnCount, A.apply, A.applyTransposed⟩

end SparseMatrix

end InfeasibilityControl
