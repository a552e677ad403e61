import Reckoner.Value.Double

/-!
Matrices of floating-point numbers. Operations work element by element on matrices of one shape;
a matrix with a single element combines with a matrix of any shape. -/

namespace Reckoner

/-- A matrix with at least one element, row after row. -/
structure Matrix where
  rows : Nat
  cols : Nat
  data : Array Float
  rows_pos : 0 < rows
  cols_pos : 0 < cols
  size_data : data.size = rows * cols

/-- Why there is no such matrix. -/
inductive MatrixError where
  | shapeMismatch (op : Operator) (left right : Nat × Nat)
  | raggedRows (row expected found : Nat)
  | empty
deriving DecidableEq, Repr

namespace Matrix

/-- The matrix of one element. -/
def scalar (x : Float) : Matrix := ⟨1, 1, #[x], by decide, by decide, rfl⟩

/-- The first row, counted from `row`, that has not as many entries as expected. -/
def firstRagged? (expected : Nat) : Nat → List (List Float) → Option (Nat × Nat)
  | _, [] => none
  | row, xs :: rest =>
    if xs.length = expected then firstRagged? expected (row + 1) rest else some (row, xs.length)

theorem length_flatten_of_firstRagged? {expected row : Nat} {rows : List (List Float)}
    (h : firstRagged? expected row rows = none) : rows.flatten.length = rows.length * expected := by
  induction rows generalizing row with
  | nil => simp
  | cons xs rest ih =>
    rw [firstRagged?] at h
    split at h
    · rename_i hx
      rw [List.flatten_cons, List.length_append, ih h, hx, List.length_cons, Nat.succ_mul,
        Nat.add_comm]
    · contradiction

/-- The matrix with these rows, which have to be there and equally long. -/
def ofRows? (rows : List (List Float)) : Except MatrixError Matrix :=
  match rows with
  | [] | [] :: _ => .error .empty
  | (x :: xs) :: rest =>
    match h : firstRagged? (xs.length + 1) 0 ((x :: xs) :: rest) with
    | some (row, found) => .error (.raggedRows row (xs.length + 1) found)
    | none =>
      .ok ⟨rest.length + 1, xs.length + 1, (((x :: xs) :: rest).flatten).toArray, Nat.succ_pos _,
        Nat.succ_pos _, length_flatten_of_firstRagged? h⟩

/-- Numbers of rows and columns. -/
def shape (m : Matrix) : Nat × Nat := (m.rows, m.cols)

/-- Whether there is just one element. -/
def isScalar (m : Matrix) : Bool := m.data.size == 1

theorem size_data_pos (m : Matrix) : 0 < m.data.size :=
  m.size_data ▸ Nat.mul_pos m.rows_pos m.cols_pos

/-- The element in the first row and column. -/
def first (m : Matrix) : Float :=
  have := m.size_data_pos
  m.data[0]

/-- The element in a row and column. -/
def get? (m : Matrix) (row col : Nat) : Option Float :=
  if row < m.rows ∧ col < m.cols then m.data[row * m.cols + col]? else none

/-- The matrix with every element changed. -/
def map (f : Float → Float) (m : Matrix) : Matrix :=
  ⟨m.rows, m.cols, m.data.map f, m.rows_pos, m.cols_pos, by simp [m.size_data]⟩

/-- The matrix of the elements of two matrices of one shape, combined in pairs. -/
def zipWith (f : Float → Float → Float) (a b : Matrix) (h : a.shape = b.shape) : Matrix :=
  ⟨a.rows, a.cols, a.data.zipWith f b.data, a.rows_pos, a.cols_pos, by
    obtain ⟨hr, hc⟩ := Prod.mk.inj h
    simp [a.size_data, b.size_data, hr, hc]⟩

/-- The result of an operation, if the shapes allow it. -/
def apply (op : Operator) (a b : Matrix) : Except MatrixError Matrix :=
  if h : a.shape = b.shape then .ok (a.zipWith (Double.calculate op) b h)
  else if a.isScalar then .ok (b.map (Double.calculate op a.first))
  else if b.isScalar then .ok (a.map (Double.calculate op · b.first))
  else .error (.shapeMismatch op a.shape b.shape)

/-- The rows as lists. -/
def toRows (m : Matrix) : List (List Float) :=
  (List.range m.rows).map fun row =>
    (m.data.extract (row * m.cols) (row * m.cols + m.cols)).toList

/-- A list of texts between brackets. -/
def bracketed (texts : List String) : String := "[" ++ ", ".intercalate texts ++ "]"

/-- A single element by itself, and otherwise the rows. -/
def text (m : Matrix) : String :=
  if m.isScalar then (Double.mk m.first).text
  else bracketed (m.toRows.map fun row => bracketed (row.map fun x => (Double.mk x).text))

end Matrix

/-- What is wrong with the shapes. -/
def MatrixError.message : MatrixError → String
  | .shapeMismatch op left right =>
    "cannot apply `" ++ op.symbol ++ "` to a " ++ toString left.1 ++ "x" ++ toString left.2
      ++ " and a " ++ toString right.1 ++ "x" ++ toString right.2 ++ " matrix"
  | .raggedRows row expected found =>
    "row " ++ toString row ++ " has " ++ toString found ++ " columns, expected "
      ++ toString expected
  | .empty => "a matrix needs at least one element"

instance : ToString Matrix := ⟨Matrix.text⟩

instance : ToString MatrixError := ⟨MatrixError.message⟩

instance : Value Matrix MatrixError where
  ofInteger n := .scalar (Double.ofInteger n).val
  apply := Matrix.apply

end Reckoner
