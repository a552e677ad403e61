import Mathlib
import Reckoner.Value.Matrix

/-!
Elements of matrices. A matrix has an element in each of its rows and columns and none elsewhere; its
shape and these elements are all there is to it. Changing the elements, or combining those of two
matrices in pairs, works on each place by itself. -/

namespace Reckoner.Matrix

/-! ### Shapes -/

theorem isScalar_iff {m : Matrix} : m.isScalar = true ↔ m.shape = (1, 1) := by
  rw [isScalar, beq_iff_eq, m.size_data, shape, Prod.mk.injEq, mul_eq_one]

theorem isScalar_congr {a b : Matrix} (h : a.shape = b.shape) : a.isScalar = b.isScalar := by
  rw [Bool.eq_iff_iff, isScalar_iff, isScalar_iff, h]

/-! ### Places -/

section Places

variable {m : Matrix} {row col : Nat}

/-- The places of a matrix are within its data. -/
theorem index_lt (hrow : row < m.rows) (hcol : col < m.cols) :
    row * m.cols + col < m.data.size :=
  calc
    row * m.cols + col < row * m.cols + m.cols := Nat.add_lt_add_left hcol _
    _ = (row + 1) * m.cols := (Nat.succ_mul row m.cols).symm
    _ ≤ m.rows * m.cols := Nat.mul_le_mul_right _ hrow
    _ = m.data.size := m.size_data.symm

/-- There is an element in each row and column, and none elsewhere. -/
theorem isSome_get? : (m.get? row col).isSome = true ↔ row < m.rows ∧ col < m.cols := by
  rw [get?]
  split
  · rename_i hinside
    rw [Array.getElem?_eq_getElem (index_lt hinside.1 hinside.2)]
    exact iff_of_true rfl hinside
  · rename_i houtside
    exact iff_of_false nofun houtside

theorem exists_get? (hrow : row < m.rows) (hcol : col < m.cols) : ∃ x, m.get? row col = some x :=
  Option.isSome_iff_exists.1 (isSome_get?.2 ⟨hrow, hcol⟩)

theorem get?_zero (m : Matrix) : m.get? 0 0 = some m.first := by
  rw [get?, if_pos ⟨m.rows_pos, m.cols_pos⟩, Nat.zero_mul, first,
    Array.getElem?_eq_getElem m.size_data_pos]

end Places

/-- Matrices of one shape with the same elements are equal. -/
theorem ext_get? {a b : Matrix} (hshape : a.shape = b.shape)
    (h : ∀ row col, a.get? row col = b.get? row col) : a = b := by
  obtain ⟨rows, cols, data, hrows, hcols, hsize⟩ := a
  obtain ⟨rows', cols', data', _, _, hsize'⟩ := b
  obtain ⟨rfl, rfl⟩ : rows = rows' ∧ cols = cols' := Prod.mk.inj hshape
  have hdata : data = data' := by
    refine Array.ext_getElem? fun k => ?_
    by_cases hk : k < rows * cols
    · have hplace := h (k / cols) (k % cols)
      have hinside : k / cols < rows ∧ k % cols < cols :=
        ⟨Nat.div_lt_of_lt_mul (by rwa [Nat.mul_comm]), Nat.mod_lt k hcols⟩
      rw [get?, get?, if_pos hinside, if_pos hinside] at hplace
      have hindex : k / cols * cols + k % cols = k := Nat.div_add_mod' k cols
      rwa [hindex] at hplace
    · rw [Array.getElem?_eq_none (by omega), Array.getElem?_eq_none (by omega)]
  subst hdata
  rfl

/-! ### Changing every element -/

section Map

variable (f : Float → Float) (m : Matrix)

@[simp] theorem isScalar_map : (m.map f).isScalar = m.isScalar := by
  rw [isScalar, isScalar, map, Array.size_map]

@[simp] theorem first_map : (m.map f).first = f m.first := by
  simp [first, map]

@[simp] theorem get?_map (row col : Nat) : (m.map f).get? row col = (m.get? row col).map f := by
  rw [get?, get?, map, Array.getElem?_map]
  split <;> rfl

end Map

/-! ### Combining elements in pairs -/

section ZipWith

variable (f : Float → Float → Float) {a b : Matrix} (h : a.shape = b.shape)

@[simp] theorem shape_zipWith : (zipWith f a b h).shape = a.shape :=
  rfl

@[simp] theorem first_zipWith : (zipWith f a b h).first = f a.first b.first := by
  simp [first, zipWith]

/-- The elements of both matrices in a row and column are combined. -/
theorem get?_zipWith (row col : Nat) :
    (zipWith f a b h).get? row col = (a.get? row col).bind fun x => (b.get? row col).map (f x) := by
  obtain ⟨hrows, hcols⟩ := Prod.mk.inj h
  rw [get?, get?, get?, zipWith, Array.getElem?_zipWith, ← hrows, ← hcols]
  by_cases hinside : row < a.rows ∧ col < a.cols
  · simp only [if_pos hinside]
    cases a.data[row * a.cols + col]? with
    | none => rfl
    | some x => cases b.data[row * a.cols + col]? <;> rfl
  · simp only [if_neg hinside]
    rfl

end ZipWith

end Reckoner.Matrix
