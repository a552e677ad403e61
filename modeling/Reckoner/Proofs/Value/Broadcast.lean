import Mathlib
import Reckoner.Proofs.Value.Rows

/-!
Operations on matrices. Two matrices combine if they have one shape or if one of them is a single
element, which then stands at every place of the other. Whichever of the three ways an operation
takes, each element of its result is calculated from the elements that the operands have there. -/

namespace Reckoner.Matrix

/-- What a matrix contributes to the place of a result: its element there, or its only element. -/
def operand? (m : Matrix) (row col : Nat) : Option Float :=
  if m.shape = (1, 1) then m.get? 0 0 else m.get? row col

section Operand

variable {m : Matrix}

theorem operand?_of_shape (h : m.shape = (1, 1)) (row col : Nat) :
    m.operand? row col = some m.first := by
  rw [operand?, if_pos h, get?_zero]

/-- A matrix contributes to its own places the elements there. -/
theorem exists_operand? {row col : Nat} (hrow : row < m.rows) (hcol : col < m.cols) :
    ∃ x, m.operand? row col = some x ∧ m.get? row col = some x := by
  obtain ⟨x, hx⟩ := exists_get? hrow hcol
  refine ⟨x, ?_, hx⟩
  rw [operand?]
  split
  · rename_i hshape
    obtain ⟨hrows, hcols⟩ := Prod.mk.inj hshape
    obtain rfl : row = 0 := by omega
    obtain rfl : col = 0 := by omega
    exact hx
  · exact hx

end Operand

variable {op : Operator} {a b m : Matrix}

/-! ### Operations -/

/-- The ways an operation takes: elements in pairs, one of the operands at every place of the other,
or none. -/
theorem apply_cases (op : Operator) (a b : Matrix) :
    (∃ hshape : a.shape = b.shape,
      apply op a b = .ok (a.zipWith (Double.calculate op) b hshape)) ∨
    (a.shape = (1, 1) ∧ apply op a b = .ok (b.map (Double.calculate op a.first))) ∨
    (b.shape = (1, 1) ∧ apply op a b = .ok (a.map (Double.calculate op · b.first))) ∨
    (¬(a.shape = b.shape ∨ a.shape = (1, 1) ∨ b.shape = (1, 1)) ∧
      apply op a b = .error (.shapeMismatch op a.shape b.shape)) := by
  by_cases hshape : a.shape = b.shape
  · exact .inl ⟨hshape, by rw [apply, dif_pos hshape]⟩
  · rw [apply, dif_neg hshape]
    by_cases ha : a.isScalar = true
    · exact .inr (.inl ⟨isScalar_iff.1 ha, if_pos ha⟩)
    · rw [if_neg ha]
      by_cases hb : b.isScalar = true
      · exact .inr (.inr (.inl ⟨isScalar_iff.1 hb, if_pos hb⟩))
      · refine .inr (.inr (.inr ⟨?_, if_neg hb⟩))
        rintro (h | h | h)
        · exact hshape h
        · exact ha (isScalar_iff.2 h)
        · exact hb (isScalar_iff.2 h)

/-- Matrices combine if they have one shape or one of them is a single element. -/
theorem exists_apply_iff :
    (∃ m, apply op a b = .ok m) ↔ a.shape = b.shape ∨ a.shape = (1, 1) ∨ b.shape = (1, 1) := by
  rcases apply_cases op a b with ⟨hshape, h⟩ | ⟨ha, h⟩ | ⟨hb, h⟩ | ⟨hmismatch, h⟩ <;> rw [h]
  · exact iff_of_true ⟨_, rfl⟩ (.inl hshape)
  · exact iff_of_true ⟨_, rfl⟩ (.inr (.inl ha))
  · exact iff_of_true ⟨_, rfl⟩ (.inr (.inr hb))
  · exact iff_of_false nofun hmismatch

/-- Others are refused, with both shapes. -/
theorem apply_of_mismatch (hmismatch : ¬(a.shape = b.shape ∨ a.shape = (1, 1) ∨ b.shape = (1, 1))) :
    apply op a b = .error (.shapeMismatch op a.shape b.shape) := by
  rcases apply_cases op a b with ⟨hshape, -⟩ | ⟨ha, -⟩ | ⟨hb, -⟩ | ⟨-, h⟩
  · exact absurd (.inl hshape) hmismatch
  · exact absurd (.inr (.inl ha)) hmismatch
  · exact absurd (.inr (.inr hb)) hmismatch
  · exact h

section Result

variable (h : apply op a b = .ok m)
include h

/-- The ways in which an operation has a result. -/
theorem eq_of_apply :
    (∃ hshape : a.shape = b.shape, m = a.zipWith (Double.calculate op) b hshape) ∨
    (a.shape = (1, 1) ∧ m = b.map (Double.calculate op a.first)) ∨
    (b.shape = (1, 1) ∧ m = a.map (Double.calculate op · b.first)) := by
  rcases apply_cases op a b with ⟨hshape, h'⟩ | ⟨ha, h'⟩ | ⟨hb, h'⟩ | ⟨-, h'⟩
  · exact .inl ⟨hshape, Except.ok.inj (h.symm.trans h')⟩
  · exact .inr (.inl ⟨ha, Except.ok.inj (h.symm.trans h')⟩)
  · exact .inr (.inr ⟨hb, Except.ok.inj (h.symm.trans h')⟩)
  · cases h.symm.trans h'

/-- A result has the shape of both operands, or of the one that is not a single element. -/
theorem shape_apply :
    (a.shape = b.shape → m.shape = a.shape) ∧ (a.shape = (1, 1) → m.shape = b.shape) ∧
      (b.shape = (1, 1) → m.shape = a.shape) := by
  rcases eq_of_apply h with ⟨hshape, rfl⟩ | ⟨ha, rfl⟩ | ⟨hb, rfl⟩
  · exact ⟨fun _ => rfl, fun _ => hshape, fun _ => rfl⟩
  · exact ⟨fun hshape => hshape.symm, fun _ => rfl, fun hb => hb.trans ha.symm⟩
  · exact ⟨fun _ => rfl, fun ha => ha.trans hb.symm, fun _ => rfl⟩

/-- Each element of a result is calculated from those that the operands have there, in their
order. -/
theorem get?_apply {row col : Nat} (hrow : row < m.rows) (hcol : col < m.cols) :
    ∃ x y, a.operand? row col = some x ∧ b.operand? row col = some y ∧
      m.get? row col = some (Double.calculate op x y) := by
  rcases eq_of_apply h with ⟨hshape, rfl⟩ | ⟨ha, rfl⟩ | ⟨hb, rfl⟩
  · obtain ⟨hrows, hcols⟩ := Prod.mk.inj hshape
    obtain ⟨x, hx, hx'⟩ := exists_operand? (m := a) hrow hcol
    obtain ⟨y, hy, hy'⟩ := exists_operand? (m := b) (hrows ▸ hrow) (hcols ▸ hcol)
    refine ⟨x, y, hx, hy, ?_⟩
    rw [get?_zipWith, hx', hy', Option.bind_some, Option.map_some]
  · obtain ⟨y, hy, hy'⟩ := exists_operand? (m := b) hrow hcol
    exact ⟨a.first, y, operand?_of_shape ha row col, hy, by rw [get?_map, hy', Option.map_some]⟩
  · obtain ⟨x, hx, hx'⟩ := exists_operand? (m := a) hrow hcol
    exact ⟨x, b.first, hx, operand?_of_shape hb row col, by rw [get?_map, hx', Option.map_some]⟩

end Result

/-- Matrices are what rows make, with at least one row and column and an element in each place. An
operation on two of them fails, with both shapes, unless they have one shape or one of them is a
single element; its result has the common shape, or that of the other, and at each place what is
calculated from the elements of the operands there, the left one on the left. -/
theorem apply_broadcasts (op : Operator) (a b : Matrix) :
    (ofRows? a.toRows = .ok a ∧ 0 < a.rows ∧ 0 < a.cols ∧ a.data.size = a.rows * a.cols ∧
      (a.isScalar = true ↔ a.shape = (1, 1)) ∧
      ∀ row col, (a.get? row col).isSome = true ↔ row < a.rows ∧ col < a.cols) ∧
    ((∃ m, Value.apply op a b = .ok m) ↔
      a.shape = b.shape ∨ a.shape = (1, 1) ∨ b.shape = (1, 1)) ∧
    (¬(a.shape = b.shape ∨ a.shape = (1, 1) ∨ b.shape = (1, 1)) →
      Value.apply op a b = .error (.shapeMismatch op a.shape b.shape)) ∧
    ∀ m, Value.apply op a b = .ok m →
      (a.shape = b.shape → m.shape = a.shape) ∧ (a.shape = (1, 1) → m.shape = b.shape) ∧
      (b.shape = (1, 1) → m.shape = a.shape) ∧
      ∀ row < m.rows, ∀ col < m.cols, ∃ x y,
        a.operand? row col = some x ∧ b.operand? row col = some y ∧
          m.get? row col = some (Double.calculate op x y) := by
  refine ⟨?_, exists_apply_iff, apply_of_mismatch, fun m hm => ?_⟩
  · exact ⟨a.ofRows?_toRows, a.rows_pos, a.cols_pos, a.size_data, isScalar_iff,
      fun row col => isSome_get?⟩
  · obtain ⟨hsame, hleft, hright⟩ := shape_apply hm
    exact ⟨hsame, hleft, hright, fun row hrow col hcol => get?_apply hm hrow hcol⟩

theorem apply_broadcasts_one_minus_grid :
    let grid : Matrix := ⟨2, 2, #[1.0, 3.0, 2.0, 4.0], by decide, by decide, rfl⟩
    let line : Matrix := ⟨1, 3, #[1.0, 2.0, 3.0], by decide, by decide, rfl⟩
    Value.apply .add grid line = .error (.shapeMismatch .add (2, 2) (1, 3)) ∧
      ∃ m, Value.apply .sub (.scalar 1.0) grid = .ok m ∧ m.shape = (2, 2) ∧
        m.get? 1 0 = some (1.0 - 2.0) := by
  intro grid line
  obtain ⟨-, -, hrefused, -⟩ := apply_broadcasts .add grid line
  obtain ⟨-, hok, -, hresult⟩ := apply_broadcasts .sub (.scalar 1.0) grid
  obtain ⟨m, hm⟩ := hok.2 (.inr (.inl rfl))
  obtain ⟨-, hshape, -, helement⟩ := hresult m hm
  have hshape : m.shape = (2, 2) := hshape rfl
  obtain ⟨hrows, hcols⟩ := Prod.mk.inj hshape
  obtain ⟨x, y, hx, hy, hget⟩ := helement 1 (by omega) 0 (by omega)
  obtain rfl : 1.0 = x := Option.some.inj hx
  obtain rfl : 2.0 = y := Option.some.inj hy
  exact ⟨hrefused (by decide), m, hm, hshape, hget⟩

end Reckoner.Matrix
