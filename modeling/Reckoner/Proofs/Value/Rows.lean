import Mathlib
import Reckoner.Proofs.Value.Matrix

/-!
Matrices and their rows. Rows of one length, laid out one after the other, make the matrix whose
elements they list; of other rows the first that differs from the first of all is reported. Cutting
the data of a matrix up again gives these rows back, and they are what is displayed. -/

namespace Reckoner.Matrix

/-! ### Rows of different lengths -/

theorem firstRagged?_eq_none {expected row : Nat} {rows : List (List Float)} :
    firstRagged? expected row rows = none ↔ ∀ xs ∈ rows, xs.length = expected := by
  fun_induction firstRagged? expected row rows with
  | case1 => simp
  | case2 row xs rest hlength ih => simp [ih, hlength]
  | case3 row xs rest hlength => simp [hlength]

/-- The row that is found stands behind rows of the expected length, and is not of that length. -/
theorem exists_of_firstRagged? {expected row i found : Nat} {rows : List (List Float)}
    (h : firstRagged? expected row rows = some (i, found)) :
    ∃ before xs after, rows = before ++ xs :: after ∧ (∀ ys ∈ before, ys.length = expected) ∧
      xs.length ≠ expected ∧ i = row + before.length ∧ found = xs.length := by
  fun_induction firstRagged? expected row rows with
  | case1 => cases h
  | case2 row xs rest hlength ih =>
    obtain ⟨before, ys, after, rfl, hbefore, hne, rfl, hfound⟩ := ih h
    refine ⟨xs :: before, ys, after, rfl, List.forall_mem_cons.2 ⟨hlength, hbefore⟩, hne, ?_, hfound⟩
    rw [List.length_cons]
    omega
  | case3 row xs rest hlength =>
    obtain ⟨rfl, rfl⟩ := Prod.mk.inj (Option.some.inj h)
    exact ⟨[], xs, rest, rfl, nofun, hlength, rfl, rfl⟩

/-! ### Making a matrix of rows -/

theorem ofRows?_eq_empty_iff {rows : List (List Float)} :
    ofRows? rows = .error .empty ↔ rows = [] ∨ rows.head? = some [] := by
  unfold ofRows?
  split
  · simp
  · simp
  · split <;> simp

theorem ofRows?_of_ragged {x : Float} {xs : List Float} {rest : List (List Float)} {row found : Nat}
    (h : firstRagged? (xs.length + 1) 0 ((x :: xs) :: rest) = some (row, found)) :
    ofRows? ((x :: xs) :: rest) = .error (.raggedRows row (xs.length + 1) found) := by
  rw [ofRows?]
  split
  · rename_i hragged
    obtain ⟨rfl, rfl⟩ := Prod.mk.inj (Option.some.inj (hragged.symm.trans h))
    rfl
  · rename_i hnone
    cases hnone.symm.trans h

theorem ofRows?_of_even {x : Float} {xs : List Float} {rest : List (List Float)}
    (h : firstRagged? (xs.length + 1) 0 ((x :: xs) :: rest) = none) :
    ofRows? ((x :: xs) :: rest)
      = .ok ⟨rest.length + 1, xs.length + 1, ((x :: xs) :: rest).flatten.toArray, Nat.succ_pos _,
          Nat.succ_pos _, length_flatten_of_firstRagged? h⟩ := by
  rw [ofRows?]
  split
  · rename_i hragged
    cases hragged.symm.trans h
  · rfl

/-- Entries of rows of one length, laid out one after the other. -/
theorem getElem?_flatten_of_length {n : Nat} {j : Nat} (hj : j < n) :
    ∀ {rows : List (List Float)}, (∀ xs ∈ rows, xs.length = n) → ∀ i : Nat,
      rows.flatten[i * n + j]? = rows[i]?.bind (·[j]?)
  | [], _, i => by simp
  | xs :: rest, h, 0 => by
    have hxs : xs.length = n := h xs List.mem_cons_self
    rw [Nat.zero_mul, Nat.zero_add, List.flatten_cons, List.getElem?_append_left (by omega)]
    rfl
  | xs :: rest, h, i + 1 => by
    have hxs : xs.length = n := h xs List.mem_cons_self
    have hindex : (i + 1) * n + j = xs.length + (i * n + j) := by rw [Nat.succ_mul]; omega
    rw [List.flatten_cons, hindex, List.getElem?_append_right (Nat.le_add_right _ _),
      Nat.add_sub_cancel_left, List.getElem?_cons_succ]
    exact getElem?_flatten_of_length hj (fun ys hys => h ys (List.mem_cons_of_mem xs hys)) i

/-- Rows of one length make a matrix, with their entries as its elements. -/
theorem exists_ofRows? {n : Nat} (hn : 0 < n) {rows : List (List Float)} (hrows : rows ≠ [])
    (h : ∀ xs ∈ rows, xs.length = n) :
    ∃ m, ofRows? rows = .ok m ∧ m.shape = (rows.length, n) ∧
      ∀ i j, m.get? i j = rows[i]?.bind (·[j]?) := by
  obtain ⟨first, rest, rfl⟩ := List.exists_cons_of_ne_nil hrows
  have hfirst : first.length = n := h first List.mem_cons_self
  obtain ⟨x, xs, rfl⟩ := List.exists_cons_of_ne_nil (List.ne_nil_of_length_pos (hfirst ▸ hn))
  obtain rfl : xs.length + 1 = n := hfirst
  refine ⟨_, ofRows?_of_even (firstRagged?_eq_none.2 h), rfl, fun i j => ?_⟩
  rw [get?]
  split
  · rename_i hinside
    rw [List.getElem?_toArray]
    exact getElem?_flatten_of_length hinside.2 h i
  · rename_i houtside
    -- an entry of a row would stand inside of the matrix
    cases hentry : ((x :: xs) :: rest)[i]?.bind (·[j]?) with
    | none => rfl
    | some y =>
      obtain ⟨ys, hys, hy⟩ := Option.bind_eq_some_iff.1 hentry
      obtain ⟨hi, rfl⟩ := List.getElem?_eq_some_iff.1 hys
      obtain ⟨hj, -⟩ := List.getElem?_eq_some_iff.1 hy
      rw [h _ (List.getElem_mem hi)] at hj
      exact absurd ⟨hi, hj⟩ houtside

/-! ### The rows of a matrix -/

section ToRows

variable (m : Matrix)

@[simp] theorem length_toRows : m.toRows.length = m.rows := by simp [toRows]

theorem getElem?_toRows (i j : Nat) : m.toRows[i]?.bind (·[j]?) = m.get? i j := by
  rw [toRows, List.getElem?_map, get?]
  by_cases hi : i < m.rows
  · rw [List.getElem?_range hi, Option.map_some, Option.bind_some, Array.getElem?_toList,
      Array.getElem?_extract]
    by_cases hj : j < m.cols
    · have hindex := index_lt hi hj
      rw [if_pos (by omega), if_pos ⟨hi, hj⟩]
    · rw [if_neg (by omega), if_neg (by omega)]
  · rw [List.getElem?_eq_none (by simpa using hi), if_neg (by omega)]
    rfl

theorem length_of_mem_toRows : ∀ xs ∈ m.toRows, xs.length = m.cols := by
  intro xs hxs
  obtain ⟨i, hi, rfl⟩ := List.mem_map.1 hxs
  have hindex : i * m.cols + m.cols ≤ m.data.size := by
    rw [m.size_data, ← Nat.succ_mul]
    exact Nat.mul_le_mul_right _ (List.mem_range.1 hi)
  rw [Array.length_toList, Array.size_extract]
  omega

/-- A matrix is what its rows make. -/
theorem ofRows?_toRows : ofRows? m.toRows = .ok m := by
  have hne : m.toRows ≠ [] := List.ne_nil_of_length_pos (m.length_toRows ▸ m.rows_pos)
  obtain ⟨m', hm', hshape, hget⟩ := exists_ofRows? m.cols_pos hne m.length_of_mem_toRows
  rw [length_toRows] at hshape
  have heq : m' = m := ext_get? hshape fun i j => by rw [hget, getElem?_toRows]
  rw [hm', heq]

/-- The rows list the elements, in the order of the columns. -/
theorem toRows_eq {element : Nat → Nat → Float}
    (h : ∀ i < m.rows, ∀ j < m.cols, m.get? i j = some (element i j)) :
    m.toRows = (List.range m.rows).map fun i => (List.range m.cols).map (element i) := by
  rw [toRows]
  refine List.map_congr_left fun i hi => List.ext_getElem? fun j => ?_
  have hrow := m.getElem?_toRows i j
  rw [toRows, List.getElem?_map, List.getElem?_range (List.mem_range.1 hi), Option.map_some,
    Option.bind_some] at hrow
  rw [hrow, List.getElem?_map]
  by_cases hj : j < m.cols
  · rw [h i (List.mem_range.1 hi) j hj, List.getElem?_range hj, Option.map_some]
  · rw [get?, if_neg (by omega), List.getElem?_eq_none (by simpa using hj), Option.map_none]

/-- A single element is displayed by itself, and otherwise row after row the elements of the row. -/
theorem text_eq {element : Nat → Nat → Float}
    (h : ∀ i < m.rows, ∀ j < m.cols, m.get? i j = some (element i j)) :
    m.text = if m.rows * m.cols = 1 then (Double.mk (element 0 0)).text
      else bracketed ((List.range m.rows).map fun i =>
        bracketed ((List.range m.cols).map fun j => (Double.mk (element i j)).text)) := by
  have hfirst : m.first = element 0 0 :=
    Option.some.inj (m.get?_zero.symm.trans (h 0 m.rows_pos 0 m.cols_pos))
  have hscalar : (m.isScalar = true) = (m.rows * m.cols = 1) := by
    rw [isScalar, beq_iff_eq, m.size_data]
  rw [text, m.toRows_eq h, hfirst, List.map_map]
  simp only [hscalar, Function.comp_def, List.map_map]

end ToRows

/-! ### Rows, elements and text -/

/-- Rows of different lengths are refused for the first one that differs from the row in front. -/
theorem ofRows?_eq_ragged {first : List Float} {rest : List (List Float)} (hfirst : first ≠ [])
    {row expected found : Nat}
    (h : ofRows? (first :: rest) = .error (.raggedRows row expected found)) :
    expected = first.length ∧ found ≠ expected ∧
      (first :: rest)[row]?.map List.length = some found ∧
        ∀ earlier < row, (first :: rest)[earlier]?.map List.length = some expected := by
  obtain ⟨x, xs, rfl⟩ := List.exists_cons_of_ne_nil hfirst
  cases hragged : firstRagged? (xs.length + 1) 0 ((x :: xs) :: rest) with
  | none => rw [ofRows?_of_even hragged] at h; cases h
  | some place =>
    rw [ofRows?_of_ragged hragged] at h
    obtain ⟨rfl, rfl, rfl⟩ := MatrixError.raggedRows.inj (Except.error.inj h)
    obtain ⟨before, ys, after, hrows, hbefore, hne, hplace, hfound⟩ := exists_of_firstRagged? hragged
    rw [Nat.zero_add] at hplace
    rw [hrows, hplace, hfound]
    refine ⟨rfl, hne, by simp, fun earlier hearlier => ?_⟩
    rw [List.getElem?_append_left hearlier, List.getElem?_eq_getElem hearlier, Option.map_some,
      hbefore _ (List.getElem_mem hearlier)]

theorem exists_ragged_iff {first : List Float} {rest : List (List Float)} (hfirst : first ≠ []) :
    (∃ row expected found,
        ofRows? (first :: rest) = .error (.raggedRows row expected found)) ↔
      ∃ xs ∈ first :: rest, xs.length ≠ first.length := by
  constructor
  · rintro ⟨row, expected, found, h⟩
    obtain ⟨rfl, hne, hfound, -⟩ := ofRows?_eq_ragged hfirst h
    obtain ⟨xs, hxs, rfl⟩ := Option.map_eq_some_iff.1 hfound
    exact ⟨xs, List.mem_of_getElem? hxs, hne⟩
  · rintro ⟨ys, hys, hne⟩
    obtain ⟨x, xs, rfl⟩ := List.exists_cons_of_ne_nil hfirst
    cases hragged : firstRagged? (xs.length + 1) 0 ((x :: xs) :: rest) with
    | none => exact absurd (firstRagged?_eq_none.1 hragged ys hys) hne
    | some place => exact ⟨_, _, _, ofRows?_of_ragged hragged⟩

/-- Rows make a matrix unless there is no first entry or a row is not as long as the first one; the
error tells which, and names the first such row. The elements of the matrix are the entries of the
rows, and every matrix is displayed as these: one element by itself, others row after row. -/
theorem rows_make_and_display :
    (∀ rows : List (List Float),
      (ofRows? rows = .error .empty ↔ rows = [] ∨ rows.head? = some []) ∧
      ∀ first rest, rows = first :: rest → first ≠ [] →
        ((∃ row expected found, ofRows? rows = .error (.raggedRows row expected found)) ↔
          ∃ xs ∈ rows, xs.length ≠ first.length) ∧
        (∀ row expected found, ofRows? rows = .error (.raggedRows row expected found) →
          expected = first.length ∧ found ≠ expected ∧
            rows[row]?.map List.length = some found ∧
              ∀ earlier < row, rows[earlier]?.map List.length = some expected) ∧
        ((∀ xs ∈ rows, xs.length = first.length) →
          ∃ m, ofRows? rows = .ok m ∧ m.shape = (rows.length, first.length) ∧
            ∀ i j, m.get? i j = rows[i]?.bind (·[j]?))) ∧
    ∀ m : Matrix, ∃ element : Nat → Nat → Float,
      (∀ i < m.rows, ∀ j < m.cols, m.get? i j = some (element i j)) ∧
      toString m = if m.rows * m.cols = 1 then toString (Double.mk (element 0 0))
        else "[" ++ ", ".intercalate ((List.range m.rows).map fun i =>
          "[" ++ ", ".intercalate ((List.range m.cols).map fun j =>
            toString (Double.mk (element i j))) ++ "]") ++ "]" := by
  refine ⟨fun rows => ⟨ofRows?_eq_empty_iff, ?_⟩, fun m => ?_⟩
  · rintro first rest rfl hfirst
    refine ⟨exists_ragged_iff hfirst, fun row expected found => ofRows?_eq_ragged hfirst, ?_⟩
    exact exists_ofRows? (List.length_pos_of_ne_nil hfirst) (List.cons_ne_nil first rest)
  · have hget : ∀ i < m.rows, ∀ j < m.cols, m.get? i j = some ((m.get? i j).getD m.first) := by
      intro i hi j hj
      obtain ⟨x, hx⟩ := exists_get? hi hj
      rw [hx, Option.getD_some]
    exact ⟨fun i j => (m.get? i j).getD m.first, hget, m.text_eq hget⟩

theorem rows_make_and_display_two_by_two :
    let ragged := [[1.0, 3.0], [2.0], []]
    ofRows? ragged = .error (.raggedRows 1 2 1) ∧
      (∀ earlier < 1, ragged[earlier]?.map List.length = some 2) ∧
      ∃ m, ofRows? [[1.0, 3.0], [2.0, 4.0]] = .ok m ∧ m.shape = (2, 2) ∧
        m.get? 1 0 = some 2.0 ∧ m.get? 1 2 = none := by
  intro ragged
  have hrefused : ofRows? ragged = .error (.raggedRows 1 2 1) := rfl
  obtain ⟨-, hragged, -⟩ := (rows_make_and_display.1 ragged).2 _ _ rfl (by simp)
  obtain ⟨-, -, -, hearlier⟩ := hragged 1 2 1 hrefused
  obtain ⟨-, -, hmade⟩ := (rows_make_and_display.1 [[1.0, 3.0], [2.0, 4.0]]).2 _ _ rfl (by simp)
  obtain ⟨m, hm, hshape, hget⟩ := hmade (by simp)
  exact ⟨hrefused, hearlier, m, hm, hshape, hget 1 0, hget 1 2⟩

end Reckoner.Matrix
