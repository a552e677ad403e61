import Reckoner.Proofs.Program.Live
import Reckoner.Proofs.Value.Matrix

/-!
Programs on matrices, element by element. Where every matrix has one shape or a single element, no
operation fails, and the element that a result has at some place comes from the elements that the
operands have there. So a program on matrices is at each place the program on floating-point numbers
that starts from the elements at that place. -/

namespace Reckoner

namespace Matrix

/-- The element in a row and column; a single element stands in every row and column. Outside of a
matrix there is its first element. -/
def entry (row col : Nat) (m : Matrix) : Double :=
  ⟨if m.isScalar then m.first else (m.get? row col).getD m.first⟩

/-- Whether a matrix has a shape or a single element. -/
def Shaped (shape : Nat × Nat) (m : Matrix) : Prop := m.shape = shape ∨ m.shape = (1, 1)

theorem entry_map (f : Float → Float) (m : Matrix) (row col : Nat) :
    (m.map f).entry row col = ⟨f (m.entry row col).val⟩ := by
  simp only [entry, isScalar_map, first_map, get?_map]
  split
  · rfl
  · cases m.get? row col <;> rfl

theorem entry_zipWith (f : Float → Float → Float) {a b : Matrix} (h : a.shape = b.shape)
    (row col : Nat) :
    (zipWith f a b h).entry row col = ⟨f (a.entry row col).val (b.entry row col).val⟩ := by
  obtain ⟨hrows, hcols⟩ := Prod.mk.inj h
  have hscalar := isScalar_congr (shape_zipWith f h)
  have hscalar' := isScalar_congr h
  have hsome : (a.get? row col).isSome = (b.get? row col).isSome := by
    rw [Bool.eq_iff_iff, isSome_get?, isSome_get?, hrows, hcols]
  simp only [entry, hscalar, ← hscalar', first_zipWith, get?_zipWith]
  split
  · rfl
  · generalize a.get? row col = x at hsome ⊢
    generalize b.get? row col = y at hsome ⊢
    cases x <;> cases y <;> first | rfl | cases hsome

/-! ### Operations -/

theorem entry_of_isScalar {m : Matrix} (h : m.isScalar = true) (row col : Nat) :
    m.entry row col = ⟨m.first⟩ := by
  rw [entry, if_pos h]

/-- Matrices of one shape or a single element have a result, which is such a matrix. Its elements
come from those at the same place. -/
theorem apply_shaped {shape : Nat × Nat} {a b : Matrix} (ha : a.Shaped shape) (hb : b.Shaped shape)
    (op : Operator) :
    ∃ m, apply op a b = .ok m ∧ m.Shaped shape ∧ ∀ row col,
      m.entry row col = ⟨Double.calculate op (a.entry row col).val (b.entry row col).val⟩ := by
  by_cases hshape : a.shape = b.shape
  · refine ⟨a.zipWith (Double.calculate op) b hshape, ?_, ha, entry_zipWith _ hshape⟩
    rw [apply, dif_pos hshape]
  · by_cases hleft : a.isScalar = true
    · refine ⟨b.map (Double.calculate op a.first), ?_, hb, fun row col => ?_⟩
      · rw [apply, dif_neg hshape, if_pos hleft]
      · rw [entry_map, entry_of_isScalar hleft]
    · have hright : b.isScalar = true := by
        have hashape := ha.resolve_right (mt isScalar_iff.2 hleft)
        exact isScalar_iff.2 (hb.resolve_left fun hbshape => hshape (hashape.trans hbshape.symm))
      refine ⟨a.map (Double.calculate op · b.first), ?_, ha, fun row col => ?_⟩
      · rw [apply, dif_neg hshape, if_neg hleft, if_pos hright]
      · rw [entry_map, entry_of_isScalar hright]

end Matrix

/-! ### Programs -/

/-- The failure of a line with another error of the values. -/
def LineError.map {E F : Type} (f : E → F) (e : LineError E) : LineError F :=
  ⟨e.index, e.error.map f⟩

/-- What corresponds to a failure that cannot be one of values is the same failure. -/
theorem LineError.Corresponds.eq_map {E : Type} {Q : E → Empty → Prop} {e : LineError E}
    {f : LineError Empty} (h : Corresponds Q e f) : e = f.map nofun := by
  obtain ⟨i, e⟩ := e
  obtain ⟨j, f⟩ := f
  obtain ⟨rfl, herror⟩ := h
  cases herror with
  | same e =>
    cases e with
    | arithmetic e => exact e.elim
    | _ => rfl
  | @arithmetic _ f _ span => exact f.elim

theorem LineError.map_ne_arithmetic {E : Type} (f : LineError Empty) (index : Nat) (e : E)
    (span : Span) : f.map nofun ≠ ⟨index, .arithmetic e span⟩ := by
  obtain ⟨i, f⟩ := f
  intro h
  cases f with
  | arithmetic f => exact f.elim
  | _ => cases h

namespace Matrix

variable {shape : Nat × Nat} (row col : Nat)

/-- A matrix of one shape or a single element corresponds to the element that it has somewhere. -/
def elements (shape : Nat × Nat) (row col : Nat) : Correspondence Matrix Double where
  values m x := m.Shaped shape ∧ m.entry row col = x
  faults _ _ := False
  ofInteger _ := ⟨.inr rfl, rfl⟩
  apply op a b x y ha hb := by
    obtain ⟨ha, rfl⟩ := ha
    obtain ⟨hb, rfl⟩ := hb
    obtain ⟨m, hm, hshaped, hentry⟩ := apply_shaped ha hb op
    have happly : Value.apply op a b = .ok m := hm
    rw [happly]
    exact .ok ⟨hshaped, hentry row col⟩

variable {b : Bindings Matrix} (hb : ∀ x m, b.get? x = some m → m.Shaped shape)
include hb

theorem elements_get? (x : Name) :
    Option.Rel (elements shape row col).values (b.get? x) ((b.map (entry row col)).get? x) := by
  rw [Bindings.get?_map]
  cases hx : b.get? x with
  | none => exact .none
  | some m => exact .some ⟨hb x m hx, rfl⟩

variable (names : NameTable) (trees : List (Tree Name))

/-- A run on matrices and the run on their elements at some place come to corresponding ends. -/
theorem elements_run :
    Corresponds (LineError.Corresponds (elements shape row col).faults)
      (Option.Rel (elements shape row col).values)
      (b.run names trees).1 ((b.map (entry row col)).run names trees).1 :=
  ((elements shape row col).runFrom names 0 trees fun x _ => elements_get? row col hb x).1

/-- The run on the elements at some place has the result of the run on matrices there, with the same
failure on the same line if there is none. -/
theorem elements_result :
    ((b.map (entry row col)).run names trees).1.mapError (LineError.map nofun)
      = (b.run names trees).1.map (Option.map (entry row col)) := by
  have hrun := elements_run row col hb names trees
  generalize (b.run names trees).1 = r at hrun ⊢
  generalize ((b.map (entry row col)).run names trees).1 = r' at hrun ⊢
  cases hrun with
  | error he => exact congrArg Except.error he.eq_map.symm
  | ok hv =>
    cases hv with
    | none => rfl
    | some hm =>
      rw [← hm.2]
      rfl

/-- No operation fails in a run on matrices. -/
theorem run_ne_arithmetic (index : Nat) (e : MatrixError) (span : Span) :
    (b.run names trees).1 ≠ .error ⟨index, .arithmetic e span⟩ := by
  intro h
  have hresult := elements_result 0 0 hb names trees
  rw [h] at hresult
  cases hr : ((b.map (entry 0 0)).run names trees).1 with
  | ok o => rw [hr] at hresult; cases hresult
  | error f =>
    rw [hr] at hresult
    exact f.map_ne_arithmetic index e span (Except.error.inj hresult)

/-- What a run on matrices returns is of the shape or has a single element. -/
theorem run_shaped {m : Matrix} (h : (b.run names trees).1 = .ok (some m)) : m.Shaped shape := by
  have hrun := elements_run 0 0 hb names trees
  rw [h] at hrun
  generalize ((b.map (entry 0 0)).run names trees).1 = r at hrun
  cases hrun with
  | ok hv =>
    cases hv with
    | some hm => exact hm.1

/-- Matrices that are assigned in a run are of the shape or have a single element, and what the run
on the elements at some place assigns are their elements there. -/
theorem elements_assignments :
    (∀ e ∈ b.assignments names trees, e.2.Shaped shape) ∧
      (b.assignments names trees).map (fun e => (e.1, e.2.entry row col))
        = (b.map (entry row col)).assignments names trees := by
  have hassigned :=
    ((elements shape row col).runFrom names 0 trees fun x _ => elements_get? row col hb x).2
  obtain ⟨hshaped, hentries⟩ := (List.forall₂_and_left _ _).1 (hassigned.imp
    (S := fun e e' => e.2.Shaped shape ∧ (e.1, e.2.entry row col) = e')
    fun e e' he => ⟨he.2.1, Prod.ext he.1 he.2.2⟩)
  refine ⟨hshaped, ?_⟩
  rw [← List.forall₂_eq_eq_eq, List.forall₂_map_left_iff]
  exact hentries

end Matrix

/-- A program on matrices of one shape and single elements is at each place a program on
floating-point numbers: it never fails by an operation, keeps to such matrices, and comes to the
end, with the bindings, that the elements at the place lead to. -/
theorem run_elementwise {shape : Nat × Nat} {b : Bindings Matrix}
    (hb : ∀ x m, b.get? x = some m → m.Shaped shape) (names : NameTable) (trees : List (Tree Name)) :
    (∀ index e span, (b.run names trees).1 ≠ .error ⟨index, .arithmetic e span⟩) ∧
    (∀ m, (b.run names trees).1 = .ok (some m) → m.Shaped shape) ∧
    (∀ e ∈ b.assignments names trees, e.2.Shaped shape) ∧
    (∀ x m, (b.run names trees).2.get? x = some m → m.Shaped shape) ∧
    ∀ row < shape.1, ∀ col < shape.2,
      let elements := (b.map (Matrix.entry row col)).run names trees
      elements.1.mapError (LineError.map nofun)
        = (b.run names trees).1.map (Option.map (Matrix.entry row col)) ∧
      elements.2 = (b.run names trees).2.map (Matrix.entry row col) := by
  have hfinal : (b.run names trees).2 = b.insertAll (b.assignments names trees) :=
    Bindings.snd_runFrom names 0 trees b
  obtain ⟨hshaped, -⟩ := Matrix.elements_assignments 0 0 hb names trees
  refine ⟨Matrix.run_ne_arithmetic hb names trees, fun m => Matrix.run_shaped hb names trees,
    hshaped, ?_, ?_⟩
  · intro x m h
    rw [hfinal] at h
    rcases Bindings.mem_of_get?_insertAll b h with hx | hx
    · exact hb x m hx
    · exact hshaped _ hx
  · intro row _ col _
    refine ⟨Matrix.elements_result row col hb names trees, ?_⟩
    obtain ⟨-, hassigned⟩ := Matrix.elements_assignments row col hb names trees
    rw [hfinal, Bindings.map_insertAll, hassigned]
    exact Bindings.snd_runFrom names 0 trees _

theorem run_elementwise_two_by_two :
    let tokens : List (TokenKind Name) → List (Token Name) := List.map fun k => ⟨k, .none⟩
    let names : NameTable := ⟨#["", "return", "g", "s", "h"]⟩
    -- `h = s - g`, then `return h / s + g`
    let lines := [tokens [.ident ⟨4⟩, .eq, .ident ⟨3⟩, .minus, .ident ⟨2⟩],
      tokens [.ret, .ident ⟨4⟩, .slash, .ident ⟨3⟩, .plus, .ident ⟨2⟩]]
    let grid : Matrix := ⟨2, 2, #[1.0, 3.0, 2.0, 4.0], by decide, by decide, rfl⟩
    let b : Bindings Matrix := Bindings.empty.insertAll [(⟨2⟩, grid), (⟨3⟩, .scalar 8.0)]
    ∃ trees m, List.Forall₂ Tree.Parsed lines trees ∧ (b.run names trees).1 = .ok (some m) ∧
      m.Shaped (2, 2) ∧ m.entry 1 0 = ⟨(8.0 - 2.0) / 8.0 + 2.0⟩ := by
  intro tokens names lines grid b
  have hb : ∀ x m, b.get? x = some m → m.Shaped (2, 2) := by
    intro x m hx
    rcases Bindings.mem_of_get?_insertAll _ hx with hx | hx
    · cases hx
    · rcases List.mem_cons.1 hx with hx | hx
      · obtain ⟨-, rfl⟩ := Prod.mk.inj hx
        exact .inl rfl
      · obtain ⟨-, rfl⟩ := Prod.mk.inj (List.mem_singleton.1 hx)
        exact .inr rfl
  let elements (g s : Float) : Bindings Double := Bindings.empty.insertAll [(⟨2⟩, ⟨g⟩), (⟨3⟩, ⟨s⟩)]
  obtain ⟨trees, hlines, helements⟩ : ∃ trees, List.Forall₂ Tree.Parsed lines trees ∧
      ∀ g s, ((elements g s).run names trees).1 = .ok (some ⟨(s - g) / s + g⟩) :=
    ⟨_, .cons ⟨⟨.eof, .none⟩, rfl⟩ (.cons ⟨⟨.eof, .none⟩, rfl⟩ .nil), fun _ _ => rfl⟩
  have hmap : b.map (Matrix.entry 1 0) = elements 2.0 8.0 := rfl
  obtain ⟨-, hshaped, -, -, hplaces⟩ := run_elementwise hb names trees
  obtain ⟨hresult, -⟩ := hplaces 1 (by decide) 0 (by decide)
  rw [hmap, helements] at hresult
  cases hr : (b.run names trees).1 with
  | error e => rw [hr] at hresult; cases hresult
  | ok o =>
    cases o with
    | none => rw [hr] at hresult; cases hresult
    | some m =>
      rw [hr] at hresult
      refine ⟨trees, m, hlines, hr, hshaped m hr, ?_⟩
      exact (Option.some.inj (Except.ok.inj hresult)).symm

end Reckoner
