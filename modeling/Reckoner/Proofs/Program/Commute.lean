import Reckoner.Proofs.Program.Live

/-!
Lines in another order. Two assignments to different variables, neither of which reads the variable
of the other, do the same whichever comes first, and so does every program that holds them side by
side. -/

namespace Reckoner

variable {V E : Type} [Value V E] {names : NameTable} {b : Bindings V} {t₁ t₂ : Tree Name}
  {x y : Name}

/-- Two lines assign to different variables, and neither reads what the other one assigns to. -/
structure Usage.Independent {α : Type} (u v : Usage α) (x y : α) : Prop where
  left : u.target? = some x
  right : v.target? = some y
  ne : x ≠ y
  unread_left : y ∉ u.reads
  unread_right : x ∉ v.reads

/-- A line does the same behind an assignment to a variable that it does not read. -/
theorem evaluate_insert_of_unread {tree : Tree Name} {x : Name} (h : x ∉ tree.reads) (v : V) :
    (tree.evaluate ((b.insert x v).scope names)).1 = (tree.evaluate (b.scope names)).1 := by
  refine evaluate_eq_of_reads names (b := b.insert x v) fun y hy => ?_
  refine Bindings.get?_insert_of_ne ?_ b v
  rintro rfl
  exact h hy

/-- Of two lines that go through, the first assigns in front of the second. -/
theorem exists_of_runFrom_pair {index : Nat}
    (h : (Bindings.runFrom names index [t₁, t₂] b).1 = .ok none) :
    ∃ x v y w, (t₁.evaluate (b.scope names)).1 = .ok (.assigned x v) ∧
      (t₂.evaluate ((b.insert x v).scope names)).1 = .ok (.assigned y w) := by
  rw [Bindings.runFrom_cons] at h
  rcases h₁ : (t₁.evaluate (b.scope names)).1 with e | ⟨x, v⟩ | v
  · simp [h₁] at h
  · simp only [h₁, Bindings.runFrom_cons] at h
    rcases h₂ : (t₂.evaluate ((b.insert x v).scope names)).1 with e | ⟨y, w⟩ | w
    · simp [h₂] at h
    · exact ⟨x, v, y, w, rfl, h₂⟩
    · simp [h₂] at h
  · simp [h₁] at h

/-- Lines that are independent of each other do the same in either order, if they go through. -/
theorem runFrom_swap (hind : t₁.usage.Independent t₂.usage x y) {index : Nat}
    (h : (Bindings.runFrom names index [t₁, t₂] b).1 = .ok none) :
    Bindings.runFrom names index [t₂, t₁] b = Bindings.runFrom names index [t₁, t₂] b := by
  obtain ⟨x', v, y', w, h₁, h₂⟩ := exists_of_runFrom_pair h
  obtain rfl : x = x' := Option.some.inj (hind.left.symm.trans (View.target?_of_assigned h₁))
  obtain rfl : y = y' := Option.some.inj (hind.right.symm.trans (View.target?_of_assigned h₂))
  have h₂' : (t₂.evaluate (b.scope names)).1 = .ok (.assigned y w) :=
    (evaluate_insert_of_unread hind.unread_right v).symm.trans h₂
  have h₁' : (t₁.evaluate ((b.insert y w).scope names)).1 = .ok (.assigned x v) :=
    (evaluate_insert_of_unread hind.unread_left w).trans h₁
  simp only [Bindings.runFrom_cons, h₁, h₂, h₁', h₂']
  rw [Bindings.insert_comm hind.ne]

/-- Independent assignments commute, whatever runs in front of them and behind: if a run goes
through up to them, it goes through in the other order as well and leaves equal bindings, and so
any lines behind come to the same end at the same position, with equal bindings. -/
theorem run_swap_independent {l₁ l₂ : List (Token Name)} (hl₁ : t₁.Parsed l₁) (hl₂ : t₂.Parsed l₂)
    (hx : (Usage.ofLine l₁).target? = some x) (hy : (Usage.ofLine l₂).target? = some y)
    (hne : x ≠ y) (hxl₂ : x ∉ (Usage.ofLine l₂).reads) (hyl₁ : y ∉ (Usage.ofLine l₁).reads)
    (names : NameTable) (b : Bindings V) (ps qs : List (Tree Name))
    (h : (b.run names (ps ++ [t₁, t₂])).1 = .ok none) :
    (b.run names (ps ++ [t₂, t₁])).1 = .ok none ∧
    (b.run names (ps ++ [t₂, t₁])).2 = (b.run names (ps ++ [t₁, t₂])).2 ∧
    (b.run names (ps ++ [t₂, t₁] ++ qs)).1 = (b.run names (ps ++ [t₁, t₂] ++ qs)).1 ∧
    (b.run names (ps ++ [t₂, t₁] ++ qs)).2 = (b.run names (ps ++ [t₁, t₂] ++ qs)).2 := by
  have hind : t₁.usage.Independent t₂.usage x y := by
    rw [hl₁.usage_eq, hl₂.usage_eq]
    exact ⟨hx, hy, hne, hyl₁, hxl₂⟩
  -- lines in front that do not go through stop either run in the same way
  have hswap : b.run names (ps ++ [t₂, t₁]) = b.run names (ps ++ [t₁, t₂]) := by
    rw [Bindings.run, Bindings.runFrom_append] at h
    rw [Bindings.run, Bindings.run, Bindings.runFrom_append, Bindings.runFrom_append]
    rcases hps : Bindings.runFrom names 0 ps b with ⟨_ | _ | v, c⟩
    · rfl
    · rw [hps] at h
      exact runFrom_swap hind h
    · rfl
  have hrest : b.run names (ps ++ [t₂, t₁] ++ qs) = b.run names (ps ++ [t₁, t₂] ++ qs) := by
    rw [Bindings.run] at hswap ⊢
    rw [Bindings.run] at hswap ⊢
    rw [Bindings.runFrom_append, hswap, Bindings.runFrom_append _ 0 (ps ++ [t₁, t₂])]
    simp only [List.length_append, List.length_cons]
  rw [hswap, hrest]
  exact ⟨h, rfl, rfl, rfl⟩

theorem run_swap_independent_sum_and_product :
    let tokens : List (TokenKind Name) → List (Token Name) := List.map fun k => ⟨k, .none⟩
    let names : NameTable := ⟨#["", "return", "w", "1", "x", "2", "y", "4"]⟩
    let b : Bindings Integer := .empty
    -- `w = 1`, then `x = w + 2` and `y = w * 4` in either order, then `return x - y`
    ∃ w x y last,
      Tree.Parsed (tokens [.ident ⟨2⟩, .eq, .number ⟨3⟩]) w ∧
      Tree.Parsed (tokens [.ident ⟨4⟩, .eq, .ident ⟨2⟩, .plus, .number ⟨5⟩]) x ∧
      Tree.Parsed (tokens [.ident ⟨6⟩, .eq, .ident ⟨2⟩, .star, .number ⟨7⟩]) y ∧
      Tree.Parsed (tokens [.ret, .ident ⟨4⟩, .minus, .ident ⟨6⟩]) last ∧
      (b.run names [w, x, y]).1 = .ok none ∧ (b.run names [w, y, x]).1 = .ok none ∧
      (b.run names [w, x, y, last]).1 = .ok (some ⟨-1, by decide, by decide⟩) ∧
      (b.run names [w, y, x, last]).1 = .ok (some ⟨-1, by decide, by decide⟩) := by
  intro tokens names b
  have hx : Tree.Parsed (tokens [.ident ⟨4⟩, .eq, .ident ⟨2⟩, .plus, .number ⟨5⟩]) _ :=
    ⟨⟨.eof, .none⟩, rfl⟩
  have hy : Tree.Parsed (tokens [.ident ⟨6⟩, .eq, .ident ⟨2⟩, .star, .number ⟨7⟩]) _ :=
    ⟨⟨.eof, .none⟩, rfl⟩
  have hswap := fun p qs => run_swap_independent hx hy (x := ⟨4⟩) (y := ⟨6⟩) rfl rfl (by decide)
    (by decide) (by decide) names b [p] qs
  refine ⟨_, _, _, _, ⟨⟨.eof, .none⟩, rfl⟩, hx, hy, ⟨⟨.eof, .none⟩, rfl⟩, ?through,
    (hswap _ [] ?through).1, ?value, (hswap _ [_] ?through).2.2.1.trans ?value⟩
  case through => cbv
  case value => cbv

end Reckoner
