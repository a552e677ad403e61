import Reckoner.Bindings

/-!
Bindings are what names are bound to. Those that bind the same names to the same values are equal,
whatever was bound first; changing every value changes what each name is bound to, and nothing else
about them. -/

namespace Reckoner.Bindings

variable {V W : Type}

/-! ### Equal bindings -/

theorem get?_eq_some_iff {b : Bindings V} {n : Name} {v : V} :
    b.get? n = some v ↔ (n, v) ∈ b.entries := by
  obtain ⟨entries, hincreasing⟩ := b
  show (entries.find? (·.1 = n)).map (·.2) = some v ↔ (n, v) ∈ entries
  induction entries with
  | nil => simp
  | cons e es ih =>
    obtain ⟨hfirst, hrest⟩ := List.pairwise_cons.1 hincreasing
    rw [List.find?_cons, List.mem_cons]
    by_cases he : e.1 = n
    · have hrest : (n, v) ∉ es := fun hmem =>
        Nat.lt_irrefl n.index (he ▸ hfirst (n, v) hmem)
      obtain ⟨m, w⟩ := e
      obtain rfl : m = n := he
      simp [hrest, eq_comm]
    · have hne : (n, v) ≠ e := fun h => he (by rw [← h])
      simp [he, hne, ih hrest]

/-- Bindings are told apart by what names are bound to. -/
theorem ext_get? {b b' : Bindings V} (h : ∀ n, b.get? n = b'.get? n) : b = b' := by
  have hmem : ∀ e : Name × V, e ∈ b.entries ↔ e ∈ b'.entries := by
    intro e
    rw [← get?_eq_some_iff, ← get?_eq_some_iff, h e.1]
  have hnodup : ∀ c : Bindings V, c.entries.Nodup := by
    intro c
    refine c.increasing.imp ?_
    rintro e _ hlt rfl
    exact Nat.lt_irrefl _ hlt
  have hperm := (List.perm_ext_iff_of_nodup (hnodup b) (hnodup b')).2 hmem
  have hentries : b.entries = b'.entries := by
    refine hperm.eq_of_pairwise ?_ b.increasing b'.increasing
    intro e e' _ _ hlt hlt'
    exact absurd hlt (Nat.lt_asymm hlt')
  obtain ⟨entries, _⟩ := b
  obtain rfl : entries = b'.entries := hentries
  rfl

/-- Assignments to different names can be made in either order. -/
theorem insert_comm {m n : Name} (h : m ≠ n) (b : Bindings V) (v w : V) :
    (b.insert m v).insert n w = (b.insert n w).insert m v := by
  refine ext_get? fun x => ?_
  by_cases hm : x = m
  · rw [hm, get?_insert_of_ne h, get?_insert_self, get?_insert_self]
  · by_cases hn : x = n
    · rw [hn, get?_insert_self, get?_insert_of_ne h.symm, get?_insert_self]
    · rw [get?_insert_of_ne hn, get?_insert_of_ne hm, get?_insert_of_ne hm, get?_insert_of_ne hn]

/-! ### Other values -/

theorem increasing_map (f : V → W) {es : List (Name × V)} (h : Increasing es) :
    Increasing (es.map fun e => (e.1, f e.2)) := by
  rw [Increasing, List.pairwise_map]
  exact h

/-- The same names, bound to other values. -/
def map (f : V → W) (b : Bindings V) : Bindings W :=
  ⟨b.entries.map fun e => (e.1, f e.2), increasing_map f b.increasing⟩

@[simp] theorem get?_map (f : V → W) (b : Bindings V) (n : Name) :
    (b.map f).get? n = (b.get? n).map f := by
  rw [get?, get?, map, List.find?_map, Option.map_map, Option.map_map]
  rfl

end Reckoner.Bindings
