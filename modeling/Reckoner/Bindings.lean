import Reckoner.NameTable

/-!
The values that names are bound to. A name is bound at most once; binding it again replaces its
value. The entries are kept in the order of the names, so that bindings which give every name the
same value are equal. -/

namespace Reckoner

/-- Whether the names of entries increase strictly. -/
def Increasing {V : Type} (entries : List (Name × V)) : Prop :=
  entries.Pairwise fun a b => a.1.index < b.1.index

/-- Names with their values, in the order of the names. -/
structure Bindings (V : Type) where
  entries : List (Name × V)
  increasing : Increasing entries

namespace Bindings

variable {V : Type}

/-- Puts an entry at its place, where it replaces the one of the same name. -/
def insertEntry (n : Name) (v : V) : List (Name × V) → List (Name × V)
  | [] => [(n, v)]
  | e :: es =>
    if n.index < e.1.index then (n, v) :: e :: es
    else if n.index = e.1.index then (n, v) :: es
    else e :: insertEntry n v es

theorem mem_insertEntry {n : Name} {v : V} {es : List (Name × V)} {e : Name × V}
    (h : e ∈ insertEntry n v es) : e = (n, v) ∨ e ∈ es := by
  induction es with
  | nil => simpa [insertEntry] using h
  | cons d ds ih =>
    rw [insertEntry] at h
    split at h
    · simpa using h
    · split at h
      · rcases List.mem_cons.1 h with h | h
        · exact .inl h
        · exact .inr (List.mem_cons_of_mem _ h)
      · rcases List.mem_cons.1 h with h | h
        · exact .inr (h ▸ List.mem_cons_self)
        · exact (ih h).imp_right (List.mem_cons_of_mem _)

theorem increasing_insertEntry (n : Name) (v : V) {es : List (Name × V)} (h : Increasing es) :
    Increasing (insertEntry n v es) := by
  induction es with
  | nil => simp [insertEntry, Increasing]
  | cons d ds ih =>
    obtain ⟨hd, hds⟩ := List.pairwise_cons.1 h
    rw [insertEntry]
    split
    · rename_i hlt
      refine List.pairwise_cons.2 ⟨fun e he => ?_, h⟩
      rcases List.mem_cons.1 he with rfl | he
      · exact hlt
      · exact Nat.lt_trans hlt (hd e he)
    · split
      · rename_i heq
        exact List.pairwise_cons.2 ⟨fun e he => heq ▸ hd e he, hds⟩
      · refine List.pairwise_cons.2 ⟨fun e he => ?_, ih hds⟩
        rcases mem_insertEntry he with rfl | he
        · show d.1.index < n.index
          omega
        · exact hd e he

/-- No names at all. -/
def empty : Bindings V := ⟨[], .nil⟩

/-- Binds a name to a value. -/
def insert (b : Bindings V) (n : Name) (v : V) : Bindings V :=
  ⟨insertEntry n v b.entries, increasing_insertEntry n v b.increasing⟩

/-- The value of a name. -/
def get? (b : Bindings V) (n : Name) : Option V := (b.entries.find? (·.1 = n)).map (·.2)

/-- Whether a name is bound. -/
def contains (b : Bindings V) (n : Name) : Bool := (b.get? n).isSome

/-- Number of names bound. -/
def size (b : Bindings V) : Nat := b.entries.length

/-- Whether no name is bound. -/
def isEmpty (b : Bindings V) : Bool := b.entries.isEmpty

/-- The texts of the names and their values, in the order of the texts. -/
def listing (b : Bindings V) (names : NameTable) : List (String × V) :=
  (b.entries.map fun e => (names.text e.1, e.2)).mergeSort fun x y => decide (x.1 ≤ y.1)

/-! ### What binding a name does -/

theorem find?_insertEntry_self (n : Name) (v : V) (es : List (Name × V)) :
    (insertEntry n v es).find? (·.1 = n) = some (n, v) := by
  induction es with
  | nil => simp [insertEntry]
  | cons d ds ih =>
    rw [insertEntry]
    split
    · simp
    · split
      · simp
      · rename_i hne
        have hd : d.1 ≠ n := fun h => hne (h ▸ rfl)
        simp [hd, ih]

theorem find?_insertEntry_of_ne {m n : Name} (h : m ≠ n) (v : V) (es : List (Name × V)) :
    (insertEntry n v es).find? (·.1 = m) = es.find? (·.1 = m) := by
  have hnm : n ≠ m := h.symm
  induction es with
  | nil => simp [insertEntry, hnm]
  | cons d ds ih =>
    rw [insertEntry]
    split
    · simp [hnm]
    · split
      · rename_i heq
        have hd : d.1 ≠ m := fun hd => hnm (by cases n; cases hdm : d.1; simp_all)
        simp [hnm, hd]
      · by_cases hd : d.1 = m <;> simp [hd, ih]

@[simp] theorem get?_insert_self (b : Bindings V) (n : Name) (v : V) :
    (b.insert n v).get? n = some v := by
  simp [get?, insert, find?_insertEntry_self]

theorem get?_insert_of_ne {m n : Name} (h : m ≠ n) (b : Bindings V) (v : V) :
    (b.insert n v).get? m = b.get? m := by
  simp [get?, insert, find?_insertEntry_of_ne h]

end Bindings

end Reckoner
