import Reckoner.Token.Scan

/-!
Names stand for their texts. A table only grows, and the name that it gives for a text it has leads
back to that text. -/

namespace Reckoner

namespace NameTable

/-- The name of a text in the table has that text. -/
theorem text_nameOf {t : NameTable} {s : String} (h : s ∈ t.texts) : t.text (t.nameOf s) = s := by
  obtain ⟨texts⟩ := t
  obtain ⟨ss⟩ := texts
  obtain ⟨i, hi⟩ := Option.isSome_iff_exists.1 (Array.isSome_idxOf?.2 h)
  have hlist : ss.idxOf? s = some i := by rwa [List.idxOf?_toArray] at hi
  obtain ⟨hlt, hs, -⟩ := List.idxOf?_eq_some_iff.1 hlist
  rw [nameOf, get?, hi, Option.map_some, Option.getD_some, text]
  simp [hlt, hs]

/-- Interning a text leaves it in the table, with every text that was there before. -/
@[simp] theorem mem_intern {t : NameTable} {s s' : String} :
    s' ∈ (t.intern s).2.texts ↔ s' = s ∨ s' ∈ t.texts := by
  rw [intern, get?]
  cases hs : t.texts.idxOf? s with
  | none => simp [or_comm]
  | some i =>
    have hmem : s ∈ t.texts := Array.isSome_idxOf?.1 (by rw [hs]; rfl)
    simp only [Option.map_some]
    constructor
    · exact .inr
    · rintro (rfl | h)
      · exact hmem
      · exact h

/-- Interning texts one after the other leaves all of them in the table. -/
@[simp] theorem mem_internAll : ∀ {ss : List String} {t : NameTable} {s : String},
    s ∈ (t.internAll ss).texts ↔ s ∈ ss ∨ s ∈ t.texts
  | [], t, s => by simp [internAll]
  | s' :: ss, t, s => by
    have ih := @mem_internAll ss (t.intern s').2 s
    rw [mem_intern] at ih
    rw [List.mem_cons, or_assoc, or_left_comm]
    exact ih

end NameTable

namespace Token

variable (names : NameTable) (line : String)

/-- Naming the texts of a line keeps the kinds of its tokens. -/
theorem kinds_scanWith :
    (scanWith names line).1.map Token.kind
      = ((scan line).map Token.kind).map (TokenKind.map (scanWith names line).2.nameOf) := by
  rw [scanWith, List.map_map, List.map_map]
  rfl

/-- The names in a line stand for the texts that it was scanned with. -/
theorem text_nameOf_scanWith {s : String}
    (hs : s ∈ ((scan line).map Token.kind).filterMap TokenKind.payload?) :
    (scanWith names line).2.text ((scanWith names line).2.nameOf s) = s := by
  rw [List.filterMap_map] at hs
  exact NameTable.text_nameOf (NameTable.mem_internAll.2 (.inl hs))

end Token

end Reckoner
