import Reckoner.Proofs.Names

/-!
Tables of names grow. Texts are only ever put at the end, so what an earlier table says of its names
and texts is what every later one says of them, whoever named the texts in between. -/

namespace Reckoner.NameTable

/-- Texts may have been put behind those of the table, and nothing else has happened to it. -/
def Grows (t u : NameTable) : Prop := ∃ added, u.texts.toList = t.texts.toList ++ added

variable {t u v : NameTable} {s : String} {n : Name}

/-- The name of a text is the first index at which the table has it. -/
theorem get?_eq_some_iff :
    t.get? s = some n ↔ t.texts[n.index]? = some s ∧ ∀ j < n.index, t.texts[j]? ≠ some s := by
  obtain ⟨⟨ss⟩⟩ := t
  obtain ⟨i⟩ := n
  rw [get?, List.idxOf?_toArray, Option.map_eq_some_iff]
  simp only [Name.mk.injEq, exists_eq_right, List.getElem?_toArray, List.idxOf?_eq_some_iff]
  constructor
  · rintro ⟨hi, hs, hfirst⟩
    refine ⟨by rw [List.getElem?_eq_getElem hi, hs], fun j hj hjs => hfirst j hj ?_⟩
    rw [List.getElem?_eq_getElem (by omega)] at hjs
    exact Option.some.inj hjs
  · rintro ⟨hs, hfirst⟩
    obtain ⟨hi, hs⟩ := List.getElem?_eq_some_iff.1 hs
    refine ⟨hi, hs, fun j hj hjs => hfirst j hj ?_⟩
    rw [List.getElem?_eq_getElem (by omega), hjs]

theorem text_of_get? (h : t.get? s = some n) : t.text n = s := by
  rw [text, (get?_eq_some_iff.1 h).1, Option.getD_some]

theorem exists_get? (h : s ∈ t.texts) : ∃ n, t.get? s = some n := by
  obtain ⟨i, hi⟩ := Option.isSome_iff_exists.1 (Array.isSome_idxOf?.2 h)
  exact ⟨⟨i⟩, by rw [get?, hi, Option.map_some]⟩

theorem get?_eq_some_nameOf (h : s ∈ t.texts) : t.get? s = some (t.nameOf s) := by
  obtain ⟨n, hn⟩ := exists_get? h
  rw [nameOf, hn, Option.getD_some]

theorem mem_of_get? (h : t.get? s = some n) : s ∈ t.texts :=
  Array.mem_of_getElem? (get?_eq_some_iff.1 h).1

namespace Grows

theorem refl (t : NameTable) : t.Grows t := ⟨[], (List.append_nil _).symm⟩

theorem trans (h : t.Grows u) (h' : u.Grows v) : t.Grows v := by
  obtain ⟨added, hu⟩ := h
  obtain ⟨more, hv⟩ := h'
  exact ⟨added ++ more, by rw [hv, hu, List.append_assoc]⟩

theorem mem (h : t.Grows u) (hs : s ∈ t.texts) : s ∈ u.texts := by
  obtain ⟨added, hu⟩ := h
  rw [← Array.mem_toList_iff, hu]
  exact List.mem_append_left added (Array.mem_toList_iff.2 hs)

/-- What stands in the table still stands at its place. -/
theorem getElem? (h : t.Grows u) {i : Nat} (hi : i < t.size) : u.texts[i]? = t.texts[i]? := by
  obtain ⟨added, hu⟩ := h
  rw [← Array.getElem?_toList, hu, List.getElem?_append_left hi, Array.getElem?_toList]

theorem text (h : t.Grows u) (hn : n.index < t.size) : u.text n = t.text n := by
  rw [NameTable.text, h.getElem? hn, NameTable.text]

theorem index_lt (h : t.get? s = some n) : n.index < t.size :=
  (Array.getElem?_eq_some_iff.1 (get?_eq_some_iff.1 h).1).1

/-- A text keeps its name. -/
theorem get? (h : t.Grows u) (hn : t.get? s = some n) : u.get? s = some n := by
  have hlt := index_lt hn
  obtain ⟨hs, hfirst⟩ := get?_eq_some_iff.1 hn
  refine get?_eq_some_iff.2 ⟨by rw [h.getElem? hlt, hs], fun j hj => ?_⟩
  rw [h.getElem? (Nat.lt_trans hj hlt)]
  exact hfirst j hj

theorem nameOf (h : t.Grows u) (hs : s ∈ t.texts) : u.nameOf s = t.nameOf s := by
  rw [NameTable.nameOf, h.get? (get?_eq_some_nameOf hs), Option.getD_some]

theorem text_nameOf (h : t.Grows u) (hs : s ∈ t.texts) : u.text (t.nameOf s) = s := by
  rw [← h.nameOf hs, NameTable.text_nameOf (h.mem hs)]

end Grows

theorem grows_intern (t : NameTable) (s : String) : t.Grows (t.intern s).2 := by
  rw [intern]
  cases t.get? s with
  | some n => exact .refl t
  | none => exact ⟨[s], Array.toList_push⟩

theorem grows_internAll (t : NameTable) (ss : List String) : t.Grows (t.internAll ss) := by
  induction ss generalizing t with
  | nil => exact .refl t
  | cons s ss ih => exact (grows_intern t s).trans (ih (t.intern s).2)

/-- Interning a text gives the name that the table then has for it. -/
theorem get?_intern (t : NameTable) (s : String) : (t.intern s).2.get? s = some (t.intern s).1 := by
  rw [intern]
  cases hs : t.get? s with
  | some n => exact hs
  | none =>
    refine get?_eq_some_iff.2 ⟨Array.getElem?_push_size, fun j hj hjs => ?_⟩
    rw [Array.getElem?_push_lt hj] at hjs
    obtain ⟨n, hn⟩ := exists_get? (Array.mem_of_getElem (Option.some.inj hjs))
    rw [hs] at hn
    cases hn

end Reckoner.NameTable
