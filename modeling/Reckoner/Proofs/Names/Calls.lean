import Mathlib.Data.List.Nodup
import Reckoner.Proofs.Names.Growth

/-!
Calls about names. Interning puts each text into the table once, behind those that came before it, so
a text and its place in the table determine each other, and the name that a call was answered with is
the name of its text ever since. -/

namespace Reckoner

/-- What can be asked of names. -/
inductive NameCall where
  | intern (text : String)
  | get (text : String)
  | text (name : Name)
  | size
deriving DecidableEq, Repr

/-- An answer about names. -/
inductive NameReply where
  | named (name : Name)
  | found (name : Option Name)
  | text (text : String)
  | size (count : Nat)
deriving DecidableEq, Repr

/-- The texts that calls intern, in order. -/
def NameCall.interned {H : Type} (calls : List (H × NameCall)) : List String :=
  calls.filterMap fun
    | (_, .intern x) => some x
    | _ => none

namespace NameTable

/-- Answers a call. -/
def reply (t : NameTable) : NameCall → NameReply × NameTable
  | .intern x => let (n, t) := t.intern x; (.named n, t)
  | .get x => (.found (t.get? x), t)
  | .text n => (.text (t.text n), t)
  | .size => (.size t.size, t)

/-- Answers calls one after the other. -/
def replyAll {H : Type} (t : NameTable) : List (H × NameCall) → List NameReply × NameTable
  | [] => ([], t)
  | (_, call) :: calls =>
    let (r, t) := t.reply call
    let (rs, t) := replyAll t calls
    (r :: rs, t)

end NameTable

/-! ### Tables of different texts -/

theorem eraseDups_of_nodup {xs : List String} (h : xs.Nodup) : xs.eraseDups = xs := by
  induction xs with
  | nil => rfl
  | cons x xs ih =>
    obtain ⟨hx, hxs⟩ := List.nodup_cons.1 h
    have hothers : xs.filter (fun y => !y == x) = xs := by
      refine List.filter_eq_self.2 fun y hy => ?_
      rw [Bool.not_eq_true', beq_eq_false_iff_ne]
      exact ne_of_mem_of_not_mem hy hx
    rw [List.eraseDups_cons, hothers, ih hxs]

namespace NameTable

theorem Grows.size_le {t u : NameTable} (h : t.Grows u) : t.size ≤ u.size := by
  obtain ⟨added, hu⟩ := h
  have hlength := congrArg List.length hu
  rw [List.length_append, Array.length_toList, Array.length_toList] at hlength
  exact Nat.le.intro hlength.symm

/-- No text stands in the table twice. -/
def Distinct (t : NameTable) : Prop := t.texts.toList.Nodup

variable {t : NameTable} {x : String} {n : Name}

theorem distinct_initial : initial.Distinct := by
  simp [Distinct, initial]

theorem intern_of_mem (h : x ∈ t.texts) : t.intern x = (t.nameOf x, t) := by
  rw [intern, get?_eq_some_nameOf h]

theorem get?_eq_none_iff : t.get? x = none ↔ x ∉ t.texts := by
  constructor
  · intro h hmem
    obtain ⟨n, hn⟩ := exists_get? hmem
    rw [h] at hn
    cases hn
  · intro h
    exact Option.eq_none_iff_forall_ne_some.2 fun n hn => h (mem_of_get? hn)

theorem intern_of_notMem (h : x ∉ t.texts) : t.intern x = (⟨t.size⟩, ⟨t.texts.push x⟩) := by
  rw [intern, get?_eq_none_iff.2 h]
  rfl

theorem Distinct.intern (h : t.Distinct) (x : String) : (t.intern x).2.Distinct := by
  by_cases hx : x ∈ t.texts
  · rwa [intern_of_mem hx]
  · rw [intern_of_notMem hx, Distinct, Array.toList_push]
    exact List.nodup_append_comm.1 (List.nodup_cons.2 ⟨by simpa using hx, h⟩)

theorem Distinct.internAll (h : t.Distinct) (xs : List String) : (t.internAll xs).Distinct := by
  induction xs generalizing t with
  | nil => exact h
  | cons x xs ih => exact ih (h.intern x)

/-- In a table of different texts, a text has the name of the place where it stands. -/
theorem Distinct.get?_eq_some_iff (h : t.Distinct) :
    t.get? x = some n ↔ t.texts[n.index]? = some x := by
  refine NameTable.get?_eq_some_iff.trans (and_iff_left_of_imp fun hx j hj hjx => ?_)
  rw [← Array.getElem?_toList] at hx hjx
  obtain ⟨hlt, -⟩ := List.getElem?_eq_some_iff.1 hjx
  exact Nat.ne_of_lt hj ((List.getElem?_inj hlt h).1 (hjx.trans hx.symm))

/-- Interning puts new texts at the end, in the order in which they come first. -/
theorem Distinct.texts_internAll (h : t.Distinct) (xs : List String) :
    (t.internAll xs).texts.toList = (t.texts.toList ++ xs).eraseDups := by
  induction xs generalizing t with
  | nil => rw [List.append_nil, eraseDups_of_nodup h]; rfl
  | cons x xs ih =>
    show ((t.intern x).2.internAll xs).texts.toList = _
    rw [ih (h.intern x)]
    by_cases hx : x ∈ t.texts
    · have hremove : (x :: xs).removeAll t.texts.toList = xs.removeAll t.texts.toList := by
        simp [List.removeAll, hx]
      rw [intern_of_mem hx, List.eraseDups_append, List.eraseDups_append, hremove]
    · rw [intern_of_notMem hx, Array.toList_push, List.append_assoc]
      rfl

/-! ### Calls -/

section Calls

variable {H : Type}

/-- Calls leave behind what interning their texts leaves behind. -/
theorem snd_replyAll (calls : List (H × NameCall)) (t : NameTable) :
    (t.replyAll calls).2 = t.internAll (NameCall.interned calls) := by
  induction calls generalizing t with
  | nil => rfl
  | cons call calls ih =>
    obtain ⟨handle, call⟩ := call
    cases call <;> exact ih _

theorem grows_replyAll (calls : List (H × NameCall)) (t : NameTable) :
    t.Grows (t.replyAll calls).2 := by
  rw [snd_replyAll]
  exact grows_internAll _ _

/-- Where a call has interned a text, the answer was the name that the text has ever since. -/
theorem exists_named : ∀ {calls : List (H × NameCall)} (t : NameTable) {i : Nat} {handle : H},
    calls[i]? = some (handle, .intern x) → ∃ n,
      (t.replyAll calls).1[i]? = some (.named n) ∧ (t.replyAll calls).2.get? x = some n
  | [], t, i, handle, h => by simp at h
  | (handle', call) :: calls, t, 0, handle, h => by
    obtain ⟨rfl, rfl⟩ : handle' = handle ∧ call = .intern x := by simpa using h
    exact ⟨(t.intern x).1, rfl, (grows_replyAll calls _).get? (get?_intern t x)⟩
  | (handle', call) :: calls, t, i + 1, handle, h => exists_named (t.reply call).2 h

end Calls

end NameTable

/-- A text has got a name: it is one of the two that have names from the start, or a call that
interned it was answered with the name. -/
inductive Named {H : Type} (calls : List (H × NameCall)) (replies : List NameReply) :
    String → Name → Prop where
  | empty : Named calls replies "" ⟨0⟩
  | keyword : Named calls replies "return" ⟨1⟩
  | call {i : Nat} {handle : H} {x : String} {n : Name}
      (hcall : calls[i]? = some (handle, .intern x)) (hreply : replies[i]? = some (.named n)) :
      Named calls replies x n

/-- After some calls, a text has the name that it got. -/
theorem NameTable.get?_replyAll_iff {H : Type} {calls : List (H × NameCall)} {x : String}
    {n : Name} : (initial.replyAll calls).2.get? x = some n
      ↔ Named calls (initial.replyAll calls).1 x n := by
  have hgrows := grows_replyAll calls initial
  have hempty : (initial.replyAll calls).2.get? "" = some ⟨0⟩ :=
    hgrows.get? (distinct_initial.get?_eq_some_iff.2 rfl)
  have hkeyword : (initial.replyAll calls).2.get? "return" = some ⟨1⟩ :=
    hgrows.get? (distinct_initial.get?_eq_some_iff.2 rfl)
  constructor
  · intro h
    have hmem := mem_of_get? h
    rw [snd_replyAll, mem_internAll] at hmem
    rcases hmem with hmem | hmem
    · obtain ⟨⟨handle, call⟩, hcall, hx⟩ := List.mem_filterMap.1 hmem
      obtain ⟨i, hi⟩ := List.getElem?_of_mem hcall
      cases call with
      | intern y =>
        obtain rfl : y = x := Option.some.inj hx
        obtain ⟨m, hreply, hm⟩ := exists_named initial hi
        obtain rfl : n = m := Option.some.inj (h.symm.trans hm)
        exact .call hi hreply
      | get | text | size => cases hx
    · obtain rfl | rfl : x = "" ∨ x = "return" := by simpa [initial] using hmem
      · obtain rfl : n = ⟨0⟩ := Option.some.inj (h.symm.trans hempty)
        exact .empty
      · obtain rfl : n = ⟨1⟩ := Option.some.inj (h.symm.trans hkeyword)
        exact .keyword
  · rintro (_ | _ | ⟨hcall, hreply⟩)
    · exact hempty
    · exact hkeyword
    · obtain ⟨m, hm, hx⟩ := exists_named initial hcall
      rw [hreply] at hm
      obtain rfl := NameReply.named.inj (Option.some.inj hm)
      exact hx

end Reckoner
