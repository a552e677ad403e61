import Reckoner.Proofs.Token.Pattern
import Reckoner.Value.Integer

/-!
Texts of integers. A number denotes an integer if it is written with digits alone: these are the
decimal digits of the integer behind any zeros. The value of an integer literal is the integer that
its text denotes, if it fits; no other number has a value. -/

namespace Reckoner

/-- The text is the digits of a number, behind any zeros. -/
def Denotes (text : String) (n : Nat) : Prop :=
  ∃ zeros, text.toList = List.replicate zeros '0' ++ Nat.toDigits 10 n

/-- The integer of a number that fits. -/
def Integer.ofNat (n : Nat) (h : n < 2 ^ 63) : Integer :=
  ⟨n, by omega, by omega⟩

theorem isDigit_of_mem_toDigits {n : Nat} : ∀ c ∈ Nat.toDigits 10 n, c.isDigit = true := fun _ =>
  Nat.isDigit_of_mem_toDigits (by decide) (by decide)

namespace Integer

variable {text : String} {n : Nat} {ds : List Char}

/-! ### Digits -/

theorem ofDigits_cons_zero (ds : List Char) : ofDigits ('0' :: ds) = ofDigits ds := rfl

/-- Zeros in front of digits do not count. -/
theorem ofDigits_replicate_append (zeros : Nat) (ds : List Char) :
    ofDigits (List.replicate zeros '0' ++ ds) = ofDigits ds := by
  induction zeros with
  | zero => rfl
  | succ zeros ih => rw [List.replicate_succ, List.cons_append, ofDigits_cons_zero, ih]

theorem ofDigits_toDigits (n : Nat) : ofDigits (Nat.toDigits 10 n) = n := by
  rw [ofDigits, ← Nat.ofDigitChars_eq_foldl, Nat.ofDigitChars_ten_toDigits]

theorem digitChar_of_isDigit {c : Char} (h : c.isDigit = true) :
    c.toNat - '0'.toNat < 10 ∧ Nat.digitChar (c.toNat - '0'.toNat) = c := by
  obtain ⟨hlow, hhigh⟩ : 48 ≤ c.toNat ∧ c.toNat ≤ 57 := by
    simpa [Char.isDigit, UInt32.le_iff_toNat_le] using h
  have hlt : c.toNat - 48 < 10 := by omega
  refine ⟨hlt, Char.toNat_inj.1 ?_⟩
  show (Nat.digitChar (c.toNat - 48)).toNat = c.toNat
  rw [Nat.toNat_digitChar_of_lt_ten hlt]
  omega

/-- Digits behind those of a positive number are digits of the number that they are read as. -/
theorem toDigits_append {acc : Nat} (hacc : 0 < acc) (h : ∀ c ∈ ds, c.isDigit = true) :
    Nat.toDigits 10 acc ++ ds
      = Nat.toDigits 10 (ds.foldl (fun n d => 10 * n + (d.toNat - '0'.toNat)) acc) := by
  induction ds generalizing acc with
  | nil => simp
  | cons d ds ih =>
    obtain ⟨hd, hds⟩ := List.forall_mem_cons.1 h
    obtain ⟨hlt, hchar⟩ := digitChar_of_isDigit hd
    have hlast : Nat.toDigits 10 (10 * acc + (d.toNat - '0'.toNat)) = Nat.toDigits 10 acc ++ [d] := by
      rw [← Nat.toDigits_append_toDigits (by decide) hacc hlt, Nat.toDigits_of_lt_base hlt, hchar]
    rw [List.foldl_cons, ← ih (by omega) hds, hlast, List.append_assoc, List.singleton_append]

/-- All digits are the digits of a number behind zeros. -/
theorem exists_replicate_append_toDigits (h : Digits ds) :
    ∃ zeros n, ds = List.replicate zeros '0' ++ Nat.toDigits 10 n := by
  obtain ⟨hne, hdigits⟩ := h
  induction ds with
  | nil => exact absurd rfl hne
  | cons d ds ih =>
    obtain ⟨hd, hds⟩ := List.forall_mem_cons.1 hdigits
    by_cases hzero : d = '0'
    · subst hzero
      cases ds with
      | nil => exact ⟨0, 0, rfl⟩
      | cons d' ds =>
        obtain ⟨zeros, n, heq⟩ := ih (List.cons_ne_nil d' ds) hds
        exact ⟨zeros + 1, n, congrArg ('0' :: ·) heq⟩
    · -- a first digit other than zero starts the digits of the number
      obtain ⟨hlt, hchar⟩ := digitChar_of_isDigit hd
      have hpos : 0 < d.toNat - '0'.toNat := by
        refine Nat.pos_of_ne_zero fun h => hzero ?_
        rw [← hchar, h]
        rfl
      have happend := toDigits_append hpos hds
      rw [Nat.toDigits_of_lt_base hlt, hchar] at happend
      exact ⟨0, _, happend⟩

/-! ### Literals -/

theorem splitSign_digits {ds : List Char} (h : ∀ c ∈ ds, c.isDigit = true) :
    splitSign ds = (false, ds) := by
  unfold splitSign
  split
  · exact absurd (h '-' List.mem_cons_self) (by decide)
  · exact absurd (h '+' List.mem_cons_self) (by decide)
  · rfl

/-- All digits denote a number, and nothing else does. -/
theorem digits_iff_exists_denotes : Digits text.toList ↔ ∃ n, Denotes text n := by
  constructor
  · intro h
    obtain ⟨zeros, n, htext⟩ := exists_replicate_append_toDigits h
    exact ⟨n, zeros, htext⟩
  · rintro ⟨n, zeros, htext⟩
    rw [htext]
    refine ⟨by simp [Nat.toDigits_ne_nil], List.forall_mem_append.2 ⟨fun c hc => ?_, ?_⟩⟩
    · rw [List.eq_of_mem_replicate hc]
      rfl
    · exact isDigit_of_mem_toDigits

/-- What denotes a number is read as this number, if it fits. -/
theorem ofText?_of_denotes (h : Denotes text n) : ofText? text = ofInt? n := by
  obtain ⟨hne, hdigits⟩ := digits_iff_exists_denotes.2 ⟨n, h⟩
  have hchecked : (text.toList.isEmpty || !text.toList.all Char.isDigit) = false := by
    rw [List.isEmpty_eq_false_iff.2 hne, List.all_eq_true.2 hdigits]
    rfl
  have hvalue : ofDigits text.toList = n := by
    obtain ⟨zeros, htext⟩ := h
    rw [htext, ofDigits_replicate_append, ofDigits_toDigits]
  rw [ofText?, splitSign_digits hdigits]
  dsimp only
  rw [hchecked, if_neg (by decide), if_neg (by decide), hvalue]

theorem ofText?_of_fits (h : Denotes text n) (hn : n < 2 ^ 63) : ofText? text = some (ofNat n hn) := by
  rw [ofText?_of_denotes h, ofInt?, dif_pos ⟨by omega, by omega⟩]
  rfl

/-- A number that denotes no integer that fits is not read. -/
theorem ofText?_eq_none (h : IsNumber text.toList) (hnone : ∀ n < 2 ^ 63, ¬Denotes text n) :
    ofText? text = none := by
  by_cases hdigits : ∀ c ∈ text.toList, c.isDigit = true
  · obtain ⟨n, hn⟩ := digits_iff_exists_denotes.1 ⟨(show IsLexeme _ from ⟨.number (), h⟩).ne_nil, hdigits⟩
    have hlarge : ¬n < 2 ^ 63 := fun hlt => hnone n hlt hn
    rw [ofText?_of_denotes hn, ofInt?, dif_neg (by omega)]
  · -- a number starts with a digit, so there is no sign to split off
    have hsplit : splitSign text.toList = (false, text.toList) := by
      obtain ⟨c, cs, htext⟩ := List.exists_cons_of_ne_nil
        (show IsLexeme _ from ⟨.number (), h⟩).ne_nil
      rw [htext] at h ⊢
      have hc := Token.isDigit_of_isNumber h
      unfold splitSign
      split
      · rename_i heq
        rw [(List.cons.inj heq).1] at hc
        exact absurd hc (by decide)
      · rename_i heq
        rw [(List.cons.inj heq).1] at hc
        exact absurd hc (by decide)
      · rfl
    have hchecked : (text.toList.isEmpty || !text.toList.all Char.isDigit) = true := by
      rw [Bool.eq_false_iff.2 (mt List.all_eq_true.1 hdigits), Bool.not_false, Bool.or_true]
    rw [ofText?, hsplit]
    dsimp only
    rw [if_pos hchecked]

end Integer

end Reckoner
