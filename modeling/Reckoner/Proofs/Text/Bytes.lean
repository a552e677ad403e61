import Mathlib

/-!
The order of texts. Texts are compared character by character, and comparing the bytes of their UTF-8
encodings comes to the same: a character with a larger number has a larger leading byte, or the same
one and larger bytes behind it. -/

namespace Reckoner.Text

/-- The bytes of a text in UTF-8. -/
def bytes (s : String) : List UInt8 := s.toByteArray.data.toList

theorem bytes_eq_flatMap (s : String) : bytes s = s.toList.flatMap String.utf8EncodeChar := by
  rw [bytes, ← String.utf8Encode_toList, List.utf8Encode, List.data_toByteArray]

/-! ### Characters -/

theorem cons_ofNat_lt_cons_ofNat {a b : Nat} (h : a < b) (hb : b < 256) (xs ys : List UInt8) :
    UInt8.ofNat a :: xs < UInt8.ofNat b :: ys := by
  refine List.cons_lt_cons_iff.2 (.inl ?_)
  rw [UInt8.lt_iff_toNat_lt, UInt8.toNat_ofNat', UInt8.toNat_ofNat']
  omega

/-- Up to some limit a larger number has larger bytes, whatever stands behind them. -/
def Ascending (limit : Nat) (f : Nat → List UInt8) : Prop :=
  ∀ m n, m < n → n < limit → ∀ xs ys, f m ++ xs < f n ++ ys

theorem ascending_lead (count base : Nat) (h : count + base ≤ 256) :
    Ascending count fun n => [UInt8.ofNat (n % count + base)] := by
  intro m n hlt hn xs ys
  dsimp only
  rw [Nat.mod_eq_of_lt hn, Nat.mod_eq_of_lt (Nat.lt_trans hlt hn)]
  exact cons_ofNat_lt_cons_ofNat (by omega) (by omega) xs ys

/-- One more byte goes on with the lowest six bits. -/
theorem Ascending.continued {limit : Nat} {f : Nat → List UInt8} (h : Ascending limit f) :
    Ascending (64 * limit) fun n => f (n / 64) ++ [UInt8.ofNat (n % 64 + 128)] := by
  intro m n hlt hn xs ys
  dsimp only
  rw [List.append_assoc, List.append_assoc]
  by_cases hhigh : m / 64 < n / 64
  · exact h (m / 64) (n / 64) hhigh (by omega) _ _
  · have heq : m / 64 = n / 64 := by omega
    rw [heq]
    exact List.append_left_lt (cons_ofNat_lt_cons_ofNat (by omega) (by omega) xs ys)

/-- A larger character has larger bytes. -/
theorem utf8EncodeChar_append_lt {c d : Char} (h : c < d) (xs ys : List UInt8) :
    String.utf8EncodeChar c ++ xs < String.utf8EncodeChar d ++ ys := by
  have hlt : c.val.toNat < d.val.toNat := h
  have hlimit : d.val.toNat < 0x110000 := by
    rcases d.valid with hd | ⟨-, hd⟩
    · exact Nat.lt_trans hd (by decide)
    · exact hd
  have htwo := (ascending_lead 32 192 (by decide)).continued
  have hthree := (ascending_lead 16 224 (by decide)).continued.continued
  have hfour := (ascending_lead 8 240 (by decide)).continued.continued.continued
  simp only [Nat.div_div_eq_div_mul] at hthree hfour
  simp only [String.utf8EncodeChar]
  generalize c.val.toNat = m at hlt ⊢
  generalize d.val.toNat = n at hlt hlimit ⊢
  -- more bytes have a larger leading byte; as many of them are compared from the first one on
  split_ifs <;> first
    | omega
    | exact cons_ofNat_lt_cons_ofNat (by omega) (by omega) _ _
    | exact htwo m n hlt (by omega) xs ys
    | exact hthree m n hlt (by omega) xs ys
    | exact hfour m n hlt (by omega) xs ys

/-! ### Texts -/

theorem flatMap_utf8EncodeChar_lt : ∀ {cs ds : List Char}, cs < ds →
    cs.flatMap String.utf8EncodeChar < ds.flatMap String.utf8EncodeChar
  | [], [], h => absurd h (List.lt_irrefl [])
  | [], d :: ds, _ => by
    have hpos : 0 < (String.utf8EncodeChar d).length := by
      rw [String.length_utf8EncodeChar]
      exact d.utf8Size_pos
    obtain ⟨byte, bytes, hd⟩ := List.exists_cons_of_length_pos hpos
    rw [List.flatMap_nil, List.flatMap_cons, hd]
    exact List.nil_lt_cons byte _
  | c :: cs, [], h => absurd h (List.not_lt_nil (c :: cs))
  | c :: cs, d :: ds, h => by
    rw [List.flatMap_cons, List.flatMap_cons]
    rcases List.cons_lt_cons_iff.1 h with hlt | ⟨rfl, hrest⟩
    · exact utf8EncodeChar_append_lt hlt _ _
    · exact List.append_left_lt (flatMap_utf8EncodeChar_lt hrest)

/-- A smaller text has smaller bytes. -/
theorem bytes_lt_bytes {s t : String} (h : s < t) : bytes s < bytes t := by
  rw [bytes_eq_flatMap, bytes_eq_flatMap]
  exact flatMap_utf8EncodeChar_lt (String.lt_iff_toList_lt.1 h)

end Reckoner.Text
