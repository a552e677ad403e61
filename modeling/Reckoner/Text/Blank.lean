/-!
Blank characters and trimming. A character is blank when it has the Unicode property `White_Space`;
a text is blank when nothing is left of it after trimming, which is when it holds blanks only. -/

namespace Reckoner.Text

/-- First and last code point of each range of the property `White_Space`, in increasing order. -/
def blankRanges : List (Nat × Nat) :=
  [(0x09, 0x0D), (0x20, 0x20), (0x85, 0x85), (0xA0, 0xA0), (0x1680, 0x1680), (0x2000, 0x200A),
   (0x2028, 0x2029), (0x202F, 0x202F), (0x205F, 0x205F), (0x3000, 0x3000)]

/-- Whether a character counts as white space. -/
def isBlank (c : Char) : Bool := blankRanges.any fun r => r.1 ≤ c.toNat && c.toNat ≤ r.2

/-- Drops the blank characters at both ends. -/
def trimChars (cs : List Char) : List Char :=
  ((cs.dropWhile isBlank).reverse.dropWhile isBlank).reverse

/-- A text without the blank characters at its ends. -/
def trim (s : String) : String := String.ofList (trimChars s.toList)

/-- Whether a text holds nothing but blank characters. -/
def isBlankText (s : String) : Bool := s.toList.all isBlank

/-- A text is blank exactly when trimming leaves nothing of it. -/
theorem trimChars_eq_nil_iff (cs : List Char) : trimChars cs = [] ↔ cs.all isBlank := by
  have h : ∀ ds : List Char, ds.dropWhile isBlank = [] ↔ ds.all isBlank := fun ds => by
    induction ds with
    | nil => simp
    | cons d ds ih => by_cases hd : isBlank d <;> simp [hd, ih]
  rw [trimChars, List.reverse_eq_nil_iff, h, List.all_reverse]
  induction cs with
  | nil => simp
  | cons c cs ih => by_cases hc : isBlank c <;> simp_all

example : (blankRanges.map fun r => r.2 + 1 - r.1).sum = 25 := by decide

end Reckoner.Text
