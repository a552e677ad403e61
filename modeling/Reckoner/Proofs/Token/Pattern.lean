import Reckoner.Proofs.Token.Spelling

/-!
The patterns of tokens. Each kind of token has a pattern, said here without a scanner; the scanner
takes a text that matches the pattern of the kind it reports, and no longer text that starts at the
same place matches any pattern. A number may be followed by what looks like more of it, such as a
point without digits, and then goes no further than its last complete part. -/

namespace Reckoner

/-! ### Patterns -/

/-- One decimal digit or more. -/
def Digits (cs : List Char) : Prop := cs ≠ [] ∧ ∀ c ∈ cs, c.isDigit = true

/-- A point and digits. -/
def IsFraction (cs : List Char) : Prop := ∃ ds, Digits ds ∧ cs = '.' :: ds

/-- A letter that marks an exponent, at most one sign, and digits. -/
def IsExponent (cs : List Char) : Prop :=
  ∃ mark sign ds, (mark = 'e' ∨ mark = 'E') ∧ (sign = [] ∨ sign = ['+'] ∨ sign = ['-']) ∧
    Digits ds ∧ cs = mark :: (sign ++ ds)

/-- Digits, a fraction or none, and an exponent or none. -/
def IsNumber (cs : List Char) : Prop :=
  ∃ whole fraction exponent, Digits whole ∧ (fraction = [] ∨ IsFraction fraction) ∧
    (exponent = [] ∨ IsExponent exponent) ∧ cs = whole ++ (fraction ++ exponent)

/-- A letter or an underscore, and any letters, digits and underscores. -/
def IsWord (cs : List Char) : Prop :=
  ∃ c ds, (c.isAlpha = true ∨ c = '_') ∧ (∀ d ∈ ds, d.isAlphanum = true ∨ d = '_') ∧ cs = c :: ds

/-- Whether a text can be a token of the kind. The keyword is no identifier. -/
def TokenKind.Pattern {α : Type} : TokenKind α → List Char → Prop
  | .ret, cs => cs = ['r', 'e', 't', 'u', 'r', 'n']
  | .ident _, cs => IsWord cs ∧ cs ≠ ['r', 'e', 't', 'u', 'r', 'n']
  | .number _, cs => IsNumber cs
  | .plus, cs => cs = ['+']
  | .minus, cs => cs = ['-']
  | .star, cs => cs = ['*']
  | .slash, cs => cs = ['/']
  | .caret, cs => cs = ['^']
  | .lparen, cs => cs = ['(']
  | .rparen, cs => cs = [')']
  | .eq, cs => cs = ['=']
  | .invalid, _ | .eof, _ => False

/-- Whether a text can be a token of any kind. -/
def IsLexeme (cs : List Char) : Prop := ∃ k : TokenKind Unit, k.Pattern cs

/-! ### Characters of tokens -/

namespace Token

/-- Whether a character can be a part of a token. -/
def IsLexical (c : Char) : Prop :=
  isWordPart c = true ∨ c ∈ ['.', '+', '-', '*', '/', '^', '(', ')', '=']

theorem isLexical_of_isAlphanum {c : Char} (h : c.isAlphanum = true ∨ c = '_') : IsLexical c := by
  refine .inl ?_
  simpa [isWordPart] using h

theorem IsLexical.not_isSeparator {c : Char} (h : IsLexical c) : isSeparator c = false := by
  rcases h with h | h
  · exact not_isSeparator_of_isWordPart h
  · simp only [List.mem_cons, List.not_mem_nil, or_false] at h
    rcases h with rfl | rfl | rfl | rfl | rfl | rfl | rfl | rfl | rfl <;> rfl

theorem IsLexical.toNat_lt {c : Char} (h : IsLexical c) : c.toNat < 128 := by
  rcases h with h | h
  · simp [isWordPart, Char.isAlphanum, Char.isAlpha, Char.isUpper, Char.isLower, Char.isDigit,
      UInt32.le_iff_toNat_le] at h
    rcases h with h | rfl
    · omega
    · decide
  · simp only [List.mem_cons, List.not_mem_nil, or_false] at h
    rcases h with rfl | rfl | rfl | rfl | rfl | rfl | rfl | rfl | rfl <;> decide

theorem IsLexical.not_isBlank {c : Char} (h : IsLexical c) : Text.isBlank c = false := by
  rcases h with h | h
  · simp [isWordPart, Char.isAlphanum, Char.isAlpha, Char.isUpper, Char.isLower, Char.isDigit,
      UInt32.le_iff_toNat_le] at h
    have hrange : 48 ≤ c.toNat ∧ c.toNat ≤ 122 := by
      rcases h with h | rfl
      · omega
      · decide
    simp [Text.isBlank, Text.blankRanges]
    omega
  · simp only [List.mem_cons, List.not_mem_nil, or_false] at h
    rcases h with rfl | rfl | rfl | rfl | rfl | rfl | rfl | rfl | rfl <;> rfl

end Token

open Token

theorem Digits.lexical {ds : List Char} (h : Digits ds) : ∀ c ∈ ds, IsLexical c :=
  fun c hc => .inl (isWordPart_of_isDigit (h.2 c hc))

theorem IsFraction.lexical {cs : List Char} (h : IsFraction cs) : ∀ c ∈ cs, IsLexical c := by
  obtain ⟨ds, hds, rfl⟩ := h
  exact List.forall_mem_cons.2 ⟨.inr (by simp), hds.lexical⟩

theorem IsExponent.lexical {cs : List Char} (h : IsExponent cs) : ∀ c ∈ cs, IsLexical c := by
  obtain ⟨mark, sign, ds, hmark, hsign, hds, rfl⟩ := h
  refine List.forall_mem_cons.2 ⟨?_, List.forall_mem_append.2 ⟨?_, hds.lexical⟩⟩
  · rcases hmark with rfl | rfl <;> exact .inl rfl
  · rcases hsign with rfl | rfl | rfl <;> simp [IsLexical]

theorem IsNumber.lexical {cs : List Char} (h : IsNumber cs) : ∀ c ∈ cs, IsLexical c := by
  obtain ⟨whole, fraction, exponent, hwhole, hfraction, hexponent, rfl⟩ := h
  refine List.forall_mem_append.2 ⟨hwhole.lexical, List.forall_mem_append.2 ⟨?_, ?_⟩⟩
  · rcases hfraction with rfl | hfraction
    · exact nofun
    · exact hfraction.lexical
  · rcases hexponent with rfl | hexponent
    · exact nofun
    · exact hexponent.lexical

theorem IsWord.lexical {cs : List Char} (h : IsWord cs) : ∀ c ∈ cs, IsLexical c := by
  obtain ⟨c, ds, hc, hds, rfl⟩ := h
  refine List.forall_mem_cons.2 ⟨isLexical_of_isAlphanum (hc.imp_left fun hc => ?_),
    fun d hd => isLexical_of_isAlphanum (hds d hd)⟩
  rw [Char.isAlphanum, hc, Bool.true_or]

/-- A token is written with such characters only. -/
theorem TokenKind.Pattern.lexical {α : Type} {k : TokenKind α} {cs : List Char} (h : k.Pattern cs) :
    ∀ c ∈ cs, IsLexical c := by
  cases k with
  | ident => exact h.1.lexical
  | number => exact IsNumber.lexical h
  | invalid | eof => cases h
  | ret =>
    obtain rfl := h
    simp [IsLexical, isWordPart, Char.isAlphanum, Char.isAlpha, Char.isLower]
  | plus | minus | star | slash | caret | lparen | rparen | eq =>
    obtain rfl := h
    simp [IsLexical]

namespace Token

/-! ### Runs of characters -/

variable {p : Char → Bool} {c : Char} {cs ds rest : List Char}

theorem splitWhile_append_of_all (h : ∀ c ∈ cs, p c = true) (rest : List Char) :
    splitWhile p (cs ++ rest) = (cs ++ (splitWhile p rest).1, (splitWhile p rest).2) := by
  rw [splitWhile, List.takeWhile_append_of_pos h, List.dropWhile_append_of_pos h]
  rfl

theorem all_splitWhile (p : Char → Bool) (cs : List Char) :
    ∀ c ∈ (splitWhile p cs).1, p c = true :=
  List.all_eq_true.1 List.all_takeWhile

/-- Digits in front of other characters are a run of digits that is not empty. -/
theorem splitWhile_digits (h : Digits ds) (rest : List Char) :
    ∃ d more, splitWhile Char.isDigit (ds ++ rest)
      = (d :: more, (splitWhile Char.isDigit rest).2) ∧
        d :: more = ds ++ (splitWhile Char.isDigit rest).1 := by
  obtain ⟨d, ds, rfl⟩ := List.exists_cons_of_ne_nil h.1
  exact ⟨d, ds ++ (splitWhile Char.isDigit rest).1, splitWhile_append_of_all h.2 rest, rfl⟩

/-! ### What is taken matches -/

theorem fraction_takeFraction (cs : List Char) :
    (takeFraction cs).1 = [] ∨ IsFraction (takeFraction cs).1 := by
  unfold takeFraction
  split
  · rename_i cs
    have hdigits := all_splitWhile Char.isDigit cs
    split
    · exact .inl rfl
    · rename_i ds rest hne heq
      rw [heq] at hdigits
      exact .inr ⟨ds, ⟨hne, hdigits⟩, rfl⟩
  · exact .inl rfl

theorem sign_takeSign (cs : List Char) :
    (takeSign cs).1 = [] ∨ (takeSign cs).1 = ['+'] ∨ (takeSign cs).1 = ['-'] := by
  unfold takeSign
  split
  · exact .inr (.inl rfl)
  · exact .inr (.inr rfl)
  · exact .inl rfl

theorem exponent_takeExponent (cs : List Char) :
    (takeExponent cs).1 = [] ∨ IsExponent (takeExponent cs).1 := by
  unfold takeExponent
  split
  · exact .inl rfl
  · rename_i c cs
    have hdigits := all_splitWhile Char.isDigit (takeSign cs).2
    split
    · rename_i hmark
      have hmark : c = 'e' ∨ c = 'E' := by simpa using hmark
      split
      · exact .inl rfl
      · rename_i ds rest hne heq
        rw [heq] at hdigits
        exact .inr ⟨c, (takeSign cs).1, ds, hmark, sign_takeSign cs, ⟨hne, hdigits⟩, rfl⟩
    · exact .inl rfl

/-- A digit and what continues a number behind it are a number. -/
theorem isNumber_takeNumber (hc : c.isDigit = true) (cs : List Char) :
    IsNumber (c :: (takeNumber cs).1) := by
  let whole := splitWhile Char.isDigit cs
  let fraction := takeFraction whole.2
  have hwhole : Digits (c :: whole.1) :=
    ⟨List.cons_ne_nil c _, List.forall_mem_cons.2 ⟨hc, all_splitWhile Char.isDigit cs⟩⟩
  refine ⟨c :: whole.1, fraction.1, (takeExponent fraction.2).1, hwhole,
    fraction_takeFraction whole.2, exponent_takeExponent fraction.2, ?_⟩
  rw [List.cons_append, ← List.append_assoc]
  rfl

/-! ### Nothing longer matches -/

theorem takeSign_of_digits (hds : Digits ds) (rest : List Char) :
    takeSign (ds ++ rest) = ([], ds ++ rest) := by
  obtain ⟨d, ds, rfl⟩ := List.exists_cons_of_ne_nil hds.1
  have hd := hds.2 d List.mem_cons_self
  unfold takeSign
  split
  · rename_i heq
    rw [(List.cons.inj heq).1] at hd
    exact absurd hd (by decide)
  · rename_i heq
    rw [(List.cons.inj heq).1] at hd
    exact absurd hd (by decide)
  · rfl

/-- A complete fraction is taken with all digits behind it. -/
theorem takeFraction_append_of_isFraction {fraction : List Char} (h : IsFraction fraction)
    (rest : List Char) :
    takeFraction (fraction ++ rest)
      = (fraction ++ (splitWhile Char.isDigit rest).1, (splitWhile Char.isDigit rest).2) := by
  obtain ⟨ds, hds, rfl⟩ := h
  obtain ⟨d, more, hsplit, hmore⟩ := splitWhile_digits hds rest
  rw [List.cons_append, takeFraction, hsplit, List.cons_append, ← hmore]

/-- A complete exponent is taken with all digits behind it. -/
theorem takeExponent_append_of_isExponent {exponent : List Char} (h : IsExponent exponent)
    (rest : List Char) :
    takeExponent (exponent ++ rest)
      = (exponent ++ (splitWhile Char.isDigit rest).1, (splitWhile Char.isDigit rest).2) := by
  obtain ⟨mark, sign, ds, hmark, hsign, hds, rfl⟩ := h
  obtain ⟨d, more, hsplit, hmore⟩ := splitWhile_digits hds rest
  have hsign' : takeSign (sign ++ (ds ++ rest)) = (sign, ds ++ rest) := by
    rcases hsign with rfl | rfl | rfl
    · exact takeSign_of_digits hds rest
    · rfl
    · rfl
  have hmark' : (mark == 'e' || mark == 'E') = true := by
    rcases hmark with rfl | rfl <;> rfl
  rw [List.cons_append, List.append_assoc, takeExponent, if_pos hmark', hsign', hsplit,
    List.cons_append, List.append_assoc, ← hmore]
  rfl

/-- Fractions and exponents start with no digit. -/
theorem splitWhile_of_part {part : List Char} (h : IsFraction part ∨ IsExponent part)
    (rest : List Char) : splitWhile Char.isDigit (part ++ rest) = ([], part ++ rest) := by
  rcases h with ⟨ds, -, rfl⟩ | ⟨mark, sign, ds, rfl | rfl, -, -, rfl⟩ <;> rfl

/-- Exponents are no fractions. -/
theorem takeFraction_of_isExponent {exponent : List Char} (h : IsExponent exponent)
    (rest : List Char) : takeFraction (exponent ++ rest) = ([], exponent ++ rest) := by
  obtain ⟨mark, sign, ds, rfl | rfl, -, -, rfl⟩ := h <;> rfl

/-- The fraction and the exponent of a number are taken whole. -/
theorem prefix_takeParts {fraction exponent : List Char}
    (hfraction : fraction = [] ∨ IsFraction fraction)
    (hexponent : exponent = [] ∨ IsExponent exponent) (rest : List Char) :
    fraction ++ exponent <+: (takeFraction (fraction ++ (exponent ++ rest))).1
      ++ (takeExponent (takeFraction (fraction ++ (exponent ++ rest))).2).1 := by
  rcases hfraction with rfl | hfraction
  · rcases hexponent with rfl | hexponent
    · exact List.nil_prefix
    · rw [List.nil_append, List.nil_append, takeFraction_of_isExponent hexponent,
        takeExponent_append_of_isExponent hexponent, List.nil_append]
      exact List.prefix_append _ _
  · rw [takeFraction_append_of_isFraction hfraction]
    rcases hexponent with rfl | hexponent
    · rw [List.append_nil, List.append_assoc]
      exact List.prefix_append _ _
    · rw [splitWhile_of_part (.inr hexponent), List.append_nil,
        takeExponent_append_of_isExponent hexponent, ← List.append_assoc]
      exact List.prefix_append _ _

/-- What continues a number behind its first digit is taken whole. -/
theorem prefix_takeNumber {number : List Char} (h : IsNumber (c :: number)) (rest : List Char) :
    number <+: (takeNumber (number ++ rest)).1 := by
  obtain ⟨whole, fraction, exponent, hwhole, hfraction, hexponent, heq⟩ := h
  obtain ⟨d, ds, rfl⟩ := List.exists_cons_of_ne_nil hwhole.1
  obtain rfl : number = ds ++ (fraction ++ exponent) := (List.cons.inj heq).2
  have hds : ∀ d ∈ ds, d.isDigit = true := (List.forall_mem_cons.1 hwhole.2).2
  have hparts := prefix_takeParts hfraction hexponent rest
  rw [List.append_assoc, takeNumber, splitWhile_append_of_all hds]
  simp only [List.append_assoc]
  rw [List.prefix_append_right_inj]
  by_cases hnone : fraction ++ exponent = []
  · rw [hnone]
    exact List.nil_prefix
  · have hend : splitWhile Char.isDigit (fraction ++ (exponent ++ rest))
        = ([], fraction ++ (exponent ++ rest)) := by
      rcases hfraction with rfl | hfraction
      · exact splitWhile_of_part (.inr (hexponent.resolve_left hnone)) rest
      · exact splitWhile_of_part (.inl hfraction) _
    rw [hend, List.nil_append]
    exact hparts

/-! ### Words and symbols -/

/-- The rest of a word is taken whole. -/
theorem prefix_takeWord {word : List Char} (h : IsWord (c :: word)) (rest : List Char) :
    word <+: (splitWhile isWordPart (word ++ rest)).1 := by
  obtain ⟨d, ds, -, hds, heq⟩ := h
  obtain ⟨rfl, rfl⟩ := List.cons.inj heq
  have hpart : ∀ d ∈ word, isWordPart d = true := by
    intro d hd
    simpa [isWordPart] using hds d hd
  rw [splitWhile_append_of_all hpart]
  exact List.prefix_append _ _

/-- A character that is a token by itself is neither a digit nor a part of words, and does not
separate tokens. -/
theorem of_symbolKind (h : symbolKind c ≠ .invalid) :
    (symbolKind c).Pattern [c] ∧ c.isDigit = false ∧ isWordStart c = false ∧
      isSeparator c = false := by
  unfold symbolKind at h ⊢
  split at h <;> first | exact ⟨rfl, rfl, rfl, rfl⟩ | exact absurd rfl h

theorem isDigit_of_isNumber (h : IsNumber (c :: cs)) : c.isDigit = true := by
  obtain ⟨whole, fraction, exponent, hwhole, -, -, heq⟩ := h
  obtain ⟨d, ds, rfl⟩ := List.exists_cons_of_ne_nil hwhole.1
  obtain ⟨rfl, -⟩ := List.cons.inj heq
  exact hwhole.2 c List.mem_cons_self

theorem isWordStart_of_isWord (h : IsWord (c :: cs)) : isWordStart c = true := by
  obtain ⟨d, ds, hd, -, heq⟩ := h
  obtain ⟨rfl, -⟩ := List.cons.inj heq
  simpa [isWordStart] using hd

theorem not_isSeparator_of_isDigit (h : c.isDigit = true) : isSeparator c = false :=
  not_isSeparator_of_isWordPart (isWordPart_of_isDigit h)

end Token

namespace IsLexeme

variable {c : Char} {cs : List Char}

theorem ne_nil (h : IsLexeme cs) : cs ≠ [] := by
  obtain ⟨k, hk⟩ := h
  rintro rfl
  cases k with
  | number _ =>
    obtain ⟨whole, _, _, hwhole, -, -, heq⟩ := hk
    exact hwhole.1 (List.append_eq_nil_iff.1 heq.symm).1
  | ident _ =>
    obtain ⟨⟨c, ds, -, -, heq⟩, -⟩ := hk
    cases heq
  | _ => cases hk

/-- The first character of a lexeme tells which of three forms it has. -/
theorem cases (h : IsLexeme (c :: cs)) :
    c.isDigit = true ∧ IsNumber (c :: cs) ∨ isWordStart c = true ∧ IsWord (c :: cs) ∨
      symbolKind c ≠ .invalid ∧ cs = [] := by
  obtain ⟨k, hk⟩ := h
  cases k with
  | number _ => exact .inl ⟨isDigit_of_isNumber hk, hk⟩
  | ident _ => exact .inr (.inl ⟨isWordStart_of_isWord hk.1, hk.1⟩)
  | ret =>
    obtain ⟨rfl, rfl⟩ := List.cons.inj hk
    have hletters : ∀ d ∈ ['e', 't', 'u', 'r', 'n'], d.isAlphanum = true := List.all_eq_true.1 rfl
    exact .inr (.inl ⟨rfl, 'r', _, .inl rfl, fun d hd => .inl (hletters d hd), rfl⟩)
  | invalid | eof => cases hk
  | plus | minus | star | slash | caret | lparen | rparen | eq =>
    obtain ⟨rfl, rfl⟩ := List.cons.inj hk
    exact .inr (.inr ⟨by simp [symbolKind], rfl⟩)

/-- Separators start no lexeme. -/
theorem not_isSeparator (h : IsLexeme (c :: cs)) : isSeparator c = false := by
  rcases h.cases with ⟨hc, -⟩ | ⟨hc, -⟩ | ⟨hc, -⟩
  · exact not_isSeparator_of_isDigit hc
  · exact not_isSeparator_of_isWordPart (isWordPart_of_isWordStart hc)
  · exact (of_symbolKind hc).2.2.2

end IsLexeme

/-! ### What the scanner takes -/

namespace Token

variable {c : Char} {cs : List Char}

theorem wordKind_ne_invalid (word : String) : wordKind word ≠ .invalid := by
  rw [wordKind]
  split <;> simp

theorem payload_wordKind (word : String) : ∀ s ∈ (wordKind word).payload?, s = word := by
  rw [wordKind]
  split <;> simp [TokenKind.payload?]

theorem payload_symbolKind (c : Char) : (symbolKind c).payload? = none := by
  unfold symbolKind
  split <;> rfl

theorem pattern_wordKind (h : IsWord cs) : (wordKind (String.ofList cs)).Pattern cs := by
  rw [wordKind]
  split
  · rename_i hword
    rw [← String.toList_ofList (l := cs), hword]
    rfl
  · rename_i hword
    exact ⟨h, fun hkeyword => hword (by rw [hkeyword])⟩

/-- The scanner finds no token, or takes a text that matches the pattern of the token. -/
theorem pattern_munch (c : Char) (cs : List Char) :
    (munch c cs).1 = .invalid ∧ (munch c cs).2.1 = [] ∨
      (munch c cs).1.Pattern (c :: (munch c cs).2.1) := by
  unfold munch
  split
  · rename_i hc
    exact .inr (isNumber_takeNumber hc cs)
  · split
    · rename_i hc
      have hword : IsWord (c :: (splitWhile isWordPart cs).1) := by
        refine ⟨c, _, by simpa [isWordStart] using hc, ?_, rfl⟩
        intro d hd
        simpa [isWordPart] using all_splitWhile isWordPart cs d hd
      exact .inr (pattern_wordKind hword)
    · by_cases hsymbol : symbolKind c = .invalid
      · exact .inl ⟨hsymbol, rfl⟩
      · exact .inr (of_symbolKind hsymbol).1

/-- A number or an identifier carries the text that was taken. -/
theorem payload_munch (c : Char) (cs : List Char) :
    ∀ s ∈ (munch c cs).1.payload?, s = String.ofList (c :: (munch c cs).2.1) := by
  unfold munch
  split
  · exact fun s hs => (Option.some.inj hs).symm
  · split
    · exact payload_wordKind _
    · simp [payload_symbolKind]

/-- No lexeme at the place of a token is longer than what the scanner takes, and there is none where
it finds no token. -/
theorem prefix_munch {lexeme : List Char} (h : IsLexeme lexeme) (hfront : lexeme <+: c :: cs) :
    (munch c cs).1 ≠ .invalid ∧ lexeme <+: c :: (munch c cs).2.1 := by
  obtain ⟨d, ds, rfl⟩ := List.exists_cons_of_ne_nil h.ne_nil
  obtain ⟨rest, heq⟩ := hfront
  obtain ⟨rfl, rfl⟩ := List.cons.inj heq
  rw [List.prefix_cons_inj]
  rcases h.cases with ⟨hd, hnumber⟩ | ⟨hd, hword⟩ | ⟨hd, rfl⟩
  · rw [munch, if_pos hd]
    exact ⟨by simp, prefix_takeNumber hnumber rest⟩
  · rw [munch, if_neg (not_isDigit_of_isWordStart hd), if_pos hd]
    exact ⟨wordKind_ne_invalid _, prefix_takeWord hword rest⟩
  · obtain ⟨-, hdigit, hstart, -⟩ := of_symbolKind hd
    rw [munch, hdigit, hstart]
    exact ⟨hd, List.nil_prefix⟩

/-! ### Scanning back -/

/-- A number in front of what ends it is taken whole, and nothing else is. -/
theorem takeNumber_append_of_isNumber {number rest : List Char} (h : IsNumber (c :: number))
    (hrest : Ends rest) : takeNumber (number ++ rest) = (number, rest) := by
  obtain ⟨whole, fraction, exponent, hwhole, hfraction, hexponent, heq⟩ := h
  obtain ⟨d, ds, rfl⟩ := List.exists_cons_of_ne_nil hwhole.1
  obtain rfl : number = ds ++ (fraction ++ exponent) := (List.cons.inj heq).2
  have hds : ∀ d ∈ ds, d.isDigit = true := (List.forall_mem_cons.1 hwhole.2).2
  have hexponent' : takeExponent (exponent ++ rest) = (exponent, rest) ∧
      takeFraction (exponent ++ rest) = ([], exponent ++ rest) ∧
      splitWhile Char.isDigit (exponent ++ rest) = ([], exponent ++ rest) := by
    rcases hexponent with rfl | hexponent
    · exact ⟨takeExponent_of_ends hrest, takeFraction_of_ends hrest,
        splitWhile_digits_of_ends hrest⟩
    · refine ⟨?_, takeFraction_of_isExponent hexponent rest,
        splitWhile_of_part (.inr hexponent) rest⟩
      rw [takeExponent_append_of_isExponent hexponent, splitWhile_digits_of_ends hrest,
        List.append_nil]
  obtain ⟨hexponent, hnone, hend⟩ := hexponent'
  have hfraction' : takeFraction (fraction ++ (exponent ++ rest)) = (fraction, exponent ++ rest) ∧
      splitWhile Char.isDigit (fraction ++ (exponent ++ rest))
        = ([], fraction ++ (exponent ++ rest)) := by
    rcases hfraction with rfl | hfraction
    · exact ⟨hnone, hend⟩
    · refine ⟨?_, splitWhile_of_part (.inl hfraction) _⟩
      rw [takeFraction_append_of_isFraction hfraction, hend, List.append_nil]
  rw [List.append_assoc, List.append_assoc, takeNumber, splitWhile_append_of_all hds,
    hfraction'.2, hfraction'.1, hexponent, List.append_nil, List.append_assoc]

/-- Identifiers are the words other than the keyword. -/
theorem isIdentifier_iff_pattern {α : Type} {a : α} {s : String} :
    Options.isIdentifier s = true ↔ (TokenKind.ident a).Pattern s.toList := by
  constructor
  · intro h
    obtain ⟨c, cs, hs, hc, hcs, hkeyword⟩ := isWordStart_of_isIdentifier h
    refine ⟨⟨c, cs, by simpa [isWordStart] using hc, fun d hd => ?_, hs⟩, fun hret => hkeyword ?_⟩
    · simpa [isWordPart] using hcs d hd
    · exact String.toList_inj.1 hret
  · rintro ⟨⟨c, cs, hc, hcs, hs⟩, hkeyword⟩
    have hne : s ≠ "return" := by
      rintro rfl
      exact hkeyword rfl
    have hstart : isWordStart c = true := by simpa [isWordStart] using hc
    have hparts : cs.all isWordPart = true := by simpa [isWordPart] using hcs
    rw [Options.isIdentifier, hs]
    simp only [hstart, hparts, bne_iff_ne.2 hne, Bool.and_self]

/-- A token that is written as its pattern asks is scanned back. -/
theorem scansBack_of_pattern {k : TokenKind String} (h : k.Pattern k.spelling) : ScansBack k := by
  cases k with
  | number s =>
    change IsNumber s.toList at h
    obtain ⟨c, ds, hs⟩ := List.exists_cons_of_ne_nil (IsLexeme.ne_nil ⟨.number (), h⟩)
    rw [hs] at h
    have hc := isDigit_of_isNumber h
    refine ⟨c, ds, hs, not_isSeparator_of_isDigit hc, fun rest hrest => ?_, fun h => by cases h⟩
    rw [munch, if_pos hc, takeNumber_append_of_isNumber h (hrest rfl)]
    show (TokenKind.number (String.ofList (c :: ds)), ds, rest) = _
    rw [← hs, String.ofList_toList]
  | ident s =>
    have hident : Options.isIdentifier s = true := isIdentifier_iff_pattern.2 h
    obtain ⟨c, ds, hs, hc, hds, hkeyword⟩ := isWordStart_of_isIdentifier hident
    refine ⟨c, ds, hs, ?_, fun rest hrest => ?_, fun h => by cases h⟩
    · exact not_isSeparator_of_isWordPart (isWordPart_of_isWordStart hc)
    · rw [munch_word hc hds (hrest rfl), ← hs, String.ofList_toList, wordKind, if_neg hkeyword]
  | ret =>
    refine ⟨'r', ['e', 't', 'u', 'r', 'n'], rfl, by decide, fun rest hrest => ?_,
      fun h => by cases h⟩
    rw [munch_word (by decide) (List.all_eq_true.1 rfl) (hrest rfl)]
    rfl
  | invalid | eof => cases h
  | plus | minus | star | slash | caret | lparen | rparen | eq =>
    exact ⟨_, [], rfl, rfl, fun _ _ => rfl, fun _ => by decide⟩

/-- Plain digits, identifiers and symbols are written as their patterns ask. -/
theorem scansBack_of_spelled {k : TokenKind String} (h : k.Spelled) : ScansBack k := by
  refine scansBack_of_pattern ?_
  cases k with
  | number s => exact ⟨s.toList, [], [], h, .inl rfl, .inl rfl, (List.append_nil _).symm⟩
  | ident s => exact isIdentifier_iff_pattern.1 h
  | invalid | eof => cases h
  | ret | plus | minus | star | slash | caret | lparen | rparen | eq => rfl

end Token

end Reckoner
