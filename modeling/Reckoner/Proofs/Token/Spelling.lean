import Mathlib
import Reckoner.Options
import Reckoner.Token.Scan

/-!
Writing tokens and scanning them back. A line may put any separators in front of, between and behind
its tokens, and needs none unless two words or numbers stand side by side; scanning the line gives
the tokens that were written. -/

namespace Reckoner

namespace TokenKind

/-- The characters that a token is written with. -/
def spelling (k : TokenKind String) : List Char := (k.payload?.getD k.describe).toList

/-- Whether the token would run into letters or digits behind it. -/
def isWord : TokenKind String → Bool
  | .ret | .ident _ | .number _ => true
  | _ => false

/-- A token that can be written: numbers are plain digits here. -/
def Spelled : TokenKind String → Prop
  | .number s => s.toList ≠ [] ∧ ∀ c ∈ s.toList, c.isDigit = true
  | .ident s => Options.isIdentifier s = true
  | .invalid | .eof => False
  | _ => True

end TokenKind

/-- Separators, none if the list is empty. -/
structure Blank where
  chars : List Char
  separators : ∀ c ∈ chars, Token.isSeparator c = true

theorem Blank.separators_nil : ∀ c ∈ ([] : List Char), Token.isSeparator c = true :=
  List.forall_mem_nil _

/-- No separators. -/
def Blank.none : Blank := ⟨[], separators_nil⟩

/-- A single space. -/
def Blank.space : Blank := ⟨[' '], List.all_eq_true.1 rfl⟩

namespace Token

/-- Tokens written one after the other, `gap j` in front of the `j`-th one; the first is the
`i`-th. -/
def spread (gap : Nat → Blank) (i : Nat) : List (TokenKind String) → List Char
  | [] => (gap i).chars
  | k :: ks => (gap i).chars ++ (k.spelling ++ spread gap (i + 1) ks)

/-- Words and numbers next to each other have a separator between them. -/
def Apart (gap : Nat → Blank) (i : Nat) : List (TokenKind String) → Prop
  | [] => True
  | k :: ks => (k.isWord = true → ∀ k' ∈ ks.head?, k'.isWord = true → (gap (i + 1)).chars ≠ []) ∧
      Apart gap (i + 1) ks

/-- What can stand right behind a word or a number without becoming a part of it. -/
def Ends (rest : List Char) : Prop := ∀ c ∈ rest.head?, isWordPart c = false ∧ c ≠ '.'

theorem splitWhile_append_of_ends {p : Char → Bool} {cs rest : List Char}
    (hcs : ∀ c ∈ cs, p c = true) (hrest : ∀ c ∈ rest.head?, p c = false) :
    splitWhile p (cs ++ rest) = (cs, rest) := by
  rw [splitWhile, List.takeWhile_append_of_pos hcs, List.dropWhile_append_of_pos hcs]
  cases rest with
  | nil => simp
  | cons c rest =>
    have hc := hrest c rfl
    simp [hc]

theorem takeFraction_of_ends {rest : List Char} (h : Ends rest) :
    takeFraction rest = ([], rest) := by
  cases rest with
  | nil => rfl
  | cons c rest =>
    have hc := (h c rfl).2
    unfold takeFraction
    split
    · rename_i heq
      exact absurd (List.cons.inj heq).1 hc
    · rfl

theorem takeExponent_of_ends {rest : List Char} (h : Ends rest) :
    takeExponent rest = ([], rest) := by
  cases rest with
  | nil => rfl
  | cons c rest =>
    have hc := (h c rfl).1
    have he : ¬(c == 'e' || c == 'E') = true := by
      intro he
      rcases Bool.or_eq_true_iff.1 he with he | he
      · rw [eq_of_beq he] at hc
        exact absurd hc (by decide)
      · rw [eq_of_beq he] at hc
        exact absurd hc (by decide)
    rw [takeExponent, if_neg he]

theorem isWordPart_of_isDigit {c : Char} (h : c.isDigit = true) : isWordPart c = true := by
  simp [isWordPart, Char.isAlphanum, h]

theorem not_isDigit_of_isWordStart {c : Char} (h : isWordStart c = true) : ¬c.isDigit = true := by
  intro hdigit
  rcases Bool.or_eq_true_iff.1 h with halpha | hscore
  · simp only [Char.isAlpha, Char.isUpper, Char.isLower, Char.isDigit, UInt32.le_iff_toNat_le,
      ge_iff_le, Bool.or_eq_true, Bool.and_eq_true, decide_eq_true_eq, Char.reduceVal,
      UInt32.reduceToNat] at halpha hdigit
    omega
  · rw [eq_of_beq hscore] at hdigit
    exact absurd hdigit (by decide)

theorem isWordPart_of_isWordStart {c : Char} (h : isWordStart c = true) : isWordPart c = true := by
  rw [isWordStart, Bool.or_eq_true] at h
  rw [isWordPart, Char.isAlphanum, Bool.or_eq_true, Bool.or_eq_true]
  exact h.imp_left .inl

/-- Separators end words and numbers. -/
theorem ends_of_isSeparator {c : Char} (h : isSeparator c = true) :
    isWordPart c = false ∧ c ≠ '.' := by
  simp only [isSeparator, Bool.or_eq_true, beq_iff_eq] at h
  rcases h with (((rfl | rfl) | rfl) | rfl) | rfl <;> decide

theorem not_isSeparator_of_isWordPart {c : Char} (h : isWordPart c = true) :
    isSeparator c = false := by
  cases hc : isSeparator c with
  | false => rfl
  | true => rw [← h, (ends_of_isSeparator hc).1]

theorem splitWhile_digits_of_ends {rest : List Char} (h : Ends rest) :
    splitWhile Char.isDigit rest = ([], rest) := by
  refine @splitWhile_append_of_ends Char.isDigit [] rest (List.forall_mem_nil _) fun d hd => ?_
  cases hdigit : d.isDigit with
  | false => rfl
  | true => rw [← isWordPart_of_isDigit hdigit, (h d hd).1]

/-- Letters in front of what ends a word are scanned as one word. -/
theorem munch_word {c : Char} {cs rest : List Char} (hc : isWordStart c = true)
    (hcs : ∀ d ∈ cs, isWordPart d = true) (hrest : Ends rest) :
    munch c (cs ++ rest) = (wordKind (String.ofList (c :: cs)), cs, rest) := by
  have hword := splitWhile_append_of_ends hcs fun d hd => (hrest d hd).1
  rw [munch, if_neg (not_isDigit_of_isWordStart hc), if_pos hc, hword]

theorem isWordStart_of_isIdentifier {s : String} (h : Options.isIdentifier s = true) :
    ∃ c cs, s.toList = c :: cs ∧ isWordStart c = true ∧ (∀ d ∈ cs, isWordPart d = true) ∧
      s ≠ "return" := by
  rw [Options.isIdentifier] at h
  cases hs : s.toList with
  | nil => rw [hs] at h; cases h
  | cons c cs =>
    rw [hs] at h
    simp only [Bool.and_eq_true, List.all_eq_true, bne_iff_ne, ne_eq] at h
    exact ⟨c, cs, rfl, h.1.1, h.1.2, h.2⟩

/-- What the token is written with is scanned as this token, in front of all that ends it if it is a
word; a token that is none ends words. -/
def ScansBack (k : TokenKind String) : Prop :=
  ∃ c cs, k.spelling = c :: cs ∧ isSeparator c = false ∧
    (∀ rest, (k.isWord = true → Ends rest) → munch c (cs ++ rest) = (k, cs, rest)) ∧
    (k.isWord = false → isWordPart c = false ∧ c ≠ '.')

/-- A token that is no word starts with a character that ends words. -/
theorem ScansBack.ends {k : TokenKind String} (h : ScansBack k) (hword : k.isWord = false)
    (rest : List Char) : Ends (k.spelling ++ rest) := by
  obtain ⟨c, cs, hspelling, -, -, hc⟩ := h
  rw [hspelling]
  intro d hd
  obtain rfl := Option.some.inj hd
  exact hc hword

/-- Separators end a word, and without any the rest has to. -/
theorem ends_blank (b : Blank) {rest : List Char} (h : b.chars = [] → Ends rest) :
    Ends (b.chars ++ rest) := by
  rcases b with ⟨- | ⟨c, cs⟩, hseparators⟩
  · exact h rfl
  · intro d hd
    obtain rfl := Option.some.inj hd
    exact ends_of_isSeparator (hseparators c List.mem_cons_self)

/-- What is written behind a word or a number ends it. -/
theorem ends_spread {gap : Nat → Blank} {i : Nat} {ks : List (TokenKind String)}
    (hks : ∀ k ∈ ks, ScansBack k)
    (hgap : ∀ k ∈ ks.head?, k.isWord = true → (gap i).chars ≠ []) : Ends (spread gap i ks) := by
  cases ks with
  | nil =>
    rw [spread, ← List.append_nil (gap i).chars]
    exact ends_blank (gap i) fun _ => nofun
  | cons k ks =>
    refine ends_blank (gap i) fun hnone => ?_
    have hword : k.isWord = false := Bool.eq_false_iff.2 fun hword => hgap k rfl hword hnone
    exact (hks k List.mem_cons_self).ends hword _

/-- What a token is written with is scanned first, in front of all that ends it if it is a word. -/
theorem ScansBack.scanFrom_append {k : TokenKind String} (h : ScansBack k) {rest : List Char}
    (hrest : k.isWord = true → Ends rest) (offset : Nat) :
    scanFrom offset (k.spelling ++ rest)
      = ⟨k, ⟨offset, offset + byteLength k.spelling⟩⟩
        :: scanFrom (offset + byteLength k.spelling) rest := by
  obtain ⟨c, cs, hspelling, hc, hmunch, -⟩ := h
  rw [hspelling, List.cons_append, scanFrom, if_neg (Bool.eq_false_iff.1 hc)]
  simp only [hmunch rest hrest]

/-- Separators in front of a line are skipped. -/
theorem scanFrom_blank : ∀ {cs : List Char} (offset : Nat) (rest : List Char),
    (∀ c ∈ cs, isSeparator c = true) →
      scanFrom offset (cs ++ rest) = scanFrom (offset + byteLength cs) rest
  | [], _, _, _ => rfl
  | c :: cs, offset, rest, h => by
    rw [List.cons_append, scanFrom, if_pos (h c List.mem_cons_self),
      scanFrom_blank _ rest fun d hd => h d (List.mem_cons_of_mem c hd), byteLength, byteLength,
      List.foldr_cons, Nat.add_assoc]

/-- Scanning tokens that were written apart gives these tokens. -/
theorem kinds_scanFrom {gap : Nat → Blank} : ∀ {ks : List (TokenKind String)} {i : Nat}
    (offset : Nat), (∀ k ∈ ks, ScansBack k) → Apart gap i ks →
      (scanFrom offset (spread gap i ks)).map Token.kind = ks
  | [], i, offset, _, _ => by
    rw [spread, ← List.append_nil (gap i).chars, scanFrom_blank offset [] (gap i).separators,
      scanFrom]
    rfl
  | k :: ks, i, offset, hks, hapart => by
    have hrest : ∀ k ∈ ks, ScansBack k := fun k hk => hks k (List.mem_cons_of_mem _ hk)
    have hends := fun hword => @ends_spread gap (i + 1) ks hrest (hapart.1 hword)
    rw [spread, scanFrom_blank offset _ (gap i).separators,
      (hks k List.mem_cons_self).scanFrom_append hends, List.map_cons,
      kinds_scanFrom _ hrest hapart.2]

end Token

end Reckoner
