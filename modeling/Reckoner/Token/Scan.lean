import Reckoner.NameTable
import Reckoner.Token

/-!
Scanning a line into tokens. At each place the longest text that spells a token is taken; a
character at which none starts is an invalid token of its own; spaces, tabs, line ends and form
feeds separate tokens and belong to none. An end-of-line token closes the list. -/

namespace Reckoner.Token

/-- Whether a character only separates tokens. -/
def isSeparator (c : Char) : Bool :=
  c == ' ' || c == '\t' || c == '\r' || c == '\n' || c == '\x0c'

/-- Whether an identifier can start with the character. -/
def isWordStart (c : Char) : Bool := c.isAlpha || c == '_'

/-- Whether an identifier can go on with the character. -/
def isWordPart (c : Char) : Bool := c.isAlphanum || c == '_'

/-- Number of bytes that characters take. -/
def byteLength (cs : List Char) : Nat := cs.foldr (fun c n => c.utf8Size + n) 0

/-- Splits off the longest run of characters with a property. -/
def splitWhile (p : Char → Bool) (cs : List Char) : List Char × List Char :=
  (cs.takeWhile p, cs.dropWhile p)

/-! ### Numbers -/

/-- Splits off a point and the digits behind it, if there are any. -/
def takeFraction : List Char → List Char × List Char
  | '.' :: cs =>
    match splitWhile Char.isDigit cs with
    | ([], _) => ([], '.' :: cs)
    | (ds, rest) => ('.' :: ds, rest)
  | cs => ([], cs)

/-- Splits off one plus or minus sign, if there is one. -/
def takeSign : List Char → List Char × List Char
  | '+' :: cs => (['+'], cs)
  | '-' :: cs => (['-'], cs)
  | cs => ([], cs)

/-- Splits off an exponent mark, its sign and its digits, if there are digits. -/
def takeExponent : List Char → List Char × List Char
  | [] => ([], [])
  | c :: cs =>
    if c == 'e' || c == 'E' then
      match splitWhile Char.isDigit (takeSign cs).2 with
      | ([], _) => ([], c :: cs)
      | (ds, rest) => (c :: (takeSign cs).1 ++ ds, rest)
    else ([], c :: cs)

/-- Splits off what continues a number behind its first digit. -/
def takeNumber (cs : List Char) : List Char × List Char :=
  let whole := splitWhile Char.isDigit cs
  let fraction := takeFraction whole.2
  let exponent := takeExponent fraction.2
  (whole.1 ++ fraction.1 ++ exponent.1, exponent.2)

/-! ### Tokens -/

/-- The token that a single character spells. -/
def symbolKind (c : Char) : TokenKind String :=
  match c with
  | '+' => .plus
  | '-' => .minus
  | '*' => .star
  | '/' => .slash
  | '^' => .caret
  | '(' => .lparen
  | ')' => .rparen
  | '=' => .eq
  | _ => .invalid

/-- The token that a whole word spells: the keyword, or an identifier. -/
def wordKind (word : String) : TokenKind String := if word = "return" then .ret else .ident word

/-- The kind of the token that starts with `c`, the characters it takes of `cs`, and the others. -/
def munch (c : Char) (cs : List Char) : TokenKind String × List Char × List Char :=
  if c.isDigit then
    let taken := takeNumber cs
    (.number (String.ofList (c :: taken.1)), taken)
  else if isWordStart c then
    let taken := splitWhile isWordPart cs
    (wordKind (String.ofList (c :: taken.1)), taken)
  else (symbolKind c, [], cs)

/-! ### Nothing is lost -/

theorem splitWhile_append (p : Char → Bool) (cs : List Char) :
    (splitWhile p cs).1 ++ (splitWhile p cs).2 = cs :=
  List.takeWhile_append_dropWhile

theorem takeFraction_append (cs : List Char) : (takeFraction cs).1 ++ (takeFraction cs).2 = cs := by
  unfold takeFraction
  split
  · rename_i cs
    have h := splitWhile_append Char.isDigit cs
    split <;> simp_all
  · rfl

theorem takeSign_append (cs : List Char) : (takeSign cs).1 ++ (takeSign cs).2 = cs := by
  unfold takeSign
  split <;> rfl

theorem takeExponent_append (cs : List Char) : (takeExponent cs).1 ++ (takeExponent cs).2 = cs := by
  unfold takeExponent
  split
  · rfl
  · rename_i c cs
    have h := splitWhile_append Char.isDigit (takeSign cs).2
    have h' := takeSign_append cs
    split
    · split <;> simp_all
    · rfl

theorem takeNumber_append (cs : List Char) : (takeNumber cs).1 ++ (takeNumber cs).2 = cs := by
  simp only [takeNumber, List.append_assoc, takeExponent_append, takeFraction_append,
    splitWhile_append]

/-- A token takes characters from the front and leaves the others. -/
theorem munch_append (c : Char) (cs : List Char) : (munch c cs).2.1 ++ (munch c cs).2.2 = cs := by
  unfold munch
  split
  · exact takeNumber_append cs
  · split
    · exact splitWhile_append isWordPart cs
    · rfl

theorem length_munch_le (c : Char) (cs : List Char) : (munch c cs).2.2.length ≤ cs.length := by
  have h := congrArg List.length (munch_append c cs)
  simp only [List.length_append] at h
  omega

/-! ### The scan -/

/-- The tokens of `cs`, whose first character stands at byte `offset` of the line. -/
def scanFrom (offset : Nat) : List Char → List (Token String)
  | [] => []
  | c :: cs =>
    if isSeparator c then scanFrom (offset + c.utf8Size) cs
    else
      let taken := munch c cs
      let stop := offset + byteLength (c :: taken.2.1)
      ⟨taken.1, ⟨offset, stop⟩⟩ :: scanFrom stop taken.2.2
termination_by cs => cs.length
decreasing_by
  · simp
  · exact Nat.lt_succ_of_le (length_munch_le c cs)

/-- The tokens of a line without the end-of-line token. -/
def scan (line : String) : List (Token String) := scanFrom 0 line.toList

/-- The end-of-line token of a line. -/
def endOf {α : Type} (line : String) : Token α := ⟨.eof, .point line.utf8ByteSize⟩

/-- Names for all texts of the tokens of a line, and its tokens with these names. -/
def scanWith (names : NameTable) (line : String) : List (Token Name) × NameTable :=
  let tokens := scan line
  let names := names.internAll (tokens.filterMap fun t => t.kind.payload?)
  (tokens.map (Token.map names.nameOf), names)

/-- The tokens of a line, the end-of-line token included, and the table with their names. -/
def lex (names : NameTable) (line : String) : List (Token Name) × NameTable :=
  let (tokens, names) := scanWith names line
  (tokens ++ [endOf line], names)

end Reckoner.Token
