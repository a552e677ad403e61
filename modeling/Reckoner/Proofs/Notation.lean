import Reckoner.Evaluation
import Reckoner.Proofs.Value.Digits

/-!
Expressions as they are meant, and as they are written. An expression is a tree of integers,
variables and operations; writing it puts parentheses around a sum below a product and around a
right operand of the same precedence, and nowhere else. -/

namespace Reckoner

/-- A text that scans as an identifier. -/
structure Identifier where
  text : String
  spelled : Options.isIdentifier text = true

/-- Sums, differences, products and quotients of integer literals and variables. -/
inductive Expr where
  | literal (n : Integer) (h : 0 ≤ n.val)
  | ident (x : Identifier)
  | binary (op : Operator) (left right : Expr)

/-- The token that spells an operator. -/
def Operator.token {α : Type} : Operator → TokenKind α
  | .add => .plus
  | .sub => .minus
  | .mul => .star
  | .div => .slash

/-- The rule that an operator links operands by: the looser one of the two is that of sums. -/
def Operator.rule : Operator → Rule
  | .add | .sub => .expression
  | .mul | .div => .term

/-- Puts tokens into parentheses. -/
def enclose {α : Type} (needed : Bool) (ks : List (TokenKind α)) : List (TokenKind α) :=
  if needed then .lparen :: (ks ++ [.rparen]) else ks

namespace Expr

/-- The rule that an expression without parentheses around it is derived by. -/
def rule : Expr → Rule
  | .literal _ _ | .ident _ => .atom
  | .binary op _ _ => op.rule

/-- Whether an expression is a sum that is an operand of a product. -/
def isSumBelow (op : Operator) (e : Expr) : Bool := op.rule = .term && e.rule = .expression

/-- The tokens that an expression is written with. -/
def print : Expr → List (TokenKind String)
  | .literal n _ => [.number n.text]
  | .ident x => [.ident x.text]
  | .binary op left right =>
    enclose (left.isSumBelow op) left.print
      ++ op.token :: enclose (right.isSumBelow op || right.rule = op.rule) right.print

end Expr

/-! ### What is written can be scanned -/

section Scanning

open Token

variable {gap : Nat → Blank} {ks ls : List (TokenKind String)}

theorem apart_cons {k : TokenKind String} (hk : k.isWord = false) {i : Nat}
    (hls : ∀ j, Apart gap j ls) : Apart gap i (k :: ls) :=
  ⟨fun h => absurd h (by simp [hk]), hls _⟩

/-- A token that is no word keeps the words on both sides of it apart. -/
theorem apart_append {k : TokenKind String} (hk : k.isWord = false) : ∀ {ks} {i : Nat},
    Apart gap i ks → (∀ j, Apart gap j ls) → Apart gap i (ks ++ k :: ls)
  | [], _, _, hls => apart_cons hk hls
  | [k'], i, h, hls => by
    refine ⟨?_, apart_append hk h.2 hls⟩
    intro _ k'' hk'' hword
    obtain rfl := Option.some.inj hk''
    rw [hk] at hword
    cases hword
  | k' :: k'' :: ks, i, h, hls => ⟨h.1, apart_append hk h.2 hls⟩

theorem apart_enclose (needed : Bool) (h : ∀ i, Apart gap i ks) (i : Nat) :
    Apart gap i (enclose needed ks) := by
  rw [enclose]
  split
  · exact ⟨nofun, apart_append rfl (h _) fun _ => trivial⟩
  · exact h i

theorem spelled_enclose (needed : Bool) (h : ∀ k ∈ ks, k.Spelled) :
    ∀ k ∈ enclose needed ks, k.Spelled := by
  intro k hk
  rw [enclose] at hk
  split at hk
  · rcases List.mem_cons.1 hk with rfl | hk
    · trivial
    · rcases List.mem_append.1 hk with hk | hk
      · exact h k hk
      · obtain rfl := List.mem_singleton.1 hk
        trivial
  · exact h k hk

theorem isWord_token (op : Operator) : op.token.isWord = false := by
  cases op <;> rfl

/-- No two words or numbers of an expression stand side by side. -/
theorem Expr.apart_print (e : Expr) (i : Nat) : Apart gap i e.print := by
  induction e generalizing i with
  | literal | ident => exact ⟨nofun, trivial⟩
  | binary op left right ihl ihr =>
    exact apart_append (isWord_token op) (apart_enclose _ ihl i) (apart_enclose _ ihr)

/-- An integer that is not negative is written with its digits alone. -/
theorem Integer.toList_text {n : Integer} (h : 0 ≤ n.val) :
    n.text.toList = Nat.toDigits 10 n.val.toNat := by
  obtain ⟨m, hm⟩ := Int.eq_ofNat_of_zero_le h
  rw [text, hm, Int.toNat_natCast]
  exact Nat.toList_repr

/-- Every token of an expression can be written. -/
theorem Expr.spelled_print (e : Expr) : ∀ k ∈ e.print, k.Spelled := by
  induction e with
  | literal n h =>
    intro k hk
    obtain rfl := List.mem_singleton.1 hk
    rw [TokenKind.Spelled, Integer.toList_text h]
    exact ⟨Nat.toDigits_ne_nil, isDigit_of_mem_toDigits⟩
  | ident x =>
    intro k hk
    obtain rfl := List.mem_singleton.1 hk
    exact x.spelled
  | binary op left right ihl ihr =>
    intro k hk
    rcases List.mem_append.1 hk with hk | hk
    · exact spelled_enclose _ ihl k hk
    · rcases List.mem_cons.1 hk with rfl | hk
      · cases op <;> trivial
      · exact spelled_enclose _ ihr k hk

end Scanning

/-! ### What is meant -/

/-- What went wrong, wherever it did. -/
def EvalError.bare {E : Type} : EvalError E → EvalError E
  | .unresolved name _ => .unresolved name .none
  | .unsupported shape _ => .unsupported shape .none
  | .literal text _ => .literal text .none
  | .arithmetic error _ => .arithmetic error .none
  | .gap id => .gap id

/-- The text of an integer that is not negative is read as that integer. -/
theorem Integer.ofText?_text {n : Integer} (h : 0 ≤ n.val) : Integer.ofText? n.text = some n := by
  have hdenotes : Denotes n.text n.val.toNat := ⟨0, toList_text h⟩
  rw [ofText?_of_denotes hdenotes, Int.toNat_of_nonneg h, ofInt?, dif_pos ⟨n.lower, n.upper⟩]

section Evaluation

variable {V E : Type} [Value V E]

/-- An operation on two results: the left one is looked at first, then the right one. -/
def combine (op : Operator) (left right : Except (EvalError E) V) : Except (EvalError E) V :=
  match left with
  | .error e => .error e
  | .ok a =>
    match right with
    | .error e => .error e
    | .ok b => (Value.apply op a b).mapError (.arithmetic · .none)

/-- The value of an expression where `lookup` gives the variables their values. -/
def Expr.eval (lookup : String → Option V) : Expr → Except (EvalError E) V
  | .literal n _ => .ok (Value.ofInteger n)
  | .ident x =>
    match lookup x.text with
    | some v => .ok v
    | none => .error (.unresolved x.text .none)
  | .binary op left right => combine op (left.eval lookup) (right.eval lookup)

end Evaluation

end Reckoner
