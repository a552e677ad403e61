import Reckoner.Proofs.Bindings
import Reckoner.Proofs.Evaluation.Compositional

/-!
Integers of 64 bits against integers of any size. Evaluation over all integers does the operations
of a line in the same order and never leaves a range; a checked evaluation goes along with it up to
the first operation whose result does not fit in 64 bits or which divides by zero, and fails there.
So a checked value is the exact one, and a checked failure of arithmetic is the first that there
is. -/

namespace Reckoner

open Token

variable {α V W E F : Type}

/-! ### Operations -/

/-- Why an operation on integers of any size has no result. -/
inductive ExactError where
  | divisionByZero
deriving DecidableEq, Repr

/-- Integers of any size, with division rounded toward zero. -/
instance : Value Int ExactError where
  ofInteger n := n.val
  apply op a b := if op = .div ∧ b = 0 then .error .divisionByZero else .ok (Integer.exact op a b)

/-- An operation that an evaluation gets to, with the values of its operands and the part of the
line that they take up. -/
structure Operation where
  op : Operator
  left : Int
  right : Int
  span : Span
deriving DecidableEq, Repr

namespace Operation

/-- What the operation gives when no range is set. -/
def result (o : Operation) : Int := Integer.exact o.op o.left o.right

/-- Whether the operation is a division by zero. -/
def DividesByZero (o : Operation) : Prop := o.op = .div ∧ o.right = 0

/-- Whether the operation has a result, and one that fits in 64 bits. -/
def Fits (o : Operation) : Prop := ¬o.DividesByZero ∧ -2 ^ 63 ≤ o.result ∧ o.result ≤ 2 ^ 63 - 1

instance (o : Operation) : Decidable o.DividesByZero := inferInstanceAs (Decidable (_ ∧ _))

instance (o : Operation) : Decidable o.Fits := inferInstanceAs (Decidable (_ ∧ _))

/-- What the checked operation fails with. -/
def fault (o : Operation) : IntegerError :=
  if o.DividesByZero then .divisionByZero else .overflow o.op

theorem fits_iff {o : Operation} (h : ¬o.DividesByZero) :
    o.Fits ↔ -0x8000000000000000 ≤ o.result ∧ o.result < 0x8000000000000000 := by
  rw [Fits, and_iff_right h]
  omega

end Operation

namespace Integer

variable {op : Operator} {a b : Integer} {span : Span}

theorem ofInt?_eq_some {m : Int} (h : -0x8000000000000000 ≤ m ∧ m < 0x8000000000000000) :
    ofInt? m = some ⟨m, h.1, h.2⟩ :=
  dif_pos h

/-- A checked operation that fits has the exact result. -/
theorem apply_of_fits (h : (⟨op, a.val, b.val, span⟩ : Operation).Fits) :
    ∃ n, apply op a b = .ok n ∧ n.val = exact op a.val b.val := by
  have hzero : ¬(op = .div ∧ b.val = 0) := h.1
  have hrange : -0x8000000000000000 ≤ exact op a.val b.val ∧
      exact op a.val b.val < 0x8000000000000000 := (Operation.fits_iff h.1).1 h
  exact ⟨⟨exact op a.val b.val, hrange.1, hrange.2⟩,
    by rw [apply, if_neg hzero, ofInt?_eq_some hrange], rfl⟩

/-- A checked operation that does not fit fails. -/
theorem apply_of_not_fits (h : ¬(⟨op, a.val, b.val, span⟩ : Operation).Fits) :
    apply op a b = .error (⟨op, a.val, b.val, span⟩ : Operation).fault := by
  by_cases hzero : op = .div ∧ b.val = 0
  · have hfault : (⟨op, a.val, b.val, span⟩ : Operation).fault = .divisionByZero := if_pos hzero
    rw [hfault, apply, if_pos hzero]
  · have hfault : (⟨op, a.val, b.val, span⟩ : Operation).fault = .overflow op := if_neg hzero
    have hiff := Operation.fits_iff (o := ⟨op, a.val, b.val, span⟩) hzero
    have hnone : ofInt? (exact op a.val b.val) = none := dif_neg fun hrange => h (hiff.2 hrange)
    rw [hfault, apply, if_neg hzero, hnone]

end Integer

/-! ### Following an evaluation -/

/-- The same failure, with another error of the values if that is what failed. -/
def EvalError.map (f : E → F) : EvalError E → EvalError F
  | .unresolved name span => .unresolved name span
  | .unsupported shape span => .unsupported shape span
  | .literal text span => .literal text span
  | .arithmetic e span => .arithmetic (f e) span
  | .gap id => .gap id

/-- The same outcome with another value. -/
def Outcome.mapValue (f : V → W) : Outcome α V → Outcome α W
  | .assigned name v => .assigned name (f v)
  | .returned v => .returned (f v)

/-- The same scope, its values without a range. -/
def Scope.exact (scope : Scope α Integer) : Scope α Int :=
  ⟨fun a => (scope.value? a).map Integer.val, scope.text⟩

/-- What is done behind a result, if there is one to go on with. -/
def operationsBehind (exact : Except (EvalError ExactError) Int)
    (more : Int → List Operation) : List Operation :=
  match exact with
  | .error _ => []
  | .ok n => more n

namespace Derivation

variable {rule : Rule}

/-- The operations that exact evaluation gets to, in the order in which it does them: those of the
left operand, those of the right one if the left one has a value, and then the operation itself if
both have. -/
def operations (scope : Scope α Int) : {rule : Rule} → Derivation α rule → List Operation
  | _, .returned _ value => value.operations scope
  | _, .assigned target _ value =>
    match soleIdent? target.yield with
    | some _ => value.operations scope
    | none => []
  | _, .first _ d => d.operations scope
  | _, .link _ left op _ right =>
    match op.kind.operator? with
    | some o =>
      left.operations scope ++ operationsBehind (left.meaning scope) fun a =>
        right.operations scope ++ operationsBehind (right.meaning scope) fun b =>
          [⟨o, a, b, ⟨left.start, right.stop⟩⟩]
    | none => []
  | _, .unsigned atom => atom.operations scope
  | _, .parens _ inner _ => inner.operations scope
  | _, .signed .. | _, .number .. | _, .ident .. => []

end Derivation

/-- How a checked result comes from the operations done and the exact result: it is the exact result
when all operations fit, and otherwise the failure of the first that does not. -/
inductive Tracks : Except (EvalError IntegerError) Integer → List Operation →
    Except (EvalError ExactError) Int → Prop where
  | value {os : List Operation} (h : ∀ o ∈ os, o.Fits) (n : Integer) :
      Tracks (.ok n) os (.ok n.val)
  | failure {os : List Operation} (h : ∀ o ∈ os, o.Fits) (e : EvalError Empty) :
      Tracks (.error (e.map nofun)) os (.error (e.map nofun))
  | fault {before : List Operation} {o : Operation} (h : ∀ p ∈ before, p.Fits) (ho : ¬o.Fits)
      (after : List Operation) (exact : Except (EvalError ExactError) Int) :
      Tracks (.error (.arithmetic o.fault o.span)) (before ++ o :: after) exact

namespace Tracks

/-- Nothing has been done before a failure that comes at once. -/
theorem error (e : EvalError Empty) : Tracks (.error (e.map nofun)) [] (.error (e.map nofun)) :=
  .failure (List.forall_mem_nil _) e

theorem ok (n : Integer) : Tracks (.ok n) [] (.ok n.val) :=
  .value (List.forall_mem_nil _) n

/-- A single operation that fits has the exact result, and one that does not is a fault. -/
theorem apply (op : Operator) (a b : Integer) (span : Span) :
    Tracks ((Value.apply op a b).mapError (.arithmetic · span)) [⟨op, a.val, b.val, span⟩]
      ((Value.apply op a.val b.val).mapError (.arithmetic · span)) := by
  by_cases hfits : (⟨op, a.val, b.val, span⟩ : Operation).Fits
  · obtain ⟨n, hn, hval⟩ := Integer.apply_of_fits hfits
    have hchecked : Value.apply op a b = .ok n := hn
    have hexact : Value.apply op a.val b.val = .ok n.val := hval ▸ if_neg hfits.1
    rw [hchecked, hexact]
    exact .value (List.forall_mem_singleton.2 hfits) n
  · have hchecked : Value.apply op a b = .error (⟨op, a.val, b.val, span⟩ : Operation).fault :=
      Integer.apply_of_not_fits hfits
    rw [hchecked]
    exact .fault (List.forall_mem_nil _) hfits [] _

/-- Operations that fit change nothing about what is done behind them. -/
theorem behind {checked : Except (EvalError IntegerError) Integer} {os ps : List Operation}
    {exact : Except (EvalError ExactError) Int} (h : Tracks checked ps exact)
    (hos : ∀ o ∈ os, o.Fits) : Tracks checked (os ++ ps) exact := by
  cases h with
  | value hps n => exact .value (List.forall_mem_append.2 ⟨hos, hps⟩) n
  | failure hps e => exact .failure (List.forall_mem_append.2 ⟨hos, hps⟩) e
  | fault hps ho after =>
    rw [← List.append_assoc]
    exact .fault (List.forall_mem_append.2 ⟨hos, hps⟩) ho after _

/-- What is done behind a value is followed as long as everything in front of it fits. -/
theorem bind {checked : Except (EvalError IntegerError) Integer} {os : List Operation}
    {exact : Except (EvalError ExactError) Int} (h : Tracks checked os exact)
    {next : Integer → Except (EvalError IntegerError) Integer} {more : Int → List Operation}
    {nextExact : Int → Except (EvalError ExactError) Int}
    (hnext : ∀ n : Integer, Tracks (next n) (more n.val) (nextExact n.val)) :
    Tracks (checked.bind next) (os ++ operationsBehind exact more) (exact.bind nextExact) := by
  cases h with
  | failure hos e =>
    have hdone : os ++ operationsBehind (.error (e.map nofun)) more = os := List.append_nil os
    rw [hdone]
    exact .failure hos e
  | fault hos ho after =>
    rw [List.append_assoc, List.cons_append]
    exact .fault hos ho _ _
  | value hos n =>
    exact (hnext n).behind hos

end Tracks

namespace Derivation

variable {rule operand : Rule}

/-- Sums and products go from the left operand to the right one and then to the operation. -/
theorem meaning_link [Value V E] (scope : Scope α V) {h : rule.Chains operand}
    {left : Derivation α rule} {op : Token α} {hop : rule.joins op.kind = true}
    {right : Derivation α operand} {o : Operator} (ho : op.kind.operator? = some o) :
    (link h left op hop right).meaning scope
      = (left.meaning scope).bind fun a => (right.meaning scope).bind fun b =>
          (Value.apply o a b).mapError (.arithmetic · ⟨left.start, right.stop⟩) := by
  rw [meaning, ho]
  cases left.meaning scope with
  | error e => rfl
  | ok a => cases right.meaning scope <;> rfl

theorem operations_link (scope : Scope α Int) {h : rule.Chains operand}
    {left : Derivation α rule} {op : Token α} {hop : rule.joins op.kind = true}
    {right : Derivation α operand} {o : Operator} (ho : op.kind.operator? = some o) :
    (link h left op hop right).operations scope
      = left.operations scope ++ operationsBehind (left.meaning scope) fun a =>
          right.operations scope ++ operationsBehind (right.meaning scope) fun b =>
            [⟨o, a, b, ⟨left.start, right.stop⟩⟩] := by
  rw [operations, ho]

/-- Checked evaluation fails at the first operation that does not fit, and does what exact
evaluation does if there is none. -/
theorem tracks_meaning (scope : Scope α Integer) (d : Derivation α rule)
    (hrule : rule ≠ .equation) :
    Tracks (d.meaning scope) (d.operations scope.exact) (d.meaning scope.exact) := by
  induction d with
  | returned | assigned => exact absurd rfl hrule
  | first h d ih => exact ih h.operand_ne
  | @link rule operand h left op hop right ihl ihr =>
    cases ho : op.kind.operator? with
    | none =>
      rw [meaning, meaning, operations, ho]
      exact .error (.unsupported .exponentiation ⟨left.start, right.stop⟩)
    | some o =>
      rw [meaning_link scope ho, meaning_link scope.exact ho, operations_link scope.exact ho]
      exact (ihl hrule).bind fun a => (ihr h.operand_ne).bind fun b => .apply o a b _
  | signed sign hsign inner =>
    exact .error (.unsupported .signPrefix ⟨sign.span.start, inner.stop⟩)
  | number text span =>
    rw [meaning, meaning, operations]
    have htext : scope.exact.text text = scope.text text := rfl
    rw [htext]
    cases Integer.ofText? (scope.text text) with
    | none => exact .error (.literal (scope.text text) span)
    | some n => exact .ok n
  | ident name span =>
    rw [meaning, meaning, operations]
    have hvalue : scope.exact.value? name = (scope.value? name).map Integer.val := rfl
    rw [hvalue]
    cases scope.value? name with
    | none => exact .error (.unresolved (scope.text name) span)
    | some n => exact .ok n
  | unsigned atom ih => exact ih (by decide)
  | parens opening inner closing ih => exact ih (by decide)

end Derivation

/-! ### Lines -/

/-- What a checked line has to do with the same line over all integers, and with the operations
that are done there. -/
structure Checks (checked : Except (EvalError IntegerError) (Outcome α Integer))
    (os : List Operation) (exact : Except (EvalError ExactError) (Outcome α Int)) : Prop where
  /-- A checked value is the exact value, and no operation on the way to it left the range. -/
  value : ∀ outcome, checked = .ok outcome →
    exact = .ok (outcome.mapValue Integer.val) ∧ ∀ o ∈ os, o.Fits
  /-- A checked failure of arithmetic is at the first operation that divides by zero or leaves the
  range, and says which of the two it was. -/
  fault : ∀ e span, checked = .error (.arithmetic e span) →
    ∃ before o after, os = before ++ o :: after ∧ (∀ p ∈ before, p.Fits) ∧ ¬o.Fits ∧
      span = o.span ∧ (e = .divisionByZero ↔ o.DividesByZero) ∧
      (¬o.DividesByZero → e = .overflow o.op)
  /-- An exact value that was reached without leaving the range is reached by checked arithmetic. -/
  complete : ∀ outcome, exact = .ok outcome → (∀ o ∈ os, o.Fits) → ∃ o, checked = .ok o

namespace Tracks

variable {checked : Except (EvalError IntegerError) Integer} {os : List Operation}
  {exact : Except (EvalError ExactError) Int}

theorem checks (h : Tracks checked os exact) {f : Integer → Outcome α Integer}
    {g : Int → Outcome α Int} (hfg : ∀ n, g n.val = (f n).mapValue Integer.val) :
    Checks (checked.map f) os (exact.map g) := by
  cases h with
  | value hos n =>
    refine ⟨?_, ?_, fun _ _ _ => ⟨f n, rfl⟩⟩
    · intro outcome houtcome
      obtain rfl := Except.ok.inj houtcome
      exact ⟨congrArg Except.ok (hfg n), hos⟩
    · intro e span hfailure
      cases hfailure
  | failure hos e =>
    refine ⟨?_, ?_, ?_⟩
    · intro outcome houtcome
      cases houtcome
    · intro e' span hfailure
      cases e with
      | arithmetic e => cases e
      | _ => cases hfailure
    · intro outcome houtcome
      cases houtcome
  | @fault before o hos ho after =>
    refine ⟨?_, ?_, ?_⟩
    · intro outcome houtcome
      cases houtcome
    · intro e span hfailure
      obtain ⟨rfl, rfl⟩ := EvalError.arithmetic.inj (Except.error.inj hfailure)
      refine ⟨before, o, after, rfl, hos, ho, rfl, ?_, fun hzero => if_neg hzero⟩
      by_cases hzero : o.DividesByZero
      · exact ⟨fun _ => hzero, fun _ => if_pos hzero⟩
      · rw [Operation.fault, if_neg hzero]
        exact ⟨nofun, fun h => absurd h hzero⟩
    · intro _ _ hfits
      exact absurd (hfits o (by simp)) ho

end Tracks

namespace Derivation

/-- A checked line does what the exact line does as long as its operations fit. -/
theorem checks_outcome (scope : Scope α Integer) (d : Derivation α .equation) :
    Checks (d.outcome scope) (d.operations scope.exact) (d.outcome scope.exact) := by
  cases d with
  | returned keyword value =>
    exact (value.tracks_meaning scope (by decide)).checks fun _ => rfl
  | assigned target sign value =>
    rw [outcome, outcome, operations]
    cases soleIdent? target.yield with
    | some name => exact (value.tracks_meaning scope (by decide)).checks fun _ => rfl
    | none =>
      -- there is no value to go on with on either side
      refine ⟨?_, ?_, ?_⟩
      · intro outcome houtcome
        cases houtcome
      · intro e span hfailure
        cases hfailure
      · intro outcome houtcome
        cases houtcome
  | first h => cases h
  | link h => cases h

end Derivation

/-- The same bindings, their values without a range. -/
def Bindings.exact (b : Bindings Integer) : Bindings Int := b.map Integer.val

theorem Bindings.scope_exact (b : Bindings Integer) (names : NameTable) :
    b.exact.scope names = (b.scope names).exact := by
  rw [scope, scope, Scope.exact, Scope.mk.injEq]
  exact ⟨funext fun n => get?_map Integer.val b n, rfl⟩

/-- Integer arithmetic never wraps: a line has the value that it has over all integers, unless an
operation divides by zero or gives what does not fit in 64 bits, and then it fails at the first such
operation. -/
theorem evaluate_checks_exact {names names' : NameTable} {line : String} {tree : Tree Name}
    (h : Tree.ofLine names line = (.ok tree, names')) (table : NameTable) (b : Bindings Integer) :
    ∃ d : Derivation Name .equation, d.yield = (scanWith names line).1 ∧
      Checks (b.evaluate table tree).1 (d.operations (b.exact.scope table))
        (b.exact.evaluate table tree).1 := by
  obtain ⟨⟨d, rfl, hyield⟩, -⟩ := Tree.ofLine_eq_ok_iff.1 h
  have hd : InOrder d.yield := hyield ▸ inOrder_scanWith names line
  have hchecked : (b.evaluate table d.phrase.toTree).1 = d.outcome (b.scope table) :=
    d.evaluate_toTree (b.scope table) hd
  have hexact : (b.exact.evaluate table d.phrase.toTree).1 = d.outcome (b.exact.scope table) :=
    d.evaluate_toTree (b.exact.scope table) hd
  refine ⟨d, hyield, ?_⟩
  rw [hchecked, hexact, b.scope_exact]
  exact d.checks_outcome (b.scope table)

theorem evaluate_checks_exact_beyond :
    ∃ d : Derivation Name .equation, d.yield = (scanWith .initial "return a+1-a").1 ∧
      ∃ before o after, d.operations
          (((Bindings.empty : Bindings Integer).insert ⟨2⟩
            ⟨0x7fffffffffffffff, by decide, by decide⟩).exact.scope
              (scanWith .initial "return a+1-a").2) = before ++ o :: after ∧
        (∀ p ∈ before, p.Fits) ∧ ¬o.Fits ∧ o.span = ⟨7, 10⟩ ∧ ¬o.DividesByZero := by
  have hfailure : (Tree.ofLine .initial "return a+1-a").1.map
      (fun tree => (((Bindings.empty : Bindings Integer).insert ⟨2⟩
        ⟨0x7fffffffffffffff, by decide, by decide⟩).evaluate
          (scanWith .initial "return a+1-a").2 tree).1)
      = .ok (.error (.arithmetic (.overflow .add) ⟨7, 10⟩)) := by cbv
  cases hline : (Tree.ofLine .initial "return a+1-a").1 with
  | error e => rw [hline] at hfailure; cases hfailure
  | ok tree =>
    rw [hline] at hfailure
    obtain ⟨d, hyield, hchecks⟩ := evaluate_checks_exact (Prod.ext hline rfl)
      (scanWith .initial "return a+1-a").2 ((Bindings.empty : Bindings Integer).insert ⟨2⟩
        ⟨0x7fffffffffffffff, by decide, by decide⟩)
    obtain ⟨before, o, after, hops, hbefore, ho, hspan, hzero, -⟩ :=
      hchecks.fault _ _ (Except.ok.inj hfailure)
    refine ⟨d, hyield, before, o, after, hops, hbefore, ho, hspan.symm, ?_⟩
    intro hdivides
    cases hzero.2 hdivides

end Reckoner
