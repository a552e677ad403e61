import Mathlib
import Reckoner.Proofs.Evaluation.Supported
import Reckoner.Proofs.Session.Coherent
import Reckoner.Proofs.Token.Munch

/-!
Bindings of a run. The check of a variable's text accepts what the scanner takes as one identifier,
so that the line that is put together for a binding begins with its variable and a sign, whatever
text follows: on that line a session binds this variable or nothing. -/

namespace Reckoner

open Token Options

/-! ### Identifiers -/

namespace Token

/-- An identifier in front of what ends a word is scanned as one token. -/
theorem scanFrom_ident {s : String} (h : isIdentifier s = true) (offset : Nat) {rest : List Char}
    (hrest : Ends rest) :
    scanFrom offset (s.toList ++ rest)
      = ⟨.ident s, ⟨offset, offset + s.utf8ByteSize⟩⟩
        :: scanFrom (offset + s.utf8ByteSize) rest := by
  have hscan := (scansBack_of_spelled (k := .ident s) h).scanFrom_append (fun _ => hrest) offset
  rw [byteLength_eq] at hscan
  simpa [TokenKind.spelling, TokenKind.payload?] using hscan

/-- An identifier is a text that the lexer takes as one identifier from its first byte to its
last. -/
theorem isIdentifier_iff_lex (names : NameTable) (s : String) :
    isIdentifier s = true ↔
      ∃ n, (lex names s).1 = [⟨.ident n, ⟨0, s.utf8ByteSize⟩⟩, endOf s] := by
  constructor
  · intro h
    have hscan : scan s = [⟨.ident s, ⟨0, s.utf8ByteSize⟩⟩] := by
      have hends : Ends [] := fun c hc => by cases hc
      have hword := scanFrom_ident h 0 hends
      rwa [List.append_nil, Nat.zero_add, scanFrom] at hword
    refine ⟨(scanWith names s).2.nameOf s, ?_⟩
    rw [lex, scanWith, hscan]
    rfl
  · rintro ⟨n, hlex⟩
    have hbody : (scanWith names s).1 = [⟨.ident n, ⟨0, s.utf8ByteSize⟩⟩] :=
      (List.append_left_inj [endOf s]).1 hlex
    have htokens := scanWith_tokenizes names s
    rw [hbody] at htokens
    obtain ⟨before, text, after, hcovers, -, hkind⟩ := htokens.part _ List.mem_cons_self
    -- the span leaves no byte in front of the token and none behind it
    have hbefore : before = "" := String.utf8ByteSize_eq_zero_iff.1 hcovers.start_eq.symm
    have hafter : after = "" := by
      refine String.utf8ByteSize_eq_zero_iff.1 ?_
      have hline := congrArg String.utf8ByteSize hcovers.line_eq
      have hstop : s.utf8ByteSize = (before ++ text).utf8ByteSize := hcovers.stop_eq
      rw [String.utf8ByteSize_append] at hline
      omega
    have hs : s = text := by
      rw [hcovers.line_eq, hbefore, hafter, String.empty_append, String.append_empty]
    rcases hkind with hmunched | hstray
    · rw [hs]
      exact isIdentifier_iff_pattern.2 hmunched.pattern
    · cases hstray.invalid

end Token

/-! ### Lines of bindings -/

theorem Options.isIdentifier_of_parseBinding {text name expression : String}
    (h : parseBinding text = .ok (name, expression)) : isIdentifier name = true := by
  rw [parseBinding] at h
  split at h
  · cases h
  · dsimp only at h
    split at h
    · rename_i hname
      obtain ⟨rfl, -⟩ := Prod.mk.inj (Except.ok.inj h)
      exact (Bool.and_eq_true_iff.1 hname).1
    · cases h

/-- A variable, a sign and any text make a line that starts with an identifier and the sign. -/
theorem Token.scan_binding {name : String} (h : isIdentifier name = true) (expression : String) :
    ∃ span sign offset, scan (name ++ " = " ++ expression)
      = ⟨.ident name, span⟩ :: ⟨.eq, sign⟩ :: scanFrom offset expression.toList := by
  have hline : (name ++ " = " ++ expression).toList
      = name.toList ++ (Blank.space.chars ++ ((.eq : TokenKind String).spelling
        ++ (Blank.space.chars ++ expression.toList))) := by
    simp [Blank.space, TokenKind.spelling, TokenKind.payload?, TokenKind.describe]
  have hsign : ScansBack .eq := scansBack_of_spelled trivial
  have hspace : Blank.space.chars ≠ [] := by decide
  rw [scan, hline, scanFrom_ident h 0 (ends_blank .space fun hnone => absurd hnone hspace),
    scanFrom_blank _ _ Blank.space.separators,
    hsign.scanFrom_append fun hword => absurd hword (by decide),
    scanFrom_blank _ _ Blank.space.separators]
  exact ⟨_, _, _, rfl⟩

namespace Session

variable {V E : Type}

/-- What a session may do on the line of a binding: fail for anything but the target and bind
nothing, or bind the variable alone. -/
inductive BindsOnly (name : String) (s : Session V) :
    Except (RunError E) (Outcome Name V) × Session V → Prop where
  | failed (e : RunError E) (names : NameTable) (hgrows : s.names.Grows names)
      (htarget : ∀ number text span, e ≠ .eval number (.unsupported (.target text) span)) :
      BindsOnly name s (.error e, { s with names })
  | bound (v : V) (names : NameTable) (hgrows : s.names.Grows names)
      (hname : name ∈ names.texts) :
      BindsOnly name s (.ok (.assigned (names.nameOf name) v),
        ({ s with names } : Session V).assign name v)

variable [Value V E]

/-- On a line that starts with an identifier and a sign, a session binds this identifier or
nothing. -/
theorem bindsOnly_evaluateLine {name line : String} {span sign : Span} {ts : List (Token String)}
    (h : scan line = ⟨.ident name, span⟩ :: ⟨.eq, sign⟩ :: ts) (s : Session V) :
    BindsOnly name s (s.evaluateLine line : Except (RunError E) (Outcome Name V) × Session V) := by
  have hgrows := Tree.grows_ofLine s.names line
  rcases hline : Tree.ofLine s.names line with ⟨e | tree, names⟩
  · rw [hline] at hgrows
    rw [evaluateLine, hline]
    exact .failed _ names hgrows fun number text span h => by cases h
  · rw [hline] at hgrows
    obtain ⟨⟨d, rfl, hyield⟩, htable⟩ := Tree.ofLine_eq_ok_iff.1 hline
    have hname : name ∈ names.texts := by
      rw [← htable]
      exact NameTable.mem_internAll.2 (.inl (by rw [h]; exact List.mem_cons_self))
    have hkinds : d.kinds = .ident (names.nameOf name) :: .eq :: (ts.map Token.kind).map
        (TokenKind.map names.nameOf) := by
      rw [Derivation.kinds, hyield, kinds_scanWith, h, htable]
      rfl
    obtain ⟨target, sign, value, rfl, htarget⟩ := d.eq_assigned hkinds
    have horder := inOrder_scanWith s.names line
    have hresult := (Derivation.assigned target sign value).evaluate_toTree
      (s.bindings.scope names) (hyield ▸ horder)
    rw [evaluateLine_of_ok hline, hresult, Derivation.outcome, htarget]
    cases hv : value.meaning (s.bindings.scope names) with
    | ok v => exact .bound v names hgrows hname
    | error e =>
      refine .failed _ names hgrows ?_
      rintro number text span ⟨⟩
      rcases Derivation.eq_of_meaning_unsupported (by decide) hv with ⟨hshape, -⟩ | ⟨hshape, -⟩
        <;> cases hshape

/-- The variable of a binding is what the lexer takes as one identifier. Whatever the text of the
expression is, evaluating the binding fails, but not for its target, and leaves all bindings as they
were, or it assigns to this variable and changes the value of no other one. -/
theorem option_binds_its_name :
    (∀ (names : NameTable) (s : String), isIdentifier s = true ↔
      ∃ n, (lex names s).1 = [⟨.ident n, ⟨0, s.utf8ByteSize⟩⟩, endOf s]) ∧
    ∀ {text name expression : String}, parseBinding text = .ok (name, expression) →
      ∀ s : Session V, match s.evaluateLine (name ++ " = " ++ expression) with
        | (.error e, after) =>
          (∀ number text span, e ≠ .eval number (.unsupported (.target text) span)) ∧
            after.bindings = s.bindings ∧ (s.Coherent → ∀ x, after.get? x = s.get? x)
        | (.ok (.returned _), _) => False
        | (.ok (.assigned n v), after) =>
          after.names.get? name = some n ∧
            (∀ m, after.bindings.get? m = if m = n then some v else s.bindings.get? m) ∧
              (s.Coherent → ∀ x, after.get? x = if x = name then some v else s.get? x) := by
  refine ⟨isIdentifier_iff_lex, ?_⟩
  intro text name expression hparse s
  obtain ⟨span, sign, offset, hscan⟩ := scan_binding (isIdentifier_of_parseBinding hparse) expression
  have hbinds := bindsOnly_evaluateLine hscan s
  generalize s.evaluateLine (name ++ " = " ++ expression) = result at hbinds ⊢
  cases hbinds with
  | failed e names hgrows htarget =>
    exact ⟨htarget, rfl, fun hcoherent => get?_of_grows hcoherent hgrows⟩
  | bound v names hgrows hname =>
    refine ⟨NameTable.get?_eq_some_nameOf hname, fun m => ?_, fun hcoherent x => ?_⟩
    · show (s.bindings.insert (names.nameOf name) v).get? m = _
      split
      · rename_i hm
        rw [hm, Bindings.get?_insert_self]
      · rename_i hm
        rw [Bindings.get?_insert_of_ne hm]
    · rw [get?_assign hname, get?_of_grows hcoherent hgrows]

theorem option_binds_its_name_newline :
    parseBinding "ab = 2*(3\n+1) " = .ok ("ab", "2*(3\n+1)") ∧
      ∃ n v after, (initial : Session Integer).evaluateLine ("ab" ++ " = " ++ "2*(3\n+1)")
        = (.ok (.assigned n v), after) ∧ after.get? "ab" = some v ∧ after.get? "a" = none := by
  have hparse : parseBinding "ab = 2*(3\n+1) " = .ok ("ab", "2*(3\n+1)") := by cbv
  have hok : ((initial : Session Integer).evaluateLine
      ("ab" ++ " = " ++ "2*(3\n+1)")).1.isOk = true := by cbv
  have hbinds := option_binds_its_name.2 hparse (initial : Session Integer)
  rcases hresult : (initial : Session Integer).evaluateLine ("ab" ++ " = " ++ "2*(3\n+1)")
    with ⟨e | ⟨n, v⟩ | v, after⟩
  · rw [hresult] at hok
    cases hok
  · rw [hresult] at hbinds
    have hget := hbinds.2.2 (coherent_withNames .initial)
    have hnone : (initial : Session Integer).get? "a" = none := by cbv
    refine ⟨hparse, n, v, after, rfl, ?_, ?_⟩
    · rw [hget, if_pos rfl]
    · rw [hget, if_neg (by decide), hnone]
  · rw [hresult] at hbinds
    cases hbinds

end Session

end Reckoner
