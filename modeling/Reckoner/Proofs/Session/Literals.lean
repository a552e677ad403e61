import Mathlib
import Reckoner.Proofs.Evaluation.Compositional
import Reckoner.Proofs.Options.Binding
import Reckoner.Proofs.Session.Coherent
import Reckoner.Proofs.Text.Lines
import Reckoner.Proofs.Token.Munch
import Reckoner.Proofs.Value.Digits

/-!
Integer literals and variables through a session. A line that returns a number is evaluated to the
integer that the number denotes, or is refused with the number's own text. A variable that one line
assigns a literal to has its value on the next line and behind the program, and no other variable
has another value than before. -/

namespace Reckoner

open Token

variable {V E : Type}

/-- An atom by itself, as an expression. -/
def Derivation.lone {α : Type} (atom : Derivation α .atom) : Derivation α .expression :=
  .first .expression (.first .term (.first .factor (.unsigned atom)))

/-! ### A line that returns an operand -/

/-- What stands in front of the operand on a line that returns one. -/
def returnLead (lead gap : Blank) : String :=
  String.ofList lead.chars ++ "return" ++ String.ofList gap.chars

/-- The line that returns an operand, with separators around its tokens. -/
def returnLine (lead gap trail : Blank) (text : String) : String :=
  returnLead lead gap ++ text ++ String.ofList trail.chars

/-- The line is scanned into the keyword and the operand. -/
theorem scan_returnLine {k : TokenKind String} (hk : ScansBack k) {text : String}
    (hspelling : k.spelling = text.toList) (lead trail : Blank) {gap : Blank}
    (hgap : gap.chars ≠ []) :
    ∃ keyword, scan (returnLine lead gap trail text) = [⟨.ret, keyword⟩, ⟨k,
      ⟨(returnLead lead gap).utf8ByteSize, (returnLead lead gap ++ text).utf8ByteSize⟩⟩] := by
  have hline : (returnLine lead gap trail text).toList
      = lead.chars ++ ((.ret : TokenKind String).spelling
        ++ (gap.chars ++ (k.spelling ++ (trail.chars ++ [])))) := by
    have hkeyword : (.ret : TokenKind String).spelling = "return".toList := rfl
    simp [returnLine, returnLead, hspelling, hkeyword]
  have hstart : 0 + byteLength lead.chars + byteLength (.ret : TokenKind String).spelling
      + byteLength gap.chars = (returnLead lead gap).utf8ByteSize := by
    rw [byteLength_eq, byteLength_eq, byteLength_eq, Nat.zero_add, ← String.utf8ByteSize_append,
      ← String.utf8ByteSize_append]
    rfl
  have htext : byteLength k.spelling = text.utf8ByteSize := by
    rw [hspelling, byteLength_eq, String.ofList_toList]
  have hret : ScansBack .ret := scansBack_of_spelled trivial
  have htrail : Ends (trail.chars ++ []) := ends_blank trail fun _ _ hnone => by cases hnone
  refine ⟨⟨0 + byteLength lead.chars,
    0 + byteLength lead.chars + byteLength (.ret : TokenKind String).spelling⟩, ?_⟩
  rw [scan, hline, scanFrom_blank 0 _ lead.separators,
    hret.scanFrom_append fun _ => ends_blank gap fun hnone => absurd hnone hgap,
    scanFrom_blank _ _ gap.separators, hk.scanFrom_append fun _ => htrail,
    scanFrom_blank _ _ trail.separators, scanFrom, hstart, htext, String.utf8ByteSize_append]

variable [Value V E]

/-- A line with the tokens of a derivation parses and does what the derivation means. -/
theorem evaluate_of_yield {names table : NameTable} {line : String}
    {d : Derivation Name .equation} (htable : (scanWith names line).2 = table)
    (h : (scan line).map (Token.map table.nameOf) = d.yield) (scope : Scope Name V) :
    Tree.ofLine names line = (.ok d.phrase.toTree, table) ∧
      (d.phrase.toTree.evaluate scope).1 = d.outcome scope := by
  subst htable
  have hyield : d.yield = (scanWith names line).1 := h.symm
  exact ⟨Tree.ofLine_eq_ok_iff.2 ⟨⟨d, rfl, hyield⟩, rfl⟩,
    d.evaluate_toTree scope (hyield ▸ inOrder_scanWith names line)⟩

theorem mem_texts_scanWith {t : String} {line : String} (names : NameTable)
    (h : t ∈ (scan line).filterMap fun t => t.kind.payload?) :
    t ∈ (scanWith names line).2.texts :=
  NameTable.mem_internAll.2 (.inl h)

/-- A literal means the integer that it denotes, if this fits. -/
theorem meaning_number_of_denotes {names : NameTable} {b : Bindings V} {digits : String} {n : Nat}
    (hmem : digits ∈ names.texts) (h : Denotes digits n) (hn : n < 2 ^ 63) (span : Span) :
    (Derivation.number (names.nameOf digits) span).meaning (b.scope names)
      = .ok (Value.ofInteger (.ofNat n hn)) := by
  have htext : (b.scope names).text (names.nameOf digits) = digits := NameTable.text_nameOf hmem
  rw [Derivation.meaning, htext, Integer.ofText?_of_fits h hn]

theorem Bindings.evaluate_fst (b : Bindings V) (names : NameTable) (tree : Tree Name) :
    (b.evaluate names tree).1 = (tree.evaluate (b.scope names)).1 := rfl

/-- A line that returns a number returns the integer that is read from its text, and is refused with
this text and its place if none is. -/
theorem evaluate_returnLine {text : String} (hnumber : IsNumber text.toList) (lead trail : Blank)
    {gap : Blank} (hgap : gap.chars ≠ []) (names : NameTable) (b : Bindings V) :
    ∃ tree table span, Tree.ofLine names (returnLine lead gap trail text) = (.ok tree, table) ∧
      span.Covers (returnLine lead gap trail text) (returnLead lead gap) text
        (String.ofList trail.chars) ∧
      (b.evaluate table tree).1 = match Integer.ofText? text with
        | some i => .ok (.returned (Value.ofInteger i))
        | none => .error (.literal text span) := by
  have hspelling : (TokenKind.number text).spelling = text.toList := rfl
  obtain ⟨keyword, hscan⟩ :=
    scan_returnLine (scansBack_of_pattern (k := .number text) hnumber) hspelling lead trail hgap
  generalize hspan : Span.mk (returnLead lead gap).utf8ByteSize
    (returnLead lead gap ++ text).utf8ByteSize = span at hscan
  have hmem : text ∈ (scanWith names (returnLine lead gap trail text)).2.texts :=
    mem_texts_scanWith names (by rw [hscan]; exact .head _)
  generalize htable : (scanWith names (returnLine lead gap trail text)).2 = table at hmem
  let d : Derivation Name .equation :=
    .returned keyword (.lone (.number (table.nameOf text) span))
  have hyield : (scan (returnLine lead gap trail text)).map (Token.map table.nameOf) = d.yield := by
    rw [hscan]
    rfl
  obtain ⟨hline, hevaluate⟩ := evaluate_of_yield htable hyield (b.scope table)
  refine ⟨_, table, span, hline, ⟨rfl, by rw [← hspan], by rw [← hspan]⟩, ?_⟩
  have htext : (b.scope table).text (table.nameOf text) = text := NameTable.text_nameOf hmem
  have houtcome : d.outcome (b.scope table)
      = ((Derivation.number (table.nameOf text) span).meaning (b.scope table)).map .returned := rfl
  rw [Bindings.evaluate_fst, hevaluate, houtcome, Derivation.meaning, htext]
  cases Integer.ofText? text <;> rfl

namespace Session

variable {s : Session V} {line x digits : String} {n : Nat} {keyword place sign span : Span} {v : V}

/-! ### The two lines of a program -/

/-- A line that assigns a literal binds its variable to the integer that the literal denotes. -/
theorem evaluateLine_assigned
    (hscan : scan line = [⟨.ident x, place⟩, ⟨.eq, sign⟩, ⟨.number digits, span⟩])
    (hdigits : Denotes digits n) (hn : n < 2 ^ 63) (s : Session V) :
    x ∈ (scanWith s.names line).2.texts ∧
      s.evaluateLine line
        = (.ok (.assigned ((scanWith s.names line).2.nameOf x) (Value.ofInteger (.ofNat n hn))),
          ({ s with names := (scanWith s.names line).2 } : Session V).assign x
            (Value.ofInteger (.ofNat n hn))) := by
  have hx : x ∈ (scanWith s.names line).2.texts :=
    mem_texts_scanWith s.names (by rw [hscan]; exact .head _)
  have hdigits' : digits ∈ (scanWith s.names line).2.texts :=
    mem_texts_scanWith s.names (by rw [hscan]; exact .tail _ (.head _))
  generalize htable : (scanWith s.names line).2 = table at hx hdigits' ⊢
  let d : Derivation Name .equation := .assigned (.lone (.ident (table.nameOf x) place)) sign
    (.lone (.number (table.nameOf digits) span))
  have hyield : (scan line).map (Token.map table.nameOf) = d.yield := by
    rw [hscan]
    rfl
  obtain ⟨hline, hevaluate⟩ := evaluate_of_yield htable hyield (s.bindings.scope table)
  have houtcome : d.outcome (s.bindings.scope table)
      = .ok (.assigned (table.nameOf x) (Value.ofInteger (.ofNat n hn))) := by
    show Except.map _ ((Derivation.number _ _).meaning _) = _
    rw [meaning_number_of_denotes hdigits' hdigits hn]
    rfl
  rw [evaluateLine_of_ok hline, hevaluate, houtcome]
  exact ⟨hx, rfl⟩

/-- A line that returns a bound variable returns its value and changes no binding. -/
theorem evaluateLine_returned (hscan : scan line = [⟨.ret, keyword⟩, ⟨.ident x, place⟩])
    (hx : s.get? x = some v) :
    s.evaluateLine line = (.ok (.returned v), { s with names := (scanWith s.names line).2 }) := by
  obtain ⟨m, hm, hv⟩ := get?_eq_some_iff.1 hx
  have hgrows : s.names.Grows (scanWith s.names line).2 := NameTable.grows_internAll s.names _
  have hname : (scanWith s.names line).2.nameOf x = m := by
    rw [NameTable.nameOf, hgrows.get? hm, Option.getD_some]
  obtain rfl := hname
  generalize htable : (scanWith s.names line).2 = table at hv ⊢
  let d : Derivation Name .equation := .returned keyword (.lone (.ident (table.nameOf x) place))
  have hyield : (scan line).map (Token.map table.nameOf) = d.yield := by
    rw [hscan]
    rfl
  obtain ⟨hline, hevaluate⟩ := evaluate_of_yield htable hyield (s.bindings.scope table)
  have houtcome : d.outcome (s.bindings.scope table) = .ok (.returned v) := by
    have hvalue : (s.bindings.scope table).value? (table.nameOf x) = some v := hv
    show Except.map _ ((Derivation.ident _ _).meaning _) = _
    rw [Derivation.meaning, hvalue]
    rfl
  rw [evaluateLine_of_ok hline, hevaluate, houtcome]
  rfl

/-! ### The program -/

/-- The program that assigns a literal to a variable and returns the variable. -/
def assignAndReturn (x digits : String) : String :=
  x ++ " = " ++ digits ++ "\n" ++ ("return " ++ x)

/-- The two lines of the program and their tokens. -/
theorem lines_assignAndReturn (hx : Options.isIdentifier x = true) (hdigits : Denotes digits n) :
    Text.lines (assignAndReturn x digits) = [x ++ " = " ++ digits, "return " ++ x] ∧
      (∃ place sign span, scan (x ++ " = " ++ digits)
        = [⟨.ident x, place⟩, ⟨.eq, sign⟩, ⟨.number digits, span⟩]) ∧
      ∃ keyword place, scan ("return " ++ x) = [⟨.ret, keyword⟩, ⟨.ident x, place⟩] := by
  have hnumber : Digits digits.toList := Integer.digits_iff_exists_denotes.2 ⟨n, hdigits⟩
  have hident : (TokenKind.ident x).Pattern x.toList := isIdentifier_iff_pattern.1 hx
  have hplain : ∀ {c : Char}, IsLexical c → c ≠ '\n' ∧ c ≠ '\r' := by
    intro c hc
    have hseparator := hc.not_isSeparator
    constructor <;> rintro rfl <;> cases hseparator
  have hx' : ∀ c ∈ x.toList, c ≠ '\n' ∧ c ≠ '\r' := fun c hc => hplain (hident.lexical c hc)
  refine ⟨?_, ?_, ?_⟩
  · have hfirst : Text.OneLine (x ++ " = " ++ digits) := by
      refine .of_forall ?_
      rw [String.toList_append, String.toList_append]
      refine List.forall_mem_append.2 ⟨List.forall_mem_append.2 ⟨hx', by simp⟩, fun c hc => ?_⟩
      exact hplain (hnumber.lexical c hc)
    have hsecond : Text.OneLine ("return " ++ x) := by
      refine .of_forall ?_
      rw [String.toList_append]
      exact List.forall_mem_append.2 ⟨by simp, hx'⟩
    rw [assignAndReturn, Text.lines_append hfirst, Text.lines_last hsecond.noFeed (by simp)]
  · obtain ⟨place, sign, offset, hscan⟩ := scan_binding hx digits
    have hpattern : (TokenKind.number digits).Pattern digits.toList :=
      ⟨_, [], [], hnumber, .inl rfl, .inl rfl, by simp⟩
    have hends : Ends [] := fun _ hnone => by cases hnone
    have hlast := (scansBack_of_pattern hpattern).scanFrom_append (fun _ => hends) offset
    rw [List.append_nil, scanFrom] at hlast
    exact ⟨place, sign, _, by rw [hscan]; exact congrArg _ (congrArg _ hlast)⟩
  · have hback : ScansBack (.ident x) := scansBack_of_pattern hident
    have hspelling : (TokenKind.ident x).spelling = x.toList := rfl
    have hline : returnLine .none .space .none x = "return " ++ x := by
      refine String.toList_inj.1 ?_
      simp [returnLine, returnLead, Blank.none, Blank.space]
    obtain ⟨keyword, hscan⟩ := scan_returnLine hback hspelling .none .none
      (show Blank.space.chars ≠ [] by decide)
    rw [hline] at hscan
    exact ⟨keyword, _, hscan⟩

theorem isBlankText_eq_false {line : String} {c : Char} (hc : c ∈ line.toList)
    (h : IsLexical c) : Text.isBlankText line = false := by
  refine Bool.eq_false_iff.2 fun hblank => ?_
  have hc := List.all_eq_true.1 hblank c hc
  rw [h.not_isBlank] at hc
  cases hc

/-- A line that was evaluated has a tree. -/
theorem exists_spelled_of_evaluateLine {outcome : Outcome Name V}
    (h : (s.evaluateLine line).1 = (.ok outcome : Except (RunError E) _)) :
    ∃ tree, Tree.spelled line = .ok tree := by
  rcases hline : Tree.ofLine s.names line with ⟨e | tree, table⟩
  · rw [evaluateLine, hline] at h
    cases h
  · exact Tree.exists_ofLine_eq_ok_iff.1 ⟨tree, congrArg Prod.fst hline⟩

/-- The program returns the integer and binds the variable to it, whatever else it names. -/
theorem run_assignAndReturn (hx : Options.isIdentifier x = true) (hdigits : Denotes digits n)
    (hn : n < 2 ^ 63) (s : Session V) :
    ∃ names later, s.names.Grows names ∧ x ∈ names.texts ∧ names.Grows later ∧
      s.run (assignAndReturn x digits) = (.ok (some (Value.ofInteger (.ofNat n hn))),
        { ({ s with names } : Session V).assign x (Value.ofInteger (.ofNat n hn)) with
          names := later }) := by
  obtain ⟨hlines, ⟨place, sign, span, hfirst⟩, keyword, again, hsecond⟩ :=
    lines_assignAndReturn hx hdigits
  obtain ⟨hmem, hassigned⟩ := evaluateLine_assigned hfirst hdigits hn s
  generalize hnames : (scanWith s.names (x ++ " = " ++ digits)).2 = names at hmem hassigned
  have hgrows : s.names.Grows names := hnames ▸ NameTable.grows_internAll s.names _
  have hget : (({ s with names } : Session V).assign x (Value.ofInteger (.ofNat n hn))).get? x
      = some (Value.ofInteger (.ofNat n hn)) := by
    rw [get?_assign (s := { s with names }) hmem, if_pos rfl]
  have hreturned := evaluateLine_returned hsecond hget
  have hblank : Text.isBlankText (x ++ " = " ++ digits) = false :=
    isBlankText_eq_false (c := '=') (by simp) (.inr (by decide))
  have hblank' : Text.isBlankText ("return " ++ x) = false :=
    isBlankText_eq_false (c := 'r') (by simp) (.inl rfl)
  have hfeed : s.feed 1 (Text.lines (assignAndReturn x digits))
      = (.ok (some (Value.ofInteger (.ofNat n hn))), { ({ s with names } : Session V).assign x
          (Value.ofInteger (.ofNat n hn)) with names := (scanWith names ("return " ++ x)).2 }) := by
    rw [hlines, feed, if_neg (Bool.eq_false_iff.1 hblank), hassigned]
    dsimp only
    rw [feed, if_neg (Bool.eq_false_iff.1 hblank'), hreturned]
    rfl
  have hparses : Source.ParsesAll (Text.lines (assignAndReturn x digits)) := by
    rw [hlines]
    refine List.forall_mem_cons.2 ⟨fun _ => ?_, List.forall_mem_singleton.2 fun _ => ?_⟩
    · exact exists_spelled_of_evaluateLine (congrArg Prod.fst hassigned)
    · exact exists_spelled_of_evaluateLine (congrArg Prod.fst hreturned)
  obtain ⟨hresult, hbindings, hlater⟩ := run_of_parsesAll hparses (s := s)
  rcases hrun : s.run (assignAndReturn x digits) with ⟨result, later, bindings⟩
  rw [hfeed, hrun] at hresult hbindings hlater
  obtain rfl : result = _ := hresult
  obtain rfl : bindings = _ := hbindings
  exact ⟨names, later, hgrows, hmem, (NameTable.grows_internAll names _).trans hlater, rfl⟩

/-- A line that returns a number returns the integer that its text denotes, if it denotes one that
fits, and is refused otherwise, with this text and its place. A program that assigns such a literal
to a variable and returns the variable returns the integer, and leaves the variable bound to it and
all other variables as they were. -/
theorem literals_survive :
    (∀ {text : String}, IsNumber text.toList → ∀ lead gap trail : Blank, gap.chars ≠ [] →
      ∀ (names : NameTable) (b : Bindings V), ∃ tree table span,
        Tree.ofLine names (returnLine lead gap trail text) = (.ok tree, table) ∧
        span.Covers (returnLine lead gap trail text) (returnLead lead gap) text
          (String.ofList trail.chars) ∧
        (∀ (n : Nat) (hn : n < 2 ^ 63), Denotes text n →
          (b.evaluate table tree).1 = .ok (.returned (Value.ofInteger (.ofNat n hn)))) ∧
        ((∀ n < 2 ^ 63, ¬Denotes text n) →
          (b.evaluate table tree).1 = .error (.literal text span))) ∧
    ∀ {x digits : String} {n : Nat}, Options.isIdentifier x = true → Denotes digits n →
      ∀ (hn : n < 2 ^ 63) (s : Session V), ∃ after,
        s.run (x ++ " = " ++ digits ++ "\n" ++ ("return " ++ x))
          = (.ok (some (Value.ofInteger (.ofNat n hn))), after) ∧
        after.get? x = some (Value.ofInteger (.ofNat n hn)) ∧
        (∀ m, after.names.get? x ≠ some m → after.bindings.get? m = s.bindings.get? m) ∧
        (s.Coherent → ∀ y, y ≠ x → after.get? y = s.get? y) := by
  constructor
  · intro text hnumber lead gap trail hgap names b
    obtain ⟨tree, table, span, hline, hcovers, hresult⟩ :=
      evaluate_returnLine hnumber lead trail hgap names b
    refine ⟨tree, table, span, hline, hcovers, fun n hn hdenotes => ?_, fun hnone => ?_⟩
    · rw [hresult, Integer.ofText?_of_fits hdenotes hn]
    · rw [hresult, Integer.ofText?_eq_none hnumber hnone]
  · intro x digits n hx hdigits hn s
    obtain ⟨names, later, hgrows, hmem, hlater, hrun⟩ := run_assignAndReturn hx hdigits hn s
    have hname : later.get? x = some (names.nameOf x) :=
      hlater.get? (NameTable.get?_eq_some_nameOf hmem)
    refine ⟨_, hrun, ?_, ?_, ?_⟩
    · rw [get?, hname, Option.bind_some]
      exact Bindings.get?_insert_self s.bindings _ _
    · intro m hm
      exact Bindings.get?_insert_of_ne (fun h => hm (by rw [h]; exact hname)) s.bindings _
    · intro hcoherent y hy
      have hnamed := coherent_of_grows hcoherent hgrows
      rw [get?_of_grows (coherent_assign hmem _ hnamed) hlater,
        get?_assign (s := { s with names }) hmem, if_neg hy, get?_of_grows hcoherent hgrows]

/-- A fraction is refused, and a variable whose name starts with the keyword is bound to `007`. -/
theorem literals_survive_fraction_and_zeros :
    let s : Session Integer := initial
    let seven : Integer := .ofNat 7 (by decide)
    (∃ tree table span, Tree.ofLine .initial " return\t 2.5 " = (.ok tree, table) ∧
      span.Covers " return\t 2.5 " " return\t " "2.5" " " ∧
      ((.empty : Bindings Integer).evaluate table tree).1 = .error (.literal "2.5" span)) ∧
    ∃ after, s.run "returned = 007\nreturn returned" = (.ok (some seven), after) ∧
      after.get? "returned" = some seven ∧ after.get? "x" = s.get? "x" := by
  constructor
  · have hnumber : IsNumber "2.5".toList :=
      ⟨['2'], ['.', '5'], [], ⟨nofun, List.all_eq_true.1 rfl⟩,
        .inr ⟨['5'], ⟨nofun, List.all_eq_true.1 rfl⟩, rfl⟩, .inl rfl, rfl⟩
    have hnone : ∀ n < 2 ^ 63, ¬Denotes "2.5" n := by
      intro n _ hn
      obtain ⟨-, hdigits⟩ := Integer.digits_iff_exists_denotes.2 ⟨n, hn⟩
      exact absurd (hdigits '.' (by decide)) (by decide)
    obtain ⟨tree, table, span, hline, hcovers, -, hrefused⟩ :=
      (literals_survive (V := Integer)).1 hnumber .space ⟨['\t', ' '], List.all_eq_true.1 rfl⟩
        .space (by decide) .initial .empty
    exact ⟨tree, table, span, hline, hcovers, hrefused hnone⟩
  · have hname : Options.isIdentifier "returned" = true := by decide
    have hseven : Denotes "007" 7 := ⟨2, by decide⟩
    obtain ⟨after, hrun, hvalue, -, hothers⟩ :=
      literals_survive.2 hname hseven (by decide) (initial : Session Integer)
    exact ⟨after, hrun, hvalue, hothers (coherent_withNames _) "x" (by decide)⟩

end Session

end Reckoner
