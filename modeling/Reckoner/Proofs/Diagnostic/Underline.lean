import Mathlib
import Reckoner.Proofs.Session.Blame
import Reckoner.Proofs.Text.Lines
import Reckoner.Value.Integer

/-!
Underlines. Under the line that a report quotes, each label has a row with marks, which stand under
the text that the label covers. There are as many marks as the text has bytes, and at least one; so
they stand under the characters of the text exactly if these are ASCII. This is the case for all
texts that are blamed but one: an invalid character that takes more than one byte. -/

namespace Reckoner

variable {V E : Type}

/-! ### Rows of a report -/

namespace Label

/-- The character that a label is marked with. -/
def mark (l : Label) : Char := if l.primary then '^' else '-'

/-- What stands behind the marks of a label. -/
def remark (l : Label) : String := if l.message.isEmpty then "" else " " ++ l.message

end Label

namespace Diagnostic

/-- What stands in front of the line in the row that quotes it. -/
def gutter (d : Diagnostic) : String := (if d.line.isSome then d.lineText else d.margin) ++ " | "

/-- The row of a label, without colours. -/
def labelRow (d : Diagnostic) (l : Label) : String :=
  d.margin ++ " | " ++ blanks l.span.start ++ "".pushn l.mark (max 1 l.span.len) ++ l.remark

/-- In the row of the label, marks stand in the `width` columns behind those of `lead`, and nowhere
else. -/
def Underlines (d : Diagnostic) (l : Label) (lead : String) (width : Nat) : Prop :=
  ∀ k, (d.labelRow l).toList[k]? = some l.mark ↔ lead.length ≤ k ∧ k < lead.length + width

end Diagnostic

theorem paintAll_append (colors : Bool) (ps qs : List Piece) :
    Piece.paintAll colors (ps ++ qs) = Piece.paintAll colors ps ++ Piece.paintAll colors qs := by
  simp [Piece.paintAll]

namespace Diagnostic

theorem paintAll_row (d : Diagnostic) (l : Label) :
    Piece.paintAll false (l.row d.margin) = d.labelRow l ++ "\n" := by
  rw [← String.toList_inj]
  cases h : l.message.isEmpty <;>
    simp [Piece.paintAll, Piece.paint, Piece.plain, Piece.styled, Label.row, labelRow, Label.mark,
      Label.remark, h]

theorem paintAll_rows (d : Diagnostic) (ls : List Label) :
    Piece.paintAll false (ls.flatMap (Label.row d.margin))
      = String.join (ls.map fun l => d.labelRow l ++ "\n") := by
  induction ls with
  | nil => rfl
  | cons l ls ih =>
    rw [List.flatMap_cons, paintAll_append, ih, paintAll_row, List.map_cons, String.join_cons]

/-- A report quotes the line in a row, and has one row for each label below. -/
theorem exists_rows (d : Diagnostic) (line : String) :
    ∃ head tail, Piece.paintAll false (d.render (some line))
      = head ++ "\n" ++ (d.gutter ++ line ++ "\n")
        ++ String.join (d.labels.map fun l => d.labelRow l ++ "\n") ++ tail := by
  have hsnippet : Piece.paintAll false (d.snippet line) = d.margin ++ " |" ++ "\n"
      ++ (d.gutter ++ line ++ "\n") ++ String.join (d.labels.map fun l => d.labelRow l ++ "\n") := by
    have hbar : d.margin ++ " |\n" = d.margin ++ " |" ++ "\n" := by rw [String.append_assoc]; rfl
    rw [← paintAll_rows, snippet, hbar]
    simp only [Piece.paintAll, List.map_cons, String.join_cons, Piece.paint, Piece.plain, gutter,
      String.append_assoc]
  rw [render, Option.map_some, Option.getD_some, paintAll_append, paintAll_append, paintAll_append,
    hsnippet]
  generalize Piece.paintAll false (_ ++ d.location) = front
  exact ⟨front ++ (d.margin ++ " |"), Piece.paintAll false (d.notes.flatMap d.noteRow)
    ++ Piece.paintAll false [.plain "\n"], by simp only [String.append_assoc]⟩

theorem length_blanks (n : Nat) : (blanks n).length = n := by
  rw [blanks, ← String.length_toList, Text.toList_pushn]
  simp

/-- With the number of its line, a report indents the rows of labels as the row that quotes the
line. -/
theorem length_gutter {d : Diagnostic} {n : Nat} (h : d.line = some n) :
    d.gutter.length = d.margin.length + 3 := by
  have hnumber : 1 ≤ d.lineText.length := by
    have hne : Nat.toDigits 10 n ≠ [] := Nat.toDigits_ne_nil
    rw [← String.length_toList]
    simp [lineText, h, Nat.one_le_iff_ne_zero]
  have hbar : " | ".length = 3 := rfl
  rw [gutter, margin, h, Option.isSome_some, if_pos rfl, String.length_append, length_blanks, hbar]
  omega

end Diagnostic

/-! ### Marks in a row -/

/-- A run of characters that do not stand beside it is found by the columns that hold the character.
-/
theorem getElem?_replicate_between {before after : List Char} {c : Char} (hbefore : c ∉ before)
    (hafter : c ∉ after) (width k : Nat) :
    (before ++ (List.replicate width c ++ after))[k]? = some c
      ↔ before.length ≤ k ∧ k < before.length + width := by
  rw [List.getElem?_append]
  split
  · rename_i hk
    have hne : before[k]? ≠ some c := fun h => hbefore (List.mem_of_getElem? h)
    exact ⟨fun h => absurd h hne, fun h => absurd h.1 (Nat.not_le.2 hk)⟩
  · rename_i hk
    rw [List.getElem?_append, List.length_replicate]
    split
    · rename_i hwidth
      exact ⟨fun _ => by omega, fun _ => List.getElem?_replicate_of_lt hwidth⟩
    · have hne : after[k - before.length - width]? ≠ some c := fun h =>
        hafter (List.mem_of_getElem? h)
      exact ⟨fun h => absurd h hne, fun h => by omega⟩

/-- No remark of a report looks like a mark. -/
theorem RunError.mark_not_mem_remark [ToString E] (e : RunError E) :
    ∀ l ∈ e.diagnostic.labels, l.mark ∉ l.remark.toList := by
  cases e with
  | parse number e =>
    cases e <;> simp [RunError.diagnostic, RunError.cause, Diagnostic.onLine, ParseError.diagnostic,
      ParseError.remark, ParseError.related?, Label.mark, Label.remark]
  | eval number e =>
    cases e <;> simp [RunError.diagnostic, RunError.cause, Diagnostic.onLine, EvalError.diagnostic,
      EvalError.remark, Label.mark, Label.remark]

namespace Diagnostic

variable {d : Diagnostic} {l : Label} {line before text after : String}

/-- Marks stand below the text that a label covers, as many as it has bytes and at least one. -/
theorem underlines_bytes {n : Nat} (hline : d.line = some n) (hremark : l.mark ∉ l.remark.toList)
    (hcovers : l.span.Covers line before text after) (hbefore : Text.Ascii before.toList) :
    d.Underlines l (d.gutter ++ before) (max 1 text.utf8ByteSize) := by
  have hstart : l.span.start = before.length := by
    rw [hcovers.start_eq, ← String.length_toList, ← Token.byteLength_of_ascii hbefore,
      Token.byteLength_eq, String.ofList_toList]
  have hlen : l.span.len = text.utf8ByteSize := by
    have hstop := hcovers.stop_eq
    rw [String.utf8ByteSize_append, ← hcovers.start_eq] at hstop
    rw [Span.len, if_pos (by omega)]
    omega
  let indent := (d.margin ++ " | " ++ blanks l.span.start).toList
  have hindent : l.mark ∉ indent := by
    cases h : l.primary <;> simp [indent, Label.mark, h, margin, blanks, Text.toList_pushn]
  have hlength : indent.length = (d.gutter ++ before).length := by
    have hbar : " | ".length = 3 := rfl
    rw [String.length_toList, String.length_append, String.length_append, length_blanks, hbar,
      String.length_append, length_gutter hline, hstart]
  have hrow : (d.labelRow l).toList
      = indent ++ (List.replicate (max 1 l.span.len) l.mark ++ l.remark.toList) := by
    simp [labelRow, indent, Text.toList_pushn]
  intro k
  rw [hrow, getElem?_replicate_between hindent hremark, hlength, hlen]

/-- So the marks stand in the columns of the characters, if these are ASCII. -/
theorem underlines_of_ascii {n : Nat} (hline : d.line = some n) (hremark : l.mark ∉ l.remark.toList)
    (hcovers : l.span.Covers line before text after) (hbefore : Text.Ascii before.toList)
    (htext : Text.Ascii text.toList) :
    d.Underlines l (d.gutter ++ before) (max 1 text.length) := by
  have hbytes : text.utf8ByteSize = text.length := by
    rw [← String.length_toList, ← Token.byteLength_of_ascii htext, Token.byteLength_eq,
      String.ofList_toList]
  rw [← hbytes]
  exact underlines_bytes hline hremark hcovers hbefore

end Diagnostic

/-! ### The place that a failing program blames -/

/-- The report of a failing program quotes the line that it blames, and has one row for each label
below. The marks in it start in the column of the first character that the label covers. They stand
exactly in the columns of the characters that it covers, or in one column if it covers none, unless
the label covers an invalid character that is not ASCII, which has as many marks as bytes. -/
theorem marks_below_blamed_text [Value V E] [ToString E] {s : Session V} {source : String}
    {e : RunError E} (h : (s.run source).1 = .error e) :
    ∃ line, Source.line? source e.line = some line ∧
      (∃ head tail, Piece.paintAll false (e.diagnostic.render (some line))
        = head ++ "\n" ++ (e.diagnostic.gutter ++ line ++ "\n")
          ++ String.join (e.diagnostic.labels.map fun l => e.diagnostic.labelRow l ++ "\n") ++ tail) ∧
      ∀ l ∈ e.diagnostic.labels, ∃ before text after, l.span.Covers line before text after ∧
        (e.diagnostic.Underlines l (e.diagnostic.gutter ++ before) (max 1 text.length) ∨
          ∃ c, e = .parse e.line (.invalidCharacter l.span) ∧ text = String.singleton c ∧
            128 ≤ c.toNat ∧
            e.diagnostic.Underlines l (e.diagnostic.gutter ++ before) c.utf8Size) := by
  obtain ⟨before, line, after, hlines, hnumber, -, -, hline⟩ := Session.run_error h
  have hquoted : Source.line? source e.line = some line := by
    rw [Source.line?, hlines, hnumber, Nat.add_sub_cancel_left]
    simp
  refine ⟨line, hquoted, e.diagnostic.exists_rows line, fun l hl => ?_⟩
  have hremark := e.mark_not_mem_remark l hl
  have hnumbered : e.diagnostic.line = some e.line := rfl
  rcases Session.blamed_of_evaluateLine hline with
    hascii | ⟨span, before, c, after, he, hcovers, hbefore⟩
  · rw [← RunError.labels_onLine e 1] at hl
    obtain ⟨before, text, after, hcovers, hbefore, htext⟩ := (hascii l hl).exists_covers
    exact ⟨before, text, after, hcovers,
      .inl (Diagnostic.underlines_of_ascii hnumbered hremark hcovers hbefore htext)⟩
  · obtain ⟨number, rfl⟩ : ∃ number, e = .parse number (.invalidCharacter span) := by
      cases e with
      | parse number e =>
        obtain rfl := (RunError.parse.inj he).2
        exact ⟨number, rfl⟩
      | eval number e => cases he
    obtain rfl : l = ⟨span, "not part of the language", true⟩ := List.mem_singleton.1 hl
    refine ⟨before, .singleton c, after, hcovers, ?_⟩
    by_cases hc : c.toNat < 128
    · have hascii : Text.Ascii (String.singleton c).toList := by simpa [Text.Ascii]
      exact .inl (Diagnostic.underlines_of_ascii hnumbered hremark hcovers hbefore hascii)
    · refine .inr ⟨c, rfl, rfl, Nat.le_of_not_lt hc, ?_⟩
      have hmarks := Diagnostic.underlines_bytes hnumbered hremark hcovers hbefore
      rwa [String.utf8ByteSize_singleton, max_eq_right c.utf8Size_pos] at hmarks

/-- A program of one line that does not parse. -/
theorem Session.run_line_error [Value V E] (line : String) {e : ParseError}
    (hlines : Text.lines line = [line]) (hblank : Text.isBlankText line = false)
    (hspelled : Tree.spelled line = .error e) (s : Session V) :
    (s.run line).1 = .error (.parse 1 e) ∧ Source.line? line 1 = some line := by
  have hall : Source.spelledAll (Source.equations line) = .error (1, e) := by
    rw [Source.equations_eq, hlines, Source.equationsFrom_of_not_blank hblank, Source.spelledAll,
      hspelled]
  rw [Session.run_of_parse_error (Source.parseAll_of_spelled_error hall s.names), Source.line?,
    hlines]
  exact ⟨rfl, rfl⟩

/-- Both places of a parenthesis that the end of its line leaves open: the second covers nothing. -/
theorem marks_below_blamed_text_unclosed :
    let e : RunError IntegerError := .parse 1 (.unclosedParen ⟨7, 8⟩ "end of line" ⟨9, 9⟩)
    ((Session.initial : Session Integer).run "return (1").1 = .error e ∧
      Source.line? "return (1" 1 = some "return (1" ∧
      ∀ l ∈ e.diagnostic.labels, ∃ before text after, l.span.Covers "return (1" before text after ∧
        e.diagnostic.Underlines l (e.diagnostic.gutter ++ before) (max 1 text.length) := by
  intro e
  obtain ⟨hrun, hline⟩ := Session.run_line_error "return (1" (by cbv) (by cbv)
    (by cbv) (Session.initial : Session Integer)
  refine ⟨hrun, hline, fun l hl => ?_⟩
  obtain ⟨line, hquoted, -, hlabels⟩ := marks_below_blamed_text hrun
  obtain rfl : "return (1" = line := Option.some.inj (hline.symm.trans hquoted)
  obtain ⟨before, text, after, hcovers, hmarks | ⟨c, he, -⟩⟩ := hlabels l hl
  · exact ⟨before, text, after, hcovers, hmarks⟩
  · cases he

/-- It is not so that the marks always stand exactly below the characters: the two bytes of a letter
with an accent have two marks. -/
theorem not_marks_below_characters : ¬∀ (s : Session Integer) (source line : String)
    (e : RunError IntegerError), (s.run source).1 = .error e →
      Source.line? source e.line = some line →
      ∀ l ∈ e.diagnostic.labels, ∀ before text after, l.span.Covers line before text after →
        e.diagnostic.Underlines l (e.diagnostic.gutter ++ before) (max 1 text.length) := by
  intro h
  obtain ⟨hrun, hline⟩ := Session.run_line_error "return é"
    (e := .invalidCharacter ⟨7, 9⟩) (by cbv) (by cbv) (by cbv) (Session.initial : Session Integer)
  have hmarks := h .initial "return é" "return é" _ hrun hline _ (.head _) "return " "é" ""
    ⟨by decide, by decide, by decide⟩
  have hsecond := (hmarks 12).1 (by decide)
  exact absurd hsecond.2 (by decide)

end Reckoner
