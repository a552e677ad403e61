import Mathlib
import Reckoner.Diagnostic.Render
import Reckoner.Proofs.Text.Lines
import Reckoner.Proofs.Value.Digits

/-!
Colours of reports. Colours only add terminal codes: without the codes a coloured text is the plain
one, and each code that turns a style on is followed by one code that turns it off, before the next
style and before the end. -/

namespace Reckoner

/-- What is written at once: a report, with its line if it has one, or the summary of all reports.
-/
inductive Emission where
  | report (d : Diagnostic) (source : Option String)
  | summary (errors : Nat)

/-- The pieces of what is written. -/
def Emission.pieces : Emission → List Piece
  | .report d source => d.render source
  | .summary errors => Reckoner.summary errors

/-- All that is written, with colours or without. -/
def emit (colors : Bool) (es : List Emission) : String :=
  String.join (es.map fun e => Piece.paintAll colors e.pieces)

/-- The terminal code that turns a style off. -/
def Style.off : String := "\x1b[0m"

/-- The text without the terminal codes in it. -/
def withoutCodes : List Char → List Char
  | '\x1b' :: '[' :: '1' :: ';' :: '3' :: '1' :: 'm' :: cs => withoutCodes cs
  | '\x1b' :: '[' :: '1' :: 'm' :: cs => withoutCodes cs
  | '\x1b' :: '[' :: '1' :: ';' :: '3' :: '4' :: 'm' :: cs => withoutCodes cs
  | '\x1b' :: '[' :: '0' :: 'm' :: cs => withoutCodes cs
  | c :: cs => c :: withoutCodes cs
  | [] => []

/-- A text in which no terminal code can start. -/
def EscapeFree (s : String) : Prop := '\x1b' ∉ s.toList

/-- No text that the report quotes has a terminal code in it. -/
structure Diagnostic.EscapeFree (d : Diagnostic) : Prop where
  message : Reckoner.EscapeFree d.message
  labels : ∀ label ∈ d.labels, Reckoner.EscapeFree label.message
  notes : ∀ note ∈ d.notes, Reckoner.EscapeFree note

/-- Nor does the line. -/
def Emission.EscapeFree : Emission → Prop
  | .report d source => d.EscapeFree ∧ ∀ line ∈ source, Reckoner.EscapeFree line
  | .summary _ => True

/-- What stands behind a code that turns a style on: one code that turns it off, and then the end or
the next style. -/
def TurnedOff (behind : List Char) : Prop :=
  ∃ inside between next, behind = inside ++ Style.off.toList ++ between ++ next ∧
    '\x1b' ∉ inside ∧ '\x1b' ∉ between ∧
    (next = [] ∨ ∃ (style : Style) (rest : List Char), next = style.escape.toList ++ rest)

/-! ### Texts without codes -/

@[simp] theorem escape_not_mem_toDigits (n : Nat) : '\x1b' ∉ Nat.toDigits 10 n :=
  fun h => absurd (isDigit_of_mem_toDigits _ h) (by decide)

@[simp] theorem escape_not_mem_id (code : Code) : '\x1b' ∉ code.id.toList := by
  cases code <;> simp [Code.id]

@[simp] theorem escape_not_mem_blanks (n : Nat) : '\x1b' ∉ (blanks n).toList := by
  simp [blanks, Text.toList_pushn]

@[simp] theorem Diagnostic.escape_not_mem_margin (d : Diagnostic) : '\x1b' ∉ d.margin.toList :=
  escape_not_mem_blanks _

@[simp] theorem Diagnostic.escape_not_mem_lineText (d : Diagnostic) :
    '\x1b' ∉ d.lineText.toList := by
  cases h : d.line <;> simp [lineText, h]

theorem Label.escapeFree_row {l : Label} {margin : String} (hmargin : EscapeFree margin)
    (h : EscapeFree l.message) : ∀ p ∈ l.row margin, EscapeFree p.text := by
  have hmark : EscapeFree ("".pushn (if l.primary then '^' else '-') (max 1 l.span.len)) := by
    cases l.primary <;> simp [EscapeFree, Text.toList_pushn]
  have hremark : EscapeFree (if l.message.isEmpty
      then "".pushn (if l.primary then '^' else '-') (max 1 l.span.len)
      else "".pushn (if l.primary then '^' else '-') (max 1 l.span.len) ++ " " ++ l.message) := by
    split
    · exact hmark
    · simpa [EscapeFree] using ⟨hmark, h⟩
  simp only [row, Piece.plain, Piece.styled, List.forall_mem_cons]
  exact ⟨by simpa [EscapeFree] using hmargin, hremark, by simp [EscapeFree],
    List.forall_mem_nil _⟩

namespace Diagnostic

variable {d : Diagnostic}

theorem escapeFree_location (d : Diagnostic) :
    ∀ p ∈ d.location, Reckoner.EscapeFree p.text := by
  rw [location]
  cases d.primarySpan? with
  | none => exact List.forall_mem_nil _
  | some span =>
    rw [List.forall_mem_singleton]
    cases d.line <;> simp [Piece.plain, Reckoner.EscapeFree]

theorem escapeFree_snippet (h : d.EscapeFree) {source : String}
    (hsource : Reckoner.EscapeFree source) :
    ∀ p ∈ d.snippet source, Reckoner.EscapeFree p.text := by
  simp only [snippet, List.forall_mem_cons, List.forall_mem_flatMap]
  refine ⟨by simp [Piece.plain, Reckoner.EscapeFree], ?_, fun l hl =>
    Label.escapeFree_row (escape_not_mem_margin d) (h.labels l hl)⟩
  have hsource : '\x1b' ∉ source.toList := hsource
  cases d.line <;> simp [Piece.plain, Reckoner.EscapeFree, hsource]

theorem escapeFree_noteRow {note : String} (h : Reckoner.EscapeFree note) :
    ∀ p ∈ d.noteRow note, Reckoner.EscapeFree p.text := by
  have h : '\x1b' ∉ note.toList := h
  simp [noteRow, Piece.plain, Piece.styled, Reckoner.EscapeFree, h]

theorem escapeFree_render (h : d.EscapeFree) {source : Option String}
    (hsource : ∀ line ∈ source, Reckoner.EscapeFree line) :
    ∀ p ∈ d.render source, Reckoner.EscapeFree p.text := by
  have hmessage : '\x1b' ∉ d.message.toList := h.message
  simp only [render, List.forall_mem_append]
  refine ⟨⟨⟨⟨?_, escapeFree_location d⟩, ?_⟩, ?_⟩, ?_⟩
  · simp [Piece.plain, Piece.styled, Reckoner.EscapeFree, hmessage]
  · cases source with
    | none => exact List.forall_mem_nil _
    | some line => exact escapeFree_snippet h (hsource line rfl)
  · exact List.forall_mem_flatMap.2 fun note hnote => escapeFree_noteRow (h.notes note hnote)
  · simp [Piece.plain, Reckoner.EscapeFree]

end Diagnostic

theorem escapeFree_summary (errors : Nat) :
    ∀ p ∈ summary errors, EscapeFree p.text := by
  rw [summary]
  split
  · exact List.forall_mem_nil _
  · split <;> simp [Piece.plain, Piece.styled, EscapeFree]

theorem Emission.EscapeFree.pieces {e : Emission} (h : e.EscapeFree) :
    ∀ p ∈ e.pieces, Reckoner.EscapeFree p.text := by
  cases e with
  | report d source => exact Diagnostic.escapeFree_render h.1 h.2
  | summary errors => exact escapeFree_summary errors

/-! ### Codes in a text -/

/-- The code that turns a style on, or the one that turns it off. -/
def Style.code : Option Style → List Char
  | some style => style.escape.toList
  | none => Style.off.toList

theorem Style.exists_code (k : Option Style) : ∃ cs, code k = '\x1b' :: cs ∧ '\x1b' ∉ cs := by
  rcases k with _ | _ | _ | _ <;> exact ⟨_, rfl, by decide⟩

/-- No code starts with another one. -/
theorem Style.code_append_inj {k k' : Option Style} {cs ds : List Char}
    (h : code k ++ cs = code k' ++ ds) : k = k' ∧ cs = ds := by
  rcases k with _ | _ | _ | _ <;> rcases k' with _ | _ | _ | _ <;>
    simp_all [code, off, escape]

section Codes

variable {k k' : Option Style} {style : Style} {cs rest a b : List Char} {ps : List Piece}

theorem withoutCodes_cons {c : Char} (hc : c ≠ '\x1b') (cs : List Char) :
    withoutCodes (c :: cs) = c :: withoutCodes cs := by
  rw [withoutCodes] <;> exact fun _ h => absurd h hc

theorem withoutCodes_append (h : '\x1b' ∉ cs) (rest : List Char) :
    withoutCodes (cs ++ rest) = cs ++ withoutCodes rest := by
  induction cs with
  | nil => rfl
  | cons c cs ih =>
    obtain ⟨hc, hcs⟩ := not_or.1 (mt List.mem_cons.2 h)
    rw [List.cons_append, withoutCodes_cons (Ne.symm hc), ih hcs, List.cons_append]

theorem withoutCodes_code (k : Option Style) (cs : List Char) :
    withoutCodes (Style.code k ++ cs) = withoutCodes cs := by
  rcases k with _ | _ | _ | _ <;> rfl

/-- A code that stands behind a text without codes starts behind this text. -/
theorem code_behind_text (h : '\x1b' ∉ cs) (heq : cs ++ rest = a ++ (Style.code k ++ b)) :
    ∃ a', a = cs ++ a' ∧ rest = a' ++ (Style.code k ++ b) := by
  obtain ⟨ds, hcode, -⟩ := Style.exists_code k
  rcases List.append_eq_append_iff.1 heq with ⟨a', ha, hrest⟩ | ⟨c, hcs, hc⟩
  · exact ⟨a', ha, hrest⟩
  · rw [hcode, List.cons_append] at hc ⊢
    cases c with
    | nil => exact ⟨[], by rw [hcs, List.append_nil, List.append_nil], by rw [hc]; rfl⟩
    | cons d c =>
      obtain rfl := (List.cons.inj hc).1
      exact absurd (hcs ▸ List.mem_append_right a List.mem_cons_self) h

/-- A code in a text that starts with a code is this one or stands behind it. -/
theorem code_behind_code (heq : Style.code k ++ rest = a ++ (Style.code k' ++ b)) :
    a = [] ∧ k = k' ∧ rest = b ∨ ∃ a', rest = a' ++ (Style.code k' ++ b) := by
  cases a with
  | nil => exact .inl ⟨rfl, Style.code_append_inj heq⟩
  | cons c a =>
    obtain ⟨ds, hcode, hds⟩ := Style.exists_code k
    rw [hcode] at heq
    obtain ⟨a', -, hrest⟩ := code_behind_text hds (List.cons.inj heq).2
    exact .inr ⟨a', hrest⟩

/-! ### Painted pieces -/

theorem toList_paintAll_cons (colors : Bool) (p : Piece) (ps : List Piece) :
    (Piece.paintAll colors (p :: ps)).toList
      = (p.paint colors).toList ++ (Piece.paintAll colors ps).toList := by
  simp [Piece.paintAll]

theorem toList_paint_plain (colors : Bool) (text : String) :
    (Piece.paint colors ⟨none, text⟩).toList = text.toList := rfl

theorem toList_paint_styled (style : Style) (text : String) :
    (Piece.paint true ⟨some style, text⟩).toList
      = Style.code (some style) ++ (text.toList ++ Style.code none) := by
  simp [Piece.paint, Style.code, Style.off]

theorem withoutCodes_paintAll (h : ∀ p ∈ ps, EscapeFree p.text) :
    withoutCodes (Piece.paintAll true ps).toList = (Piece.paintAll false ps).toList := by
  induction ps with
  | nil => rfl
  | cons p ps ih =>
    obtain ⟨hp, hps⟩ := List.forall_mem_cons.1 h
    obtain ⟨style, text⟩ := p
    have hp : '\x1b' ∉ text.toList := hp
    rw [toList_paintAll_cons, toList_paintAll_cons]
    cases style with
    | none =>
      rw [toList_paint_plain, toList_paint_plain, withoutCodes_append hp, ih hps]
    | some style =>
      have hplain : (Piece.paint false ⟨some style, text⟩).toList = text.toList := rfl
      rw [toList_paint_styled, hplain, List.append_assoc, List.append_assoc, withoutCodes_code,
        withoutCodes_append hp, withoutCodes_code, ih hps]

/-- In front of the first style there is no code. -/
theorem exists_between (h : ∀ p ∈ ps, EscapeFree p.text) :
    ∃ between next, (Piece.paintAll true ps).toList = between ++ next ∧ '\x1b' ∉ between ∧
      (next = [] ∨ ∃ (style : Style) (rest : List Char), next = style.escape.toList ++ rest) := by
  induction ps with
  | nil => exact ⟨[], [], rfl, List.not_mem_nil, .inl rfl⟩
  | cons p ps ih =>
    obtain ⟨hp, hps⟩ := List.forall_mem_cons.1 h
    obtain ⟨style, text⟩ := p
    have hp : '\x1b' ∉ text.toList := hp
    rw [toList_paintAll_cons]
    cases style with
    | none =>
      obtain ⟨between, next, heq, hbetween, hnext⟩ := ih hps
      refine ⟨text.toList ++ between, next, ?_, ?_, hnext⟩
      · rw [toList_paint_plain, heq, List.append_assoc]
      · exact List.not_mem_append hp hbetween
    | some style =>
      rw [toList_paint_styled, List.append_assoc]
      exact ⟨[], _, rfl, List.not_mem_nil, .inr ⟨style, _, rfl⟩⟩

/-- A code that turns a style on is that of a piece, and the piece turns the style off. -/
theorem turnedOff_paintAll (h : ∀ p ∈ ps, EscapeFree p.text)
    (heq : (Piece.paintAll true ps).toList = a ++ (Style.code (some style) ++ b)) :
    TurnedOff b := by
  induction ps generalizing a with
  | nil =>
    obtain ⟨cs, hcode, -⟩ := Style.exists_code (some style)
    rw [hcode] at heq
    simp [Piece.paintAll] at heq
  | cons p ps ih =>
    obtain ⟨hp, hps⟩ := List.forall_mem_cons.1 h
    obtain ⟨own, text⟩ := p
    have hp : '\x1b' ∉ text.toList := hp
    rw [toList_paintAll_cons] at heq
    cases own with
    | none =>
      obtain ⟨a', -, hrest⟩ := code_behind_text hp heq
      exact ih hps hrest
    | some own =>
      rw [toList_paint_styled, List.append_assoc, List.append_assoc] at heq
      rcases code_behind_code heq with ⟨-, -, hb⟩ | ⟨inner, hrest⟩
      · obtain ⟨between, next, hafter, hbetween, hnext⟩ := exists_between hps
        refine ⟨text.toList, between, next, ?_, hp, hbetween, hnext⟩
        rw [← hb, hafter]
        simp [Style.code]
      · -- the code stands behind the opening one, so behind the piece
        obtain ⟨inner', -, hrest⟩ := code_behind_text hp hrest
        rcases code_behind_code hrest with ⟨-, hoff, -⟩ | ⟨outer, hrest⟩
        · cases hoff
        · exact ih hps hrest

end Codes

/-! ### What is written -/

theorem emit_eq (colors : Bool) (es : List Emission) :
    emit colors es = Piece.paintAll colors (es.flatMap Emission.pieces) := by
  simp [emit, Piece.paintAll, ← String.toList_inj, List.flatMap_assoc, List.flatMap_map]

/-- Without terminal codes the coloured output is the plain one, and behind each code that turns a
style on one code turns it off before the next style and the end, if no text in it had a code. -/
theorem colors_only_add_codes {es : List Emission} (h : ∀ e ∈ es, e.EscapeFree) :
    withoutCodes (emit true es).toList = (emit false es).toList ∧
      ∀ (style : Style) (before behind : List Char),
        (emit true es).toList = before ++ style.escape.toList ++ behind → TurnedOff behind := by
  have hpieces : ∀ p ∈ es.flatMap Emission.pieces, EscapeFree p.text :=
    List.forall_mem_flatMap.2 fun e he => (h e he).pieces
  rw [emit_eq, emit_eq]
  refine ⟨withoutCodes_paintAll hpieces, fun style before behind heq => ?_⟩
  rw [List.append_assoc] at heq
  exact turnedOff_paintAll hpieces heq

/-- A report with a marked place and a note, and the summary behind it. -/
theorem colors_only_add_codes_marked_place :
    let d : Diagnostic := ⟨.invalidCharacter, "here", none, [⟨⟨1, 2⟩, "", true⟩], ["text"]⟩
    let es := [.report d (some "1%"), .summary 1]
    (∀ e ∈ es, e.EscapeFree) ∧ withoutCodes (emit true es).toList = (emit false es).toList ∧
      TurnedOff ("^\x1b[0m\n  = \x1b[1mnote\x1b[0m: text\n\n\x1b[1;31merror\x1b[0m: aborting "
        ++ "due to 1 previous error\n").toList := by
  intro d es
  have hd : d.EscapeFree :=
    ⟨by simp [d, EscapeFree], by simp [d, EscapeFree], by simp [d, EscapeFree]⟩
  have hes : ∀ e ∈ es, e.EscapeFree :=
    List.forall_mem_cons.2 ⟨⟨hd, by simp [EscapeFree]⟩, List.forall_mem_singleton.2 trivial⟩
  obtain ⟨hwithout, hoff⟩ := colors_only_add_codes hes
  refine ⟨hes, hwithout, hoff .error ("\x1b[1;31merror\x1b[0m\x1b[1m[E0001]\x1b[0m: here\n"
    ++ " --> column 2\n  |\n  | 1%\n  |  ").toList _ ?_⟩
  simp [emit, es, d, Emission.pieces, Diagnostic.render, Diagnostic.location, Diagnostic.snippet,
    Diagnostic.noteRow, Diagnostic.primarySpan?, Diagnostic.margin, Diagnostic.lineText, blanks,
    Label.row, summary, Piece.paintAll, Piece.paint, Piece.plain, Piece.styled, Style.escape,
    Text.toList_pushn, Code.id, Span.len, Span.column, Span.limit]
  rfl

end Reckoner
