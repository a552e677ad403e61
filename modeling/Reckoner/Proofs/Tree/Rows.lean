import Mathlib.Data.List.Basic
import Reckoner.Proofs.Notation
import Reckoner.Proofs.Text.Lines
import Reckoner.Tree.View

/-!
The rows of a dump. A row is indented by two spaces for each level, then says what a node stands for,
and behind its last space where; it stands on one line. So a row tells the depth, the kind and the
place of a node, if no line feed is in the text that the node carries. -/

namespace Reckoner

variable {α : Type}

/-! ### What a node stands for -/

/-- What a dump says that a node stands for. -/
def NodeKind.heading (text : α → String) : NodeKind α → String
  | .scientific a => "scientific `" ++ text a ++ "`"
  | .variable a => "variable `" ++ text a ++ "`"
  | .token k => "`" ++ k.describe ++ "`"
  | .rule r => r.name

/-- A kind of nodes that its heading shows on one line and tells from other kinds. -/
def NodeKind.Legible (text : α → String) : NodeKind α → Prop
  | .scientific a | .variable a => '\n' ∉ (text a).toList
  | .token k => k.payload? = none
  | .rule _ => True

theorem TokenKind.describe_injective {k k' : TokenKind α} (hk : k.payload? = none)
    (hk' : k'.payload? = none) (h : k.describe = k'.describe) : k = k' := by
  cases k <;> cases k' <;> simp_all [describe, payload?]

theorem Rule.name_injective {r r' : Rule} (h : r.name = r'.name) : r = r' := by
  cases r <;> cases r' <;> first | rfl | simp [name] at h

namespace NodeKind

/-- A heading does not start with a space. -/
theorem exists_heading (text : α → String) (k : NodeKind α) :
    ∃ c cs, (k.heading text).toList = c :: cs ∧ c ≠ ' ' := by
  match k with
  | .rule r => cases r <;> simp [heading, Rule.name]
  | .scientific _ | .variable _ | .token _ => simp [heading]

theorem Legible.not_mem_heading {text : α → String} {k : NodeKind α} (h : k.Legible text) :
    '\n' ∉ (k.heading text).toList := by
  match k with
  | .rule r => cases r <;> simp [heading, Rule.name]
  | .scientific a | .variable a =>
    have hline : '\n' ∉ (text a).toList := h
    simp [heading, hline]
  | .token k => cases k <;> simp [heading, TokenKind.describe]

theorem heading_injective {k k' : NodeKind String} (hk : k.Legible id) (hk' : k'.Legible id)
    (h : k.heading id = k'.heading id) : k = k' := by
  have hchars := congrArg String.toList h
  match k, k' with
  | .rule r, .rule r' => rw [Rule.name_injective h]
  | .scientific a, .scientific a' | .variable a, .variable a' =>
    simpa [heading, String.toList_inj] using hchars
  | .token k, .token k' =>
    rw [TokenKind.describe_injective hk hk' (by simpa [heading] using h)]
  | .rule r, .scientific _ | .rule r, .variable _ | .rule r, .token _
  | .scientific _, .rule r | .variable _, .rule r | .token _, .rule r =>
    cases r <;> simp [heading, Rule.name] at hchars
  | .scientific _, .variable _ | .scientific _, .token _ | .variable _, .scientific _
  | .variable _, .token _ | .token _, .scientific _ | .token _, .variable _ =>
    simp [heading] at hchars

end NodeKind

/-! ### Where it stands -/

theorem not_mem_toDigits {c : Char} (hc : c.isDigit = false) (n : Nat) :
    c ∉ Nat.toDigits 10 n := by
  intro h
  rw [isDigit_of_mem_toDigits c h] at hc
  cases hc

theorem toDigits_injective {m n : Nat} (h : Nat.toDigits 10 m = Nat.toDigits 10 n) : m = n :=
  Nat.repr_injective (String.toList_inj.1 (by rwa [Nat.toList_repr, Nat.toList_repr]))

namespace Span

theorem toList_text (s : Span) :
    s.text.toList = Nat.toDigits 10 s.start ++ '.' :: '.' :: Nat.toDigits 10 s.stop := by
  simp [text, Nat.toList_repr]

theorem not_mem_text {c : Char} (hdigit : c.isDigit = false) (hpoint : c ≠ '.') (s : Span) :
    c ∉ s.text.toList := by
  rw [toList_text]
  simp [not_mem_toDigits hdigit, hpoint]

theorem text_injective {s t : Span} (h : s.text = t.text) : s = t := by
  have hsplit : ∀ u : Span, Token.splitWhile Char.isDigit u.text.toList
      = (Nat.toDigits 10 u.start, '.' :: '.' :: Nat.toDigits 10 u.stop) := by
    intro u
    rw [toList_text]
    exact Token.splitWhile_append_of_ends isDigit_of_mem_toDigits (by simp)
  have hparts := hsplit t
  rw [← h, hsplit s] at hparts
  obtain ⟨hstart, hrest⟩ := Prod.mk.inj hparts
  have hstop := (List.cons.inj (List.cons.inj hrest).2).2
  cases s
  cases t
  exact congrArg₂ Span.mk (toDigits_injective hstart) (toDigits_injective hstop)

end Span

/-! ### Rows -/

/-- What a dump says of a node, whatever its depth. -/
def Node.row (text : α → String) (n : Node α) : String :=
  n.kind.heading text ++ " " ++ n.span.text

/-- The place of a node stands behind the last space of its row. -/
theorem Node.row_injective {n n' : Node String} (hk : n.kind.Legible id) (hk' : n'.kind.Legible id)
    (h : n.row id = n'.row id) : n.kind = n'.kind ∧ n.span = n'.span := by
  have hsplit : ∀ m : Node String, Token.splitWhile (· ≠ ' ') (m.row id).toList.reverse
      = (m.span.text.toList.reverse, ' ' :: (m.kind.heading id).toList.reverse) := by
    intro m
    have hrow : (m.row id).toList.reverse
        = m.span.text.toList.reverse ++ ' ' :: (m.kind.heading id).toList.reverse := by
      simp [row]
    rw [hrow]
    refine Token.splitWhile_append_of_ends (fun c hc => decide_eq_true ?_) (by simp)
    rintro rfl
    exact m.span.not_mem_text rfl (by decide) (List.mem_reverse.1 hc)
  have hparts := hsplit n'
  rw [← h, hsplit n] at hparts
  obtain ⟨hspan, hkind⟩ := Prod.mk.inj hparts
  have hspan := String.toList_inj.1 (List.reverse_injective hspan)
  have hkind := String.toList_inj.1 (List.reverse_injective (List.cons.inj hkind).2)
  exact ⟨NodeKind.heading_injective hk hk' hkind, Span.text_injective hspan⟩

namespace View.Entry

/-- The node that an entry shows, without its children. -/
def node (e : Entry α) : Node α := ⟨e.kind, e.span, []⟩

/-- The line of a dump for an entry, without the line feed that closes it. -/
def row (text : α → String) (e : Entry α) : String :=
  "".pushn ' ' (2 * e.depth) ++ e.node.row text

variable {text : α → String}

theorem line_eq (text : α → String) (e : Entry α) : e.line text = e.row text ++ "\n" := by
  obtain ⟨depth, kind, span⟩ := e
  cases kind <;>
    simp [line, row, node, Node.row, NodeKind.heading, NodeKind.ruleName, String.append_assoc]

theorem toList_row (text : α → String) (e : Entry α) :
    (e.row text).toList = List.replicate (2 * e.depth) ' ' ++ (e.node.row text).toList := by
  rw [row, String.toList_append, Text.toList_pushn, String.toList_empty, List.nil_append]

/-- The spaces in front of a row tell the depth. -/
theorem splitWhile_row (text : α → String) (e : Entry α) :
    Token.splitWhile (· = ' ') (e.row text).toList
      = (List.replicate (2 * e.depth) ' ', (e.node.row text).toList) := by
  obtain ⟨c, cs, hheading, hc⟩ := e.node.kind.exists_heading text
  rw [toList_row]
  refine Token.splitWhile_append_of_ends (fun d hd => ?_) fun d hd => ?_
  · exact decide_eq_true (List.eq_of_mem_replicate hd)
  · rw [Node.row, String.toList_append, String.toList_append, hheading] at hd
    obtain rfl := Option.some.inj hd
    exact decide_eq_false hc

theorem row_injective {e e' : Entry String} (hk : e.kind.Legible id) (hk' : e'.kind.Legible id)
    (h : e.row id = e'.row id) : e = e' := by
  have hparts := splitWhile_row id e'
  rw [← h, splitWhile_row] at hparts
  obtain ⟨hspaces, hrow⟩ := Prod.mk.inj hparts
  have hlength := congrArg List.length hspaces
  rw [List.length_replicate, List.length_replicate] at hlength
  have hdepth : e.depth = e'.depth := by omega
  obtain ⟨hkind, hspan⟩ := Node.row_injective hk hk' (String.toList_inj.1 hrow)
  cases e
  cases e'
  exact congr (congrArg₂ Entry.mk hdepth hkind) hspan

theorem map_row_injective : ∀ {es fs : List (Entry String)}, (∀ e ∈ es, e.kind.Legible id) →
    (∀ e ∈ fs, e.kind.Legible id) → es.map (row id) = fs.map (row id) → es = fs
  | [], [], _, _, _ => rfl
  | [], _ :: _, _, _, h | _ :: _, [], _, _, h => by cases h
  | e :: es, f :: fs, hes, hfs, h => by
    obtain ⟨he, hes⟩ := List.forall_mem_cons.1 hes
    obtain ⟨hf, hfs⟩ := List.forall_mem_cons.1 hfs
    obtain ⟨hrow, hrows⟩ := List.cons.inj h
    rw [row_injective he hf hrow, map_row_injective hes hfs hrows]

/-- A row stands on one line. -/
theorem oneLine_row {e : Entry α} (hk : e.kind.Legible text) : Text.OneLine (e.row text) := by
  have hheading : '\n' ∉ (e.node.kind.heading text).toList := hk.not_mem_heading
  refine ⟨?_, fun h => ?_⟩
  · have hspan := e.node.span.not_mem_text (c := '\n') rfl (by decide)
    rw [toList_row, Node.row]
    simp [hheading, hspan]
  · have hne : e.node.span.text.toList ≠ [] := by simp [Span.toList_text]
    rw [toList_row, Node.row, String.toList_append, ← List.append_assoc,
      List.getLast?_append_of_ne_nil _ hne] at h
    exact e.node.span.not_mem_text rfl (by decide) (List.mem_of_getLast? h)

end View.Entry

end Reckoner
