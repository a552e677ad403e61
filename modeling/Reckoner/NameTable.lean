/-!
Names and the table that hands them out. A name is the position of its text in the table, in order
of first use; equal texts get equal names, and a name keeps its text for ever. -/

namespace Reckoner

/-- A text that a name table has been given, by its position there. -/
structure Name where
  index : Nat
deriving DecidableEq, Repr, Inhabited

namespace Name

/-- The name of the empty text. -/
def empty : Name := ⟨0⟩

end Name

/-- The texts named so far, each at the index of its name. -/
structure NameTable where
  texts : Array String
deriving DecidableEq, Repr

namespace NameTable

/-- The table every line starts from: the empty text and the keyword have names. -/
def initial : NameTable := ⟨#["", "return"]⟩

/-- The name of a text, if it has one. -/
def get? (t : NameTable) (s : String) : Option Name := (t.texts.idxOf? s).map Name.mk

/-- The name of a text, which is put at the end of the table if it is new. -/
def intern (t : NameTable) (s : String) : Name × NameTable :=
  match t.get? s with
  | some n => (n, t)
  | none => (⟨t.texts.size⟩, ⟨t.texts.push s⟩)

/-- The table with names for all of some texts, given in order. -/
def internAll (t : NameTable) (ss : List String) : NameTable :=
  ss.foldl (fun t s => (t.intern s).2) t

/-- The name of a text that is in the table. -/
def nameOf (t : NameTable) (s : String) : Name := (t.get? s).getD .empty

/-- The text of a name; an index that was never handed out stands for the empty text. -/
def text (t : NameTable) (n : Name) : String := t.texts[n.index]?.getD ""

/-- Number of texts named. -/
def size (t : NameTable) : Nat := t.texts.size

/-- Whether no text is named. -/
def isEmpty (t : NameTable) : Bool := t.size == 0

end NameTable

end Reckoner
