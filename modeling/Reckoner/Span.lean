/-!
Places in a line. A span is a pair of byte offsets from the start of its line, and offsets are
32-bit words: the few operations that would leave that range wrap around it. -/

namespace Reckoner

/-- The part of a line from byte `start` up to, and without, byte `stop`. -/
structure Span where
  start : Nat
  stop : Nat
deriving DecidableEq, Repr, Inhabited

/-- Why a range of offsets is no span. -/
inductive SpanError where
  | startTooLarge (offset : Nat)
  | endTooLarge (offset : Nat)
deriving DecidableEq, Repr

namespace Span

/-- One more than the largest offset. -/
def limit : Nat := UInt32.size

/-- The span of what stands nowhere in the line. -/
def none : Span := ⟨0, 0⟩

/-- The empty span at an offset. -/
def point (offset : Nat) : Span := ⟨offset, offset⟩

/-- The span of a range of offsets, each of which has to fit in a word. -/
def ofRange? (start stop : Nat) : Except SpanError Span :=
  if limit ≤ start then .error (.startTooLarge start)
  else if limit ≤ stop then .error (.endTooLarge stop)
  else .ok ⟨start, stop⟩

/-- Number of bytes covered, modulo the size of a word when the ends are reversed. -/
def len (s : Span) : Nat :=
  if s.start ≤ s.stop then s.stop - s.start else limit - (s.start - s.stop)

/-- Whether the span covers nothing. -/
def isEmpty (s : Span) : Bool := s.start == s.stop

/-- The smallest span that covers both. -/
def merge (a b : Span) : Span := ⟨min a.start b.start, max a.stop b.stop⟩

/-- Column of the first byte, counted from one in words. -/
def column (s : Span) : Nat := (s.start + 1) % limit

/-- The span as it is written in dumps. -/
def text (s : Span) : String := toString s.start ++ ".." ++ toString s.stop

end Span

/-- What is wrong with the range. -/
def SpanError.message : SpanError → String
  | .startTooLarge n => "span start " ++ toString n ++ " exceeds u32::MAX"
  | .endTooLarge n => "span end " ++ toString n ++ " exceeds u32::MAX"

end Reckoner
