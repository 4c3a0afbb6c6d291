/-!
Source positions. A span is a half-open range of byte offsets; names that no
source text introduces carry the one span that starts at the largest offset.
-/

namespace MicroC

structure Span where
  start : Nat
  stop : Nat
deriving DecidableEq, Repr, Inhabited

namespace Span

/-- The largest offset. A text that long cannot be loaded, so no source position uses it. -/
def maxOffset : Nat := 4294967295

/-- The position of the names every program starts with. -/
def builtin : Span := ⟨maxOffset, maxOffset⟩

def ofLength (start len : Nat) : Span := ⟨start, start + len⟩

def length (s : Span) : Nat := s.stop - s.start

def isEmpty (s : Span) : Bool := s.start == s.stop

def isBuiltin (s : Span) : Bool := s.start == maxOffset

/-- The least span that covers both. -/
def join (s t : Span) : Span := ⟨min s.start t.start, max s.stop t.stop⟩

def text (s : Span) : String :=
  if s.isBuiltin then "<builtin>" else s!"{s.start}..{s.stop}"

end Span

end MicroC
