/-!
# Spans

A *span* is a half-open range of bytes of a source text. Tokens, tree nodes and
diagnostics all carry one. `Span.join` is the least span covering two others, and
`Span.size` is the number of bytes covered, which is zero when the bounds are
reversed.
-/

namespace Frontend

/-- A half-open range of bytes in a source text. -/
structure Span where
  /-- The offset of the first byte. -/
  start : Nat
  /-- The offset just past the last byte. -/
  stop : Nat
deriving DecidableEq

namespace Span

/-- The empty span at the beginning of a text, for what has no place in it. -/
def zero : Span := ⟨0, 0⟩

/-- The empty span at the offset `n`. -/
def empty (n : Nat) : Span := ⟨n, n⟩

/-- The smallest span covering both. -/
def join (a b : Span) : Span := ⟨min a.start b.start, max a.stop b.stop⟩

/-- The number of bytes covered; zero if the span ends before it starts. -/
def size (s : Span) : Nat := s.stop - s.start

/-- The span moved `n` bytes further into a text. -/
def shift (n : Nat) (s : Span) : Span := ⟨s.start + n, s.stop + n⟩

/-- The span covering all of `s` and the spans of a list. -/
def joinAll (s : Span) (spans : List Span) : Span := spans.foldl join s

theorem join_assoc (a b c : Span) : (a.join b).join c = a.join (b.join c) := by
  simp [join, Nat.min_assoc, Nat.max_assoc]

theorem shift_join (n : Nat) (a b : Span) : (a.join b).shift n = (a.shift n).join (b.shift n) := by
  simp [join, shift, Nat.add_min_add_right, Nat.add_max_add_right]

end Span

end Frontend
