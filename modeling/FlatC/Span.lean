/-!
# Spans

A span is a half-open range of byte offsets into the UTF-8 source text. Every
token, tree node and report carries one.
-/

namespace FlatC

/-- The bytes from `start` up to, and not including, `stop`. -/
structure Span where
  start : Nat
  stop : Nat
  deriving DecidableEq, Repr

namespace Span

/-- The span of something that stands nowhere in the source. -/
def zero : Span := ⟨0, 0⟩

instance : Inhabited Span := ⟨zero⟩

def length (s : Span) : Nat := s.stop - s.start

def isEmpty (s : Span) : Bool := s.start == s.stop

/-- The least span that covers both. -/
def merge (a b : Span) : Span := ⟨min a.start b.start, max a.stop b.stop⟩

/-- `a` lies inside `b`. -/
def Within (a b : Span) : Prop := b.start ≤ a.start ∧ a.stop ≤ b.stop

theorem within_merge_left (a b : Span) : a.Within (a.merge b) := by
  simp only [Within, merge]; omega

theorem within_merge_right (a b : Span) : b.Within (a.merge b) := by
  simp only [Within, merge]; omega

end Span

end FlatC
