import AsOf.Instant.Text

/-!
# Spans

A span is a stretch of the time line with a first instant and an upper edge.
The edge is an instant that still belongs to the span, an instant that does not,
or absent.  Two spans that overlap or meet at an edge have a union, which is
again a span.
-/

namespace AsOf

/-- The upper end of a span. -/
inductive Edge where
  | included (key : Instant)
  | excluded (key : Instant)
  | unbounded
  deriving DecidableEq

namespace Edge

def key? : Edge -> Option Instant
  | included key => some key
  | excluded key => some key
  | unbounded => none

/-- Whether an instant lies on the inner side of an edge. -/
def admits : Edge -> Instant -> Bool
  | included upper, key => key ≤ upper
  | excluded upper, key => key < upper
  | unbounded, _ => true

/-- Whether a span that starts at an instant overlaps or meets one with this edge. -/
def reaches : Edge -> Instant -> Bool
  | included upper, start => start ≤ upper
  | excluded upper, start => start ≤ upper
  | unbounded, _ => true

/-- The outer one of two edges; of two at the same instant, the one that includes it. -/
def outer : Edge -> Edge -> Edge
  | unbounded, _ => unbounded
  | _, unbounded => unbounded
  | included x, included y => included (if y ≤ x then x else y)
  | excluded x, excluded y => excluded (if y ≤ x then x else y)
  | included x, excluded y => if y ≤ x then included x else excluded y
  | excluded x, included y => if x ≤ y then included y else excluded x

instance : Inspect Edge where
  inspect
    | included key => Text.holding "Included" (inspect key)
    | excluded key => Text.holding "Excluded" (inspect key)
    | unbounded => "Unbounded"

end Edge

/-- A stretch of the time line. -/
structure Span where
  start : Instant
  edge : Edge
  deriving DecidableEq

namespace Span

def contains (s : Span) (key : Instant) : Bool :=
  decide (s.start ≤ key) && s.edge.admits key

/-- Whether two spans overlap or meet at an edge. -/
def touches (s t : Span) : Bool :=
  s.edge.reaches t.start && t.edge.reaches s.start

/-- The span of two that overlap or meet, none if they lie apart. -/
def union? (s t : Span) : Option Span :=
  if s.touches t then some ⟨min s.start t.start, s.edge.outer t.edge⟩ else none

/-- The union with a newer span, which takes over if the two lie apart. -/
def join (s t : Span) : Span :=
  (s.union? t).getD t

/-- Cut a span back so that it does not include an instant or anything later. -/
def cutBefore (s : Span) (key : Instant) : Span :=
  match s.edge with
  | .excluded upper =>
      if upper ≤ key then s else { s with edge := .excluded key }
  | _ =>
      { s with edge := .excluded key }

/-- A span is upright if its edge does not lie before its start. -/
def Upright (s : Span) : Prop :=
  forall upper, s.edge.key? = some upper -> s.start ≤ upper

instance : Inspect Span where
  inspect s := Text.record "Coverage" [("from", inspect s.start), ("until", inspect s.edge)]

end Span
end AsOf
