import TracePattern.Key

/-!
# Expressions

An expression describes a pattern over a stream of events.

* `Expr`: events to wait for, sequences, filters, groups by key and recorded expressions;
* `Expr.kind`: the name of a node, as sources and locations show it;
* `Expr.size`: the number of nodes;
* `Expr.source`: the expression as pseudo-code.
-/

namespace TracePattern

/-- A pattern over a stream of events. -/
inductive Expr
  /-- Waits for an event that satisfies a condition. -/
  | event (condition : Condition)
  /-- Waits for an event, feeds the same event to the first child, then runs the children in
  order. -/
  | eventThen (condition : Condition) (children : List Expr)
  /-- The children one after another. -/
  | sequence (children : List Expr)
  /-- The children side by side, each of which sees the events that satisfy a condition. -/
  | filter (condition : Condition) (children : List Expr)
  /-- One copy of the template for every key, which sees the events with that key. -/
  | groupBy (key : KeyExtractor) (template : Expr)
  /-- Every result of the inner expression is reported to a sink. -/
  | record (sink : Nat) (inner : Expr)

namespace Expr

/-- Waits for any event and captures a property. -/
def tap (property key : String) : Expr := .event (.tapProperty property key)

/-- The name of a node. -/
def kind : Expr → String
  | .event _ => "match"
  | .eventThen _ _ => "match"
  | .sequence _ => "sequence"
  | .filter _ _ => "filter"
  | .groupBy _ _ => "group_by"
  | .record _ _ => "record"

mutual
/-- The number of nodes. -/
def size : Expr → Nat
  | .event _ => 1
  | .eventThen _ children => 1 + sizes children
  | .sequence children => 1 + sizes children
  | .filter _ children => 1 + sizes children
  | .groupBy _ template => 1 + template.size
  | .record _ inner => 1 + inner.size

/-- The number of nodes of several expressions. -/
def sizes : List Expr → Nat
  | [] => 0
  | e :: rest => e.size + sizes rest
end

theorem size_le_sizes {e : Expr} {es : List Expr} (h : e ∈ es) : e.size ≤ sizes es := by
  induction es with
  | nil => cases h
  | cons d rest ih =>
    rw [sizes]
    rcases List.mem_cons.1 h with rfl | h
    · omega
    · have := ih h
      omega

/-! ### Printing -/

mutual
/-- The expression as pseudo-code. -/
def source : Expr → String
  | .event condition => "match(" ++ condition.source ++ ")"
  | .eventThen condition children =>
    "match(" ++ condition.source ++ ") \x7b " ++ sources children ++ " \x7d"
  | .sequence children => "sequence \x7b " ++ sources children ++ " \x7d"
  | .filter condition children =>
    "filter(" ++ condition.source ++ ") \x7b " ++ sources children ++ " \x7d"
  | .groupBy key template => "group_by(" ++ key.text ++ ") \x7b " ++ template.source ++ " \x7d"
  | .record _ inner => "record \x7b " ++ inner.source ++ " \x7d"

/-- Expressions with commas between them. -/
def sources : List Expr → String
  | [] => ""
  | [e] => e.source
  | e :: rest => e.source ++ ", " ++ sources rest
end

end Expr

end TracePattern
