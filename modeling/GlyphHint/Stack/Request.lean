import GlyphHint.Stack
set_option autoImplicit false

/-!
# Requests to a stack

The operations of a stack as data, with their answers, so that a sequence of operations is a list
and two stacks can be compared over all sequences.  A request that the stack cannot serve leaves it
as it was.
-/

namespace GlyphHint.Stack

/-- One operation on a stack. -/
inductive Request where
  | push (v : Int32)
  | pop
  | peek (d : Nat)
  | replace (d : Nat) (v : Int32)
  | lift (d : Nat)
  | hasRoom (n : Nat)
  | clear
  deriving DecidableEq, Repr, Inhabited

/-- The answer to a request. -/
inductive Reply where
  /-- whether the request was served or its question holds -/
  | flag (b : Bool)
  /-- the value asked for, if there is one -/
  | value (v : Option Int32)
  /-- nothing to say -/
  | nothing
  deriving DecidableEq, Repr, Inhabited

/-- Serves one request. -/
def serve (s : Stack) : Request → Reply × Stack
  | .push v =>
    match s.push? v with
    | some t => (.flag true, t)
    | none => (.flag false, s)
  | .pop =>
    match s.pop? with
    | some (v, t) => (.value (some v), t)
    | none => (.value none, s)
  | .peek d => (.value (s.peek? d), s)
  | .replace d v =>
    match s.replace? d v with
    | some (old, t) => (.value (some old), t)
    | none => (.value none, s)
  | .lift d =>
    match s.lift? d with
    | some t => (.flag true, t)
    | none => (.flag false, s)
  | .hasRoom n => (.flag (s.hasRoom n), s)
  | .clear => (.nothing, s.clear)

/-- Serves requests in order; each answer comes with the stack after it. -/
def serveAll (s : Stack) : List Request → List (Reply × Stack)
  | [] => []
  | r :: rest => s.serve r :: serveAll (s.serve r).2 rest

end GlyphHint.Stack
