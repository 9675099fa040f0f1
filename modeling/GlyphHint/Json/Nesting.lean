import GlyphHint.Json.Token
set_option autoImplicit false

/-!
# Stepping over JSON values

A value that is not read is stepped over token by token.  The machine keeps the containers that are
still open, innermost first, and the place inside the innermost one, which decides the tokens that
may come next; so values may nest to any depth.
-/

namespace GlyphHint.Json

/-- A container that is still open. -/
inductive Frame where
  | array
  | object
  deriving DecidableEq, Repr, Inhabited

/-- Where in a value the reading stands. -/
inductive Place where
  /-- before a value -/
  | value
  /-- behind the opening bracket of an array -/
  | element
  /-- behind the opening brace of an object -/
  | firstKey
  /-- behind a comma of an object -/
  | key
  /-- behind a key -/
  | colon
  /-- behind a value -/
  | after
  deriving DecidableEq, Repr, Inhabited

/-- The place and open containers after a token, if the token may stand there. -/
def advance : Place → List Frame → Token → Option (Place × List Frame)
  | .element, .array :: frames, .closeArray => some (.after, frames)
  | .value, frames, t | .element, frames, t =>
    match t with
    | .literal | .string _ | .natural _ | .number => some (.after, frames)
    | .openArray => some (.element, .array :: frames)
    | .openObject => some (.firstKey, .object :: frames)
    | _ => none
  | .firstKey, frames, .string _ | .key, frames, .string _ => some (.colon, frames)
  | .firstKey, .object :: frames, .closeObject => some (.after, frames)
  | .colon, frames, .colon => some (.value, frames)
  | .after, .array :: frames, .comma => some (.value, .array :: frames)
  | .after, .array :: frames, .closeArray => some (.after, frames)
  | .after, .object :: frames, .comma => some (.key, .object :: frames)
  | .after, .object :: frames, .closeObject => some (.after, frames)
  | _, _, _ => none

/-- Steps over the rest of a value; gives the tokens behind it. -/
def skip : Place → List Frame → List Token → Option (List Token)
  | .after, [], tokens => some tokens
  | _, _, [] => none
  | place, frames, t :: tokens =>
    match advance place frames t with
    | none => none
    | some (next, opened) => skip next opened tokens

theorem length_of_skip {place : Place} {frames : List Frame} {tokens rest : List Token}
    (h : skip place frames tokens = some rest) : rest.length ≤ tokens.length := by
  fun_induction skip place frames tokens with
  | case1 => simp_all
  | case2 => simp at h
  | case3 => simp at h
  | case4 _ _ _ _ _ _ _ _ ih =>
    have := ih h
    simp only [List.length_cons]
    omega

theorem length_of_skip_value {tokens rest : List Token}
    (h : skip .value [] tokens = some rest) : rest.length < tokens.length := by
  cases tokens with
  | nil => simp [skip] at h
  | cons t tokens =>
    simp only [skip] at h
    split at h
    · cases h
    · have := length_of_skip h
      simp only [List.length_cons]
      omega

end GlyphHint.Json
