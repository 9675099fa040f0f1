import GlyphHint.Proofs.Limits.Mention
import GlyphHint.Proofs.Text.Numeral
set_option autoImplicit false

/-!
# Limits written as a document

Limits are written as an object with every limit in the fixed order and no blanks (`serialise`).
Among the texts of limits documents this is one that mentions every limit with its value
(`mentions_written`, `writes_serialise`).
-/

namespace GlyphHint

open Json

namespace Limits.Document

/-- The text of a member that sets a limit. -/
def memberText (field : Field) (n : Nat) : String :=
  "\"" ++ key field ++ "\":" ++ toString n

/-- The text of limits. -/
def serialise (l : Limits) : String :=
  "\x7b" ++ ",".intercalate (order.map fun field => memberText field (l.get field)) ++ "\x7d"

/-- The member that sets a limit, with its key written plainly. -/
def writtenMember (field : Field) (n : Nat) : Member :=
  ((key field).toList.map Char.toNat, [.natural (Nat.toDigits 10 n)])

theorem unitsOf_plain (cs : List Char) : UnitsOf cs (cs.map Char.toNat) := by
  induction cs with
  | nil => exact .nil
  | cons c cs ih => exact .scalar ih

theorem spelledUnits_key (field : Field) :
    SpelledUnits ((key field).toList.map Char.toNat) (key field).toList := by
  apply spelledUnits_plain
  cases field <;> simp [key]

theorem isNumeral_toDigits (n : Nat) : IsNumeral [.natural (Nat.toDigits 10 n)] n :=
  ⟨_, Text.isInteger_toDigits n, rfl, Nat.ofDigitChars_ten_toDigits⟩

theorem mentions_written (value : Field → Nat) (fields : List Field) :
    Mentions (fields.map fun field => (field, value field))
      (fields.map fun field => writtenMember field (value field)) := by
  induction fields with
  | nil => exact .nil
  | cons field fields ih =>
    exact .known (unitsOf_plain _) (isNumeral_toDigits _) ih

/-! ## The text -/

theorem writes_member (field : Field) (n : Nat) {tokens : List Token} {text : List Char}
    (behind : Writes tokens text) :
    Writes ((writtenMember field n).tokens ++ tokens) ((memberText field n).toList ++ text) := by
  have hdigits : (toString n).toList = Nat.toDigits 10 n := Nat.toList_repr
  have h := Writes.spelled (.string (spelledUnits_key field))
    (Writes.spelled .colon (Writes.spelled (.natural (Text.isInteger_toDigits n)) behind))
  simpa [memberText, writtenMember, Member.tokens, hdigits] using h

theorem writes_members (value : Field → Nat) {fields : List Field} {tokens : List Token}
    {text : List Char} (hne : fields ≠ []) (behind : Writes tokens text) :
    Writes
      (listed ((fields.map fun field => writtenMember field (value field)).map Member.tokens) ++
        tokens)
      ([','].intercalate (fields.map fun field => (memberText field (value field)).toList) ++
        text) := by
  induction fields with
  | nil => exact absurd rfl hne
  | cons field fields ih =>
    cases fields with
    | nil =>
      simp only [List.map_cons, List.map_nil, listed_singleton, List.intercalate_singleton]
      exact writes_member field (value field) behind
    | cons next fields =>
      simp only [List.map_cons, listed_cons_cons, List.intercalate_cons_cons, List.append_assoc]
      exact writes_member field (value field) (Writes.spelled .comma (ih (by simp)))

/-- The text of limits writes an object with all of them. -/
theorem writes_serialise (l : Limits) :
    Writes (objectTokens (order.map fun field => writtenMember field (l.get field)))
      (serialise l).toList := by
  have hend : Writes [.closeObject] ['\x7d'] :=
    Writes.spelled .closeObject (.nil (List.forall_mem_nil _))
  have hfields : order ≠ [] := nofun
  have h := Writes.spelled .openObject (writes_members l.get hfields hend)
  simpa [serialise, objectTokens, Function.comp_def] using h

end Limits.Document

end GlyphHint
