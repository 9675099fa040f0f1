import GlyphHint.Limits.Document
import GlyphHint.Proofs.Json.Value
import Mathlib.Algebra.Group.Nat.Defs
set_option autoImplicit false

/-!
# Reading limits documents

What a limits document sets is decided member by member or element by element: each one is absorbed
into the settings read so far or refused (`ofTokens?_objectTokens`, `ofTokens?_arrayTokens`).  Only
the characters of a key and the value of a numeral count; a member of another name leaves the
settings as they are, whatever its value is.
-/

namespace GlyphHint

open Json Limits

/-! ## Numerals -/

namespace Text

theorem le_ofDigitChars (digits : List Char) (n : Nat) : n ≤ Nat.ofDigitChars 10 digits n := by
  induction digits generalizing n with
  | nil => exact Nat.le_refl n
  | cons c digits ih =>
    rw [Nat.ofDigitChars_cons]
    have := ih (10 * n + (c.toNat - '0'.toNat))
    omega

/-- Reading stops at the first digit that is too much, and then the whole number is too great. -/
theorem extendNatural?_eq {digits : List Char} (h : ∀ c ∈ digits, c.isDigit = true) {n : Nat}
    (hn : n ≤ maxWord64) :
    extendNatural? n digits =
      if Nat.ofDigitChars 10 digits n ≤ maxWord64 then some (Nat.ofDigitChars 10 digits n)
      else none := by
  induction digits generalizing n with
  | nil => rw [extendNatural?, Nat.ofDigitChars_nil, if_pos hn]
  | cons c digits ih =>
    rw [List.forall_mem_cons] at h
    rw [extendNatural?, digit?, if_pos h.1, Nat.ofDigitChars_cons]
    by_cases hle : 10 * n + (c.toNat - '0'.toNat) ≤ maxWord64
    · simp only [if_pos hle]
      exact ih h.2 hle
    · have hgreat := le_ofDigitChars digits (10 * n + (c.toNat - '0'.toNat))
      simp only [if_neg hle]
      rw [if_neg (by omega)]

theorem natural?_eq {digits : List Char} (h : AreDecimal digits) :
    natural? digits =
      if Nat.ofDigitChars 10 digits 0 < 2 ^ 64 then some (Nat.ofDigitChars 10 digits 0)
      else none := by
  have hlimit : ∀ n, n < 2 ^ 64 ↔ n ≤ maxWord64 := by
    intro n
    unfold maxWord64
    omega
  simp only [hlimit]
  rw [← extendNatural?_eq h.2 (Nat.zero_le _)]
  unfold natural?
  split
  · exact absurd rfl h.1
  · rfl

end Text

namespace Limits.Document

/-- The tokens are one unsigned number in plain digits, and this is its value. -/
def IsNumeral (value : List Token) (n : Nat) : Prop :=
  ∃ digits, IsInteger digits ∧ value = [.natural digits] ∧ Nat.ofDigitChars 10 digits 0 = n

/-- The limit that the tokens of a value stand for. -/
def numeral? : List Token → Option Nat
  | [.natural digits] => Text.natural? digits
  | _ => none

variable {value : List Token} {n : Nat}

theorem IsNumeral.isValue (h : IsNumeral value n) : IsValue value := by
  obtain ⟨digits, hdigits, rfl, -⟩ := h
  exact .natural hdigits

theorem numeral?_of_isNumeral (h : IsNumeral value n) (hn : n < 2 ^ 64) :
    numeral? value = some n := by
  obtain ⟨digits, hdigits, rfl, rfl⟩ := h
  rw [numeral?, Text.natural?_eq hdigits.1, if_pos hn]

/-- A value other than a numeral below `2 ^ 64` stands for no limit. -/
theorem numeral?_eq_none (hvalue : IsValue value) (h : ∀ n < 2 ^ 64, ¬ IsNumeral value n) :
    numeral? value = none := by
  cases hvalue with
  | @natural digits hdigits =>
    rw [numeral?, Text.natural?_eq hdigits.1, if_neg]
    exact fun hn => h _ hn ⟨digits, hdigits, rfl, rfl⟩
  | _ => rfl

/-! ## Objects -/

/-- What a member of an object adds to the settings read so far, if it is not refused. -/
def absorb (settings : Settings) (m : Member) : Option Settings := do
  let name ← characters? m.1
  match field? name with
  | none => some settings
  | some field =>
    match settings.get? field with
    | some _ => none
    | none => (numeral? m.2).map (settings.set field)

/-- How the reading goes on behind a member. -/
def readBehind (settings : Settings) : List Token → Option Settings
  | .comma :: rest => readMembers settings rest
  | [.closeObject] => some settings
  | _ => none

/-- A member is absorbed, and the reading goes on behind it. -/
theorem readMembers_member {m : Member} (h : IsValue m.2) (settings : Settings)
    (tail : List Token) :
    readMembers settings (m.tokens ++ tail) = (absorb settings m).bind (readBehind · tail) := by
  obtain ⟨units, value⟩ := m
  have hskip : skip .value [] (value ++ tail) = some tail := by
    rw [h.skips, skip]
  rw [Member.tokens, List.cons_append, List.cons_append, readMembers.eq_def, absorb]
  simp only
  cases hname : characters? units with
  | none => rfl
  | some name =>
    simp only [Option.bind_eq_bind, Option.bind_some]
    cases hfield : field? name with
    | none =>
      simp only [Option.bind_some]
      -- the value is stepped over, and what follows it decides
      split
      · next heq => cases heq.symm.trans hskip; rfl
      · next heq => cases heq.symm.trans hskip; rfl
      · next hcomma hclose =>
        unfold readBehind
        split
        · exact absurd hskip (hcomma _)
        · exact absurd hskip hclose
        · rfl
    | some field =>
      simp only
      cases hget : settings.get? field with
      | some _ => rfl
      | none =>
        simp only
        -- of all values only a natural number stands alone in front of what follows
        cases h with
        | @natural digits hdigits =>
          simp only [numeral?, List.singleton_append]
          split
          · next heq => cases heq; cases Text.natural? digits <;> rfl
          · next heq => cases heq; cases Text.natural? digits <;> rfl
          · next hcomma hclose =>
            cases Text.natural? digits with
            | none => rfl
            | some n =>
              simp only [Option.map_some, Option.bind_some]
              unfold readBehind
              split
              · exact absurd rfl (hcomma digits _ rfl)
              · exact absurd rfl (hclose digits rfl)
              · rfl
        | _ => rfl

/-- The members behind an opening brace or a comma are absorbed in turn. -/
theorem readMembers_listed {members : List Member} (hne : members ≠ [])
    (h : ∀ m ∈ members, IsValue m.2) (settings : Settings) :
    readMembers settings (listed (members.map Member.tokens) ++ [.closeObject]) =
      members.foldlM absorb settings := by
  induction members generalizing settings with
  | nil => exact absurd rfl hne
  | cons m members ih =>
    rw [List.forall_mem_cons] at h
    cases members with
    | nil =>
      rw [List.map_cons, List.map_nil, listed_singleton, readMembers_member h.1]
      rfl
    | cons next members =>
      rw [List.map_cons, List.map_cons, listed_cons_cons, List.append_assoc,
        readMembers_member h.1, List.foldlM_cons]
      exact congrArg _ (funext (ih (by simp) h.2))

/-- An object is read by absorbing its members in turn. -/
theorem ofTokens?_objectTokens {members : List Member} (h : ∀ m ∈ members, IsValue m.2) :
    ofTokens? (objectTokens members) = members.foldlM absorb {} := by
  cases members with
  | nil => rfl
  | cons m members =>
    rw [← readMembers_listed (by simp) h]
    obtain ⟨behind, hbehind⟩ := exists_listed_cons m.tokens (members.map Member.tokens)
    rw [objectTokens, List.map_cons, hbehind]
    rfl

/-! ## Arrays -/

/-- Puts the limits that the elements stand for into the fields in turn. -/
def fill (settings : Settings) : List (List Token) → List Field → Option Settings
  | [], _ => some settings
  | _ :: _, [] => none
  | element :: elements, field :: fields =>
    (numeral? element).bind fun n => fill (settings.set field n) elements fields

/-- How the reading goes on behind an element. -/
def readBehindElement (settings : Settings) (fields : List Field) : List Token → Option Settings
  | .comma :: rest => readElements settings fields rest
  | [.closeArray] => some settings
  | _ => none

/-- An element is put into its field, and the reading goes on behind it. -/
theorem readElements_element {element : List Token} (h : IsValue element) (settings : Settings)
    (field : Field) (fields : List Field) (tail : List Token) :
    readElements settings (field :: fields) (element ++ tail) =
      (numeral? element).bind fun n => readBehindElement (settings.set field n) fields tail := by
  cases h with
  | @natural digits hdigits =>
    rw [numeral?, List.singleton_append, readElements.eq_def]
    split
    · next heq hfields => cases heq; cases hfields; cases Text.natural? digits <;> rfl
    · next heq hfields => cases heq; cases hfields; cases Text.natural? digits <;> rfl
    · next hclose hcomma =>
      cases Text.natural? digits with
      | none => rfl
      | some n =>
        simp only [Option.bind_some]
        unfold readBehindElement
        split
        · exact absurd rfl (hcomma _ _ _ _ rfl)
        · exact absurd rfl (hclose _ _ _ rfl)
        · rfl
  | _ => rfl

theorem readElements_listed {elements : List (List Token)} (hne : elements ≠ [])
    (h : ∀ e ∈ elements, IsValue e) (settings : Settings) (fields : List Field) :
    readElements settings fields (listed elements ++ [.closeArray]) =
      fill settings elements fields := by
  induction elements generalizing settings fields with
  | nil => exact absurd rfl hne
  | cons element elements ih =>
    rw [List.forall_mem_cons] at h
    cases fields with
    | nil =>
      rfl
    | cons field fields =>
      cases elements with
      | nil =>
        rw [listed_singleton, readElements_element h.1]
        rfl
      | cons next elements =>
        rw [listed_cons_cons, List.append_assoc, readElements_element h.1, fill]
        exact congrArg _ (funext fun n => ih (by simp) h.2 (settings.set field n) fields)

/-- An array is read by filling the fields in their order. -/
theorem ofTokens?_arrayTokens {elements : List (List Token)} (h : ∀ e ∈ elements, IsValue e) :
    ofTokens? (arrayTokens elements) = fill {} elements order := by
  cases elements with
  | nil => rfl
  | cons element elements =>
    rw [← readElements_listed (by simp) h]
    obtain ⟨behind, hbehind⟩ := exists_listed_cons element elements
    rw [arrayTokens, hbehind]
    have helement := h element (by simp)
    cases helement <;> rfl

end Limits.Document

end GlyphHint
