import GlyphHint.Proofs.Limits.Document
import Mathlib.Data.List.Forall2
set_option autoImplicit false

/-!
# Limits that a document mentions

An object that mentions some limits, each one at most once, sets these limits, in whatever order
they stand and whatever other members stand between them (`foldlM_absorb_of_mentions`).  An array of
numerals sets the first limits of the fixed order (`fill_of_numerals`).  A second mention of a
limit, an element too many and a limit with another value than a numeral below `2 ^ 64` are refused.
-/

namespace GlyphHint

open Json Limits

namespace Settings

variable {known : List (Field × Nat)} {field : Field} {n : Nat}

/-- Sets limits in turn. -/
def assign (settings : Settings) (known : List (Field × Nat)) : Settings :=
  known.foldl (fun s p => s.set p.1 p.2) settings

theorem get?_assign_of_not_mem (settings : Settings) (h : field ∉ known.map Prod.fst) :
    (settings.assign known).get? field = settings.get? field := by
  induction known generalizing settings with
  | nil => rfl
  | cons p known ih =>
    rw [List.map_cons, List.mem_cons, not_or] at h
    have hbehind := ih (settings.set p.1 p.2) h.2
    rw [get?_set, if_neg (Ne.symm h.1)] at hbehind
    exact hbehind

theorem get?_assign_of_mem (settings : Settings) (hnodup : (known.map Prod.fst).Nodup)
    (h : (field, n) ∈ known) : (settings.assign known).get? field = some n := by
  induction known generalizing settings with
  | nil => cases h
  | cons p known ih =>
    rw [List.map_cons, List.nodup_cons] at hnodup
    obtain rfl | h := List.mem_cons.1 h
    · have hbehind := get?_assign_of_not_mem (settings.set field n) hnodup.1
      rw [get?_set, if_pos rfl] at hbehind
      exact hbehind
    · exact ih (settings.set p.1 p.2) hnodup.2 h

end Settings

namespace Limits

/-- The limits are the default ones but for these. -/
structure IsDefaultBut (l : Limits) (known : List (Field × Nat)) : Prop where
  given : ∀ p ∈ known, l.get p.1 = p.2
  untouched : ∀ field, field ∉ known.map Prod.fst → l.get field = ({} : Limits).get field

theorem isDefaultBut_assign {known : List (Field × Nat)} (hnodup : (known.map Prod.fst).Nodup) :
    ((({} : Settings).assign known).applyTo {}).IsDefaultBut known where
  given p hp := by
    rw [Settings.get_applyTo, Settings.get?_assign_of_mem {} hnodup hp]
    rfl
  untouched field hfield := by
    rw [Settings.get_applyTo, Settings.get?_assign_of_not_mem {} hfield]
    cases field <;> rfl

theorem ext_get {l k : Limits} (h : ∀ field, l.get field = k.get field) : l = k := by
  obtain ⟨length, capacity, steps⟩ := l
  obtain ⟨length', capacity', steps'⟩ := k
  obtain rfl : length = length' := h .maxProgramLength
  obtain rfl : capacity = capacity' := h .stackCapacity
  obtain rfl : steps = steps' := h .maxSteps
  rfl

theorem IsDefaultBut.unique {l k : Limits} {known : List (Field × Nat)} (h : l.IsDefaultBut known)
    (hk : k.IsDefaultBut known) : l = k := by
  apply ext_get
  intro field
  by_cases hfield : field ∈ known.map Prod.fst
  · obtain ⟨p, hp, rfl⟩ := List.mem_map.1 hfield
    rw [h.given p hp, hk.given p hp]
  · rw [h.untouched field hfield, hk.untouched field hfield]

namespace Document

theorem nodup_order : order.Nodup := by
  decide

theorem mem_order (field : Field) : field ∈ order := by
  cases field <;> decide

theorem field?_key (field : Field) : field? (key field).toList = some field := by
  cases field <;> rfl

theorem field?_eq_none {name : List Char} (h : ∀ field, name ≠ (key field).toList) :
    field? name = none := by
  simp only [field?, List.find?_eq_none, decide_eq_true_eq]
  exact fun field _ => (h field).symm

section Members

variable {m : Member} {members : List Member} {known : List (Field × Nat)} {field : Field}
  {settings settings' : Settings}

/-- The key of the member is the name of the limit, however it is written. -/
def IsNamed (m : Member) (field : Field) : Prop :=
  UnitsOf (key field).toList m.1

/-- The key of the member is text, and none of the names of limits. -/
def IsOther (m : Member) : Prop :=
  ∃ name, UnitsOf name m.1 ∧ ∀ field, name ≠ (key field).toList

/-- The members mention these limits, in this order and mixed with members of other names. -/
inductive Mentions : List (Field × Nat) → List Member → Prop where
  | nil : Mentions [] []
  | known {field : Field} {n : Nat} {m : Member} {known : List (Field × Nat)}
      {members : List Member} (named : IsNamed m field) (numeral : IsNumeral m.2 n)
      (behind : Mentions known members) : Mentions ((field, n) :: known) (m :: members)
  | other {m : Member} {known : List (Field × Nat)} {members : List Member} (other : IsOther m)
      (isValue : IsValue m.2) (behind : Mentions known members) : Mentions known (m :: members)

theorem Mentions.isValue (h : Mentions known members) : ∀ m ∈ members, IsValue m.2 := by
  induction h with
  | nil => exact List.forall_mem_nil _
  | known named numeral behind ih => exact List.forall_mem_cons.2 ⟨numeral.isValue, ih⟩
  | other other isValue behind ih => exact List.forall_mem_cons.2 ⟨isValue, ih⟩

theorem absorb_of_named (h : IsNamed m field) :
    absorb settings m =
      match settings.get? field with
      | some _ => none
      | none => (numeral? m.2).map (settings.set field) := by
  cases hget : settings.get? field <;> simp [absorb, characters?_of_unitsOf h, field?_key, hget]

theorem absorb_of_other (h : IsOther m) : absorb settings m = some settings := by
  obtain ⟨name, hname, hunknown⟩ := h
  rw [absorb, characters?_of_unitsOf hname]
  simp only [Option.bind_eq_bind, Option.bind_some, field?_eq_none hunknown]

/-- Limits that are mentioned once each are set, and nothing else is. -/
theorem foldlM_absorb_of_mentions (h : Mentions known members)
    (hnodup : (known.map Prod.fst).Nodup) (hbound : ∀ p ∈ known, p.2 < 2 ^ 64)
    (hfresh : ∀ p ∈ known, settings.get? p.1 = none) :
    members.foldlM absorb settings = some (settings.assign known) := by
  induction h generalizing settings with
  | nil => rfl
  | @known field n m known members named numeral behind ih =>
    rw [List.map_cons, List.nodup_cons] at hnodup
    rw [List.forall_mem_cons] at hbound hfresh
    -- the limits mentioned further on are others than this one, so they are still open
    have hstill : ∀ p ∈ known, (settings.set field n).get? p.1 = none := by
      intro p hp
      rw [Settings.get?_set, if_neg]
      · exact hfresh.2 p hp
      · intro heq
        exact hnodup.1 (List.mem_map.2 ⟨p, hp, heq.symm⟩)
    rw [List.foldlM_cons, absorb_of_named named, hfresh.1]
    simp only [numeral?_of_isNumeral numeral hbound.1]
    exact ih hnodup.2 hbound.2 hstill
  | other other isValue behind ih =>
    rw [List.foldlM_cons, absorb_of_other other]
    exact ih hnodup hbound hfresh

/-- A limit that is set stays set. -/
theorem absorb_keeps (h : absorb settings m = some settings')
    (hset : (settings.get? field).isSome) : (settings'.get? field).isSome := by
  simp only [absorb, Option.bind_eq_bind, Option.bind_eq_some_iff] at h
  obtain ⟨name, -, h⟩ := h
  split at h
  · cases h
    exact hset
  · split at h
    · cases h
    · obtain ⟨n, -, rfl⟩ := Option.map_eq_some_iff.1 h
      rw [Settings.get?_set]
      split
      · rfl
      · exact hset

theorem foldlM_absorb_keeps (h : members.foldlM absorb settings = some settings')
    (hset : (settings.get? field).isSome) : (settings'.get? field).isSome := by
  induction members generalizing settings with
  | nil =>
    cases h
    exact hset
  | cons m members ih =>
    rw [List.foldlM_cons] at h
    obtain ⟨next, hnext, h⟩ := Option.bind_eq_some_iff.1 h
    exact ih h (absorb_keeps hnext hset)

theorem isSome_of_absorb (h : absorb settings m = some settings') (hname : IsNamed m field) :
    (settings'.get? field).isSome := by
  rw [absorb_of_named hname] at h
  split at h
  · cases h
  · obtain ⟨n, -, rfl⟩ := Option.map_eq_some_iff.1 h
    rw [Settings.get?_set, if_pos rfl]
    rfl

/-- A limit is not set twice. -/
theorem foldlM_absorb_of_twice {before between behind : List Member} {m n : Member}
    (hm : IsNamed m field) (hn : IsNamed n field) (settings : Settings) :
    (before ++ m :: (between ++ n :: behind)).foldlM absorb settings = none := by
  rw [Option.eq_none_iff_forall_ne_some]
  intro final h
  simp only [List.foldlM_append, List.foldlM_cons, Option.bind_eq_bind,
    Option.bind_eq_some_iff] at h
  obtain ⟨s, -, t, hfirst, u, hbetween, v, hsecond, -⟩ := h
  have hset := foldlM_absorb_keeps hbetween (isSome_of_absorb hfirst hm)
  obtain ⟨k, hk⟩ := Option.isSome_iff_exists.1 hset
  rw [absorb_of_named hn, hk] at hsecond
  cases hsecond

/-- A limit is not set to anything but a numeral. -/
theorem foldlM_absorb_of_no_numeral {before behind : List Member} {m : Member}
    (hm : IsNamed m field) (hvalue : numeral? m.2 = none) (settings : Settings) :
    (before ++ m :: behind).foldlM absorb settings = none := by
  rw [Option.eq_none_iff_forall_ne_some]
  intro final h
  simp only [List.foldlM_append, List.foldlM_cons, Option.bind_eq_bind,
    Option.bind_eq_some_iff] at h
  obtain ⟨s, -, t, hm', -⟩ := h
  rw [absorb_of_named hm, hvalue] at hm'
  split at hm' <;> cases hm'

end Members

section Elements

variable {elements : List (List Token)} {fields : List Field}

theorem isValue_of_numerals {ns : List Nat} (h : List.Forall₂ IsNumeral elements ns) :
    ∀ e ∈ elements, IsValue e := by
  induction h with
  | nil => exact List.forall_mem_nil _
  | cons numeral _ ih => exact List.forall_mem_cons.2 ⟨numeral.isValue, ih⟩

/-- Numerals set the first fields. -/
theorem fill_of_numerals {ns : List Nat} (h : List.Forall₂ IsNumeral elements ns)
    (hbound : ∀ n ∈ ns, n < 2 ^ 64) (hlength : ns.length ≤ fields.length) (settings : Settings) :
    fill settings elements fields = some (settings.assign (fields.zip ns)) := by
  induction h generalizing fields settings with
  | nil => rw [fill, List.zip_nil_right]; rfl
  | @cons element n elements ns numeral _ ih =>
    rw [List.forall_mem_cons] at hbound
    cases fields with
    | nil => cases hlength
    | cons field fields =>
      rw [fill, numeral?_of_isNumeral numeral hbound.1, List.zip_cons_cons]
      exact ih hbound.2 (Nat.le_of_succ_le_succ hlength) (settings.set field n)

theorem nodup_zip {fields : List Field} (h : fields.Nodup) (ns : List Nat) :
    ((fields.zip ns).map Prod.fst).Nodup := by
  induction fields generalizing ns with
  | nil => exact List.nodup_nil
  | cons field fields ih =>
    rw [List.nodup_cons] at h
    cases ns with
    | nil => exact List.nodup_nil
    | cons n ns =>
      rw [List.zip_cons_cons, List.map_cons, List.nodup_cons]
      refine ⟨fun hmem => ?_, ih h.2 ns⟩
      obtain ⟨p, hp, rfl⟩ := List.mem_map.1 hmem
      exact h.1 (List.of_mem_zip hp).1

theorem fill_of_too_many (h : fields.length < elements.length) (settings : Settings) :
    fill settings elements fields = none := by
  induction elements generalizing fields settings with
  | nil => cases h
  | cons element elements ih =>
    cases fields with
    | nil => rfl
    | cons field fields =>
      rw [fill]
      cases numeral? element with
      | none => rfl
      | some n => exact ih (Nat.lt_of_succ_lt_succ h) (settings.set field n)

theorem fill_of_no_numeral {element : List Token} (h : element ∈ elements)
    (hvalue : numeral? element = none) (settings : Settings) :
    fill settings elements fields = none := by
  induction elements generalizing fields settings with
  | nil => cases h
  | cons first elements ih =>
    cases fields with
    | nil => rfl
    | cons field fields =>
      rw [fill]
      obtain rfl | h := List.mem_cons.1 h
      · rw [hvalue]
        rfl
      · cases numeral? first with
        | none => rfl
        | some n => exact ih h (settings.set field n)

end Elements

end Document

end Limits

end GlyphHint
