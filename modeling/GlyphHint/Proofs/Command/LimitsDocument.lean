import GlyphHint.Proofs.Command.Problem
import GlyphHint.Proofs.Limits.Serialised
set_option autoImplicit false

/-!
# Loading a limits document

What a command makes of a limits document is decided by what the document says, in however many
ways that can be written (`limits_document_meaning`).
-/

namespace GlyphHint.Command

open Json Limits Limits.Document

/-- A command that names a document of this text and sets no limits of its own has these limits. -/
def LoadsAs (text : String) (l : Limits) : Prop :=
  ∀ (around : Surroundings Id) (i : Invocation) (path : String), i.config = some path →
    i.settings = {} → around.readFile path = .ok text.toUTF8.data →
    readLimits around i = pure (.ok l)

/-- A command that names a document of this text is refused. -/
def Refused (text : String) : Prop :=
  ∀ (around : Surroundings Id) (i : Invocation) (path : String), i.config = some path →
    around.readFile path = .ok text.toUTF8.data →
    readLimits around i = pure (.error (.configRefused path .malformed))

section Texts

variable {text : String} {tokens : List Token} {members : List Member}
  {elements : List (List Token)} {known : List (Field × Nat)} {ns : List Nat} {l : Limits}

theorem fromUTF8?_toUTF8 (text : String) : String.fromUTF8? ⟨text.toUTF8.data⟩ = some text :=
  dif_pos text.isValidUTF8

theorem ofText?_of_writes (h : IsValue tokens) (hwrites : Writes tokens text.toList) :
    ofText? text = ofTokens? tokens := by
  rw [ofText?, h.tokens?_of_writes hwrites]
  rfl

theorem loadsAs_of_understood {settings : Settings} (h : ofText? text = some settings) :
    LoadsAs text (settings.applyTo {}) := by
  intro around i path hpath hsettings hread
  have hsaid : DocumentSays around i settings :=
    .settings hpath hread (fromUTF8?_toUTF8 text) h
  rw [readLimits_of_said hsaid, Invocation.limits, hsettings]
  rfl

theorem refused_of_not_understood (h : ofText? text = none) : Refused text := by
  intro around i path hpath hread
  exact readLimits_of_problem (.malformed hpath hread (fromUTF8?_toUTF8 text) h)

/-- An object that mentions these limits is loaded as them. -/
theorem loadsAs_of_mentions (hnodup : (known.map Prod.fst).Nodup)
    (hbound : ∀ p ∈ known, p.2 < 2 ^ 64) (h : Mentions known members)
    (hwrites : Writes (objectTokens members) text.toList) (hl : l.IsDefaultBut known) :
    LoadsAs text l := by
  have hread : ofText? text = some (({} : Settings).assign known) := by
    rw [ofText?_of_writes (.object h.isValue) hwrites, ofTokens?_objectTokens h.isValue]
    exact foldlM_absorb_of_mentions h hnodup hbound fun p _ => by cases p.1 <;> rfl
  rw [hl.unique (isDefaultBut_assign hnodup)]
  exact loadsAs_of_understood hread

/-- An array of numerals is loaded as limits that have them in the fixed order. -/
theorem loadsAs_of_numerals (hlength : ns.length ≤ 3) (hbound : ∀ n ∈ ns, n < 2 ^ 64)
    (h : List.Forall₂ IsNumeral elements ns)
    (hwrites : Writes (arrayTokens elements) text.toList) (hl : l.IsDefaultBut (order.zip ns)) :
    LoadsAs text l := by
  have hvalues := isValue_of_numerals h
  have hfields : ns.length ≤ order.length := hlength
  have hread : ofText? text = some (({} : Settings).assign (order.zip ns)) := by
    rw [ofText?_of_writes (.array hvalues) hwrites, ofTokens?_arrayTokens hvalues]
    exact fill_of_numerals h hbound hfields {}
  rw [hl.unique (isDefaultBut_assign (nodup_zip nodup_order ns))]
  exact loadsAs_of_understood hread

/-- Limits that fit are loaded from their own text. -/
theorem loadsAs_serialise (h : ∀ field, l.get field < 2 ^ 64) : LoadsAs (serialise l) l := by
  have hdefault : l.IsDefaultBut (order.map fun field => (field, l.get field)) := by
    refine ⟨?_, fun field hfield => ?_⟩
    · intro p hp
      obtain ⟨field, -, rfl⟩ := List.mem_map.1 hp
      rfl
    · exact absurd (List.mem_map.2 ⟨_, List.mem_map_of_mem (mem_order field), rfl⟩) hfield
  refine loadsAs_of_mentions ?_ ?_ (mentions_written l.get order) (writes_serialise l) hdefault
  · rw [List.map_map]
    exact nodup_order
  · simp only [List.forall_mem_map]
    exact fun field _ => h field

theorem refused_of_object (h : ∀ m ∈ members, IsValue m.2)
    (hwrites : Writes (objectTokens members) text.toList)
    (hnone : members.foldlM absorb {} = none) : Refused text := by
  apply refused_of_not_understood
  rw [ofText?_of_writes (.object h) hwrites, ofTokens?_objectTokens h, hnone]

theorem refused_of_array (h : ∀ e ∈ elements, IsValue e)
    (hwrites : Writes (arrayTokens elements) text.toList)
    (hnone : fill {} elements order = none) : Refused text := by
  apply refused_of_not_understood
  rw [ofText?_of_writes (.array h) hwrites, ofTokens?_arrayTokens h, hnone]

/-- A limits document means the same however it is written.  An object that mentions some limits
once each, in any order and among any other members, is loaded as these limits and the default for
the rest; an array of up to three numerals is loaded as an object with these limits would be; and
the text of any limits is loaded as them.  An object that mentions a limit twice or gives one
another value than a numeral below `2 ^ 64`, and an array that is too long or has another element,
are refused. -/
theorem limits_document_meaning :
    (∀ (known : List (Field × Nat)) (members : List Member) (text : String),
      (known.map Prod.fst).Nodup → (∀ p ∈ known, p.2 < 2 ^ 64) → Mentions known members →
      Writes (objectTokens members) text.toList →
      ∃ l : Limits, l.IsDefaultBut known ∧ LoadsAs text l) ∧
    (∀ (ns : List Nat) (elements : List (List Token)) (text : String),
      ns.length ≤ 3 → (∀ n ∈ ns, n < 2 ^ 64) → List.Forall₂ IsNumeral elements ns →
      Writes (arrayTokens elements) text.toList →
      ∃ l : Limits, l.IsDefaultBut (order.zip ns) ∧ LoadsAs text l ∧
        ∀ (members : List Member) (object : String), Mentions (order.zip ns) members →
          Writes (objectTokens members) object.toList → LoadsAs object l) ∧
    (∀ l : Limits, (∀ field, l.get field < 2 ^ 64) → LoadsAs (serialise l) l) ∧
    (∀ (members : List Member) (text : String), (∀ m ∈ members, IsValue m.2) →
      Writes (objectTokens members) text.toList →
      (∃ field before m between n behind, members = before ++ m :: (between ++ n :: behind) ∧
        IsNamed m field ∧ IsNamed n field) ∨
      (∃ m ∈ members, ∃ field, IsNamed m field ∧ ∀ n < 2 ^ 64, ¬ IsNumeral m.2 n) →
      Refused text) ∧
    (∀ (elements : List (List Token)) (text : String), (∀ e ∈ elements, IsValue e) →
      Writes (arrayTokens elements) text.toList →
      3 < elements.length ∨ (∃ e ∈ elements, ∀ n < 2 ^ 64, ¬ IsNumeral e n) → Refused text) := by
  refine ⟨?objects, ?arrays, fun l => loadsAs_serialise, ?badObjects, ?badArrays⟩
  case objects =>
    intro known members text hnodup hbound hmentions hwrites
    have hl := isDefaultBut_assign hnodup
    exact ⟨_, hl, loadsAs_of_mentions hnodup hbound hmentions hwrites hl⟩
  case arrays =>
    intro ns elements text hlength hbound hnumerals hwrites
    have hnodup := nodup_zip nodup_order ns
    have hl := isDefaultBut_assign hnodup
    refine ⟨_, hl, loadsAs_of_numerals hlength hbound hnumerals hwrites hl, ?_⟩
    intro members object hmentions hobject
    exact loadsAs_of_mentions hnodup (fun p hp => hbound p.2 (List.of_mem_zip hp).2) hmentions
      hobject hl
  case badObjects =>
    rintro members text hvalues hwrites (⟨field, before, m, between, n, behind, rfl, hm, hn⟩ |
      ⟨m, hmem, field, hm, hvalue⟩)
    · exact refused_of_object hvalues hwrites (foldlM_absorb_of_twice hm hn {})
    · have hnone := numeral?_eq_none (hvalues m hmem) hvalue
      obtain ⟨before, behind, rfl⟩ := List.append_of_mem hmem
      exact refused_of_object hvalues hwrites (foldlM_absorb_of_no_numeral hm hnone {})
  case badArrays =>
    rintro elements text hvalues hwrites (hlength | ⟨e, hmem, hvalue⟩)
    · have hfields : order.length < elements.length := hlength
      exact refused_of_array hvalues hwrites (fill_of_too_many hfields {})
    · have hnone := numeral?_eq_none (hvalues e hmem) hvalue
      exact refused_of_array hvalues hwrites (fill_of_no_numeral hmem hnone {})

/-- A member that is not read. -/
def ignoredMember : Member :=
  ([0x78], arrayTokens [[.number]])

theorem writes_ignoredMember {cs : List Char} (behind : Writes tokens cs) :
    Writes (ignoredMember.tokens ++ tokens) ("\"x\": [-1]".toList ++ cs) := by
  have hkey : SpelledUnits (['x'].map Char.toNat) ['x'] := spelledUnits_plain (by simp)
  have hblank : ∀ c ∈ [' '], isBlank c = true := List.forall_mem_singleton.2 rfl
  have hnumber : Spelled .number ['-', '1'] :=
    .number (.inr rfl) (Text.isInteger_toDigits 1) .absent .absent (.inl nofun)
  have hvalue := Writes.spelled hnumber (Writes.spelled .closeArray behind)
  have h : Writes (ignoredMember.tokens ++ tokens) _ :=
    Writes.spelled (.string hkey) (Writes.spelled .colon (.cons hblank .openArray hvalue))
  simpa using h

/-- The first letter of the key may be written by its number. -/
theorem writes_escapedMember {cs : List Char} (behind : Writes tokens cs) :
    Writes ((writtenMember .maxSteps 7).tokens ++ tokens)
      ("\"\\u006dax_steps\":7".toList ++ cs) := by
  have hletters : SpelledUnits ("ax_steps".toList.map Char.toNat) "ax_steps".toList :=
    spelledUnits_plain (by simp)
  have hzero : IsHexDigit '0' 0 := ⟨by decide, rfl⟩
  have hsix : IsHexDigit '6' 6 := ⟨by decide, rfl⟩
  have hd : IsHexDigit 'd' 13 := ⟨by decide, rfl⟩
  have hkey := SpelledUnits.number hzero hzero hsix hd hletters
  have hseven : Spelled (.natural ['7']) ['7'] := .natural (Text.isInteger_toDigits 7)
  have h : Writes ((writtenMember .maxSteps 7).tokens ++ tokens) _ :=
    Writes.spelled (.string hkey) (Writes.spelled .colon (Writes.spelled hseven behind))
  simpa using h

/-- A known name counts however it is written, and the value of an unknown one does not. -/
theorem limits_document_meaning_escapedKey :
    LoadsAs "\x7b\"x\": [-1],\"\\u006dax_steps\":7\x7d" ⟨50000, 800, 7⟩ ∧
      LoadsAs "[7]" ⟨7, 800, 100000⟩ ∧
      Refused "\x7b\"max_steps\":7,\"\\u006dax_steps\":7\x7d" ∧ Refused "[-1]" := by
  obtain ⟨hobjects, harrays, -, hbadObjects, hbadArrays⟩ := limits_document_meaning
  have hnil : Writes [] [] := .nil (List.forall_mem_nil _)
  have hsteps := Writes.spelled .comma (writes_escapedMember (Writes.spelled .closeObject hnil))
  have hseven : IsNumeral [.natural ['7']] 7 := isNumeral_toDigits 7
  have hname : IsNamed (writtenMember .maxSteps 7) .maxSteps := unitsOf_plain _
  refine ⟨?object, ?array, ?twice, ?negative⟩
  case object =>
    have hother : IsOther ignoredMember := by
      refine ⟨['x'], unitsOf_plain ['x'], fun field => ?_⟩
      cases field <;> decide
    have hmentions : Mentions [(.maxSteps, 7)] [ignoredMember, writtenMember .maxSteps 7] :=
      .other hother (.array (List.forall_mem_singleton.2 .number)) (.known hname hseven .nil)
    have hwrites : Writes (objectTokens [ignoredMember, writtenMember .maxSteps 7]) _ :=
      Writes.spelled .openObject (writes_ignoredMember hsteps)
    have hnodup : ([(Field.maxSteps, 7)].map Prod.fst).Nodup := by decide
    obtain ⟨l, hl, hloads⟩ := hobjects [(.maxSteps, 7)] _
      "\x7b\"x\": [-1],\"\\u006dax_steps\":7\x7d" hnodup (by decide) hmentions
      (by simpa using hwrites)
    obtain rfl := hl.unique (isDefaultBut_assign hnodup)
    exact hloads
  case array =>
    have hwrites : Writes (arrayTokens [[.natural ['7']]]) _ :=
      Writes.spelled .openArray (Writes.spelled (.natural (Text.isInteger_toDigits 7))
        (Writes.spelled .closeArray hnil))
    obtain ⟨l, hl, hloads, -⟩ := harrays [7] _ "[7]" (by decide) (by decide)
      (.cons hseven .nil) (by simpa using hwrites)
    obtain rfl := hl.unique (isDefaultBut_assign (nodup_zip nodup_order [7]))
    exact hloads
  case twice =>
    have hwrites : Writes (objectTokens [writtenMember .maxSteps 7, writtenMember .maxSteps 7]) _ :=
      Writes.spelled .openObject (writes_member .maxSteps 7 hsteps)
    have hplain : memberText .maxSteps 7 = "\"max_steps\":7" := rfl
    rw [hplain] at hwrites
    refine hbadObjects [writtenMember .maxSteps 7, writtenMember .maxSteps 7] _ ?_
      (by simpa using hwrites) (.inl ⟨.maxSteps, [], _, [], _, [], rfl, hname, hname⟩)
    have hvalue : IsValue (writtenMember .maxSteps 7).2 := hseven.isValue
    simpa using hvalue
  case negative =>
    have hnumber : Spelled .number ['-', '1'] :=
      .number (.inr rfl) (Text.isInteger_toDigits 1) .absent .absent (.inl nofun)
    have hwrites : Writes (arrayTokens [[.number]]) _ :=
      Writes.spelled .openArray (Writes.spelled hnumber (Writes.spelled .closeArray hnil))
    refine hbadArrays [[.number]] "[-1]" (List.forall_mem_singleton.2 .number)
      (by simpa using hwrites) (.inr ⟨_, List.mem_singleton_self _, ?_⟩)
    rintro n - ⟨digits, -, hvalue, -⟩
    cases hvalue

end Texts

end GlyphHint.Command
