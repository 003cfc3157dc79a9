import InlineBinding.Command.Run
import InlineBinding.Proofs.Options.Layers
import Mathlib.Data.List.Basic

/-!
# What the transform command delivers

A command line that runs the transform command reads its input first and opens its output last.
Everything between the two can fail, and then no file has been touched.  The options come in
layers: a switch before a variable of the settings in force, and that before the default.
-/
namespace InlineBinding.Command
open Files Config

variable {i : Invocation} {a : Arguments} {input : Content} {l : Log}

/-! ## Options -/

/-- The value that a command gives to an option: a switch comes before a variable of the settings
in force. -/
def given (a : Arguments) (s : Settings.Source) (name : Text) : Option Setting :=
  if name = "xhtml_mode".toList ∧ a.has "xhtml" then some (.bool true)
  else if name = "binding_attribute".toList ∧ (a.value? "binding-attribute").isSome then
    (a.value? "binding-attribute").map .text
  else s.get? (variableName name)

/-- Arguments that ask for nothing but to run. -/
def Runs (a : Arguments) : Prop :=
  ∀ g ∈ a.given, g.switch.long ≠ "help".toList ∧ g.switch.long ≠ "version".toList

instance (a : Arguments) : Decidable (Runs a) := inferInstanceAs (Decidable (∀ g ∈ a.given, _ ∧ _))

/-- A command line that selects the transform command with these arguments and this input. -/
structure Selects (i : Invocation) (a : Arguments) (input : Content) : Prop where
  command : ∃ g rest, Arguments.read group.switches false i.args = .ok g ∧ Runs g ∧
    g.rest = "transform".toList :: rest ∧
    Arguments.read transformCommand.switches true rest = .ok a
  runs : Runs a
  input : inputOf i (a.rest.head?.getD dash) = .ok input
  single : a.rest.drop 1 = []

theorem withArguments_of_read {d : Description} {mixed : Bool} {args : List Text}
    {go : Arguments → Outcome} (h : Arguments.read d.switches mixed args = .ok a) (hruns : Runs a) :
    withArguments i d mixed args go = go a := by
  have hnone : (a.given.find? fun g => ["help".toList, "version".toList].contains g.switch.long) =
      none := by
    rw [List.find?_eq_none]
    intro g hg
    simpa using hruns g hg
  simp only [withArguments, h, hnone]

theorem Selects.run_eq (h : Selects i a input) :
    ∃ verbose, run i = transformInput a (.start verbose i.files) input := by
  obtain ⟨g, rest, hgroup, hg, hrest, hread⟩ := h.command
  have hargs : i.args.isEmpty = false := by
    rw [List.isEmpty_eq_false_iff]
    intro hnil
    rw [hnil, Arguments.read_nil] at hgroup
    cases hgroup
    cases hrest
  refine ⟨g.has "verbose", ?_⟩
  rw [run, if_neg (by simp [hargs]), withArguments_of_read hgroup hg, hrest, runCommand, if_pos rfl,
    withArguments_of_read hread h.runs, runTransform, h.input, h.single]
  rfl

/-! ## Ends of a command -/

/-- Where a text is to be written. -/
def target (a : Arguments) : Text := (a.value? "output").getD dash

/-- Nothing is printed or written. -/
structure Fails (i : Invocation) (o : Outcome) : Prop where
  exitCode : o.exitCode ≠ 0
  output : o.output = []
  files : o.files = i.files

/-- A log of what has not printed or written anything yet. -/
structure Log.Idle (l : Log) (i : Invocation) : Prop where
  output : l.output = []
  files : l.files = i.files

theorem Log.Idle.record (h : l.Idle i) (events : List Event) : (l.record events).Idle i :=
  ⟨h.output, h.files⟩

theorem Log.Idle.report (h : l.Idle i) (message : Text) : Fails i (l.report message) :=
  ⟨Nat.one_ne_zero, h.output, h.files⟩

theorem Log.Idle.fail (h : l.Idle i) (f : Build.Failure) : Fails i (l.fail f) := by
  rw [Log.fail]
  split
  · exact h.report f.message
  · exact ⟨Nat.one_ne_zero, h.output, h.files⟩

namespace Arguments

variable {switches : List Switch} {mixed : Bool} {arg : Text} {args : List Text}
  {more all : Arguments}

end Arguments

end InlineBinding.Command
