import InlineBinding.Text.Basic
import InlineBinding.Text.Quoted

/-!
# Command line arguments

Options are named by a long name after two dashes, or by one letter after a single dash; letters
can be written together. A value follows its option, after an equals sign, after the letter, or as
the next argument whatever that looks like. Two dashes alone end the options.
-/
namespace InlineBinding.Command

/-- `value` is how the value is called in help texts; an option without one is a flag. -/
structure Switch where
  long : Text
  short : Option Char
  value : Option Text
  help : Text

namespace Switch

def takesValue (s : Switch) : Bool := s.value.isSome

def longName (s : Switch) : Text := "--".toList ++ s.long

end Switch

inductive Mistake where
  | unknown (name : Text)
  | valueMissing (name : Text)
  | valueGiven (name : Text)
  deriving DecidableEq

def Mistake.message : Mistake → Text
  | unknown name => "No such option ".toList ++ Text.quoted name ++ ['.']
  | valueMissing name => "Option ".toList ++ Text.quoted name ++ " requires an argument.".toList
  | valueGiven name => "Option ".toList ++ Text.quoted name ++ " does not take a value.".toList

/-- A switch as it was given, with its value; flags have an empty one. -/
structure Given where
  switch : Switch
  value : Text

structure Arguments where
  given : List Given
  rest : List Text

namespace Arguments

/-- The value of the last switch with this long name. -/
def value? (a : Arguments) (long : String) : Option Text :=
  (a.given.reverse.find? fun g => g.switch.long = long.toList).map (·.value)

def values (a : Arguments) (long : String) : List Text :=
  (a.given.filter fun g => g.switch.long = long.toList).map (·.value)

def has (a : Arguments) (long : String) : Bool := (a.value? long).isSome

/-- Switches that one argument gives, and whether the next argument was taken as a value. -/
abbrev Step := Except Mistake (List Given × Bool)

/-- A value that was not written together with its switch is the next argument. -/
def takeValue (s : Switch) (name : Text) (written next : Option Text) : Step :=
  match written, next with
  | some v, _ => .ok ([⟨s, v⟩], false)
  | none, some v => .ok ([⟨s, v⟩], true)
  | none, none => .error (.valueMissing name)

def readLetters (switches : List Switch) (next : Option Text) : Text → Step
  | [] => .ok ([], false)
  | c :: letters =>
    match switches.find? (·.short = some c) with
    | none => .error (.unknown ['-', c])
    | some s =>
      if s.takesValue then
        takeValue s ['-', c] (if letters.isEmpty then none else some letters) next
      else
        match readLetters switches next letters with
        | .ok (given, taken) => .ok (⟨s, []⟩ :: given, taken)
        | .error m => .error m

def readLong (switches : List Switch) (next : Option Text) (arg : Text) : Step :=
  let name := arg.takeWhile (· != '=')
  let written := if arg.contains '=' then some (arg.drop (name.length + 1)) else none
  match switches.find? (·.longName = name) with
  | none => .error (.unknown name)
  | some s =>
    if s.takesValue then takeValue s name written next
    else if written.isSome then .error (.valueGiven name)
    else .ok ([⟨s, []⟩], false)

def isSwitch (arg : Text) : Bool := arg.head? = some '-' && arg.length > 1

def readSwitch (switches : List Switch) (next : Option Text) (arg : Text) : Step :=
  if "--".toList.isPrefixOf arg then readLong switches next arg
  else readLetters switches next (arg.drop 1)

/-- `mixed` says whether switches may come after other arguments. -/
def read (switches : List Switch) (mixed : Bool) : List Text → Except Mistake Arguments
  | [] => .ok ⟨[], []⟩
  | arg :: args =>
    if arg = "--".toList then .ok ⟨[], args⟩
    else if isSwitch arg then
      match readSwitch switches args.head? arg with
      | .error m => .error m
      | .ok (given, taken) =>
        match read switches mixed (if taken then args.tail else args) with
        | .error m => .error m
        | .ok more => .ok { more with given := given ++ more.given }
    else if mixed then
      match read switches mixed args with
      | .error m => .error m
      | .ok more => .ok { more with rest := arg :: more.rest }
    else .ok ⟨[], arg :: args⟩
termination_by args => args.length
decreasing_by
  · split <;> simp only [List.length_tail, List.length_cons] <;> omega
  · simp

@[simp] theorem read_nil (switches : List Switch) (mixed : Bool) :
    read switches mixed [] = .ok ⟨[], []⟩ := by
  rw [read]

end Arguments
end InlineBinding.Command
