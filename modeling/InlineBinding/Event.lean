import InlineBinding.Text.Numbered
import InlineBinding.Text.Quoted

/-!
# Events

What happens during a compilation, for those who follow it in a log. A line names the level, the
part of the program that speaks, and what happened.
-/
namespace InlineBinding

inductive Event where
  | shielded (blocks : Nat)
  | lacksMask
  | wrapped (tag : Text)
  | clausePushed (element directive clause : Text)
  | attached (bindings : Nat)
  | built (source target : Text)
  | configFailed (path reason : Text)
  deriving DecidableEq

namespace Event

inductive Level where
  | debug
  | info
  | warning
  deriving DecidableEq

def Level.name : Level → Text
  | debug => "DEBUG".toList
  | info => "INFO".toList
  | warning => "WARNING".toList

def level : Event → Level
  | built _ _ => .info
  | lacksMask => .warning
  | configFailed _ _ => .warning
  | _ => .debug

def speaker : Event → Text
  | shielded _ => "bindify.compiler.shield".toList
  | lacksMask => "bindify.compiler.markup".toList
  | wrapped _ => "bindify.compiler.scanner".toList
  | clausePushed _ _ _ => "bindify.compiler.codegen.binding".toList
  | attached _ => "bindify.compiler.transform".toList
  | built _ _ => "bindify.build".toList
  | configFailed _ _ => "bindify.config".toList

def message : Event → Text
  | shielded n => "Shielded ".toList ++ Text.digits n ++ " template block(s)".toList
  | lacksMask => "No free mask character; character references will be decoded".toList
  | wrapped tag => "Wrapped text binding in synthetic <".toList ++ tag ++ ['>']
  | clausePushed element directive clause =>
    '<' :: element ++ ' ' :: directive ++ '=' :: Text.quoted clause ++ ['>']
  | attached n => "Attached ".toList ++ Text.digits n ++ " binding(s)".toList
  | built source target => "Built ".toList ++ source ++ " -> ".toList ++ target
  | configFailed path reason =>
    "Failed to load config from ".toList ++ path ++ ": ".toList ++ reason

def render (e : Event) : Text := e.level.name ++ ' ' :: e.speaker ++ ": ".toList ++ e.message

/-- Warnings are always logged, all else only on request. -/
def isLogged (verbose : Bool) (e : Event) : Bool := verbose || e.level = .warning

end Event
end InlineBinding
