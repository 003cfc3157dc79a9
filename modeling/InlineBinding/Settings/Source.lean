import InlineBinding.Settings.Value

/-!
# Files of settings

A file of settings assigns values to names, one after the other, and may fail after the last one.
-/
namespace InlineBinding.Settings

structure Source where
  assignments : List (Text × Setting)
  failure : Option Text

namespace Source

def empty : Source := ⟨[], none⟩

/-- A name that is assigned again has its last value. -/
def get? (s : Source) (name : Text) : Option Setting :=
  (s.assignments.reverse.find? fun a => a.1 = name).map (·.2)

end Source
end InlineBinding.Settings
