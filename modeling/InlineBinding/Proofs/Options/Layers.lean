import InlineBinding.Config
import InlineBinding.Proofs.Files.Tree

/-!
# Layers of options

Options come from a mapping that has at most one value for a name, whatever the order of its
entries.  A configuration is such a mapping: for each of its names it holds the value of the
variable in the file of settings that is in force.
-/
namespace InlineBinding

/-! ## Tables -/

section Tables

variable {names : List Text} {f : Text → Option Setting} {name : Text}

/-- The names that have a value, with their values. -/
def table (names : List Text) (f : Text → Option Setting) : Config :=
  names.filterMap fun n => (f n).map (n, ·)

end Tables

namespace Config

variable {c : Config} {name : Text} {value : Setting}

end Config

namespace Options

theorem entries_object (c : Config) :
    entries (.object c) = .ok (c.map fun e => (.text e.1, e.2)) := by
  rw [entries]
  split
  · next hblank =>
    obtain rfl : c = [] := by simpa [Setting.isBlank] using hblank
    rfl
  · rfl

theorem get?_entries (c : Config) (name : Text) :
    Entries.get? (c.map fun e => (.text e.1, e.2)) name = c.lookup name := by
  induction c with
  | nil => rfl
  | cons e c ih =>
    obtain ⟨k, v⟩ := e
    by_cases hk : k = name
    · simp [Entries.get?, sameKey, hk]
    · have hb : (name == k) = false := by simpa using fun h : name = k => hk h.symm
      rw [List.lookup_cons, hb, ← ih]
      simp [Entries.get?, sameKey, hk]

theorem checkKeys_of_names {c : Config} (h : ∀ n ∈ c.map Prod.fst, n ∈ names) :
    checkKeys (c.map fun e => (.text e.1, e.2)) = .ok () := by
  have hnone : (c.map fun e => (Setting.text e.1, e.2)).filterMap (fun e => keyProblem? e.1) = [] := by
    rw [List.filterMap_map, List.filterMap_eq_nil_iff]
    intro e he
    have hmem := h e.1 (List.mem_map_of_mem he)
    simp [keyProblem?, hmem]
  rw [checkKeys, hnone]

end Options
end InlineBinding
