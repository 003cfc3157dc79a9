/-!
# Forests

A forest is a list of sibling trees, with `ε` on its inner nodes and `μ` on its leaves. Children
and later siblings are both forests, so one induction covers a whole document.
-/
namespace InlineBinding

inductive Forest (ε μ : Type) where
  | nil
  | element (label : ε) (children rest : Forest ε μ)
  | leaf (label : μ) (rest : Forest ε μ)
  deriving DecidableEq

namespace Forest

variable {ε μ : Type}

def append : Forest ε μ → Forest ε μ → Forest ε μ
  | nil, g => g
  | element e cs rest, g => element e cs (append rest g)
  | leaf l rest, g => leaf l (append rest g)

instance : Append (Forest ε μ) := ⟨append⟩

@[simp] theorem nil_append (f : Forest ε μ) : nil ++ f = f := rfl

@[simp] theorem element_append (e : ε) (cs rest f : Forest ε μ) :
    element e cs rest ++ f = element e cs (rest ++ f) := rfl

@[simp] theorem leaf_append (l : μ) (rest f : Forest ε μ) :
    leaf l rest ++ f = leaf l (rest ++ f) := rfl

@[simp] theorem append_nil (f : Forest ε μ) : f ++ nil = f := by
  induction f with
  | nil => rfl
  | element e cs rest _ ih => simp [ih]
  | leaf l rest ih => simp [ih]

theorem append_assoc (f g h : Forest ε μ) : f ++ g ++ h = f ++ (g ++ h) := by
  induction f with
  | nil => rfl
  | element e cs rest _ ih => simp [ih]
  | leaf l rest ih => simp [ih]

/-- The siblings in reverse order, in front of `onto`; what is below them keeps its order. -/
def reverseOnto : Forest ε μ → Forest ε μ → Forest ε μ
  | nil, onto => onto
  | element e cs rest, onto => reverseOnto rest (element e cs onto)
  | leaf l rest, onto => reverseOnto rest (leaf l onto)

def reverse (f : Forest ε μ) : Forest ε μ := reverseOnto f nil

theorem reverseOnto_eq (f g : Forest ε μ) : reverseOnto f g = reverse f ++ g := by
  induction f generalizing g with
  | nil => rfl
  | element e cs rest _ ih =>
    simp only [reverse, reverseOnto]
    rw [ih, ih (element e cs nil), append_assoc]
    rfl
  | leaf l rest ih =>
    simp only [reverse, reverseOnto]
    rw [ih, ih (leaf l nil), append_assoc]
    rfl

/-- The first element among the siblings. -/
def root? : Forest ε μ → Option (ε × Forest ε μ)
  | nil => none
  | element e cs _ => some (e, cs)
  | leaf _ rest => root? rest

/-- The leaves among the siblings, without those below elements. -/
def leaves : Forest ε μ → List μ
  | nil => []
  | element _ _ rest => leaves rest
  | leaf l rest => l :: leaves rest

def ofLeaves (ls : List μ) : Forest ε μ := ls.foldr leaf nil

/-- The siblings before and after the first element. -/
def before : Forest ε μ → Forest ε μ
  | nil => nil
  | element _ _ _ => nil
  | leaf l rest => leaf l (before rest)

def after : Forest ε μ → Forest ε μ
  | nil => nil
  | element _ _ rest => rest
  | leaf _ rest => after rest

end Forest
end InlineBinding
