import InlineBinding.Markup.Node
import InlineBinding.Proofs.Accessor.Path
import Mathlib.Data.List.Basic

/-!
# The expression language

A sum is one or more terms joined by plus signs with a space on either side, and a term a literal
between single quotes or an accessor call. Every text has at most one reading. Sums are evaluated
from left to right: two integers are added, all else is joined as text.
-/
namespace InlineBinding.Expression
open Accessor Text

inductive Term where
  | literal (value : Text)
  | call (call : Text)

/-- How a character may be spelled in a literal. -/
inductive Spells : Char → Text → Prop where
  | plain {c : Char} (h : c ∉ ['\'', '\\', '\r', '\n']) : Spells c [c]
  | backslash : Spells '\\' ['\\', '\\']
  | quote : Spells '\'' ['\\', '\'']
  | carriageReturn : Spells '\r' ['\\', 'r']
  | lineFeed : Spells '\n' ['\\', 'n']
  | comma : Spells ',' ['\\', 'x', '2', 'c']

inductive SpellsAll : Text → Text → Prop where
  | nil : SpellsAll [] []
  | cons {c : Char} {v e s : Text} (hc : Spells c e) (hv : SpellsAll v s) :
      SpellsAll (c :: v) (e ++ s)

inductive Term.Reads : Text → Term → Prop where
  | literal {v s : Text} (h : SpellsAll v s) : Reads ('\'' :: s ++ ['\'']) (.literal v)
  | call {p : Text} (hp : IsPath p) (hr : IsRooted p) :
      Reads (p ++ ['(', ')']) (.call (p ++ ['(', ')']))

def plus : Text := [' ', '+', ' ']

inductive Reads : Text → List Term → Prop where
  | single {s : Text} {t : Term} (h : t.Reads s) : Reads s [t]
  | sum {s r : Text} {t : Term} {ts : List Term} (h : t.Reads s) (hs : Reads r ts) :
      Reads (s ++ plus ++ r) (t :: ts)

/-! ## Readings are unique -/

theorem Spells.unique {c d : Char} {e f s t : Text} (hc : Spells c e) (hd : Spells d f)
    (h : e ++ s = f ++ t) : c = d ∧ s = t := by
  cases hc <;> cases hd <;> grind

/-- A spelling does not begin with the quote that ends a literal. -/
theorem Spells.ne_quote {c : Char} {e s t : Text} (hc : Spells c e) : e ++ s ≠ '\'' :: t := by
  cases hc <;> simp_all

theorem SpellsAll.unique {v w s t x y : Text} (hv : SpellsAll v s) (hw : SpellsAll w t)
    (h : s ++ '\'' :: x = t ++ '\'' :: y) : v = w ∧ x = y := by
  induction hv generalizing w t with
  | nil =>
    cases hw with
    | nil => exact ⟨rfl, by simpa using h⟩
    | cons hd hw => exact absurd (by simpa using h.symm) (hd.ne_quote (t := x))
  | cons hc hv ih =>
    cases hw with
    | nil => exact absurd (by simpa using h) (hc.ne_quote (t := y))
    | cons hd hw =>
      simp only [List.append_assoc] at h
      obtain ⟨rfl, h⟩ := hc.unique hd h
      obtain ⟨rfl, h⟩ := ih hw h
      exact ⟨rfl, h⟩

theorem path_ne_quote {p s t : Text} (hp : IsPath p) : p ++ s ≠ '\'' :: t := by
  obtain ⟨c, p, rfl, hc⟩ := hp.head
  intro h
  obtain ⟨rfl, -⟩ := List.cons.inj h
  exact absurd hc (by decide)

/-- A term ends where it ends, whatever follows. -/
theorem Term.Reads.unique {s s' x y : Text} {t t' : Term} (h : t.Reads s) (h' : t'.Reads s')
    (e : s ++ x = s' ++ y) : t = t' ∧ x = y := by
  cases h with
  | literal hv =>
    cases h' with
    | literal hw =>
      simp only [List.cons_append, List.append_assoc, List.nil_append, List.cons.injEq,
        true_and] at e
      obtain ⟨rfl, e⟩ := hv.unique hw e
      exact ⟨rfl, e⟩
    | call hp hr =>
      simp only [List.cons_append, List.append_assoc] at e
      exact absurd e.symm (path_ne_quote hp)
  | call hp hr =>
    cases h' with
    | literal hw =>
      simp only [List.cons_append, List.append_assoc] at e
      exact absurd e (path_ne_quote hp)
    | call hq hr' =>
      simp only [List.append_assoc, List.cons_append, List.nil_append] at e
      obtain ⟨rfl, e⟩ := append_cons_unique (hp.notMem (by decide) (by decide))
        (hq.notMem (by decide) (by decide)) e
      exact ⟨rfl, by simpa using e⟩

theorem Reads.unique {s : Text} {ts ts' : List Term} (h : Reads s ts) (h' : Reads s ts') :
    ts = ts' := by
  induction h generalizing ts' with
  | @single s t ht =>
    generalize hr : s = r at h'
    cases h' with
    | single ht' =>
      obtain ⟨rfl, -⟩ := ht.unique ht' (x := []) (y := []) (by rw [hr])
      rfl
    | sum ht' hs' =>
      obtain ⟨-, e⟩ := ht.unique ht' (x := []) (by rw [List.append_nil, hr, List.append_assoc])
      exact absurd e (by simp [plus])
  | @sum s r t ts ht hs ih =>
    generalize hr : s ++ plus ++ r = q at h'
    cases h' with
    | single ht' =>
      obtain ⟨-, e⟩ := ht.unique ht' (x := plus ++ r) (y := [])
        (by rw [List.append_nil, ← hr, List.append_assoc])
      exact absurd e (by simp [plus])
    | sum ht' hs' =>
      simp only [List.append_assoc] at hr
      obtain ⟨rfl, e⟩ := ht.unique ht' hr
      obtain rfl := List.append_cancel_left e
      rw [ih hs']

/-! ## Values -/

inductive Operand where
  | text (t : Text)
  | integer (n : Int)

/-- An integer as text is written in decimal digits. -/
def Operand.toText : Operand → Text
  | text t => t
  | integer n => (Markup.Value.number n).render

def Operand.add : Operand → Operand → Operand
  | integer m, integer n => integer (m + n)
  | v, w => text (v.toText ++ w.toText)

@[simp] theorem Operand.text_add (t : Text) (v : Operand) :
    (text t).add v = text (t ++ v.toText) := by
  cases v <;> rfl

/-- What calls return is up to the view model. -/
def Term.value (calls : Text → Operand) : Term → Operand
  | literal v => .text v
  | call c => calls c

/-- Terms are added to what stands before them. -/
def addAll (calls : Text → Operand) (v : Operand) (ts : List Term) : Operand :=
  ts.foldl (fun v t => v.add (t.value calls)) v

def value? (calls : Text → Operand) : List Term → Option Operand
  | [] => none
  | t :: ts => some (addAll calls (t.value calls) ts)

/-- A sum that starts with a text joins all that follows. -/
theorem addAll_text (calls : Text → Operand) (t : Text) (ts : List Term) :
    addAll calls (.text t) ts = .text (t ++ ts.flatMap fun u => (u.value calls).toText) := by
  induction ts generalizing t with
  | nil => simp [addAll]
  | cons u ts ih =>
    rw [addAll, List.foldl_cons, Operand.text_add]
    exact (ih _).trans (by rw [List.flatMap_cons, List.append_assoc])

end InlineBinding.Expression
