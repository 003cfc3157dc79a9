import InlineBinding.Markup.Recovery

/-!
# A reader for several documents

A reader keeps the recovery of the last document, for the fragments and the printing that follow.
The next document replaces it, whether it can be read or not.
-/
namespace InlineBinding.Markup

structure Reader where
  collapsing : Bool
  recovery : Recovery

namespace Reader

def start (collapsing : Bool) : Reader := ⟨collapsing, .empty⟩

def parse (r : Reader) (markup : Text) : Except Failure Tree × Reader :=
  (Markup.parse r.collapsing markup, { r with recovery := .of markup })

def fragment (r : Reader) (markup : Text) : Except Failure Tree :=
  r.recovery.fragment r.collapsing markup

def print (r : Reader) (xhtml : Bool) (t : Tree) : Text := r.recovery.print xhtml t

end Reader
end InlineBinding.Markup
