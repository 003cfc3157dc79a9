import InlineBinding.Text.Ranges

/-!
# White space

The white space of Unicode together with the four separators below the space. Zero-width
characters and the byte-order mark do not belong to it.
-/
namespace InlineBinding.Text

def spaceRanges : Ranges :=
  [(0x09, 0x0d), (0x1c, 0x20), (0x85, 0x85), (0xa0, 0xa0), (0x1680, 0x1680), (0x2000, 0x200a),
    (0x2028, 0x2029), (0x202f, 0x202f), (0x205f, 0x205f), (0x3000, 0x3000)]

def isSpace (c : Char) : Bool := spaceRanges.has c

def trimStart (s : Text) : Text := s.dropWhile isSpace

def trim (s : Text) : Text := (trimStart (trimStart s).reverse).reverse

/-- `inRun` tells that the character before was white space, already written as one space. -/
def collapseFrom : Bool → Text → Text
  | _, [] => []
  | inRun, c :: s =>
    if isSpace c then
      if inRun then collapseFrom true s else ' ' :: collapseFrom true s
    else c :: collapseFrom false s

/-- Every run of white space becomes one space. -/
def collapse (s : Text) : Text := collapseFrom false s

@[simp] theorem collapse_nil : collapse [] = [] := rfl

end InlineBinding.Text
