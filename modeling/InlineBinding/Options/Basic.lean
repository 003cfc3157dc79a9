import InlineBinding.Delimiters

/-!
# Options

What a caller can set about the compilation of a document, with its defaults.
-/
namespace InlineBinding

structure Options where
  xhtmlMode : Bool
  bindingAttribute : Text
  skipAttributes : List Text
  templateDelimiters : List Delimiters
  bindingDelimiters : Delimiters
  outputDelimiters : Delimiters
  normalizeWhitespace : Bool
  syntheticTag : Text
  deriving DecidableEq

namespace Options

def default : Options where
  xhtmlMode := false
  bindingAttribute := "data-bind".toList
  skipAttributes := ["data-bind".toList, "data-options".toList]
  templateDelimiters := [Delimiters.percent, Delimiters.doubleBraces]
  bindingDelimiters := Delimiters.braces
  outputDelimiters := Delimiters.doubleBraces
  normalizeWhitespace := true
  syntheticTag := "span".toList

/-- The attribute that receives directives is skipped, named in the list or not. -/
def skipBindingAttribute (o : Options) : Options :=
  if o.skipAttributes.contains o.bindingAttribute then o
  else { o with skipAttributes := o.skipAttributes ++ [o.bindingAttribute] }

theorem bindingAttribute_mem_skipAttributes (o : Options) :
    o.skipBindingAttribute.bindingAttribute ∈ o.skipBindingAttribute.skipAttributes := by
  unfold skipBindingAttribute
  split
  · next h => simpa using h
  · simp

end Options
end InlineBinding
