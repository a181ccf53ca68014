import CallWeight.Text.Basic

/-! # Cutting text at a separator

Texts are cut at the first occurrence of a separator or at the last occurrence of a code point.
The parts and the separator append back to the whole.
-/

namespace CallWeight.Text

/-- What stands before and after the first occurrence of a nonempty separator. -/
def splitFirst (separator : Text) : Text → Option (Text × Text)
  | [] => none
  | c :: rest =>
      if separator.isPrefixOf (c :: rest) then some ([], (c :: rest).drop separator.length)
      else (splitFirst separator rest).map fun (before, after) => (c :: before, after)

/-- What stands before and after the last occurrence of a code point. -/
def splitLast (separator : CodePoint) : Text → Option (Text × Text)
  | [] => none
  | c :: rest =>
      match splitLast separator rest with
      | some (before, after) => some (c :: before, after)
      | none => if c = separator then some ([], rest) else none

/-- Whether a text occurs anywhere inside another. -/
def occursIn (part : Text) : Text → Bool
  | [] => part.isEmpty
  | c :: rest => part.isPrefixOf (c :: rest) || occursIn part rest

/-- Put a text at the right end of a field of the given width. A longer text is kept whole. -/
def padLeft (width : Nat) (text : Text) : Text :=
  List.replicate (width - text.length) (.char ' ') ++ text

end CallWeight.Text
