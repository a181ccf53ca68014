/-! # Texts

A text is a sequence of code points. Nearly all of them are characters. The others are surrogates,
the halves of pairs that spell a character in units of sixteen bits: a document may hold one without
its partner, and it has to come out again as it came in. Such a text can be compared, cut and shown,
but it has no UTF-8 form.
-/

namespace CallWeight

inductive CodePoint where
  | char (c : Char)
  /-- A surrogate, by its distance from the first one. -/
  | surrogate (offset : Fin 0x800)
  deriving Repr, DecidableEq, Inhabited

namespace CodePoint

/-- The number of a code point. Surrogates lie between the characters up to U+D7FF and those from
    U+E000 on. -/
def value : CodePoint → Nat
  | .char c => c.toNat
  | .surrogate offset => 0xd800 + offset

def char? : CodePoint → Option Char
  | .char c => some c
  | .surrogate _ => none

def isSurrogate (p : CodePoint) : Bool := p.char?.isNone

/-- The code point that a unit of sixteen bits spells on its own. -/
def ofUnit (unit : Nat) : CodePoint :=
  if isSurrogate : 0xd800 ≤ unit ∧ unit < 0xe000 then .surrogate ⟨unit - 0xd800, by omega⟩
  else .char (Char.ofNat unit)

instance : Hashable CodePoint := ⟨fun p => hash p.value⟩

/-- Code points are ordered by their numbers. -/
instance : LT CodePoint := ⟨fun a b => a.value < b.value⟩

instance : DecidableLT CodePoint := fun a b => inferInstanceAs (Decidable (a.value < b.value))

end CodePoint

/-- A text. Its order is that of the code points, the first difference deciding. -/
abbrev Text := List CodePoint

namespace Text

def ofString (s : String) : Text := s.toList.map .char

instance : Coe String Text := ⟨ofString⟩

/-- Whether two texts are the same, told by the first difference. -/
def same : Text → Text → Bool
  | [], [] => true
  | p :: rest, q :: others => if p = q then same rest others else false
  | _, _ => false

theorem same_iff {a b : Text} : same a b = true ↔ a = b := by
  induction a generalizing b with
  | nil => cases b <;> simp [same]
  | cons p rest ih =>
      cases b with
      | nil => simp [same]
      | cons q others => by_cases equal : p = q <;> simp [same, equal, ih]

instance : DecidableEq Text := fun _ _ => decidable_of_decidable_of_iff same_iff

instance : BEq Text := ⟨same⟩

instance : LawfulBEq Text where
  eq_of_beq := same_iff.mp
  rfl := same_iff.mpr rfl

/-- The characters of a text without surrogates. -/
def chars? (text : Text) : Option (List Char) := text.mapM CodePoint.char?

/-- The string that a text without surrogates is. -/
def string? (text : Text) : Option String := text.chars?.map String.ofList

/-- The UTF-8 form of a text, if it has one. -/
def encode? (text : Text) : Option ByteArray := text.string?.map String.toUTF8

/-- Texts behind each other with a separator between them. -/
def join (separator : Text) (parts : List Text) : Text := separator.intercalate parts

end Text

end CallWeight
