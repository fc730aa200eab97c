/-
# Texts by their bytes

A text is stored as bytes, and a character takes one to four of them. So where
the characters of a text begin is a list of byte offsets, and a piece of the
text lies between two of them. Offsets that are inside a character, behind the
text or in the wrong order mark no piece.

Key definitions: `Text.offsets`, `Text.cut?`.
-/
namespace TokenAutomata
namespace Text

/-- The offset of each character, if the first one has offset `start`, and at
last the offset behind the text. -/
def offsets (start : Nat) : List Char → List Nat
  | [] => [start]
  | c :: rest => start :: offsets (start + c.utf8Size) rest

/-- The piece of a text between two offsets, unless they mark none. -/
def cut? (source : String) (start stop : Nat) : Option String.Slice :=
  if h : String.Pos.Raw.IsValid source ⟨start⟩ ∧ String.Pos.Raw.IsValid source ⟨stop⟩ ∧ start ≤ stop then
    some (source.slice ⟨⟨start⟩, h.1⟩ ⟨⟨stop⟩, h.2.1⟩ h.2.2)
  else none

end Text
end TokenAutomata
