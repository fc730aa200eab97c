/-
# Writing JSON

JSON is written with each item and each member on a line of its own, indented
by two blanks for each array or object around it, and with a blank after the
colon of a member. An empty array or object takes no lines.

Key definitions: `Json.print`.
-/
import TokenAutomata.Json.Value

namespace TokenAutomata
namespace Json

/-- The start of a line at a depth. -/
def newLine (depth : Nat) : Bytes := Byte.lineFeed :: List.replicate (2 * depth) Byte.blank

mutual

/-- A value whose first line is already started, at a depth. -/
def printAt (depth : Nat) : Value → Bytes
  | .null => nullWord
  | .bool true => trueWord
  | .bool false => falseWord
  | .number written => written
  | .string written => Byte.quote :: written ++ [Byte.quote]
  | .array [] => [Byte.openBracket, Byte.closeBracket]
  | .array (item :: items) =>
    Byte.openBracket :: newLine (depth + 1) ++ printAt (depth + 1) item ++
      printItems (depth + 1) items ++ newLine depth ++ [Byte.closeBracket]
  | .object [] => [Byte.openBrace, Byte.closeBrace]
  | .object ((key, value) :: members) =>
    Byte.openBrace :: newLine (depth + 1) ++ (Byte.quote :: key) ++
      [Byte.quote, Byte.colon, Byte.blank] ++ printAt (depth + 1) value ++
      printMembers (depth + 1) members ++ newLine depth ++ [Byte.closeBrace]

/-- The items after the first one. -/
def printItems (depth : Nat) : List Value → Bytes
  | [] => []
  | item :: items => Byte.comma :: newLine depth ++ printAt depth item ++ printItems depth items

/-- The members after the first one. -/
def printMembers (depth : Nat) : List (Bytes × Value) → Bytes
  | [] => []
  | (key, value) :: members =>
    Byte.comma :: newLine depth ++ (Byte.quote :: key) ++ [Byte.quote, Byte.colon, Byte.blank] ++
      printAt depth value ++ printMembers depth members

end

/-- A value as a text of its own. -/
def print (v : Value) : Bytes := printAt 0 v

end Json
end TokenAutomata
