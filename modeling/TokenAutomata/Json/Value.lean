/-
# JSON texts as trees

A JSON text is a sequence of bytes. As a tree it keeps its numbers and its
strings as they are written: a number is its digits and signs, a string is
what stands between its quotation marks. Whether a number fits a range, or a
string is proper Unicode, is for whoever uses it to ask; a part of a text
that nobody uses need not even be so.

Key definitions: `Json.Bytes`, `Json.Value`.
-/
namespace TokenAutomata
namespace Json

/-- A sequence of bytes. -/
abbrev Bytes := List UInt8

/-- A JSON text, with numbers and strings as written. -/
inductive Value where
  | null
  | bool (value : Bool)
  | number (written : Bytes)
  | string (written : Bytes)
  | array (items : List Value)
  | object (members : List (Bytes × Value))
deriving Inhabited

/-! ### Bytes with a meaning -/

def nullWord : Bytes := [0x6e, 0x75, 0x6c, 0x6c]

def trueWord : Bytes := [0x74, 0x72, 0x75, 0x65]

def falseWord : Bytes := [0x66, 0x61, 0x6c, 0x73, 0x65]

namespace Byte

def quote : UInt8 := 0x22
def comma : UInt8 := 0x2c
def minus : UInt8 := 0x2d
def plus : UInt8 := 0x2b
def point : UInt8 := 0x2e
def slash : UInt8 := 0x2f
def zero : UInt8 := 0x30
def colon : UInt8 := 0x3a
def backslash : UInt8 := 0x5c
def openBracket : UInt8 := 0x5b
def closeBracket : UInt8 := 0x5d
def openBrace : UInt8 := 0x7b
def closeBrace : UInt8 := 0x7d
def lineFeed : UInt8 := 0x0a
def blank : UInt8 := 0x20
/-- The letter of an escape by number. -/
def letterU : UInt8 := 0x75

/-- Space, tab, line feed or carriage return. -/
def isBlank (b : UInt8) : Bool := b == 0x20 || b == 0x09 || b == 0x0a || b == 0x0d

def isDigit (b : UInt8) : Bool := 0x30 ≤ b && b ≤ 0x39

/-- The value of a hexadecimal digit. -/
def hexValue? (b : UInt8) : Option Nat :=
  if 0x30 ≤ b && b ≤ 0x39 then some (b.toNat - 0x30)
  else if 0x61 ≤ b && b ≤ 0x66 then some (b.toNat - 0x61 + 10)
  else if 0x41 ≤ b && b ≤ 0x46 then some (b.toNat - 0x41 + 10)
  else none

/-- The lower case hexadecimal digit of a value below 16. -/
def hexDigit (n : Nat) : UInt8 :=
  if n < 10 then UInt8.ofNat (0x30 + n) else UInt8.ofNat (0x61 + (n - 10))

end Byte
end Json
end TokenAutomata
