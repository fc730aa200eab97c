/-
# Quoted characters and texts

Messages show a symbol between single quotation marks and a text between
double ones. Inside, the mark itself and the backslash are escaped, so are
NUL, tab, line feed and carriage return, and whatever cannot be seen on its
own (`Text.isVisible`) is written as its code point.

Key definitions: `Text.quotedChar`, `Text.quoted`.
-/
import TokenAutomata.Text.Printable

namespace TokenAutomata
namespace Text

/-- The code point in lower case hexadecimal digits, as `\u{301}`. -/
def codePointEscape (c : Char) : List Char :=
  "\\u\x7b".toList ++ Nat.toDigits 16 c.toNat ++ ['\x7d']

/-- A character as it stands between two `mark`s. -/
def escape (mark c : Char) : List Char :=
  if c = '\x00' then ['\\', '0']
  else if c = '\t' then ['\\', 't']
  else if c = '\r' then ['\\', 'r']
  else if c = '\n' then ['\\', 'n']
  else if c = '\\' ∨ c = mark then ['\\', c]
  else if isVisible c then [c]
  else codePointEscape c

/-- A character between single quotation marks. -/
def quotedChar (c : Char) : String :=
  String.ofList ('\'' :: escape '\'' c ++ ['\''])

/-- A text between double quotation marks. -/
def quoted (s : String) : String :=
  String.ofList ('"' :: s.toList.flatMap (escape '"') ++ ['"'])

end Text
end TokenAutomata
