/-
# Reading JSON

The reader takes the grammar of JSON to the letter: blanks only between
tokens, no comma too many, no text after the value, no control characters in
strings, escapes spelled in full. What numbers and strings mean is left open
(`Json.Value`). Each step reads a value from the front of the bytes and gives
the rest.

Arrays and objects nest, so the reader counts the levels and items it may
still enter; the length of the text is always enough.

Key definitions: `Json.stringBody?`, `Json.number?`, `Json.parse?`.
-/
import TokenAutomata.Json.Quoted

namespace TokenAutomata
namespace Json

def skipBlanks (s : Bytes) : Bytes := s.dropWhile Byte.isBlank

/-! ### Strings and numbers -/

/-- What is written up to the closing quotation mark, and what follows it. -/
def stringBody? : Bytes → Option (Bytes × Bytes)
  | [] => none
  | [b] => if b = Byte.quote then some ([], []) else none
  | b :: e :: rest =>
    if b = Byte.quote then some ([], e :: rest)
    else if b = Byte.backslash then
      if e = Byte.letterU then
        match rest with
        | w :: x :: y :: z :: rest =>
          if [w, x, y, z].all fun digit => (Byte.hexValue? digit).isSome then
            (stringBody? rest).map fun (body, rest) => (b :: e :: w :: x :: y :: z :: body, rest)
          else none
        | _ => none
      else if (letterEscape? e).isSome then
        (stringBody? rest).map fun (body, rest) => (b :: e :: body, rest)
      else none
    else if b < 0x20 then none
    else (stringBody? (e :: rest)).map fun (body, rest) => (b :: body, rest)

/-- Digits, at least one, and what follows them. -/
def digits? (s : Bytes) : Option (Bytes × Bytes) :=
  match s.span Byte.isDigit with
  | ([], _) => none
  | (digits, rest) => some (digits, rest)

/-- The part of a number before the point: no digit follows a leading zero. -/
def integerPart? : Bytes → Option (Bytes × Bytes)
  | [] => none
  | b :: rest => if b = Byte.zero then some ([b], rest) else digits? (b :: rest)

/-- The part of a number from the point on, which may be missing. -/
def fractionPart? : Bytes → Option (Bytes × Bytes)
  | [] => some ([], [])
  | b :: rest =>
    if b = Byte.point then (digits? rest).map fun (digits, rest) => (b :: digits, rest)
    else some ([], b :: rest)

/-- The digits of an exponent, with or without a sign. -/
def exponentDigits? : Bytes → Option (Bytes × Bytes)
  | [] => none
  | b :: rest =>
    if b = Byte.plus ∨ b = Byte.minus then
      (digits? rest).map fun (digits, rest) => (b :: digits, rest)
    else digits? (b :: rest)

/-- The part of a number from the letter `e` on, which may be missing. -/
def exponentPart? : Bytes → Option (Bytes × Bytes)
  | [] => some ([], [])
  | b :: rest =>
    if b = 0x65 ∨ b = 0x45 then
      (exponentDigits? rest).map fun (digits, rest) => (b :: digits, rest)
    else some ([], b :: rest)

/-- A number without a sign. -/
def unsigned? (s : Bytes) : Option (Bytes × Bytes) := do
  let (integer, s) ← integerPart? s
  let (fraction, s) ← fractionPart? s
  let (exponent, s) ← exponentPart? s
  return (integer ++ fraction ++ exponent, s)

/-- A number as it is written, and what follows it. -/
def number? : Bytes → Option (Bytes × Bytes)
  | [] => none
  | b :: rest =>
    if b = Byte.minus then (unsigned? rest).map fun (n, rest) => (b :: n, rest)
    else unsigned? (b :: rest)

/-! ### Values -/

/-- One of the three words, and what follows it. -/
def keyword? (s : Bytes) : Option (Value × Bytes) :=
  [(nullWord, .null), (trueWord, .bool true), (falseWord, .bool false)].findSome?
    fun (word, value) => if word.isPrefixOf s then some (value, s.drop word.length) else none

/-- What follows a byte that has to come first. -/
def expect? (byte : UInt8) : Bytes → Option Bytes
  | [] => none
  | b :: rest => if b = byte then some rest else none

mutual

/-- A value that starts with the first byte. -/
def value? : Nat → Bytes → Option (Value × Bytes)
  | 0, _ => none
  | _ + 1, [] => none
  | fuel + 1, b :: rest =>
    if b = Byte.quote then (stringBody? rest).map fun (body, rest) => (.string body, rest)
    else if b = Byte.openBracket then
      match expect? Byte.closeBracket (skipBlanks rest) with
      | some rest => some (.array [], rest)
      | none => (items? fuel (skipBlanks rest)).map fun (items, rest) => (.array items, rest)
    else if b = Byte.openBrace then
      match expect? Byte.closeBrace (skipBlanks rest) with
      | some rest => some (.object [], rest)
      | none =>
        (members? fuel (skipBlanks rest)).map fun (members, rest) => (.object members, rest)
    else
      keyword? (b :: rest) <|> (number? (b :: rest)).map fun (n, rest) => (.number n, rest)

/-- Items up to the end of their array. -/
def items? : Nat → Bytes → Option (List Value × Bytes)
  | 0, _ => none
  | fuel + 1, s => do
    let (item, s) ← value? fuel s
    match skipBlanks s with
    | [] => none
    | b :: rest =>
      if b = Byte.comma then
        (items? fuel (skipBlanks rest)).map fun (items, rest) => (item :: items, rest)
      else if b = Byte.closeBracket then some ([item], rest)
      else none

/-- Members up to the end of their object. -/
def members? : Nat → Bytes → Option (List (Bytes × Value) × Bytes)
  | 0, _ => none
  | fuel + 1, s => do
    let s ← expect? Byte.quote s
    let (key, s) ← stringBody? s
    let s ← expect? Byte.colon (skipBlanks s)
    let (value, s) ← value? fuel (skipBlanks s)
    match skipBlanks s with
    | [] => none
    | b :: rest =>
      if b = Byte.comma then
        (members? fuel (skipBlanks rest)).map fun (members, rest) => ((key, value) :: members, rest)
      else if b = Byte.closeBrace then some ([(key, value)], rest)
      else none

end

/-- The value that a text holds, with nothing but blanks around it. -/
def parse? (s : Bytes) : Option Value := do
  let (value, rest) ← value? (s.length + 1) (skipBlanks s)
  if (skipBlanks rest).isEmpty then return value else none

end Json
end TokenAutomata
