/-
# Strings inside JSON

Between the quotation marks of a JSON string stand the bytes of its text in
UTF-8, with some characters escaped. In writing, only the quotation mark, the
backslash and the controls below U+0020 are escaped, these by a letter where
there is one and by four hexadecimal digits where there is none. In reading,
every escape of JSON counts; two escapes that are surrogates of each other
are one character, a surrogate alone is none.

Key definitions: `Json.escapeChar`, `Json.encode`, `Json.unescape`,
`Json.decode?`.
-/
import TokenAutomata.Json.Value

namespace TokenAutomata
namespace Json

/-! ### Writing -/

/-- A character as it is written between quotation marks. -/
def escapeChar (c : Char) : Bytes :=
  if c = '"' then [Byte.backslash, Byte.quote]
  else if c = '\\' then [Byte.backslash, Byte.backslash]
  else if c = '\x08' then [Byte.backslash, 0x62]
  else if c = '\x0c' then [Byte.backslash, 0x66]
  else if c = '\n' then [Byte.backslash, 0x6e]
  else if c = '\r' then [Byte.backslash, 0x72]
  else if c = '\t' then [Byte.backslash, 0x74]
  else if c.toNat < 0x20 then
    [Byte.backslash, Byte.letterU, Byte.zero, Byte.zero, Byte.hexDigit (c.toNat / 16),
      Byte.hexDigit (c.toNat % 16)]
  else String.utf8EncodeChar c

/-- A text as it is written between quotation marks. -/
def encode (s : String) : Bytes := s.toList.flatMap escapeChar

/-! ### Reading -/

/-- The number that four hexadecimal digits give, and what follows them. -/
def hex4? : Bytes → Option (Nat × Bytes)
  | a :: b :: c :: d :: rest => do
    let a ← Byte.hexValue? a
    let b ← Byte.hexValue? b
    let c ← Byte.hexValue? c
    let d ← Byte.hexValue? d
    return (((a * 16 + b) * 16 + c) * 16 + d, rest)
  | _ => none

theorem length_of_hex4? {s rest : Bytes} {n : Nat} (h : hex4? s = some (n, rest)) :
    s.length = rest.length + 4 := by
  unfold hex4? at h
  split at h
  · simp only [Option.bind_eq_bind, Option.bind_eq_some_iff, Option.pure_def, Option.some.injEq,
      Prod.mk.injEq] at h
    obtain ⟨-, -, -, -, -, -, -, -, -, rfl⟩ := h
    rfl
  · cases h

/-- The low surrogate that an escape gives, and what follows it. -/
def lowSurrogate? : Bytes → Option (Nat × Bytes)
  | a :: b :: rest =>
    if a = Byte.backslash ∧ b = Byte.letterU then
      (hex4? rest).filter fun (m, _) => 0xdc00 ≤ m && m ≤ 0xdfff
    else none
  | _ => none

theorem length_of_lowSurrogate? {s rest : Bytes} {m : Nat}
    (h : lowSurrogate? s = some (m, rest)) : rest.length < s.length := by
  unfold lowSurrogate? at h
  split at h
  · split at h
    · have := length_of_hex4? (Option.filter_eq_some_iff.1 h).1
      simp only [List.length_cons]
      omega
    · cases h
  · cases h

/-- The character of an escape by number, and what follows it. A high
surrogate takes the low one after it along. -/
def unicodeEscape? (s : Bytes) : Option (Char × Bytes) :=
  match hex4? s with
  | none => none
  | some (n, rest) =>
    if 0xdc00 ≤ n ∧ n ≤ 0xdfff then none
    else if 0xd800 ≤ n ∧ n ≤ 0xdbff then
      (lowSurrogate? rest).map fun (m, rest) =>
        (Char.ofNat (0x10000 + (n - 0xd800) * 0x400 + (m - 0xdc00)), rest)
    else some (Char.ofNat n, rest)

theorem length_of_unicodeEscape? {s rest : Bytes} {c : Char}
    (h : unicodeEscape? s = some (c, rest)) : rest.length < s.length := by
  unfold unicodeEscape? at h
  split at h
  · cases h
  · rename_i n s' hs
    have l1 := length_of_hex4? hs
    split at h
    · cases h
    · split at h
      · obtain ⟨⟨m, s''⟩, h2, he⟩ := Option.map_eq_some_iff.1 h
        have l2 := length_of_lowSurrogate? h2
        rw [← (Prod.mk.inj he).2]
        omega
      · rw [← (Prod.mk.inj (Option.some.inj h)).2]
        omega

/-- The byte that a one-letter escape stands for. -/
def letterEscape? (b : UInt8) : Option UInt8 :=
  if b = Byte.quote ∨ b = Byte.backslash ∨ b = Byte.slash then some b
  else if b = 0x62 then some 0x08
  else if b = 0x66 then some 0x0c
  else if b = 0x6e then some 0x0a
  else if b = 0x72 then some 0x0d
  else if b = 0x74 then some 0x09
  else none

/-- The bytes of the text, from what is written between the quotation
marks. -/
def unescape (s : Bytes) : Option Bytes :=
  match s with
  | [] => some []
  | [b] => if b = Byte.backslash then none else some [b]
  | b :: e :: rest =>
    if b ≠ Byte.backslash then (unescape (e :: rest)).map (b :: ·)
    else if e = Byte.letterU then
      match _h : unicodeEscape? rest with
      | none => none
      | some (c, rest') => (unescape rest').map (String.utf8EncodeChar c ++ ·)
    else
      match letterEscape? e with
      | none => none
      | some e => (unescape rest).map (e :: ·)
termination_by s.length
decreasing_by
  · simp only [List.length_cons]
    omega
  · have := length_of_unicodeEscape? _h
    simp only [List.length_cons]
    omega
  · simp only [List.length_cons]
    omega

/-- The text, from what is written between the quotation marks. -/
def decode? (s : Bytes) : Option String := do
  let bytes ← unescape s
  String.fromUTF8? ⟨bytes.toArray⟩

end Json
end TokenAutomata
