/-
# A text between quotation marks is read back

A character is written in one of three ways (`Json.CharWritten`): as its bytes
in UTF-8, none of which is special; as a letter behind a backslash; or as the
digits of its number. Whichever it is, the end of the string is not found in it
(`Json.CharWritten.stringBody?`), and taking the escape back gives its bytes in
UTF-8 (`Json.CharWritten.unescape`). So the reader finds the whole of what was
written, and that is the text, whatever its characters are.

Key definitions: `Json.Byte.Plain`, `Json.CharWritten`.
Key theorems: `Json.escapeChar_written`, `Json.stringBody?_encode`,
`Json.decode?_encode`.
-/
import Mathlib.Tactic.SplitIfs
import TokenAutomata.Json.Parser

namespace TokenAutomata
namespace Json

/-- The byte stands for itself between quotation marks. -/
def Byte.Plain (b : UInt8) : Prop := b ≠ Byte.quote ∧ b ≠ Byte.backslash ∧ 0x20 ≤ b.toNat

/-- How a character may be written between quotation marks. -/
inductive CharWritten (c : Char) : Bytes → Prop
  | plain : (∀ b ∈ String.utf8EncodeChar c, Byte.Plain b) → CharWritten c (String.utf8EncodeChar c)
  | letter {e x : UInt8} : e ≠ Byte.letterU → letterEscape? e = some x →
      String.utf8EncodeChar c = [x] → CharWritten c [Byte.backslash, e]
  | number : c.toNat < 0x20 → CharWritten c [Byte.backslash, Byte.letterU, Byte.zero, Byte.zero,
      Byte.hexDigit (c.toNat / 16), Byte.hexDigit (c.toNat % 16)]

/-! ### How a character is written -/

theorem plain_of_le {b : UInt8} (h : 0x80 ≤ b.toNat) : Byte.Plain b := by
  refine ⟨?_, ?_, by omega⟩
  · rintro rfl
    exact absurd h (by decide)
  · rintro rfl
    exact absurd h (by decide)

theorem plain_of_ascii {c : Char} (hquote : c ≠ '"') (hbackslash : c ≠ '\\')
    (hcontrol : 0x20 ≤ c.toNat) (hascii : c.toNat ≤ 127) : Byte.Plain (UInt8.ofNat c.toNat) := by
  have hvalue : (UInt8.ofNat c.toNat).toNat = c.toNat := by
    rw [UInt8.toNat_ofNat']
    omega
  have hne : ∀ d : Char, c ≠ d → d.toNat ≤ 127 → UInt8.ofNat c.toNat ≠ UInt8.ofNat d.toNat := by
    intro d hd hdascii he
    have hnat := congrArg UInt8.toNat he
    rw [hvalue, UInt8.toNat_ofNat'] at hnat
    have hsame : c.toNat = d.toNat := by omega
    exact hd (Char.toNat_inj.1 hsame)
  refine ⟨hne '"' hquote (by decide), hne '\\' hbackslash (by decide), ?_⟩
  rw [hvalue]
  exact hcontrol

/-- Beyond ASCII, all bytes of a character are high. -/
theorem high_of_mem {c : Char} (hc : 127 < c.toNat) {b : UInt8} (hb : b ∈ String.utf8EncodeChar c) :
    0x80 ≤ b.toNat := by
  have hvalue : ∀ n : Nat, (UInt8.ofNat n).toNat = n % 256 := fun n => UInt8.toNat_ofNat'
  have hnot : ¬ c.val.toNat ≤ 127 := Nat.not_le.2 hc
  unfold String.utf8EncodeChar at hb
  simp only [if_neg hnot] at hb
  -- two, three or four bytes
  split_ifs at hb
  · grind
  · grind
  · grind

/-- A character without an escape has no special byte. -/
theorem plain_of_mem {c : Char} (hquote : c ≠ '"') (hbackslash : c ≠ '\\')
    (hcontrol : 0x20 ≤ c.toNat) {b : UInt8} (hb : b ∈ String.utf8EncodeChar c) : Byte.Plain b := by
  by_cases hascii : c.toNat ≤ 127
  · have hbytes : String.utf8EncodeChar c = [UInt8.ofNat c.toNat] := if_pos hascii
    rw [hbytes, List.mem_singleton] at hb
    rw [hb]
    exact plain_of_ascii hquote hbackslash hcontrol hascii
  · exact plain_of_le (high_of_mem (Nat.not_le.1 hascii) hb)

theorem escapeChar_written (c : Char) : CharWritten c (escapeChar c) := by
  unfold escapeChar
  split_ifs with hquote hbackslash h8 hc hn hr ht hcontrol
  · subst hquote
    exact .letter (by decide) rfl rfl
  · subst hbackslash
    exact .letter (by decide) rfl rfl
  · subst h8
    exact .letter (by decide) rfl rfl
  · subst hc
    exact .letter (by decide) rfl rfl
  · subst hn
    exact .letter (by decide) rfl rfl
  · subst hr
    exact .letter (by decide) rfl rfl
  · subst ht
    exact .letter (by decide) rfl rfl
  · exact .number hcontrol
  · exact .plain fun b hb => plain_of_mem hquote hbackslash (Nat.le_of_not_lt hcontrol) hb

/-! ### The digits of a number -/

theorem hexValue?_hexDigit : ∀ n < 16, Byte.hexValue? (Byte.hexDigit n) = some n := by decide

theorem hexValue?_zero : Byte.hexValue? Byte.zero = some 0 := rfl

theorem hex4?_control {n : Nat} (hn : n < 0x20) (rest : Bytes) :
    hex4? (Byte.zero :: Byte.zero :: Byte.hexDigit (n / 16) :: Byte.hexDigit (n % 16) :: rest) =
      some (n, rest) := by
  have hhigh := hexValue?_hexDigit (n / 16) (by omega)
  have hlow := hexValue?_hexDigit (n % 16) (by omega)
  have hvalue : ((0 * 16 + 0) * 16 + n / 16) * 16 + n % 16 = n := by omega
  simp only [hex4?, hexValue?_zero, hhigh, hlow, Option.bind_eq_bind, Option.bind_some,
    Option.pure_def, hvalue]

theorem unicodeEscape?_control {c : Char} (hc : c.toNat < 0x20) (rest : Bytes) :
    unicodeEscape? (Byte.zero :: Byte.zero :: Byte.hexDigit (c.toNat / 16) ::
      Byte.hexDigit (c.toNat % 16) :: rest) = some (c, rest) := by
  have hlow : ¬ (0xdc00 ≤ c.toNat ∧ c.toNat ≤ 0xdfff) := by omega
  have hhigh : ¬ (0xd800 ≤ c.toNat ∧ c.toNat ≤ 0xdbff) := by omega
  rw [unicodeEscape?, hex4?_control hc]
  simp only [if_neg hlow, if_neg hhigh, Char.ofNat_toNat]

/-! ### The end of a string -/

/-- Puts bytes in front of what was read. -/
def prepend (front : Bytes) (read : Bytes × Bytes) : Bytes × Bytes := (front ++ read.1, read.2)

theorem stringBody?_plain {b : UInt8} (hb : Byte.Plain b) {s : Bytes} (hs : s ≠ []) :
    stringBody? (b :: s) = (stringBody? s).map (prepend [b]) := by
  obtain ⟨hquote, hbackslash, hcontrol⟩ := hb
  have hlt : ¬ b < 0x20 := by
    rw [UInt8.lt_iff_toNat_lt]
    exact Nat.not_lt.2 hcontrol
  cases s with
  | nil => exact absurd rfl hs
  | cons e rest =>
    rw [stringBody?.eq_def]
    dsimp only
    rw [if_neg hquote, if_neg hbackslash, if_neg hlt]
    rfl

theorem stringBody?_plains : ∀ {bytes : Bytes}, (∀ b ∈ bytes, Byte.Plain b) → ∀ {s : Bytes}, s ≠ [] →
    stringBody? (bytes ++ s) = (stringBody? s).map (prepend bytes)
  | [], _, s, _ => by
    have hid : prepend [] = id := rfl
    rw [hid, Option.map_id]
    rfl
  | b :: bytes, h, s, hs => by
    have ih := stringBody?_plains (fun x hx => h x (List.mem_cons_of_mem _ hx)) hs
    rw [List.cons_append, stringBody?_plain (h b List.mem_cons_self) (by simp [hs]), ih, Option.map_map]
    rfl

/-- The end of a string is not found in a character. -/
theorem CharWritten.stringBody? {c : Char} {written : Bytes} (h : CharWritten c written) {s : Bytes}
    (hs : s ≠ []) : stringBody? (written ++ s) = (stringBody? s).map (prepend written) := by
  cases h with
  | plain hplain => exact stringBody?_plains hplain hs
  | @letter e x hu hletter _ =>
    have hsome : (letterEscape? e).isSome := by
      rw [hletter]
      rfl
    rw [List.cons_append, List.cons_append, List.nil_append, Json.stringBody?.eq_def]
    dsimp only
    rw [if_neg (by decide), if_pos rfl, if_neg hu, if_pos hsome]
    rfl
  | number hc =>
    have hhigh := hexValue?_hexDigit (c.toNat / 16) (by omega)
    have hlow := hexValue?_hexDigit (c.toNat % 16) (by omega)
    have hall : [Byte.zero, Byte.zero, Byte.hexDigit (c.toNat / 16), Byte.hexDigit (c.toNat % 16)].all
        (fun digit => (Byte.hexValue? digit).isSome) = true := by
      simp [hexValue?_zero, hhigh, hlow]
    simp only [List.cons_append, List.nil_append]
    rw [Json.stringBody?.eq_def]
    dsimp only
    rw [if_neg (by decide), if_pos rfl, if_pos rfl, if_pos hall]
    rfl

theorem stringBody?_flatMap : ∀ (text : List Char) (rest : Bytes),
    stringBody? (text.flatMap escapeChar ++ Byte.quote :: rest) = some (text.flatMap escapeChar, rest)
  | [], rest => by
    cases rest <;> simp [stringBody?.eq_def]
  | c :: text, rest => by
    rw [List.flatMap_cons, List.append_assoc, (escapeChar_written c).stringBody? (by simp),
      stringBody?_flatMap text rest]
    rfl

/-- What is written of a text is found whole. -/
theorem stringBody?_encode (s : String) (rest : Bytes) :
    stringBody? (encode s ++ Byte.quote :: rest) = some (encode s, rest) :=
  stringBody?_flatMap s.toList rest

/-! ### Escapes taken back -/

theorem unescape_of_ne {b : UInt8} (hb : b ≠ Byte.backslash) (s : Bytes) :
    unescape (b :: s) = (unescape s).map (b :: ·) := by
  cases s with
  | nil =>
    rw [unescape.eq_def [b], unescape.eq_def []]
    simp [hb]
  | cons e rest => rw [unescape, if_pos hb]

theorem unescape_plains : ∀ {bytes : Bytes}, (∀ b ∈ bytes, Byte.Plain b) → ∀ s : Bytes,
    unescape (bytes ++ s) = (unescape s).map (bytes ++ ·)
  | [], _, s => by simp
  | b :: bytes, h, s => by
    have ih := unescape_plains (fun x hx => h x (List.mem_cons_of_mem _ hx)) s
    rw [List.cons_append, unescape_of_ne (h b List.mem_cons_self).2.1, ih, Option.map_map]
    rfl

/-- Taking the escape back gives the bytes of the character. -/
theorem CharWritten.unescape {c : Char} {written : Bytes} (h : CharWritten c written) (s : Bytes) :
    unescape (written ++ s) = (unescape s).map (String.utf8EncodeChar c ++ ·) := by
  cases h with
  | plain hplain => exact unescape_plains hplain s
  | letter hu hletter hbytes =>
    rw [List.cons_append, List.cons_append, List.nil_append, Json.unescape, if_neg (by simp), if_neg hu,
      hletter, hbytes]
    rfl
  | number hc =>
    simp only [List.cons_append, List.nil_append]
    rw [Json.unescape, if_neg (by simp), if_pos rfl]
    split
    · rename_i hnone
      rw [unicodeEscape?_control hc] at hnone
      cases hnone
    · rename_i c' rest hsome
      rw [unicodeEscape?_control hc] at hsome
      cases hsome
      rfl

theorem unescape_flatMap : ∀ text : List Char,
    unescape (text.flatMap escapeChar) = some (text.flatMap String.utf8EncodeChar)
  | [] => by
    rw [List.flatMap_nil, unescape]
    rfl
  | c :: text => by
    rw [List.flatMap_cons, (escapeChar_written c).unescape, unescape_flatMap text]
    rfl

/-- A text is read back from what is written of it. -/
theorem decode?_encode (s : String) : decode? (encode s) = some s := by
  have hbytes : (⟨(s.toList.flatMap String.utf8EncodeChar).toArray⟩ : ByteArray) = s.toByteArray := by
    rw [← String.utf8Encode_toList, List.utf8Encode]
    ext1
    exact List.data_toByteArray.symm
  have hread : unescape (encode s) = some (s.toList.flatMap String.utf8EncodeChar) :=
    unescape_flatMap s.toList
  rw [decode?, hread, Option.bind_eq_bind, Option.bind_some, hbytes, String.fromUTF8?,
    dif_pos s.isValidUTF8]
  rfl

end Json
end TokenAutomata
