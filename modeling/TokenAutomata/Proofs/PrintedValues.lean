/-
# A printed value is read back

`Value.ReadsBack` says of a value that the reader gets it from what is printed
of it, at any depth and whatever follows, and knows where it ends. A number
ends where no digit, point or exponent follows, and indeed only a comma, a line
or nothing follows a printed value. Numbers in digits and texts read back, and
so do arrays and objects of values that do (`Value.ReadsBack.array`,
`Value.ReadsBack.object`).

Each level and each item takes a byte at least, so the length of what is printed
is fuel enough.

Key definitions: `Json.EndsNumber`, `Json.Value.ReadsBack`.
Key theorems: `Json.Value.ReadsBack.ofNat`, `Json.Value.ReadsBack.ofText`,
`Json.Value.ReadsBack.array`, `Json.Value.ReadsBack.object`,
`Json.Value.ReadsBack.parse?_print`.
-/
import Mathlib.Data.List.TakeDrop
import TokenAutomata.Proofs.QuotedText
import TokenAutomata.Table.Json

namespace TokenAutomata
namespace Json

/-- A number cannot go on here. -/
def EndsNumber (rest : Bytes) : Prop :=
  ∀ b ∈ rest.head?, Byte.isDigit b = false ∧ b ≠ Byte.point ∧ b ≠ 0x65 ∧ b ≠ 0x45

/-- What is printed of the value is read as the value. -/
structure Value.ReadsBack (v : Value) : Prop where
  starts : ∀ depth, ∃ b rest, printAt depth v = b :: rest ∧ Byte.isBlank b = false ∧
    b ≠ Byte.closeBracket
  read : ∀ depth fuel rest, (printAt depth v).length ≤ fuel → EndsNumber rest →
    value? fuel (printAt depth v ++ rest) = some (v, rest)

/-! ### Blanks -/

theorem skipBlanks_cons {b : UInt8} (hb : Byte.isBlank b = false) (s : Bytes) :
    skipBlanks (b :: s) = b :: s :=
  List.dropWhile_cons_of_neg (by simp [hb])

theorem isBlank_of_mem_newLine {depth : Nat} {b : UInt8} (hb : b ∈ newLine depth) :
    Byte.isBlank b = true := by
  rcases List.mem_cons.1 hb with rfl | hb
  · rfl
  · rw [List.eq_of_mem_replicate hb]
    rfl

theorem skipBlanks_newLine (depth : Nat) (s : Bytes) :
    skipBlanks (newLine depth ++ s) = skipBlanks s :=
  List.dropWhile_append_of_pos fun _ hb => isBlank_of_mem_newLine hb

theorem endsNumber_cons {b : UInt8} {s : Bytes}
    (hb : Byte.isDigit b = false ∧ b ≠ Byte.point ∧ b ≠ 0x65 ∧ b ≠ 0x45) : EndsNumber (b :: s) := by
  intro x hx
  obtain rfl : b = x := Option.some.inj hx
  exact hb

theorem endsNumber_newLine (depth : Nat) (s : Bytes) : EndsNumber (newLine depth ++ s) :=
  endsNumber_cons (by decide)

/-! ### Numbers -/

/-- The digits of a number. -/
def decimal (n : Nat) : Bytes := (Nat.toDigits 10 n).map fun c => UInt8.ofNat c.toNat

theorem ofNat_eq (n : Nat) : ofNat n = .number (decimal n) := rfl

theorem digit_range {c : Char} (hc : c.isDigit = true) : 48 ≤ c.toNat ∧ c.toNat ≤ 57 := by
  have hrange : 48 ≤ c.val ∧ c.val ≤ 57 := by simpa [Char.isDigit] using hc
  exact hrange

theorem toNat_ofNat_digit {c : Char} (hc : c.isDigit = true) : (UInt8.ofNat c.toNat).toNat = c.toNat := by
  have hle := (digit_range hc).2
  rw [UInt8.toNat_ofNat']
  omega

theorem isDigit_of_mem_decimal {n : Nat} {b : UInt8} (hb : b ∈ decimal n) : Byte.isDigit b = true := by
  obtain ⟨c, hc, rfl⟩ := List.mem_map.1 hb
  have hdigit : c.isDigit = true := Nat.isDigit_of_mem_toDigits (by decide) (by decide) hc
  rw [Byte.isDigit, Bool.and_eq_true, decide_eq_true_iff, decide_eq_true_iff, UInt8.le_iff_toNat_le,
    UInt8.le_iff_toNat_le, toNat_ofNat_digit hdigit]
  exact digit_range hdigit

theorem decimal_of_lt {n : Nat} (hn : n < 10) : decimal n = [UInt8.ofNat n.digitChar.toNat] := by
  rw [decimal, Nat.toDigits_of_lt_base hn]
  rfl

theorem decimal_of_le {n : Nat} (hn : 10 ≤ n) :
    decimal n = decimal (n / 10) ++ [UInt8.ofNat (n % 10).digitChar.toNat] := by
  rw [decimal, Nat.toDigits_of_base_le (by decide) hn, List.map_append]
  rfl

theorem isBlank_of_isDigit {b : UInt8} (hb : Byte.isDigit b = true) : Byte.isBlank b = false := by
  rw [Bool.eq_false_iff]
  intro hblank
  simp only [Byte.isBlank, Bool.or_eq_true, beq_iff_eq, or_assoc] at hblank
  rcases hblank with rfl | rfl | rfl | rfl
  all_goals cases hb

/-- No number but zero starts with the digit zero. -/
theorem decimal_cons {n : Nat} (hn : n ≠ 0) : ∃ b rest, decimal n = b :: rest ∧ b ≠ Byte.zero := by
  induction n using Nat.strongRecOn with
  | _ n ih =>
    by_cases hlt : n < 10
    · have hdigit : ∀ k < 10, k ≠ 0 → UInt8.ofNat k.digitChar.toNat ≠ Byte.zero := by decide
      exact ⟨_, [], decimal_of_lt hlt, hdigit n hlt hn⟩
    · obtain ⟨b, rest, hfront, hb⟩ := ih (n / 10) (by omega) (by omega)
      refine ⟨b, rest ++ [UInt8.ofNat (n % 10).digitChar.toNat], ?_, hb⟩
      rw [decimal_of_le (Nat.le_of_not_lt hlt), hfront]
      rfl

theorem digits?_append {bytes rest : Bytes} (hne : bytes ≠ [])
    (hall : ∀ b ∈ bytes, Byte.isDigit b = true) (hrest : ∀ b ∈ rest.head?, Byte.isDigit b = false) :
    digits? (bytes ++ rest) = some (bytes, rest) := by
  have htake : (bytes ++ rest).takeWhile Byte.isDigit = bytes := by
    rw [List.takeWhile_append_of_pos hall]
    cases rest with
    | nil => simp
    | cons b rest => simp [hrest b rfl]
  have hdrop : (bytes ++ rest).dropWhile Byte.isDigit = rest := by
    rw [List.dropWhile_append_of_pos hall]
    cases rest with
    | nil => rfl
    | cons b rest => simp [hrest b rfl]
  rw [digits?, List.span_eq_takeWhile_dropWhile, htake, hdrop]
  cases bytes with
  | nil => exact absurd rfl hne
  | cons b bytes => rfl

theorem integerPart?_decimal (n : Nat) {rest : Bytes} (hrest : EndsNumber rest) :
    integerPart? (decimal n ++ rest) = some (decimal n, rest) := by
  by_cases hn : n = 0
  · subst hn
    rfl
  · obtain ⟨b, more, hdecimal, hb⟩ := decimal_cons hn
    have hdigits : digits? (decimal n ++ rest) = some (decimal n, rest) :=
      digits?_append (by simp [hdecimal]) (fun _ => isDigit_of_mem_decimal) fun x hx => (hrest x hx).1
    rw [hdecimal] at hdigits ⊢
    rw [List.cons_append, integerPart?, if_neg hb, ← List.cons_append, hdigits]

theorem fractionPart?_none {rest : Bytes} (hrest : EndsNumber rest) :
    fractionPart? rest = some ([], rest) := by
  cases rest with
  | nil => rfl
  | cons b rest => rw [fractionPart?, if_neg (hrest b rfl).2.1]

theorem exponentPart?_none {rest : Bytes} (hrest : EndsNumber rest) :
    exponentPart? rest = some ([], rest) := by
  cases rest with
  | nil => rfl
  | cons b rest =>
    have hne : ¬ (b = 0x65 ∨ b = 0x45) := not_or.2 (hrest b rfl).2.2
    rw [exponentPart?, if_neg hne]

theorem unsigned?_decimal (n : Nat) {rest : Bytes} (hrest : EndsNumber rest) :
    unsigned? (decimal n ++ rest) = some (decimal n, rest) := by
  simp only [unsigned?, integerPart?_decimal n hrest, fractionPart?_none hrest, exponentPart?_none hrest,
    Option.bind_eq_bind, Option.bind_some, Option.pure_def, List.append_nil]

/-- A digit tells a number from all other values. -/
theorem value?_of_isDigit {b : UInt8} (hb : Byte.isDigit b = true) (fuel : Nat) (rest : Bytes) :
    value? (fuel + 1) (b :: rest) = (unsigned? (b :: rest)).map fun (n, rest) => (.number n, rest) := by
  have hne : ∀ x : UInt8, Byte.isDigit x = false → b ≠ x := by
    rintro x hx rfl
    rw [hb] at hx
    cases hx
  have hkeyword : keyword? (b :: rest) = none := by
    simp [keyword?, nullWord, trueWord, falseWord, (hne 0x6e rfl).symm, (hne 0x74 rfl).symm,
      (hne 0x66 rfl).symm]
  rw [value?, if_neg (hne Byte.quote rfl), if_neg (hne Byte.openBracket rfl),
    if_neg (hne Byte.openBrace rfl), hkeyword, number?, if_neg (hne Byte.minus rfl)]
  rfl

/-! ### Steps of the reader -/

theorem expect?_self (b : UInt8) (s : Bytes) : expect? b (b :: s) = some s := if_pos rfl

theorem expect?_of_ne {b x : UInt8} (h : x ≠ b) (s : Bytes) : expect? b (x :: s) = none := if_neg h

section Steps

variable {fuel : Nat} {s after tail rest : Bytes} {key : Bytes} {item value : Value}
  {items : List Value} {members : List (Bytes × Value)}

theorem items?_last (hitem : value? fuel s = some (item, after))
    (hend : skipBlanks after = Byte.closeBracket :: rest) :
    items? (fuel + 1) s = some ([item], rest) := by
  rw [items?, hitem, Option.bind_eq_bind, Option.bind_some]
  dsimp only
  rw [hend]
  rfl

theorem items?_more (hitem : value? fuel s = some (item, after))
    (hcomma : skipBlanks after = Byte.comma :: tail)
    (hitems : items? fuel (skipBlanks tail) = some (items, rest)) :
    items? (fuel + 1) s = some (item :: items, rest) := by
  rw [items?, hitem, Option.bind_eq_bind, Option.bind_some]
  dsimp only
  rw [hcomma]
  dsimp only
  rw [if_pos rfl, hitems]
  rfl

theorem members?_last (hkey : stringBody? s = some (key, Byte.colon :: tail))
    (hvalue : value? fuel (skipBlanks tail) = some (value, after))
    (hend : skipBlanks after = Byte.closeBrace :: rest) :
    members? (fuel + 1) (Byte.quote :: s) = some ([(key, value)], rest) := by
  have hcolon : skipBlanks (Byte.colon :: tail) = Byte.colon :: tail := skipBlanks_cons (by decide) tail
  simp only [members?, expect?_self, Option.bind_eq_bind, Option.bind_some, hkey, hcolon, hvalue, hend]
  rfl

theorem members?_more {tail' : Bytes} (hkey : stringBody? s = some (key, Byte.colon :: tail))
    (hvalue : value? fuel (skipBlanks tail) = some (value, after))
    (hcomma : skipBlanks after = Byte.comma :: tail')
    (hmembers : members? fuel (skipBlanks tail') = some (members, rest)) :
    members? (fuel + 1) (Byte.quote :: s) = some ((key, value) :: members, rest) := by
  have hcolon : skipBlanks (Byte.colon :: tail) = Byte.colon :: tail := skipBlanks_cons (by decide) tail
  simp only [members?, expect?_self, Option.bind_eq_bind, Option.bind_some, hkey, hcolon, hvalue,
    hcomma, if_pos, hmembers]
  rfl

end Steps

namespace Value.ReadsBack

theorem ofNat (n : Nat) : (ofNat n).ReadsBack := by
  obtain ⟨b, more, hdecimal⟩ := List.exists_cons_of_ne_nil
    (show decimal n ≠ [] from fun h => Nat.toDigits_ne_nil (List.map_eq_nil_iff.1 h))
  have hb : Byte.isDigit b = true := isDigit_of_mem_decimal (hdecimal ▸ List.mem_cons_self)
  refine ⟨fun _ => ⟨b, more, ?_, isBlank_of_isDigit hb, ?_⟩, fun depth fuel rest hfuel hrest => ?_⟩
  · rw [ofNat_eq, printAt, hdecimal]
  · rintro rfl
    cases hb
  · rw [ofNat_eq, printAt] at hfuel ⊢
    have hunsigned := unsigned?_decimal n hrest
    rw [hdecimal] at hfuel hunsigned ⊢
    cases fuel with
    | zero => cases hfuel
    | succ fuel =>
      rw [List.cons_append, value?_of_isDigit hb, ← List.cons_append, hunsigned]
      rfl

theorem ofText (s : String) : (ofText s).ReadsBack := by
  refine ⟨fun _ => ⟨Byte.quote, encode s ++ [Byte.quote], rfl, rfl, by decide⟩,
    fun depth fuel rest hfuel _ => ?_⟩
  have hbody : stringBody? (encode s ++ [Byte.quote] ++ rest) = some (encode s, rest) := by
    rw [List.append_assoc]
    exact stringBody?_encode s rest
  rw [Json.ofText, printAt] at hfuel ⊢
  cases fuel with
  | zero => cases hfuel
  | succ fuel =>
    rw [List.cons_append, List.cons_append, value?, if_pos rfl, hbody]
    rfl

/-- Where a value starts, no blank is skipped. -/
theorem skipBlanks_printAt {v : Value} (h : v.ReadsBack) (depth : Nat) (rest : Bytes) :
    skipBlanks (printAt depth v ++ rest) = printAt depth v ++ rest := by
  obtain ⟨b, more, hprint, hb, -⟩ := h.starts depth
  rw [hprint, List.cons_append, skipBlanks_cons hb]

/-! ### Arrays -/

/-- The items of an array are read up to its end. -/
theorem items?_print (depth depth' : Nat) (rest : Bytes) : ∀ {items : List Value} {item : Value}
    {fuel : Nat}, (∀ v ∈ item :: items, v.ReadsBack) →
    (printAt depth item ++ printItems depth items).length < fuel →
    items? fuel (printAt depth item ++ (printItems depth items ++
      (newLine depth' ++ Byte.closeBracket :: rest))) = some (item :: items, rest)
  | items, item, 0, _, hfuel => absurd hfuel (Nat.not_lt_zero _)
  | [], item, fuel + 1, h, hfuel => by
    rw [printItems, List.append_nil] at hfuel
    have hitem := (h item List.mem_cons_self).read depth fuel (newLine depth' ++ Byte.closeBracket :: rest)
      (Nat.le_of_lt_succ hfuel) (endsNumber_newLine _ _)
    refine items?_last hitem ?_
    rw [skipBlanks_newLine, skipBlanks_cons (by decide)]
  | next :: items, item, fuel + 1, h, hfuel => by
    have hnext : next.ReadsBack := h next (by simp)
    simp only [printItems, List.length_append, List.length_cons] at hfuel
    simp only [printItems, List.cons_append, List.append_assoc]
    refine items?_more ((h item List.mem_cons_self).read depth fuel _ (by omega)
      (endsNumber_cons (by decide))) (skipBlanks_cons (by decide) _) ?_
    rw [skipBlanks_newLine, hnext.skipBlanks_printAt]
    refine items?_print depth depth' rest (fun v hv => h v (List.mem_cons_of_mem _ hv)) ?_
    rw [List.length_append]
    omega

theorem array {items : List Value} (h : ∀ v ∈ items, v.ReadsBack) : (Value.array items).ReadsBack := by
  cases items with
  | nil =>
    refine ⟨fun _ => ⟨Byte.openBracket, _, rfl, rfl, by decide⟩, fun depth fuel rest hfuel _ => ?_⟩
    cases fuel with
    | zero => cases hfuel
    | succ fuel =>
      simp only [printAt, List.cons_append, List.nil_append]
      rw [value?, if_neg (by decide), if_pos rfl, skipBlanks_cons (by decide), expect?_self]
  | cons item items =>
    refine ⟨fun _ => ⟨Byte.openBracket, _, rfl, rfl, by decide⟩, fun depth fuel rest hfuel _ => ?_⟩
    have hitem : item.ReadsBack := h item List.mem_cons_self
    obtain ⟨b, more, hprint, -, hb⟩ := hitem.starts (depth + 1)
    simp only [printAt, List.cons_append, List.append_assoc, List.nil_append, List.length_cons,
      List.length_append] at hfuel ⊢
    cases fuel with
    | zero => cases hfuel
    | succ fuel =>
      have hopen : ∀ s, expect? Byte.closeBracket (printAt (depth + 1) item ++ s) = none := by
        intro s
        rw [hprint, List.cons_append]
        exact expect?_of_ne hb _
      have hlength : (printAt (depth + 1) item ++ printItems (depth + 1) items).length < fuel := by
        rw [List.length_append]
        omega
      rw [value?, if_neg (by decide), if_pos rfl, skipBlanks_newLine, hitem.skipBlanks_printAt, hopen]
      dsimp only
      rw [items?_print (depth + 1) depth rest h hlength]
      rfl

/-! ### Objects -/

variable {key : Bytes} {value : Value} {members : List (Bytes × Value)}

/-- The members of an object are read up to its end. -/
theorem members?_print (depth depth' : Nat) (rest : Bytes) : ∀ {members : List (Bytes × Value)}
    {key : Bytes} {value : Value} {fuel : Nat},
    (∀ m ∈ (key, value) :: members, ∃ s, m.1 = encode s) →
    (∀ m ∈ (key, value) :: members, m.2.ReadsBack) →
    (printAt depth value ++ printMembers depth members).length < fuel →
    members? fuel (Byte.quote :: (key ++ (Byte.quote :: Byte.colon :: Byte.blank ::
      (printAt depth value ++ (printMembers depth members ++
        (newLine depth' ++ Byte.closeBrace :: rest)))))) = some ((key, value) :: members, rest)
  | members, key, value, 0, _, _, hfuel => absurd hfuel (Nat.not_lt_zero _)
  | members, key, value, fuel + 1, hkeys, h, hfuel => by
    have hvalue : value.ReadsBack := h (key, value) List.mem_cons_self
    have hkey : ∀ s, stringBody? (key ++ Byte.quote :: s) = some (key, s) := by
      obtain ⟨name, hname⟩ := hkeys (key, value) List.mem_cons_self
      obtain rfl : key = encode name := hname
      exact stringBody?_encode name
    have hblank : ∀ s, skipBlanks (Byte.blank :: (printAt depth value ++ s)) = printAt depth value ++ s :=
      fun s => hvalue.skipBlanks_printAt depth s
    cases members with
    | nil =>
      rw [printMembers, List.append_nil] at hfuel
      rw [printMembers, List.nil_append]
      have hread := hvalue.read depth fuel (newLine depth' ++ Byte.closeBrace :: rest)
        (Nat.le_of_lt_succ hfuel) (endsNumber_newLine _ _)
      rw [← hblank] at hread
      refine members?_last (hkey _) hread ?_
      rw [skipBlanks_newLine, skipBlanks_cons (by decide)]
    | cons next members =>
      obtain ⟨key', value'⟩ := next
      simp only [printMembers, List.length_append, List.length_cons] at hfuel
      simp only [printMembers, List.cons_append, List.append_assoc, List.nil_append]
      have hread : ∀ s, value? fuel (skipBlanks (Byte.blank :: (printAt depth value ++ Byte.comma :: s))) =
          some (value, Byte.comma :: s) := by
        intro s
        rw [hblank]
        exact hvalue.read depth fuel (Byte.comma :: s) (by omega) (endsNumber_cons (by decide))
      refine members?_more (hkey _) (hread _) (skipBlanks_cons (by decide) _) ?_
      rw [skipBlanks_newLine, skipBlanks_cons (by decide)]
      refine members?_print depth depth' rest (fun m hm => hkeys m (List.mem_cons_of_mem _ hm))
        (fun m hm => h m (List.mem_cons_of_mem _ hm)) ?_
      rw [List.length_append]
      omega

theorem object {members : List (Bytes × Value)} (hkeys : ∀ m ∈ members, ∃ s, m.1 = encode s)
    (h : ∀ m ∈ members, m.2.ReadsBack) : (Value.object members).ReadsBack := by
  cases members with
  | nil =>
    refine ⟨fun _ => ⟨Byte.openBrace, _, rfl, rfl, by decide⟩, fun depth fuel rest hfuel _ => ?_⟩
    cases fuel with
    | zero => cases hfuel
    | succ fuel =>
      simp only [printAt, List.cons_append, List.nil_append]
      rw [value?, if_neg (by decide), if_neg (by decide), if_pos rfl, skipBlanks_cons (by decide),
        expect?_self]
  | cons member members =>
    obtain ⟨key, value⟩ := member
    refine ⟨fun _ => ⟨Byte.openBrace, _, rfl, rfl, by decide⟩, fun depth fuel rest hfuel _ => ?_⟩
    simp only [printAt, List.cons_append, List.append_assoc, List.nil_append, List.length_cons,
      List.length_append] at hfuel ⊢
    cases fuel with
    | zero => cases hfuel
    | succ fuel =>
      have hlength : (printAt (depth + 1) value ++ printMembers (depth + 1) members).length < fuel := by
        rw [List.length_append]
        omega
      rw [value?, if_neg (by decide), if_neg (by decide), if_pos rfl, skipBlanks_newLine,
        skipBlanks_cons (by decide), expect?_of_ne (by decide)]
      dsimp only
      rw [members?_print (depth + 1) depth rest hkeys h hlength]
      rfl

/-! ### Whole texts -/

/-- A text that was printed is read as the value it was printed of. -/
theorem parse?_print {v : Value} (h : v.ReadsBack) : parse? (print v) = some v := by
  have hread := h.read 0 ((print v).length + 1) [] (Nat.le_succ _) (fun _ hx => by cases hx)
  have hstart := h.skipBlanks_printAt 0 []
  rw [List.append_nil] at hread hstart
  rw [parse?, print, hstart]
  rw [print] at hread
  rw [hread]
  rfl

end Value.ReadsBack

end Json
end TokenAutomata
