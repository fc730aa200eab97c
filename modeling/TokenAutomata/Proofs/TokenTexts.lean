/-
# The texts of the tokens are the source

What the lexer cuts a source into are pieces of it, one behind the other from
its start to its end. Each token begins where the texts of the tokens before it
end, its text is as long as it says and not empty, and the automaton accepts it
(`Automaton.lexFrom_texts`). The automaton need not be deterministic for this.

The text of a token is cut out of the bytes of the source. The offset of a
character is the size of the text before it (`Text.getD_offsets`), so what is
looked up are always offsets of characters, the first of them not behind the
second, and whatever a token says, its piece can be cut out (`Token.slice?_eq`).

Key theorems: `Text.getD_offsets`, `Text.cut?_append`, `Token.slice?_eq`,
`Automaton.lexFrom_texts`, `Automaton.lex_texts`.
-/
import TokenAutomata.Proofs.TokenBoundaries

namespace TokenAutomata

/-! ### Cutting a text by its bytes -/

namespace Text

/-- The offset of a character is the size of the text before it, and where there
is none, that of the whole text. -/
theorem getD_offsets : ∀ (cs : List Char) (start k : Nat),
    (offsets start cs)[k]?.getD (start + (String.ofList cs).utf8ByteSize) =
      start + (String.ofList (cs.take k)).utf8ByteSize
  | [], _, 0 => rfl
  | [], _, _ + 1 => rfl
  | _ :: _, _, 0 => rfl
  | c :: cs, start, k + 1 => by
    have ih := getD_offsets cs (start + c.utf8Size) k
    have hsize : ∀ rest : List Char, start + (String.ofList (c :: rest)).utf8ByteSize =
        start + c.utf8Size + (String.ofList rest).utf8ByteSize := fun rest => by
      rw [String.ofList_cons, String.utf8ByteSize_append, String.utf8ByteSize_singleton, Nat.add_assoc]
    rw [List.take_succ_cons, hsize, hsize]
    exact ih

/-- Between the size of what stands before a piece and the size of it all up to
the piece's end lies the piece. -/
theorem cut?_append (before piece after : String) : ∃ slice,
    cut? (before ++ piece ++ after) before.utf8ByteSize (before ++ piece).utf8ByteSize = some slice ∧
      slice.copy = piece := by
  have hstart : String.Pos.Raw.IsValid (before ++ piece ++ after) ⟨before.utf8ByteSize⟩ :=
    String.Pos.Raw.isValid_iff_exists_append.2 ⟨before, piece ++ after, String.append_assoc, rfl⟩
  have hstop : String.Pos.Raw.IsValid (before ++ piece ++ after) ⟨(before ++ piece).utf8ByteSize⟩ :=
    String.Pos.Raw.isValid_iff_exists_append.2 ⟨before ++ piece, after, rfl, rfl⟩
  have hle : before.utf8ByteSize ≤ (before ++ piece).utf8ByteSize := by
    rw [String.utf8ByteSize_append]
    exact Nat.le_add_right _ _
  refine ⟨_, dif_pos ⟨hstart, hstop, hle⟩, ?_⟩
  have hfirst : (String.Pos.mk _ hstart).Splits before (piece ++ after) := ⟨String.append_assoc, rfl⟩
  have hsecond : (String.Pos.mk _ hstop).Splits (before ++ piece) after := ⟨rfl, rfl⟩
  obtain ⟨_, hcopy⟩ := String.copy_slice_eq_iff_splits.2 ⟨before, after, hfirst, hsecond⟩
  exact hcopy

end Text

/-- Whatever a token says, the piece it covers can be cut out of the bytes. -/
theorem Token.slice?_eq (t : Token) (source : String) :
    ∃ slice, t.slice? source = some slice ∧ slice.copy.toList = t.text source.toList := by
  have hoffset : ∀ k, (Text.offsets 0 source.toList)[k]?.getD source.utf8ByteSize =
      (String.ofList (source.toList.take k)).utf8ByteSize := fun k => by
    have h := Text.getD_offsets source.toList 0 k
    rw [String.ofList_toList, Nat.zero_add, Nat.zero_add] at h
    exact h
  have hstop : (if t.length = 0 then (Text.offsets 0 source.toList)[t.start]?.getD source.utf8ByteSize
      else ((Text.offsets 0 source.toList).drop (t.start + 1))[t.length - 1]?.getD source.utf8ByteSize) =
      (String.ofList (source.toList.take (t.start + t.length))).utf8ByteSize := by
    split_ifs with hzero
    · rw [hoffset, hzero, Nat.add_zero]
    · rw [List.getElem?_drop, show t.start + 1 + (t.length - 1) = t.start + t.length by omega, hoffset]
  -- the source in three parts
  have htake : String.ofList (source.toList.take (t.start + t.length)) =
      String.ofList (source.toList.take t.start) ++ String.ofList (t.text source.toList) := by
    rw [← String.ofList_append, List.take_add]
    rfl
  have hsource : source = String.ofList (source.toList.take t.start) ++ String.ofList (t.text source.toList) ++
      String.ofList (source.toList.drop (t.start + t.length)) := by
    rw [← htake, ← String.ofList_append, List.take_append_drop, String.ofList_toList]
  obtain ⟨slice, hcut, hcopy⟩ := Text.cut?_append (String.ofList (source.toList.take t.start))
    (String.ofList (t.text source.toList)) (String.ofList (source.toList.drop (t.start + t.length)))
  rw [← hsource, ← htake, ← hstop, ← hoffset] at hcut
  exact ⟨slice, hcut, by rw [hcopy, String.toList_ofList]⟩

/-- The piece reaches from one position to another, as far as there is text. -/
theorem Token.text_eq_extract (t : Token) (source : List Symbol) :
    t.text source = source.extract (min t.start source.length) (min (t.start + t.length) source.length) := by
  rw [text, List.extract_eq_take_drop]
  rcases Nat.le_total source.length t.start with hle | hle
  · rw [List.drop_eq_nil_of_le hle, Nat.min_eq_right hle, List.drop_length, List.take_nil, List.take_nil]
  · rw [Nat.min_eq_left hle, List.take_eq_take_iff, List.length_drop]
    omega

namespace Automaton

variable {d : Automaton} {q start : Nat} {piece after input : List Symbol} {name : String}
  {tokens : List Token}

/-! ### From token to token -/

theorem Emits.accepted (h : d.Emits piece after name q) : d.accepts piece = true := by
  obtain ⟨last, hlast, hmarker, -⟩ := h.followed
  refine accepts_iff.2 ⟨q, (h.leads q).2 rfl, ?_⟩
  rw [markerOf?_of_state? hlast, hmarker]
  rfl

/-- The tokens of an input that stands behind `front` cover it piece by piece. -/
theorem lexFrom_texts (h : d.lexFrom start input = .ok tokens) (front : List Symbol)
    (hfront : front.length = start) : tokens.flatMap (·.text (front ++ input)) = input ∧
      ∀ k t, tokens[k]? = some t →
        t.start = start + ((tokens.take k).flatMap (·.text (front ++ input))).length ∧
        (t.text (front ++ input)).length = t.length ∧ t.text (front ++ input) ≠ [] ∧
        d.accepts (t.text (front ++ input)) = true := by
  induction tokens generalizing start input front with
  | nil =>
    rcases lexFrom_eq_ok h with ⟨rfl, -⟩ | ⟨_, _, _, _, _, _, _, _, he⟩
    · exact ⟨rfl, fun k t ht => by cases ht⟩
    · cases he
  | cons t tokens ih =>
    rcases lexFrom_eq_ok h with ⟨-, he⟩ | ⟨piece, after, name, q, rest, rfl, htoken, hrest, he⟩
    · cases he
    obtain ⟨rfl, rfl⟩ := List.cons.inj he
    have htext : Token.text { name, start, length := piece.length } (front ++ (piece ++ after)) = piece := by
      rw [Token.text, ← hfront, List.drop_left, List.take_left]
    obtain ⟨hall, heach⟩ := ih hrest (front ++ piece) (by rw [List.length_append, hfront])
    rw [List.append_assoc] at hall heach
    refine ⟨by rw [List.flatMap_cons, htext, hall], fun k t ht => ?_⟩
    cases k with
    | zero =>
      obtain rfl := Option.some.inj ht
      exact ⟨rfl, by rw [htext], by rw [htext]; exact htoken.nonempty, by rw [htext]; exact htoken.accepted⟩
    | succ k =>
      obtain ⟨hstart, hpiece⟩ := heach k t ht
      rw [List.take_succ_cons, List.flatMap_cons, htext, List.length_append, ← Nat.add_assoc]
      exact ⟨hstart, hpiece⟩

/-- Where a source is cut into tokens, their texts put together give it back. Each
token begins behind the texts of those before it, its text has the length that
the token tells and is not empty, and it is accepted. And whatever a token says,
what is cut out of the bytes of a source for it are the characters from its
start, or the end of the source, to its end, or the end of the source. -/
theorem lex_texts (d : Automaton) (source : String) :
    (∀ tokens, d.lex source.toList = .ok tokens →
      tokens.flatMap (·.text source.toList) = source.toList ∧
      ∀ k t, tokens[k]? = some t →
        t.start = ((tokens.take k).flatMap (·.text source.toList)).length ∧
        (t.text source.toList).length = t.length ∧ t.text source.toList ≠ [] ∧
        d.accepts (t.text source.toList) = true) ∧
    ∀ t : Token, ∃ slice, t.slice? source = some slice ∧ slice.copy.toList = t.text source.toList ∧
      t.text source.toList = source.toList.extract (min t.start source.toList.length)
        (min (t.start + t.length) source.toList.length) := by
  refine ⟨fun tokens h => ?_, fun t => ?_⟩
  · obtain ⟨hall, heach⟩ := lexFrom_texts h [] rfl
    simp only [List.nil_append, Nat.zero_add] at hall heach
    exact ⟨hall, heach⟩
  · obtain ⟨slice, hslice, hcopy⟩ := t.slice?_eq source
    exact ⟨slice, hslice, hcopy, t.text_eq_extract source.toList⟩

/-- Knows `é`, `éx`, and, in two ways, `y`. -/
def accented : Automaton :=
  { initial := { id := 0, label := rootLabel, moves := ⟨[('é', .singleton 1), ('y', .ofList [1, 2])]⟩ }
    others := [{ id := 1, label := "E", marker := some "E", moves := ⟨[('x', .singleton 2)]⟩ },
      { id := 2, label := "EX", marker := some "EX" }]
    nextId := 3 }

/-- The second `é` begins behind two characters and three bytes. -/
theorem accented_texts : accented.isDeterministic = false ∧
    accented.lex "éxé".toList = .ok [⟨"EX", 0, 2⟩, ⟨"E", 2, 1⟩] ∧ accented.accepts ['é'] = true ∧
    ∃ slice, (Token.mk "E" 2 1).slice? "éxé" = some slice ∧ slice.copy.toList = ['é'] := by
  have hlex : accented.lex "éxé".toList = .ok [⟨"EX", 0, 2⟩, ⟨"E", 2, 1⟩] := by decide +kernel
  obtain ⟨htexts, hslices⟩ := lex_texts accented "éxé"
  obtain ⟨-, heach⟩ := htexts _ hlex
  obtain ⟨-, -, -, haccepted⟩ := heach 1 ⟨"E", 2, 1⟩ rfl
  obtain ⟨slice, hslice, hcopy, -⟩ := hslices ⟨"E", 2, 1⟩
  exact ⟨by decide, hlex, haccepted, slice, hslice, hcopy⟩

end Automaton
end TokenAutomata
