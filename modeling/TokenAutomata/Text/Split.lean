/-
# Cutting texts

A text is cut at the first occurrence of a character (`cut`), between all
occurrences (`split`), or into lines (`lines`). A line ends at a line feed; a
carriage return just before the line feed belongs to the line's end. What
follows the last line feed is a line unless it is empty.

Key definitions: `Text.cut`, `Text.split`, `Text.lines`.
Key theorems: `Text.cut_eq_some_iff`, `Text.split_ne_nil`.
-/
namespace TokenAutomata
namespace Text

/-- What stands before the first `mark` and what stands after it. -/
def cut (mark : Char) : List Char → Option (List Char × List Char)
  | [] => none
  | c :: rest =>
    if c = mark then some ([], rest) else (cut mark rest).map fun (a, b) => (c :: a, b)

/-- The parts, with the first `mark` between them, are the text. -/
theorem cut_eq_some_iff {mark : Char} : ∀ {s a b : List Char}, cut mark s = some (a, b) ↔
    s = a ++ mark :: b ∧ mark ∉ a
  | [], a, b => by simp [cut]
  | c :: rest, a, b => by
    unfold cut
    split
    · rename_i h
      subst h
      cases a <;> grind
    · rename_i h
      rw [Option.map_eq_some_iff]
      constructor
      · rintro ⟨⟨a', b'⟩, hr, he⟩
        obtain ⟨rfl, hm⟩ := cut_eq_some_iff.1 hr
        simp only [Prod.mk.injEq] at he
        obtain ⟨rfl, rfl⟩ := he
        exact ⟨rfl, by grind⟩
      · rintro ⟨hs, hm⟩
        cases a with
        | nil =>
          rw [List.nil_append, List.cons.injEq] at hs
          exact absurd hs.1 h
        | cons d a =>
          rw [List.cons_append, List.cons.injEq] at hs
          obtain ⟨rfl, rfl⟩ := hs
          exact ⟨(a, b), cut_eq_some_iff.2 ⟨rfl, by grind⟩, rfl⟩

/-- The pieces between the `mark`s, which may be empty. -/
def split (mark : Char) : List Char → List (List Char)
  | [] => [[]]
  | c :: rest =>
    if c = mark then [] :: split mark rest
    else
      match split mark rest with
      | [] => [[c]]
      | piece :: pieces => (c :: piece) :: pieces

theorem split_ne_nil (mark : Char) (s : List Char) : split mark s ≠ [] := by
  cases s with
  | nil => simp [split]
  | cons c rest =>
    unfold split
    split
    · simp
    · split <;> simp

/-- Without a carriage return at the end. -/
def dropReturn (line : List Char) : List Char :=
  if line.getLast? = some '\r' then line.dropLast else line

/-- The lines of a text, without what ends them. -/
def lines (s : List Char) : List (List Char) :=
  let pieces := split '\n' s
  let last := pieces.getLastD []
  pieces.dropLast.map dropReturn ++ if last.isEmpty then [] else [last]

end Text
end TokenAutomata
