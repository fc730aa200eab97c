/-
# Grids as they are drawn

A column of a grid is as wide as its longest cell (`Text.columnWidths_fitted`),
so that no cell needs more room than it has. A line of a grid is read from left
to right as a border, what fills the first column, and a line of the columns
that are left. So all lines have one length (`Text.Bordered.length_eq`), and
their borders stand below each other (`Text.Bordered.getElem?_of_mem`).

Key definitions: `Text.HasRoom`, `Text.Fitted`, `Text.borders`,
`Text.Bordered`, `Text.DrawnRow`.
Key theorems: `Text.columnWidths_fitted`, `Text.Bordered.getElem?_of_mem`,
`Text.Bordered.length_eq`, `Text.drawnRow_gridRow`.
-/
import Mathlib.Data.List.Forall2
import TokenAutomata.Text.Grid

namespace TokenAutomata
namespace Text

/-- What neither the texts nor what stands between them holds. -/
theorem not_mem_intercalate {x : Char} {between : List Char} (hx : x ∉ between) :
    ∀ {texts : List (List Char)}, (∀ text ∈ texts, x ∉ text) → x ∉ between.intercalate texts
  | [], _ => List.not_mem_nil
  | [text], h => by
    rw [List.intercalate_singleton]
    exact h text (List.mem_singleton_self text)
  | text :: text' :: texts, h => by
    have ih := not_mem_intercalate hx fun t ht => h t (List.mem_cons_of_mem text ht)
    rw [List.intercalate_cons_cons, List.mem_append, List.mem_append, not_or, not_or]
    exact ⟨⟨h text List.mem_cons_self, hx⟩, ih⟩

/-! ### Columns -/

/-- Every cell has room in its column. -/
def HasRoom (row : List (List Char)) (widths : List Nat) : Prop :=
  List.Forall₂ (fun (cell : List Char) width => cell.length ≤ width) row widths

/-- Every cell has room in its column, and some cell needs it all. -/
structure Fitted (rows : List (List (List Char))) (widths : List Nat) : Prop where
  room : ∀ row ∈ rows, HasRoom row widths
  tight : ∀ (j width : Nat), widths[j]? = some width →
    ∃ row ∈ rows, ∃ cell, row[j]? = some cell ∧ cell.length = width

variable {row : List (List Char)} {rows : List (List (List Char))} {widths : List Nat}
  {line : List Char} {mark : Char}

theorem HasRoom.widen (h : HasRoom row widths) : ∀ {more : List Nat}, more.length = widths.length →
    HasRoom row (widths.zipWith max more) := by
  induction h with
  | nil => exact fun _ => .nil
  | cons hcell _ ih =>
    intro more hmore
    cases more with
    | nil => cases hmore
    | cons n more => exact .cons (Nat.le_trans hcell (Nat.le_max_left _ _)) (ih (Nat.succ.inj hmore))

theorem hasRoom_zipWith_max : ∀ {row : List (List Char)} {widths : List Nat},
    row.length = widths.length → HasRoom row (widths.zipWith max (row.map List.length))
  | [], [], _ => .nil
  | _ :: _, _ :: _, h => .cons (Nat.le_max_right _ _) (hasRoom_zipWith_max (Nat.succ.inj h))

/-- With one row more, its cells have room too, and each column is as wide as it
was or as its new cell. -/
theorem Fitted.add (h : Fitted rows widths) (hrow : row.length = widths.length) :
    Fitted (rows ++ [row]) (widths.zipWith max (row.map List.length)) := by
  refine ⟨fun r hr => ?_, fun j width hwidth => ?_⟩
  · rcases List.mem_append.1 hr with hr | hr
    · exact (h.room r hr).widen (by rw [List.length_map, hrow])
    · rw [List.mem_singleton.1 hr]
      exact hasRoom_zipWith_max hrow
  · obtain ⟨old, new, hold, hnew, rfl⟩ := List.getElem?_zipWith_eq_some.1 hwidth
    rw [List.getElem?_map, Option.map_eq_some_iff] at hnew
    obtain ⟨cell, hcell, rfl⟩ := hnew
    rcases Nat.le_total old cell.length with hle | hle
    · exact ⟨row, by simp, cell, hcell, (Nat.max_eq_right hle).symm⟩
    · obtain ⟨r, hr, old', hold', rfl⟩ := h.tight j old hold
      exact ⟨r, List.mem_append_left _ hr, old', hold', (Nat.max_eq_left hle).symm⟩

theorem Fitted.addAll (h : Fitted rows widths) : ∀ {more : List (List (List Char))},
    (∀ row ∈ more, row.length = widths.length) →
      Fitted (rows ++ more) (more.foldl (fun widths row => widths.zipWith max (row.map List.length)) widths) := by
  intro more
  induction more generalizing rows widths with
  | nil =>
    intro _
    rw [List.append_nil]
    exact h
  | cons row more ih =>
    intro hmore
    have hrow := hmore row List.mem_cons_self
    have hlength : (widths.zipWith max (row.map List.length)).length = widths.length := by
      rw [List.length_zipWith, List.length_map, hrow, Nat.min_self]
    rw [← List.singleton_append, ← List.append_assoc]
    exact ih (h.add hrow) fun r hr => (hmore r (List.mem_cons_of_mem _ hr)).trans hlength.symm

/-- Columns are as wide as their longest cells. -/
theorem columnWidths_fitted (h : ∀ r ∈ rows, r.length = row.length) :
    Fitted (row :: rows) (columnWidths (row :: rows)) := by
  have hfirst : Fitted [row] (row.map List.length) := by
    refine ⟨fun r hr => ?_, fun j width hwidth => ?_⟩
    · rw [List.mem_singleton.1 hr, HasRoom, List.forall₂_map_right_iff, List.forall₂_same]
      exact fun _ _ => Nat.le_refl _
    · rw [List.getElem?_map, Option.map_eq_some_iff] at hwidth
      obtain ⟨cell, hcell, rfl⟩ := hwidth
      exact ⟨row, List.mem_singleton_self row, cell, hcell, rfl⟩
  exact hfirst.addAll fun r hr => by rw [List.length_map, h r hr]

/-! ### Borders -/

/-- Where the borders of a line stand: before each column and behind the last. -/
def borders : List Nat → List Nat
  | [] => [0]
  | width :: widths => 0 :: (borders widths).map (width + 3 + ·)

/-- Before each column stands a mark, and the column is filled; behind the last
one stands a mark. -/
inductive Bordered (mark : Char) : List Nat → List Char → Prop
  | last : Bordered mark [] [mark]
  | column {width : Nat} {widths : List Nat} {filling line : List Char} : filling.length = width + 2 →
      Bordered mark widths line → Bordered mark (width :: widths) (mark :: (filling ++ line))

theorem Bordered.getElem?_of_mem {drawn : List Char} (h : Bordered mark widths drawn) :
    ∀ k ∈ borders widths, drawn[k]? = some mark := by
  induction h with
  | last =>
    intro k hk
    rw [List.mem_singleton.1 hk]
    rfl
  | @column width widths filling line hfilling _ ih =>
    intro k hk
    rcases List.mem_cons.1 hk with rfl | hk
    · rfl
    · obtain ⟨j, hj, rfl⟩ := List.mem_map.1 hk
      rw [show width + 3 + j = (filling.length + j) + 1 by omega, List.getElem?_cons_succ,
        List.getElem?_append_right (Nat.le_add_right _ _), Nat.add_sub_cancel_left]
      exact ih j hj

/-- Lines over the same columns have the same length, whatever the mark. -/
theorem Bordered.length_eq {mark' : Char} {line' : List Char} (h : Bordered mark widths line)
    (h' : Bordered mark' widths line') : line.length = line'.length := by
  induction h generalizing line' with
  | last =>
    cases h'
    rfl
  | column hfilling _ ih =>
    cases h' with
    | column hfilling' hrest' =>
      rw [List.length_cons, List.length_append, List.length_cons, List.length_append, hfilling, hfilling', ih hrest']

theorem bordered_gridRule : ∀ widths : List Nat, Bordered '+' widths (gridRule widths)
  | [] => .last
  | width :: widths => by
    have hrule : gridRule (width :: widths) = '+' :: (List.replicate (width + 2) '-' ++ gridRule widths) := by
      simp [gridRule]
    rw [hrule]
    exact .column List.length_replicate (bordered_gridRule widths)

theorem mem_gridRule {c : Char} (h : c ∈ gridRule widths) : c = '+' ∨ c = '-' := by
  simp only [gridRule, List.mem_cons, List.mem_flatMap, List.mem_append, List.mem_replicate, List.not_mem_nil,
    or_false] at h
  rcases h with rfl | ⟨width, -, ⟨-, rfl⟩ | rfl⟩
  · exact .inl rfl
  · exact .inr rfl
  · exact .inl rfl

/-! ### Rows -/

/-- A line shows the texts of a row: before each stands a border and a blank,
behind it blanks up to the width of the column and one more. -/
inductive DrawnRow : List Nat → List (List Char) → List Char → Prop
  | last : DrawnRow [] [] ['|']
  | cell {width padding : Nat} {text line : List Char} {widths : List Nat} {texts : List (List Char)} :
      text.length + padding = width → DrawnRow widths texts line →
      DrawnRow (width :: widths) (text :: texts)
        ('|' :: ([' '] ++ text ++ List.replicate padding ' ' ++ [' '] ++ line))

theorem DrawnRow.bordered {texts : List (List Char)} (h : DrawnRow widths texts line) :
    Bordered '|' widths line := by
  induction h with
  | last => exact .last
  | cell hwidth _ ih =>
    refine .column ?_ ih
    simp only [List.length_append, List.length_singleton, List.length_replicate]
    omega

/-- A character of a line that is neither a border nor a blank is in a text. -/
theorem DrawnRow.mem_text {texts : List (List Char)} {c : Char} (h : DrawnRow widths texts line)
    (hc : c ∈ line) (hborder : c ≠ '|') (hblank : c ≠ ' ') : ∃ text ∈ texts, c ∈ text := by
  induction h with
  | last => exact absurd (List.mem_singleton.1 hc) hborder
  | @cell width padding text line widths texts hwidth _ ih =>
    simp only [List.mem_cons, List.mem_append, List.mem_replicate, hborder, hblank, List.not_mem_nil, or_false,
      false_or, and_false] at hc
    rcases hc with hc | hc
    · exact ⟨text, List.mem_cons_self, hc⟩
    · obtain ⟨text', htext', hc⟩ := ih hc
      exact ⟨text', List.mem_cons_of_mem _ htext', hc⟩

/-- A row is drawn as it should if its cells have room. -/
theorem drawnRow_gridRow (h : HasRoom row widths) : DrawnRow widths row (gridRow widths row) := by
  induction h with
  | nil => exact .last
  | @cons text width texts widths hle _ ih =>
    have hline : gridRow (width :: widths) (text :: texts) = '|' :: ([' '] ++ text ++
        List.replicate (width - text.length) ' ' ++ [' '] ++ gridRow widths texts) := by
      simp [gridRow, gridCell, List.replicate_succ']
    rw [hline]
    exact .cell (Nat.add_sub_cancel' hle) ih

end Text
end TokenAutomata
