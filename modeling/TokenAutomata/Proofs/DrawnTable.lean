/-
# The transition table as it is drawn

A transition table is a grid with a row for each state. If no label, marker or
symbol breaks a line, the lines of its text are those of the grid: one for each
state between four others, with a cell for the state and one for each symbol
(`Automaton.transitionTable_drawn`). Labels may be any other text, also one with
borders and blanks in it.

Key definitions: `Automaton.FitsLines`, `Automaton.headerTexts`,
`Automaton.rowTexts`, `Automaton.DrawnTable`.
Key theorems: `Automaton.map_toList_tableRow`, `Automaton.mem_tableLines`,
`Automaton.splitOn_transitionTable`, `Automaton.transitionTable_drawn`.
-/
import TokenAutomata.Automaton.TransitionTable
import TokenAutomata.Proofs.DrawnGrid
import TokenAutomata.Proofs.WellFormed

namespace TokenAutomata
namespace Automaton

/-! ### What a table shows -/

/-- No label, marker or symbol breaks a line. -/
structure FitsLines (a : Automaton) : Prop where
  label : ∀ s ∈ a.states, '\n' ∉ s.label.toList
  marker : ∀ s ∈ a.states, ∀ token ∈ s.marker, '\n' ∉ token.toList
  symbol : ∀ s ∈ a.states, '\n' ∉ s.moves.symbols

/-- The texts of the header. -/
def headerTexts (a : Automaton) : List (List Char) := ['/'] :: a.alphabet.map ([·])

/-- The texts of the row of a state: its label as tables show it and, for each
symbol, the labels of its destinations in the order of their ids. -/
def rowTexts (a : Automaton) (s : State) : List (List Char) :=
  s.prettyLabel.toList :: a.alphabet.map fun c =>
    if s.moves.dests c = ∅ then ['-']
    else [',', ' '].intercalate ((s.moves.dests c).toList.map fun id =>
      ((a.state? id).map (·.label.toList)).getD ['?'])

/-- The widths that the lines of the table are drawn with. -/
def tableWidths (a : Automaton) : List Nat :=
  Text.columnWidths (a.headerTexts :: a.states.map a.rowTexts)

/-- The lines of the grid with these texts. -/
def tableLines (a : Automaton) : List (List Char) :=
  Text.gridLines a.headerTexts (a.states.map a.rowTexts)

/-- The lines are those of a table of the automaton. -/
structure DrawnTable (a : Automaton) (lines : List (List Char)) : Prop where
  count : lines.length = a.size + 4
  rectangular : ∀ line ∈ lines, ∀ line' ∈ lines, line.length = line'.length
  fitted : Text.Fitted (a.headerTexts :: a.states.map a.rowTexts) a.tableWidths
  bordered : ∀ drawn ∈ lines, ∃ mark, (mark = '|' ∨ mark = '+') ∧
    ∀ k ∈ Text.borders a.tableWidths, drawn[k]? = some mark
  rule : ∀ i ∈ [0, 2, a.size + 3], lines[i]? = some (Text.gridRule a.tableWidths)
  header : ∃ line, lines[1]? = some line ∧ Text.DrawnRow a.tableWidths a.headerTexts line
  body : ∀ i s, a.states[i]? = some s →
    ∃ line, lines[i + 3]? = some line ∧ Text.DrawnRow a.tableWidths (a.rowTexts s) line

variable {a : Automaton} {s : State} {text line : List Char}

theorem map_toList_tableHeader (a : Automaton) : a.tableHeader.map String.toList = a.headerTexts := by
  rw [tableHeader, List.map_cons, List.map_map, headerTexts]
  refine congrArg (List.cons _) (List.map_congr_left fun c _ => ?_)
  exact String.toList_ofList

theorem toList_labelOf (a : Automaton) (id : Nat) :
    (a.labelOf id).toList = ((a.state? id).map (·.label.toList)).getD ['?'] := by
  unfold labelOf
  cases a.state? id with
  | none => rfl
  | some s => rfl

theorem map_toList_tableRow (a : Automaton) (s : State) : (a.tableRow s).map String.toList = a.rowTexts s := by
  rw [tableRow, List.map_cons, List.map_map, rowTexts]
  refine congrArg (List.cons _) (List.map_congr_left fun c _ => ?_)
  rw [Function.comp, tableCell]
  by_cases hnone : s.moves.dests c = ∅
  · rw [if_pos hnone, if_pos (IdSet.isEmpty_iff.2 hnone)]
    rfl
  · rw [if_neg hnone, if_neg (mt IdSet.isEmpty_iff.1 hnone), String.toList_intercalate, List.map_map]
    simp only [Function.comp_def, toList_labelOf]
    rfl

theorem toList_transitionTable (a : Automaton) : a.transitionTable.toList =
    ['\n'].intercalate a.tableLines := by
  rw [transitionTable, String.toList_ofList]
  dsimp only
  simp only [map_toList_tableHeader, map_toList_tableRow]
  rfl

/-! ### No line is broken -/

theorem FitsLines.not_mem_prettyLabel (ha : a.FitsLines) (hs : s ∈ a.states) : '\n' ∉ s.prettyLabel.toList := by
  have hlabel := ha.label s hs
  unfold State.prettyLabel
  split
  · exact hlabel
  · rename_i token htoken
    have hmarker := ha.marker s hs token htoken
    split
    · simp [toString, hlabel]
    · simp [toString, hlabel, hmarker]

theorem FitsLines.not_mem_rowTexts (ha : a.FitsLines) (hs : s ∈ a.states) (htext : text ∈ a.rowTexts s) :
    '\n' ∉ text := by
  rcases List.mem_cons.1 htext with rfl | htext
  · exact ha.not_mem_prettyLabel hs
  obtain ⟨c, -, rfl⟩ := List.mem_map.1 htext
  split
  · decide
  · refine Text.not_mem_intercalate (by decide) fun label hlabel => ?_
    obtain ⟨id, -, rfl⟩ := List.mem_map.1 hlabel
    cases ht : a.state? id with
    | none => decide
    | some t => exact ha.label t (mem_states_of_state? ht)

theorem FitsLines.not_mem_headerTexts (ha : a.FitsLines) (htext : text ∈ a.headerTexts) : '\n' ∉ text := by
  rcases List.mem_cons.1 htext with rfl | htext
  · decide
  obtain ⟨c, hc, rfl⟩ := List.mem_map.1 htext
  obtain ⟨s, hs, hsymbol⟩ := List.mem_flatMap.1 (List.mem_eraseDups.1 hc)
  rw [List.mem_singleton]
  rintro rfl
  exact ha.symbol s hs hsymbol

/-! ### The lines -/

/-- All rows are as long as the header. -/
theorem tableWidths_fitted (a : Automaton) :
    Text.Fitted (a.headerTexts :: a.states.map a.rowTexts) a.tableWidths := by
  refine Text.columnWidths_fitted fun row hrow => ?_
  obtain ⟨s, -, rfl⟩ := List.mem_map.1 hrow
  rw [rowTexts, headerTexts, List.length_cons, List.length_cons, List.length_map, List.length_map]

theorem drawnRow_header (a : Automaton) :
    Text.DrawnRow a.tableWidths a.headerTexts (Text.gridRow a.tableWidths a.headerTexts) :=
  Text.drawnRow_gridRow (a.tableWidths_fitted.room _ List.mem_cons_self)

theorem drawnRow_state (hs : s ∈ a.states) :
    Text.DrawnRow a.tableWidths (a.rowTexts s) (Text.gridRow a.tableWidths (a.rowTexts s)) :=
  Text.drawnRow_gridRow (a.tableWidths_fitted.room _ (List.mem_cons_of_mem _ (List.mem_map_of_mem hs)))

theorem tableLines_eq (a : Automaton) : a.tableLines =
    Text.gridRule a.tableWidths :: Text.gridRow a.tableWidths a.headerTexts :: Text.gridRule a.tableWidths ::
      ((a.states.map fun s => Text.gridRow a.tableWidths (a.rowTexts s)) ++ [Text.gridRule a.tableWidths]) := by
  rw [tableLines, Text.gridLines, List.map_map]
  rfl

/-- Every line is a rule or shows a row. -/
theorem mem_tableLines (h : line ∈ a.tableLines) : line = Text.gridRule a.tableWidths ∨
    Text.DrawnRow a.tableWidths a.headerTexts line ∨ ∃ s ∈ a.states, Text.DrawnRow a.tableWidths (a.rowTexts s) line := by
  rw [tableLines_eq] at h
  simp only [List.mem_cons, List.mem_append, List.mem_map, List.not_mem_nil, or_false] at h
  rcases h with rfl | rfl | rfl | ⟨s, hs, rfl⟩ | rfl
  · exact .inl rfl
  · exact .inr (.inl a.drawnRow_header)
  · exact .inl rfl
  · exact .inr (.inr ⟨s, hs, drawnRow_state hs⟩)
  · exact .inl rfl

theorem bordered_of_mem_tableLines (h : line ∈ a.tableLines) :
    ∃ mark, (mark = '|' ∨ mark = '+') ∧ Text.Bordered mark a.tableWidths line := by
  rcases mem_tableLines h with rfl | hrow | ⟨s, -, hrow⟩
  · exact ⟨'+', .inr rfl, Text.bordered_gridRule _⟩
  · exact ⟨'|', .inl rfl, hrow.bordered⟩
  · exact ⟨'|', .inl rfl, hrow.bordered⟩

theorem FitsLines.not_mem_tableLines (ha : a.FitsLines) (h : line ∈ a.tableLines) : '\n' ∉ line := by
  intro hbreak
  rcases mem_tableLines h with rfl | hrow | ⟨s, hs, hrow⟩
  · rcases Text.mem_gridRule hbreak with hc | hc <;> cases hc
  · obtain ⟨text, htext, hc⟩ := hrow.mem_text hbreak (by decide) (by decide)
    exact ha.not_mem_headerTexts htext hc
  · obtain ⟨text, htext, hc⟩ := hrow.mem_text hbreak (by decide) (by decide)
    exact ha.not_mem_rowTexts hs htext hc

theorem splitOn_transitionTable (ha : a.FitsLines) : a.transitionTable.toList.splitOn '\n' = a.tableLines := by
  rw [toList_transitionTable]
  refine List.splitOn_intercalate _ (fun line hline => ha.not_mem_tableLines hline) ?_
  exact List.cons_ne_nil _ _

/-- If no label, marker or symbol breaks a line, the transition table is drawn in
four lines more than there are states, all of one length and with their borders
below each other. Every cell has room in its column. The lines of the states
follow the header in the order of the states, and each shows the label of its
state and, under the symbols of the header, the labels of the destinations. -/
theorem transitionTable_drawn (ha : a.FitsLines) : a.DrawnTable (a.transitionTable.toList.splitOn '\n') := by
  rw [splitOn_transitionTable ha]
  have hsize : a.tableLines.length = a.size + 4 := by
    rw [tableLines_eq]
    simp [size]
  refine ⟨hsize, fun line hline line' hline' => ?_, a.tableWidths_fitted, fun line hline => ?_, fun i hi => ?_,
    ?_, fun i s hs => ?_⟩
  · obtain ⟨_, -, hbordered⟩ := bordered_of_mem_tableLines hline
    obtain ⟨_, -, hbordered'⟩ := bordered_of_mem_tableLines hline'
    exact hbordered.length_eq hbordered'
  · obtain ⟨mark, hmark, hbordered⟩ := bordered_of_mem_tableLines hline
    exact ⟨mark, hmark, hbordered.getElem?_of_mem⟩
  · rw [tableLines_eq]
    simp only [List.mem_cons, List.not_mem_nil, or_false] at hi
    rcases hi with rfl | rfl | rfl
    · rfl
    · rfl
    · simp [size]
  · rw [tableLines_eq]
    exact ⟨_, rfl, a.drawnRow_header⟩
  · refine ⟨_, ?_, drawnRow_state (List.mem_of_getElem? hs)⟩
    have hi : i < (a.states.map fun s => Text.gridRow a.tableWidths (a.rowTexts s)).length := by
      rw [List.length_map]
      exact (List.getElem?_eq_some_iff.1 hs).1
    rw [tableLines_eq]
    show (List.map _ a.states ++ [_])[i]? = _
    rw [List.getElem?_append_left hi, List.getElem?_map, hs]
    rfl

/-- A label looks like a border, a symbol is one, and a state is missing. -/
def borderInLabel : Automaton :=
  { initial := { id := 0, label := rootLabel, moves := ⟨[('é', .ofList [1, 7]), ('|', .singleton 0)]⟩ }
    others := [{ id := 1, label := "IF|_1", marker := some "IF" }]
    nextId := 2 }

theorem borderInLabel_drawn : borderInLabel.FitsLines ∧
    (borderInLabel.transitionTable.toList.splitOn '\n').length = 6 ∧
    ∃ line, (borderInLabel.transitionTable.toList.splitOn '\n')[3]? = some line ∧
      Text.DrawnRow [10, 8, 5] ["START".toList, "IF|_1, ?".toList, "START".toList] line := by
  have hfits : borderInLabel.FitsLines := ⟨by decide, by decide, by decide⟩
  have hdrawn := transitionTable_drawn hfits
  obtain ⟨line, hline, hrow⟩ := hdrawn.body 0 borderInLabel.initial rfl
  have hwidths : borderInLabel.tableWidths = [10, 8, 5] := by decide +kernel
  have htexts : borderInLabel.rowTexts borderInLabel.initial =
      ["START".toList, "IF|_1, ?".toList, "START".toList] := by decide +kernel
  rw [hwidths, htexts] at hrow
  exact ⟨hfits, hdrawn.count, line, hline, hrow⟩

end Automaton
end TokenAutomata
