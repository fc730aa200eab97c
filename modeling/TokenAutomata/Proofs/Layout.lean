/-
# The layout of a definition file

Blanks at the ends of lines do not count, and neither do comments. A blank
line does not count where no block of rules goes on around it: next to a blank
line, a token rule or a word, whatever comments stand between them, and at
either end of the file (`Apart`). A file that is laid out anew has the same
automaton or is wrong in the same way, and the error tells the same line,
wherever that is now.

Up to some line all is read but for the open block, which is none if the lines
up to there end apart (`DefinitionFile.ReadsTo`). From there on it is read the
same with other line numbers (`DefinitionFile.readFrom_renumber`), and only the
line in an error depends on these (`DefinitionFile.automaton_renumber`).

Key definitions: `Apart`, `LayoutEdit`, `Relaid`, `DefinitionFile.ReadsTo`,
`DefinitionFile.EndsIn`.
Key theorems: `DefinitionFile.readFrom_renumber`,
`DefinitionFile.readsTo_or_endsIn`, `LayoutEdit.read_eq`,
`DefinitionFile.automaton_renumber`, `Relaid.outcome`, `ofLines_relaid`.
-/
import TokenAutomata.Proofs.LineKinds
import TokenAutomata.Proofs.NameClash

namespace TokenAutomata

open Text (Blank)

/-! ### Edits -/

/-- The number of a line once another line has become number `p`. -/
def skipping (p i : Nat) : Nat := if i < p then i else i + 1

/-- A blank line, a token rule or a word: no block goes on over it. -/
def Separates (raw : List Char) : Prop := Blank raw ∨ Line.IsText raw

/-- The first line that is no comment separates, if there is one. -/
def Apart : List (List Char) → Prop
  | [] => True
  | raw :: rest => Separates raw ∨ Line.IsComment raw ∧ Apart rest

/-- One change of the layout, and the new numbers of the lines. -/
inductive LayoutEdit : List (List Char) → (Nat → Nat) → List (List Char) → Prop
  /-- Blanks at the ends of a line. -/
  | pad {front back : List (List Char)} {raw before after : List Char} : Blank before → Blank after →
      LayoutEdit (front ++ raw :: back) id (front ++ (before ++ raw ++ after) :: back)
  /-- A comment, wherever it stands. -/
  | comment {front back : List (List Char)} {raw : List Char} : Line.IsComment raw →
      LayoutEdit (front ++ back) (skipping (front.length + 1)) (front ++ raw :: back)
  /-- A blank line after or before lines that are apart. The lines before it are
  seen from it, so the last one is the first. -/
  | blank {front back : List (List Char)} {raw : List Char} : Blank raw →
      Apart front.reverse ∨ Apart back →
        LayoutEdit (front ++ back) (skipping (front.length + 1)) (front ++ raw :: back)

/-- Any number of changes of the layout, done or undone, and which line has
become which. -/
inductive Relaid (lines : List (List Char)) : (Nat → Nat → Prop) → List (List Char) → Prop
  | refl : Relaid lines Eq lines
  | edit {same : Nat → Nat → Prop} {f : Nat → Nat} {lines₁ lines₂ : List (List Char)} :
      Relaid lines same lines₁ → LayoutEdit lines₁ f lines₂ →
        Relaid lines (fun i k => ∃ j, same i j ∧ k = f j) lines₂
  | undo {same : Nat → Nat → Prop} {f : Nat → Nat} {lines₁ lines₂ : List (List Char)} :
      Relaid lines same lines₁ → LayoutEdit lines₂ f lines₁ →
        Relaid lines (fun i k => ∃ j, same i j ∧ j = f k) lines₂

/-! ### Line numbers -/

/-- The same at another line. -/
def Located.renumber {α : Type} (f : Nat → Nat) (x : Located α) : Located α := ⟨f x.line, x.value⟩

def DefinitionFile.renumber (f : Nat → Nat) (file : DefinitionFile) : DefinitionFile :=
  ⟨file.definitions.map (·.renumber f), file.fault.map (·.renumber f)⟩

def GrammarError.renumber (f : Nat → Nat) : GrammarError → GrammarError
  | .atLine line source => .atLine (f line) source
  | e => e

theorem skipping_of_lt {p i : Nat} (h : i < p) : skipping p i = i := if_pos h

theorem skipping_of_le {p i : Nat} (h : p ≤ i) : skipping p i = i + 1 := if_neg (Nat.not_lt.2 h)

/-! ### One line -/

namespace Line

open DefinitionFile (OpenBlock ended extended)

variable {raw : List Char} {l : Line}

/-- The block that is open after the line, which has the number `n`. -/
def blockAfter (n : Nat) (block : OpenBlock) : Line → OpenBlock
  | .expression rule => extended n rule block
  | .comment => block
  | _ => none

/-- What is complete with the line, which has the number `n`. -/
def completed (n : Nat) (block : OpenBlock) : Line → List (Located Definition)
  | .expression _ => []
  | .comment => []
  | l => ended block ++ (l.definition?.map (Located.mk n)).toList

theorem exists_of_separates (h : Separates raw) :
    ∃ l, classify raw = .ok l ∧ l.isRule = false ∧ l ≠ .comment := by
  rcases h with hblank | htext
  · exact ⟨.blank, classify_of_blank hblank, rfl, Line.noConfusion⟩
  · rw [classify_of_isText htext]
    cases readTokenRule raw with
    | none => exact ⟨_, rfl, rfl, Line.noConfusion⟩
    | some rule => exact ⟨_, rfl, rfl, Line.noConfusion⟩

theorem blockAfter_eq_none (hrule : l.isRule = false) (hcomment : l ≠ .comment) (n : Nat)
    (block : OpenBlock) : l.blockAfter n block = none := by
  cases l with
  | expression rule => cases hrule
  | comment => exact absurd rfl hcomment
  | _ => rfl

theorem completed_eq_append (hrule : l.isRule = false) (hcomment : l ≠ .comment) (n : Nat)
    (block : OpenBlock) : l.completed n block = ended block ++ l.completed n none := by
  cases l with
  | expression rule => cases hrule
  | comment => exact absurd rfl hcomment
  | _ => rfl

theorem blockAfter_renumber (f : Nat → Nat) (n : Nat) (block : OpenBlock) (l : Line) :
    (l.blockAfter n block).map (·.renumber f) = l.blockAfter (f n) (block.map (·.renumber f)) := by
  cases l with
  | expression rule => cases block <;> rfl
  | _ => rfl

theorem completed_renumber (f : Nat → Nat) (n : Nat) (block : OpenBlock) (l : Line) :
    (l.completed n block).map (·.renumber f) = l.completed (f n) (block.map (·.renumber f)) := by
  cases block <;> cases l <;> rfl

end Line

namespace DefinitionFile

variable {n : Nat} {block : OpenBlock} {raw : List Char} {lines back : List (List Char)}

theorem prepend_prepend (definitions definitions' : List (Located Definition)) (file : DefinitionFile) :
    (file.prepend definitions').prepend definitions = file.prepend (definitions ++ definitions') := by
  simp [prepend]

/-- A line that is right completes something and leaves a block open. -/
theorem readFrom_cons_ok {l : Line} (hl : Line.classify raw = .ok l) (rest : List (List Char)) :
    readFrom n block (raw :: rest) =
      (readFrom (n + 1) (l.blockAfter n block) rest).prepend (l.completed n block) := by
  rw [readFrom, hl]
  cases l with
  | blank =>
    have hown : Line.blank.completed n block = ended block := List.append_nil _
    rw [hown]
    rfl
  | _ => rfl

theorem readFrom_cons_error {e : SyntaxError} (hl : Line.classify raw = .error e) (rest : List (List Char)) :
    readFrom n block (raw :: rest) = ⟨[], some ⟨n, e⟩⟩ := by
  rw [readFrom, hl]

/-- Where lines start apart, an open block might have ended before. -/
theorem readFrom_of_apart (h : Apart back) :
    readFrom n block back = (readFrom n none back).prepend (ended block) := by
  induction back generalizing n with
  | nil => simp [readFrom, prepend, ended]
  | cons raw rest ih =>
    rcases h with hsep | ⟨hcomment, hrest⟩
    · obtain ⟨l, hl, hrule, hne⟩ := Line.exists_of_separates hsep
      rw [readFrom_cons_ok hl, readFrom_cons_ok hl, Line.blockAfter_eq_none hrule hne,
        Line.blockAfter_eq_none hrule hne, Line.completed_eq_append hrule hne, prepend_prepend]
    · have hl := Line.classify_of_isComment hcomment
      rw [readFrom_cons_ok hl, readFrom_cons_ok hl]
      exact ih hrest

/-- Only the kinds of the lines count. -/
theorem readFrom_cons_congr {raw' : List Char} (h : Line.classify raw = Line.classify raw')
    (rest : List (List Char)) : readFrom n block (raw :: rest) = readFrom n block (raw' :: rest) := by
  rw [readFrom, readFrom, h]

/-! ### Reading with other numbers -/

theorem renumber_prepend (f : Nat → Nat) (definitions : List (Located Definition)) (file : DefinitionFile) :
    (file.prepend definitions).renumber f =
      (file.renumber f).prepend (definitions.map (·.renumber f)) := by
  simp [prepend, renumber]

/-- The same lines one further down. -/
theorem readFrom_renumber {f : Nat → Nat} (hf : ∀ i, n ≤ i → f i = i + 1) :
    readFrom (n + 1) (block.map (·.renumber f)) lines = (readFrom n block lines).renumber f := by
  induction lines generalizing n block with
  | nil => cases block <;> rfl
  | cons raw rest ih =>
    have hn : f n = n + 1 := hf n (Nat.le_refl n)
    cases hl : Line.classify raw with
    | error e =>
      rw [readFrom_cons_error hl, readFrom_cons_error hl, ← hn]
      rfl
    | ok l =>
      have hrest : readFrom (n + 2) ((l.blockAfter n block).map (·.renumber f)) rest = _ :=
        ih fun i hi => hf i (Nat.le_of_succ_le hi)
      rw [readFrom_cons_ok hl, readFrom_cons_ok hl, renumber_prepend, ← hrest, Line.blockAfter_renumber,
        Line.completed_renumber, hn]

/-! ### What is read so far -/

variable {front : List (List Char)} {definitions : List (Located Definition)}

/-- Up to some line all is read but for the block that is open there. What is
read does not depend on later numbers, and nothing is open if the lines end
apart. -/
structure ReadsTo (front : List (List Char)) (definitions : List (Located Definition))
    (block : OpenBlock) : Prop where
  reads : ∀ back, read (front ++ back) = (readFrom (front.length + 1) block back).prepend definitions
  fixed : ∀ f : Nat → Nat, (∀ i, i ≤ front.length → f i = i) →
    definitions.map (·.renumber f) = definitions ∧ block.map (·.renumber f) = block
  apart : Apart front.reverse → block = none

/-- There is a wrong line, so the lines after it are not read. -/
structure EndsIn (front : List (List Char)) (file : DefinitionFile) : Prop where
  reads : ∀ back, read (front ++ back) = file
  fixed : ∀ f : Nat → Nat, (∀ i, i ≤ front.length → f i = i) → file.renumber f = file

theorem readsTo_nil : ReadsTo [] [] none := ⟨fun _ => rfl, fun _ _ => ⟨rfl, rfl⟩, fun _ => rfl⟩

theorem ReadsTo.snoc (h : ReadsTo front definitions block) {l : Line} (hl : Line.classify raw = .ok l) :
    ReadsTo (front ++ [raw]) (definitions ++ l.completed (front.length + 1) block)
      (l.blockAfter (front.length + 1) block) := by
  have hlength : (front ++ [raw]).length = front.length + 1 := List.length_append
  refine ⟨fun back => ?_, fun f hf => ?_, fun hapart => ?_⟩
  · rw [List.append_assoc, List.singleton_append, h.reads, readFrom_cons_ok hl, prepend_prepend, hlength]
  · rw [hlength] at hf
    obtain ⟨hdefinitions, hblock⟩ := h.fixed f fun i hi => hf i (Nat.le_succ_of_le hi)
    have hlast := hf (front.length + 1) (Nat.le_refl _)
    rw [List.map_append, Line.completed_renumber, Line.blockAfter_renumber, hdefinitions, hblock, hlast]
    exact ⟨rfl, rfl⟩
  · rw [List.reverse_append, List.reverse_singleton, List.singleton_append] at hapart
    rcases hapart with hsep | ⟨hcomment, hfront⟩
    · obtain ⟨l', hl', hrule, hne⟩ := Line.exists_of_separates hsep
      obtain rfl : l = l' := Except.ok.inj (hl.symm.trans hl')
      exact Line.blockAfter_eq_none hrule hne _ _
    · obtain rfl : l = .comment := Except.ok.inj (hl.symm.trans (Line.classify_of_isComment hcomment))
      exact h.apart hfront

theorem ReadsTo.wrong (h : ReadsTo front definitions block) {e : SyntaxError}
    (hl : Line.classify raw = .error e) :
    EndsIn (front ++ [raw]) ⟨definitions, some ⟨front.length + 1, e⟩⟩ := by
  have hlength : (front ++ [raw]).length = front.length + 1 := List.length_append
  refine ⟨fun back => ?_, fun f hf => ?_⟩
  · rw [List.append_assoc, List.singleton_append, h.reads, readFrom_cons_error hl]
    exact congrArg (DefinitionFile.mk · _) (List.append_nil definitions)
  · rw [hlength] at hf
    have hdefinitions := (h.fixed f fun i hi => hf i (Nat.le_succ_of_le hi)).1
    have hlast := hf (front.length + 1) (Nat.le_refl _)
    rw [renumber, hdefinitions]
    simp only [Option.map_some, Located.renumber, hlast]

theorem EndsIn.snoc {file : DefinitionFile} (h : EndsIn front file) (raw : List Char) :
    EndsIn (front ++ [raw]) file := by
  refine ⟨fun back => ?_, fun f hf => h.fixed f fun i hi => hf i ?_⟩
  · rw [List.append_assoc]
    exact h.reads _
  · rw [List.length_append]
    exact Nat.le_add_right_of_le hi

/-- One of the two is so for all lines of a file. -/
theorem readsTo_or_endsIn (front : List (List Char)) :
    (∃ definitions block, ReadsTo front definitions block) ∨ ∃ file, EndsIn front file := by
  induction front using List.reverseRecOn with
  | nil => exact Or.inl ⟨[], none, readsTo_nil⟩
  | append_singleton front raw ih =>
    rcases ih with ⟨definitions, block, h⟩ | ⟨file, h⟩
    · cases hl : Line.classify raw with
      | ok l => exact Or.inl ⟨_, _, h.snoc hl⟩
      | error e => exact Or.inr ⟨_, h.wrong hl⟩
    · exact Or.inr ⟨file, h.snoc raw⟩

/-! ### One edit -/

theorem renumber_id (file : DefinitionFile) : file.renumber id = file := by
  have hid : ∀ {α : Type}, (Located.renumber id : Located α → Located α) = id := rfl
  simp [renumber, hid]

/-- A line that changes nothing about how reading goes on is skipped. -/
theorem read_insert (h : ∀ definitions block, ReadsTo front definitions block →
      readFrom (front.length + 1) block (raw :: back) = readFrom (front.length + 2) block back) :
    read (front ++ raw :: back) = (read (front ++ back)).renumber (skipping (front.length + 1)) := by
  have hfixed : ∀ i, i ≤ front.length → skipping (front.length + 1) i = i :=
    fun i hi => skipping_of_lt (Nat.lt_succ_of_le hi)
  have hlater : ∀ i, front.length + 1 ≤ i → skipping (front.length + 1) i = i + 1 :=
    fun i hi => skipping_of_le hi
  rcases readsTo_or_endsIn front with ⟨definitions, block, hreads⟩ | ⟨file, hends⟩
  · obtain ⟨hdefinitions, hblock⟩ := hreads.fixed _ hfixed
    have hrest : readFrom (front.length + 1 + 1) (block.map _) back = _ := readFrom_renumber hlater
    rw [hblock] at hrest
    rw [hreads.reads, hreads.reads, h definitions block hreads, hrest, renumber_prepend, hdefinitions]
  · rw [hends.reads, hends.reads, hends.fixed _ hfixed]

end DefinitionFile

open DefinitionFile

/-- After one change the same is read, with the new numbers. -/
theorem LayoutEdit.read_eq {lines lines' : List (List Char)} {f : Nat → Nat}
    (h : LayoutEdit lines f lines') : read lines' = (read lines).renumber f := by
  cases h with
  | @pad front back raw before after hb ha =>
    have hline := Line.classify_pad hb ha raw
    rw [renumber_id]
    rcases readsTo_or_endsIn front with ⟨definitions, block, hreads⟩ | ⟨file, hends⟩
    · rw [hreads.reads, hreads.reads, readFrom_cons_congr hline]
    · rw [hends.reads, hends.reads]
  | comment hcomment =>
    refine read_insert fun definitions block _ => ?_
    rw [readFrom, Line.classify_of_isComment hcomment]
  | @blank front back raw hblank hapart =>
    refine read_insert fun definitions block hreads => ?_
    have hends : readFrom (front.length + 1) block (raw :: back) =
        (readFrom (front.length + 2) none back).prepend (ended block) := by
      rw [readFrom, Line.classify_of_blank hblank]
    rw [hends]
    rcases hapart with hfront | hback
    · rw [hreads.apart hfront]
      rfl
    · exact (readFrom_of_apart hback).symm

/-! ### The automaton -/

/-- No error of a definition tells a line yet. -/
theorem foundAt_of_automaton {d : Definition} {e : GrammarError}
    (h : (d.automaton : Except GrammarError Automaton) = .error e) (line : Nat) :
    e.foundAt line = .atLine line e := by
  cases d with
  | block rules =>
    cases rules with
    | nil =>
      cases h
      rfl
    | cons first rest =>
      obtain ⟨cause, -, rfl⟩ := mapError_eq_error.1 h
      rfl
  | tokenRule token literal =>
    obtain ⟨cause, -, rfl⟩ := mapError_eq_error.1 h
    rfl
  | sentence word =>
    obtain ⟨cause, -, rfl⟩ := mapError_eq_error.1 h
    rfl

theorem foundAt_of_define {a : Automaton} {d : Definition} {e : GrammarError}
    (h : Automaton.define a d = .error e) (line : Nat) : e.foundAt line = .atLine line e := by
  cases hd : (d.automaton : Except GrammarError Automaton) with
  | error cause =>
    rw [Automaton.define, hd] at h
    cases h
    exact foundAt_of_automaton hd line
  | ok fragment =>
    rw [Automaton.define, hd] at h
    obtain ⟨cause, -, rfl⟩ := mapError_eq_error.1 h
    rfl

theorem GrammarError.exists_foundAt_eq (e : GrammarError) (line : Nat) :
    ∃ source first, e.foundAt line = .atLine first source := by
  cases e with
  | atLine first source => exact ⟨source, first, rfl⟩
  | _ => exact ⟨_, line, rfl⟩

namespace DefinitionFile

theorem foldlM_define_renumber (f : Nat → Nat) (definitions : List (Located Definition)) (a : Automaton) :
    (definitions.map (·.renumber f)).foldlM
        (fun (a : Automaton) d => (Automaton.define a d.value).mapError (·.foundAt d.line)) a =
      (definitions.foldlM
        (fun (a : Automaton) d => (Automaton.define a d.value).mapError (·.foundAt d.line)) a).mapError
        (·.renumber f) := by
  induction definitions generalizing a with
  | nil => rfl
  | cons d rest ih =>
    rw [List.map_cons, List.foldlM_cons, List.foldlM_cons]
    cases hd : Automaton.define a d.value with
    | ok b =>
      have hd' : Automaton.define a (d.renumber f).value = .ok b := hd
      rw [hd']
      exact ih b
    | error fault =>
      have hd' : Automaton.define a (d.renumber f).value = .error fault := hd
      rw [hd']
      show Except.error (fault.foundAt (f d.line)) = Except.error ((fault.foundAt d.line).renumber f)
      rw [foundAt_of_define hd, foundAt_of_define hd]
      rfl

/-- Only the numbers in errors depend on the numbers of the lines. -/
theorem automaton_renumber (f : Nat → Nat) (file : DefinitionFile) :
    (file.renumber f).automaton = file.automaton.mapError (·.renumber f) := by
  unfold automaton
  rw [renumber]
  dsimp only
  rw [foldlM_define_renumber]
  cases file.definitions.foldlM
    (fun (a : Automaton) d => (Automaton.define a d.value).mapError (·.foundAt d.line)) Builder.fresh with
  | error e => rfl
  | ok a => cases file.fault <;> rfl

end DefinitionFile

section Relaid

variable {lines lines' : List (List Char)} {f : Nat → Nat} {i j : Nat}

theorem LayoutEdit.ofLines_eq (h : LayoutEdit lines f lines') :
    Automaton.ofLines lines' = (Automaton.ofLines lines).mapError (·.renumber f) := by
  rw [Automaton.ofLines, h.read_eq, automaton_renumber, Automaton.ofLines]

/-- An error of a file tells a line. -/
theorem exists_atLine {e : GrammarError} (h : Automaton.ofLines lines = .error e) :
    ∃ fault i, e = .atLine i fault := by
  rcases Option.or_eq_some_iff.1 (Automaton.ofLines_eq_error_iff.1 h) with hdefinition | ⟨-, hfault⟩
  · obtain ⟨d, -, hd⟩ := List.exists_of_findSome?_eq_some hdefinition
    unfold Located.error? at hd
    cases hautomaton : d.value.automaton with
    | ok a =>
      rw [hautomaton] at hd
      cases hd
    | error fault =>
      rw [hautomaton] at hd
      obtain ⟨source, line, he⟩ := GrammarError.exists_foundAt_eq fault d.line
      exact ⟨source, line, (Option.some.inj hd).symm.trans he⟩
  · obtain ⟨fault, -, rfl⟩ := Option.map_eq_some_iff.1 hfault
    exact ⟨_, _, rfl⟩

/-! ### Which line is which -/

theorem getElem?_insert {α : Type} (front back : List α) (x : α) (hi : 1 ≤ i) :
    (front ++ x :: back)[skipping (front.length + 1) i - 1]? = (front ++ back)[i - 1]? := by
  rcases Nat.lt_or_ge i (front.length + 1) with hlt | hle
  · rw [skipping_of_lt hlt, List.getElem?_append_left (by omega), List.getElem?_append_left (by omega)]
  · obtain ⟨k, rfl⟩ := Nat.exists_eq_add_of_le hle
    have hnew : front.length + 1 + k + 1 - 1 - front.length = k + 1 := by omega
    have hold : front.length + 1 + k - 1 - front.length = k := by omega
    rw [skipping_of_le hle, List.getElem?_append_right (by omega), List.getElem?_append_right (by omega),
      hnew, hold, List.getElem?_cons_succ]

theorem one_le_skipping_iff {p : Nat} : 1 ≤ skipping (p + 1) i ↔ 1 ≤ i := by
  unfold skipping
  split <;> omega

/-- But for blanks at its ends, the line is what it was. -/
theorem LayoutEdit.trim_line (h : LayoutEdit lines f lines') : (1 ≤ f i ↔ 1 ≤ i) ∧
    (1 ≤ i → (lines'.map Text.trim)[f i - 1]? = (lines.map Text.trim)[i - 1]?) := by
  have hinsert : ∀ front back raw, 1 ≤ i →
      ((front ++ raw :: back).map Text.trim)[skipping (front.length + 1) i - 1]? =
        ((front ++ back).map Text.trim)[i - 1]? := fun front back raw hi => by
    have hlength : (front.map Text.trim).length = front.length := List.length_map _
    rw [List.map_append, List.map_append, ← hlength]
    exact getElem?_insert _ _ _ hi
  cases h with
  | pad hb ha =>
    simp only [List.map_append, List.map_cons, Text.trim_pad hb ha]
    exact ⟨Iff.rfl, fun _ => rfl⟩
  | comment => exact ⟨one_le_skipping_iff, hinsert _ _ _⟩
  | blank => exact ⟨one_le_skipping_iff, hinsert _ _ _⟩

theorem Relaid.trim_line {same : Nat → Nat → Prop} (h : Relaid lines same lines') (hsame : same i j)
    (hi : 1 ≤ i) : 1 ≤ j ∧ (lines'.map Text.trim)[j - 1]? = (lines.map Text.trim)[i - 1]? := by
  induction h generalizing j with
  | refl =>
    obtain rfl : i = j := hsame
    exact ⟨hi, rfl⟩
  | edit _ hedit ih =>
    obtain ⟨k, hk, rfl⟩ := hsame
    obtain ⟨hpos, hline⟩ := ih hk
    exact ⟨hedit.trim_line.1.2 hpos, (hedit.trim_line.2 hpos).trans hline⟩
  | undo _ hedit ih =>
    obtain ⟨k, hk, rfl⟩ := hsame
    obtain ⟨hpos, hline⟩ := ih hk
    have hj := hedit.trim_line.1.1 hpos
    exact ⟨hj, (hedit.trim_line.2 hj).symm.trans hline⟩

/-- What is the same for a file however it is laid out. -/
theorem Relaid.outcome {same : Nat → Nat → Prop} (h : Relaid lines same lines') :
    (∃ a : Automaton, Automaton.ofLines lines = .ok a ∧ Automaton.ofLines lines' = .ok a) ∨
      ∃ fault i j, Automaton.ofLines lines = .error (.atLine i fault) ∧
        Automaton.ofLines lines' = .error (.atLine j fault) ∧ same i j := by
  induction h with
  | refl =>
    cases hlines : Automaton.ofLines lines with
    | ok a => exact Or.inl ⟨a, rfl, rfl⟩
    | error e =>
      obtain ⟨fault, i, rfl⟩ := exists_atLine hlines
      exact Or.inr ⟨fault, i, i, rfl, rfl, rfl⟩
  | edit _ hedit ih =>
    rw [hedit.ofLines_eq]
    rcases ih with ⟨a, ha, ha'⟩ | ⟨fault, i, j, he, he', hsame⟩
    · exact Or.inl ⟨a, ha, by rw [ha']; rfl⟩
    · exact Or.inr ⟨fault, i, _, he, by rw [he']; rfl, j, hsame, rfl⟩
  | undo _ hedit ih =>
    rw [hedit.ofLines_eq] at ih
    rcases ih with ⟨a, ha, ha'⟩ | ⟨fault, i, j, he, he', hsame⟩
    · exact Or.inl ⟨a, ha, mapError_eq_ok.1 ha'⟩
    · obtain ⟨e, he₂, hrenumber⟩ := mapError_eq_error.1 he'
      obtain ⟨_, k, rfl⟩ := exists_atLine he₂
      cases hrenumber
      exact Or.inr ⟨fault, i, k, he, he₂, _, hsame, rfl⟩

/-- Files that differ in their layout only have the same automaton, or the same
is wrong with them, at the same line. -/
theorem ofLines_relaid {same : Nat → Nat → Prop} (h : Relaid lines same lines') :
    ((∃ a : Automaton, Automaton.ofLines lines = .ok a ∧ Automaton.ofLines lines' = .ok a) ∨
      ∃ fault i j, Automaton.ofLines lines = .error (.atLine i fault) ∧
        Automaton.ofLines lines' = .error (.atLine j fault) ∧ same i j) ∧
    ∀ i j, same i j → 1 ≤ i → 1 ≤ j ∧
      (lines'.map Text.trim)[j - 1]? = (lines.map Text.trim)[i - 1]? :=
  ⟨h.outcome, fun _ _ hsame hi => h.trim_line hsame hi⟩

end Relaid

def twiceNamed : List (List Char) := ["<A> ::= a".toList, "<A> ::= b".toList]

/-- Two rules of one name, on lines that follow each other but for a comment. -/
def twiceNamedApart : List (List Char) :=
  ["".toList, " <A> ::= a".toList, "# twice".toList, "<A> ::= b".toList]

/-- The comment does not end the block, which starts a line further down. -/
theorem twiceNamed_relaid : ∃ same, Relaid twiceNamed same twiceNamedApart ∧ same 1 2 ∧
    Automaton.ofLines twiceNamed = .error (.atLine 1 (.automaton (.duplicateLabel "A"))) ∧
    Automaton.ofLines twiceNamedApart =
      .error (.atLine 2 (.automaton (.duplicateLabel "A"))) := by
  have hplain : Automaton.ofLines twiceNamed =
      .error (.atLine 1 (.automaton (.duplicateLabel "A"))) := by rfl
  have hpad : LayoutEdit twiceNamed id [" <A> ::= a".toList, "<A> ::= b".toList] :=
    @LayoutEdit.pad [] ["<A> ::= b".toList] "<A> ::= a".toList [' '] [] Text.blank_space Text.blank_nil
  have hblank : LayoutEdit [" <A> ::= a".toList, "<A> ::= b".toList] (skipping 1)
      ["".toList, " <A> ::= a".toList, "<A> ::= b".toList] :=
    @LayoutEdit.blank [] [" <A> ::= a".toList, "<A> ::= b".toList] [] Text.blank_nil (Or.inl trivial)
  have hcomment : LayoutEdit ["".toList, " <A> ::= a".toList, "<A> ::= b".toList] (skipping 3)
      twiceNamedApart :=
    @LayoutEdit.comment ["".toList, " <A> ::= a".toList] ["<A> ::= b".toList] "# twice".toList
      (Line.isComment_iff.2 rfl)
  have hrelaid := ((Relaid.refl.edit hpad).edit hblank).edit hcomment
  refine ⟨_, hrelaid, ⟨_, ⟨_, ⟨1, rfl, rfl⟩, rfl⟩, rfl⟩, hplain, ?_⟩
  obtain ⟨a, ha, -⟩ | ⟨fault, i, j, hi, hj, k, ⟨m, ⟨n, rfl, rfl⟩, rfl⟩, rfl⟩ := (ofLines_relaid hrelaid).1
  · cases hplain.symm.trans ha
  · cases hplain.symm.trans hi
    exact hj

end TokenAutomata
