/-
# What is read from lines

A rule that is read is one that can be written (`Rule.read_wellFormed`): its
name and the names it refers to are names of nonterminals, and its terminals
are there and are no marks. A token rule has a token's name and a text, and a
word has symbols (`Line.classify_wellFormed`).

Key definitions: `Line.WellFormed`.
Key theorems: `Alternative.read_eq_ok`, `Rule.read_wellFormed`,
`Line.classify_wellFormed`.
-/
import TokenAutomata.Grammar.Line
import TokenAutomata.Proofs.EditRuns

namespace TokenAutomata

/-! ### Alternatives -/

/-- What the two checks on terminals find out. -/
theorem terminals_checked_iff {terminals : List Symbol} :
    terminals.find? (!isTerminal ·) = none ∧ epsilonSymbol ∉ terminals ↔
      ∀ c ∈ terminals, isTerminal c = true ∧ c ≠ epsilonSymbol := by
  rw [List.find?_eq_none]
  constructor
  · rintro ⟨hfind, hepsilon⟩ c hc
    refine ⟨by simpa using hfind c hc, ?_⟩
    rintro rfl
    exact hepsilon hc
  · intro h
    exact ⟨fun c hc => by simp [(h c hc).1], fun hm => (h _ hm).2 rfl⟩

/-- An alternative that is read is well-formed, and the piece is its text but
for blanks that may follow a reference. -/
theorem Alternative.read_eq_ok {rule : String} {piece : List Char} {alt : Alternative}
    (h : Alternative.read rule piece = .ok alt) :
    alt.WellFormed ∧ ∃ after, Text.trim after = [] ∧ piece = alt.text ++ after := by
  unfold Alternative.read at h
  by_cases he : piece = [epsilonSymbol]
  · rw [if_pos he] at h
    cases h
    exact ⟨trivial, [], rfl, he⟩
  rw [if_neg he] at h
  cases hcut : Text.cut '<' piece with
  | none =>
    rw [hcut] at h
    dsimp only at h
    cases hfind : piece.find? (!isTerminal ·) with
    | some c =>
      rw [hfind] at h
      cases h
    | none =>
      rw [hfind] at h
      obtain ⟨hepsilon, hrest⟩ := check_eq_ok.1 h
      obtain ⟨hne, hlast⟩ := check_eq_ok.1 hrest
      cases hlast
      refine ⟨⟨hne, terminals_checked_iff.1 ⟨hfind, hepsilon⟩, fun name hname => by cases hname⟩, [], rfl, ?_⟩
      simp [text]
  | some parts =>
    rw [hcut] at h
    dsimp only at h
    cases hfind : parts.1.find? (!isTerminal ·) with
    | some c =>
      rw [hfind] at h
      cases h
    | none =>
      rw [hfind] at h
      obtain ⟨hepsilon, hrest⟩ := check_eq_ok.1 h
      cases hclose : Text.cut '>' parts.2 with
      | none =>
        rw [hclose] at hrest
        cases hrest
      | some reference =>
        rw [hclose] at hrest
        obtain ⟨hname, hafter⟩ := check_eq_ok.1 hrest
        obtain ⟨hblank, hunit⟩ := check_eq_ok.1 hafter
        obtain ⟨hne, hlast⟩ := check_eq_ok.1 hunit
        cases hlast
        refine ⟨⟨hne, terminals_checked_iff.1 ⟨hfind, hepsilon⟩, fun name hmem => ?_⟩, reference.2,
          Decidable.not_not.1 hblank, ?_⟩
        · cases hmem
          rw [String.toList_ofList]
          simpa using hname
        · have hpiece := (Text.cut_eq_some_iff.1 hcut).1
          have htail := (Text.cut_eq_some_iff.1 hclose).1
          simp [hpiece, htail, text, referenceText]

theorem Alternative.read_wellFormed {rule : String} {piece : List Char} {alt : Alternative}
    (h : Alternative.read rule piece = .ok alt) : alt.WellFormed := (read_eq_ok h).1

/-! ### Rules -/

theorem Rule.read_wellFormed {line : List Char} {r : Rule} (h : Rule.read line = .ok r) :
    r.WellFormed := by
  unfold Rule.read at h
  cases hhead : splitHead line with
  | none =>
    rw [hhead] at h
    cases h
  | some parts =>
    rw [hhead] at h
    obtain ⟨hname, hbody⟩ := check_eq_ok.1 h
    obtain ⟨alternatives, hread, hcheck⟩ := except_bind_eq_ok.1 hbody
    obtain ⟨hne, hlast⟩ := check_eq_ok.1 hcheck
    cases hlast
    refine ⟨by simpa using hname, hne, fun alt halt => ?_⟩
    obtain ⟨piece, -, hpiece⟩ := forall₂_mem_right (mapM_eq_ok_iff.1 hread) halt
    exact Alternative.read_wellFormed hpiece

/-! ### Lines -/

theorem readTokenRule_wellFormed {line : List Char} {token : String} {literal : List Symbol}
    (h : readTokenRule line = some (token, literal)) :
    isTokenName token.toList = true ∧ literal ≠ [] := by
  obtain ⟨⟨left, right⟩, -, hcheck⟩ := Option.bind_eq_some_iff.1 h
  dsimp only at hcheck
  by_cases hc : (isTokenName (Text.trim left) && !(Text.trim right).isEmpty) = true
  · rw [if_pos hc] at hcheck
    cases hcheck
    rw [Bool.and_eq_true] at hc
    rw [String.toList_ofList]
    exact ⟨hc.1, by simpa using hc.2⟩
  · rw [if_neg hc] at hcheck
    cases hcheck

namespace Line

/-- The line is a rule that can be written, a token's name and a text, or some
symbols. -/
def WellFormed : Line → Prop
  | .expression rule => rule.WellFormed
  | .tokenRule token literal => isTokenName token.toList = true ∧ literal ≠ []
  | .sentence word => word ≠ []
  | .blank => True
  | .comment => True

theorem classify_wellFormed {raw : List Char} {l : Line} (h : classify raw = .ok l) : l.WellFormed := by
  unfold classify at h
  dsimp only at h
  by_cases hblank : Text.trim raw = []
  · rw [if_pos hblank] at h
    cases h
    trivial
  rw [if_neg hblank] at h
  by_cases hcomment : (Text.trim raw).head? = some '#'
  · rw [if_pos hcomment] at h
    cases h
    trivial
  rw [if_neg hcomment] at h
  by_cases hrule : isExpression (Text.trim raw) = true
  · rw [if_pos hrule] at h
    cases hread : Rule.read (Text.trim raw) with
    | error e =>
      rw [hread] at h
      cases h
    | ok rule =>
      rw [hread] at h
      cases h
      exact Rule.read_wellFormed hread
  rw [if_neg hrule] at h
  cases htoken : readTokenRule (Text.trim raw) with
  | none =>
    rw [htoken] at h
    cases h
    exact hblank
  | some rule =>
    rw [htoken] at h
    cases h
    exact readTokenRule_wellFormed htoken

end Line

end TokenAutomata
