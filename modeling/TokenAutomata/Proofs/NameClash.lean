/-
# Definitions without an automaton

All that can go wrong with a well-formed definition is that a name is taken.
The last state of a text is labelled with the token, which must not be the
label of the initial state; all other labels on the way are made up and free.
In a block each nonterminal gets a state, so no rule may have the name of an
earlier one, nor, unless it is the first, that of the initial state
(`Distinct`). The first rule of a taken name is the one that is refused
(`Clash`), before any path is added.

Key definitions: `Distinct`, `Clash`, `Definition.Clashes`.
Key theorems: `not_distinct_iff`, `Automaton.ofLiteral_eq_error_iff`,
`Automaton.declareRules_error`, `Automaton.ofRules_eq_error_iff`,
`Definition.automaton_eq_error_iff`.
-/
import TokenAutomata.Proofs.FailedOperations
import TokenAutomata.Proofs.FileBuilding
import TokenAutomata.Proofs.RuleBuilding

namespace TokenAutomata

open Automaton (rootLabel)

/-- The rules have different names, and none but the first is named like the
initial state. -/
def Distinct (rules : List Rule) : Prop :=
  (rules.map (·.name)).Nodup ∧ ∀ rule ∈ rules.tail, rule.name ≠ rootLabel

/-- The first rule whose name is taken when its turn comes, and that name. -/
def Clash (rules : List Rule) (label : String) : Prop :=
  ∃ front rule back, rules = front ++ rule :: back ∧ Distinct front ∧
    ¬ Distinct (front ++ [rule]) ∧ rule.name = label

/-- What the automaton of the definition cannot be built for: a taken name. -/
def Definition.Clashes : Definition → String → Prop
  | .block rules, label => Clash rules label
  | .tokenRule token _, label => token = rootLabel ∧ label = rootLabel
  | .sentence word, label => Text.uppercase (String.ofList word) = rootLabel ∧ label = rootLabel

/-! ### Names of rules -/

theorem distinct_nil : Distinct [] := ⟨List.nodup_nil, fun _ h => by cases h⟩

theorem distinct_singleton (rule : Rule) : Distinct [rule] :=
  ⟨List.nodup_singleton rule.name, fun _ h => by cases h⟩

theorem Distinct.left {front back : List Rule} (h : Distinct (front ++ back)) : Distinct front := by
  obtain ⟨hnames, hroot⟩ := h
  rw [List.map_append] at hnames
  refine ⟨(List.nodup_append.1 hnames).1, fun rule hrule => hroot rule ?_⟩
  cases front with
  | nil => cases hrule
  | cons first rest => exact List.mem_append_left back hrule

/-- Rules whose names do not differ have a first one whose name is taken. -/
theorem not_distinct_iff {rules : List Rule} : ¬ Distinct rules ↔ ∃ label, Clash rules label := by
  constructor
  · intro h
    induction rules using List.reverseRecOn with
    | nil => exact absurd distinct_nil h
    | append_singleton front rule ih =>
      by_cases hfront : Distinct front
      · exact ⟨rule.name, front, rule, [], rfl, hfront, h, rfl⟩
      · obtain ⟨label, front', rule', back, rfl, hclash⟩ := ih hfront
        exact ⟨label, front', rule', back ++ [rule], by simp, hclash⟩
  · rintro ⟨label, front, rule, back, rfl, -, hclash, -⟩ h
    have hsplit : front ++ rule :: back = (front ++ [rule]) ++ back := by simp
    exact hclash (hsplit ▸ h).left

/-- A rule behind others is in the way of one of them or of the initial state. -/
theorem not_distinct_snoc {first rule : Rule} {front : List Rule} (hfront : Distinct (first :: front))
    (h : ¬ Distinct (first :: front ++ [rule])) :
    rule.name ∈ (first :: front).map (·.name) ∨ rule.name = rootLabel := by
  by_contra hno
  rw [not_or] at hno
  refine h ⟨?_, fun r hr => ?_⟩
  · rw [List.map_append, List.map_singleton, List.nodup_append]
    refine ⟨hfront.1, List.nodup_singleton _, fun n hn m hm he => ?_⟩
    rw [List.mem_singleton.1 hm] at he
    exact hno.1 (he ▸ hn)
  · have hr : r ∈ front ++ [rule] := hr
    rcases List.mem_append.1 hr with hr | hr
    · exact hfront.2 r hr
    · rw [List.mem_singleton.1 hr]
      exact hno.2

namespace Automaton

variable {a : Automaton} {e : AutomatonError}

/-! ### Texts -/

theorem labels_new : new.labels = [rootLabel] := rfl

/-- The last state of a text has no label that was made up for the others. -/
theorem mem_labels_lengthened {token : String} {k k' : Nat} {b : Automaton}
    (h : Lengthened token k k' new b) (hl : token ∈ b.labels) : token = rootLabel := by
  rcases h.labels token hl with hl | ⟨j, -, -, he⟩
  · rw [labels_new] at hl
    exact List.mem_singleton.1 hl
  · have hlength := congrArg (List.length ∘ String.toList) he
    simp only [Function.comp_apply, toList_pathLabel, List.length_append, List.length_cons] at hlength
    omega

/-- The initial state is not labelled as states on a path are. -/
theorem freeAfter_new (stem : String) (k : Nat) : FreeAfter stem k new := fun j _ hl => by
  rw [labels_new, List.mem_singleton] at hl
  have hname := not_isNonterminalName_pathLabel stem j
  rw [hl] at hname
  revert hname
  decide

/-- The last state of a text cannot be added if its token names the initial state. -/
theorem ofLiteral_reserved {literal : List Symbol} (hne : literal ≠ []) :
    ofLiteral rootLabel literal = .error (.duplicateLabel rootLabel) := by
  have hend : ∀ (k : Nat) (b : Automaton), Lengthened rootLabel 0 k new b →
      (∀ l ∈ new.labels, l ∈ b.labels) → ∃ c, (addFinalState rootLabel rootLabel >>= fun target =>
        (pure (target, k) : Edit (Nat × Nat))) b = .error (.duplicateLabel rootLabel) c := by
    intro k b hlong hkept
    have hl : rootLabel ∈ b.labels := hkept rootLabel (List.mem_singleton_self rootLabel)
    have hfinal : addFinalState rootLabel rootLabel b = .error (.duplicateLabel rootLabel) b :=
      (addFinalState_eq_error hlong.wellFormed).2 ⟨hl, rfl, rfl⟩
    exact ⟨b, Change.bind_of_error hfinal⟩
  obtain ⟨b, hrun⟩ := addPath_error hne (withInitial_wellFormed rootLabel) (freeAfter_new rootLabel 0)
    (initial_mem_ids new) hend
  exact Change.exec_eq_error.2 ⟨b, hrun⟩

theorem exists_ofLiteral {token : String} {literal : List Symbol} (hne : literal ≠ [])
    (htoken : token ≠ rootLabel) : ∃ b : Automaton, ofLiteral token literal = .ok b := by
  have hend : Finishes token 0 new (fun k => addFinalState token token >>= fun target =>
      pure (target, k)) fun _ _ => True := by
    intro k b hlong
    have hl : token ∉ b.labels := fun hl => htoken (mem_labels_lengthened hlong hl)
    obtain ⟨id, c, hadd, -, hids, -⟩ := addFinalState_ok hlong.wellFormed token hl
    refine ⟨id, k, c, Change.bind_of_ok hadd, fun p hp => ?_, ?_, trivial⟩
    · exact hids ▸ List.mem_append_left _ hp
    · exact hids ▸ List.mem_append_right _ (List.mem_singleton_self id)
  obtain ⟨k, b, hrun, -⟩ := addPath_ok (fun _ _ _ _ _ _ _ _ => trivial) hne
    (withInitial_wellFormed rootLabel) (freeAfter_new token 0) (initial_mem_ids new) hend
  exact ⟨b, Change.exec_eq_ok.2 ⟨k, hrun⟩⟩

/-- A text has an automaton unless its token is named like the initial state. -/
theorem ofLiteral_eq_error_iff {token : String} {literal : List Symbol} (hne : literal ≠ []) :
    ofLiteral token literal = .error e ↔ token = rootLabel ∧ e = .duplicateLabel rootLabel := by
  by_cases htoken : token = rootLabel
  · subst htoken
    rw [ofLiteral_reserved hne, Except.error.injEq]
    exact ⟨fun he => ⟨rfl, he.symm⟩, fun he => he.2.symm⟩
  · obtain ⟨b, hb⟩ := exists_ofLiteral hne htoken
    simp [hb, htoken]

/-! ### Blocks -/

/-- A rule whose name is taken, by a rule before it or otherwise, is refused. -/
theorem declareRules_error {rule : Rule} {back : List Rule} : ∀ {front : List Rule}
    {declared : List (Rule × Nat)} {a : Automaton}, a.WellFormed → (front.map (·.name)).Nodup →
    (∀ r ∈ front, r.name ∉ declared.map (·.1.name) ∧ r.name ∉ a.labels) →
    (rule.name ∈ declared.map (·.1.name) ∨ rule.name ∈ a.labels ∨ rule.name ∈ front.map (·.name)) →
    ∃ b, declareRules declared (front ++ rule :: back) a = .error (.duplicateLabel rule.name) b
  | [], declared, a, ha, _, _, htaken => by
    rw [List.nil_append, declareRules]
    by_cases hany : declared.any (·.1.name == rule.name) = true
    · rw [if_pos hany]
      exact ⟨a, rfl⟩
    · rw [if_neg hany]
      have hl : rule.name ∈ a.labels := by
        rcases htaken with hd | hl | hf
        · obtain ⟨e, he, hname⟩ := List.mem_map.1 hd
          exact absurd (List.any_eq_true.2 ⟨e, he, by simpa using hname⟩) hany
        · exact hl
        · cases hf
      exact ⟨a, Change.bind_of_error ((addState_eq_error ha).2 ⟨hl, rfl, rfl⟩)⟩
  | r :: front, declared, a, ha, hnodup, hnew, htaken => by
    obtain ⟨id, a', ha', -, hlabels, hrest, hstep⟩ := declareRules_cons ha hnodup hnew
    -- the name of `r` is one more that is taken
    have htaken' : rule.name ∈ (declared ++ [(r, id)]).map (·.1.name) ∨ rule.name ∈ a'.labels ∨
        rule.name ∈ front.map (·.name) := by
      rw [List.map_append, List.mem_append, hlabels, List.mem_append]
      rw [List.map_cons, List.mem_cons] at htaken
      rcases htaken with hd | hl | hr | hf
      · exact Or.inl (Or.inl hd)
      · exact Or.inr (Or.inl (Or.inl hl))
      · exact Or.inr (Or.inl (Or.inr (List.mem_singleton.2 hr)))
      · exact Or.inr (Or.inr hf)
    obtain ⟨b, hrun⟩ := declareRules_error ha' (List.nodup_cons.1 hnodup).2 hrest htaken'
    exact ⟨b, (hstep _).trans hrun⟩

/-- The rule of the first name that is taken is refused. -/
theorem ofRules_of_clash {rules : List Rule} {label : String} (h : Clash rules label) :
    ofRules rules = .error (.automaton (.duplicateLabel label)) := by
  obtain ⟨front, rule, back, rfl, hfront, hclash, rfl⟩ := h
  cases front with
  | nil => exact absurd (distinct_singleton rule) hclash
  | cons first front =>
    have hnew : new.WellFormed := withInitial_wellFormed rootLabel
    have hnodup := List.nodup_cons.1 hfront.1
    have hfree : ∀ r ∈ front, r.name ∉ [(first, new.initial.id)].map (·.1.name) ∧ r.name ∉ new.labels := by
      intro r hr
      have hne : r.name ≠ first.name := fun he => hnodup.1 (List.mem_map.2 ⟨r, hr, he⟩)
      have hroot : r.name ≠ rootLabel := hfront.2 r hr
      simp [labels_new, hne, hroot]
    have htaken : rule.name ∈ [(first, new.initial.id)].map (·.1.name) ∨ rule.name ∈ new.labels ∨
        rule.name ∈ front.map (·.name) := by
      rcases not_distinct_snoc hfront hclash with hname | hroot
      · rcases List.mem_cons.1 hname with he | hname
        · exact Or.inl (List.mem_singleton.2 he)
        · exact Or.inr (Or.inr hname)
      · exact Or.inr (Or.inl (labels_new ▸ List.mem_singleton.2 hroot))
    obtain ⟨b, hdeclare⟩ := declareRules_error hnew hnodup.2 hfree htaken
    have hrun : addRules first (front ++ rule :: back) new = .error (.duplicateLabel rule.name) b :=
      (Change.bind_of_ok (show (get : Edit Automaton) new = .ok new new from rfl)).trans
        (Change.bind_of_error hdeclare)
    exact mapError_eq_error.2 ⟨_, Change.exec_eq_error.2 ⟨b, hrun⟩, rfl⟩

/-- A block has an automaton unless a name is taken. -/
theorem ofRules_eq_error_iff {rules : List Rule} (hne : rules ≠ []) (hwf : ∀ rule ∈ rules, rule.WellFormed)
    {fault : GrammarError} : ofRules rules = .error fault ↔
      ∃ label, Clash rules label ∧ fault = .automaton (.duplicateLabel label) := by
  constructor
  · intro h
    have hclash : ¬ Distinct rules := by
      intro hdistinct
      obtain ⟨first, rest, rfl⟩ := List.exists_cons_of_ne_nil hne
      have hterminals : ∀ rule ∈ first :: rest, ∀ u next,
          .production u next ∈ rule.alternatives → u ≠ [] :=
        fun rule hrule u next halt => ((hwf rule hrule).alternatives _ halt).1
      obtain ⟨a, ha⟩ := exists_ofRules (fun rule hrule => (hwf rule hrule).name) hterminals
        hdistinct.1 hdistinct.2
      cases h.symm.trans ha
    obtain ⟨label, hlabel⟩ := not_distinct_iff.1 hclash
    exact ⟨label, hlabel, Except.error.inj (h.symm.trans (ofRules_of_clash hlabel))⟩
  · rintro ⟨label, hlabel, rfl⟩
    exact ofRules_of_clash hlabel

end Automaton

/-- A definition has an automaton unless a name is taken. -/
theorem Definition.automaton_eq_error_iff {d : Definition} (hd : d.WellFormed) {fault : GrammarError} :
    d.automaton = .error fault ↔
      ∃ label, d.Clashes label ∧ fault = .automaton (.duplicateLabel label) := by
  have htext : ∀ {token : String} {literal : List Symbol}, literal ≠ [] →
      ((Automaton.ofLiteral token literal).mapError .automaton = .error fault ↔ ∃ label,
        (token = rootLabel ∧ label = rootLabel) ∧ fault = .automaton (.duplicateLabel label)) := by
    intro token literal hne
    rw [mapError_eq_error]
    constructor
    · rintro ⟨e, he, rfl⟩
      obtain ⟨htoken, rfl⟩ := (Automaton.ofLiteral_eq_error_iff hne).1 he
      exact ⟨rootLabel, ⟨htoken, rfl⟩, rfl⟩
    · rintro ⟨label, ⟨htoken, rfl⟩, rfl⟩
      exact ⟨_, (Automaton.ofLiteral_eq_error_iff hne).2 ⟨htoken, rfl⟩, rfl⟩
  cases d with
  | block rules => exact Automaton.ofRules_eq_error_iff hd.1 hd.2
  | tokenRule token literal => exact htext hd.2
  | sentence word => exact htext hd

/-! ### The first error of a file that was read -/

/-- Why the definition has no automaton, and the line it starts at. -/
def Located.error? (d : Located Definition) : Option GrammarError :=
  match d.value.automaton with
  | .ok _ => none
  | .error fault => some (fault.foundAt d.line)

/-- The first definition without an automaton, or else the wrong line. -/
def DefinitionFile.firstError? (file : DefinitionFile) : Option GrammarError :=
  (file.definitions.findSome? Located.error?).or
    (file.fault.map fun fault => .atLine fault.line (.malformed fault.value))

theorem Located.error?_eq_some_iff {d : Located Definition} (hd : d.value.WellFormed) {e : GrammarError} :
    d.error? = some e ↔ ∃ label, d.value.Clashes label ∧
      e = .atLine d.line (.automaton (.duplicateLabel label)) := by
  have hiff : ∀ fault, d.value.automaton = .error fault ↔ _ :=
    fun fault => Definition.automaton_eq_error_iff hd
  unfold error?
  cases h : d.value.automaton with
  | ok b =>
    constructor
    · intro he
      cases he
    · rintro ⟨label, hclash, -⟩
      cases h.symm.trans ((hiff _).2 ⟨label, hclash, rfl⟩)
  | error fault =>
    constructor
    · intro he
      obtain ⟨label, hclash, rfl⟩ := (hiff fault).1 h
      exact ⟨label, hclash, (Option.some.inj he).symm⟩
    · rintro ⟨label, hclash, rfl⟩
      have hsame := h.symm.trans ((hiff _).2 ⟨label, hclash, rfl⟩)
      rw [Except.error.inj hsame]
      rfl

namespace Automaton

variable {a : Automaton} {e : GrammarError}

/-- Joining stops at the first definition without an automaton. -/
theorem foldlM_define_eq_error_iff : ∀ {definitions : List (Located Definition)} {a : Automaton},
    a.WellFormed → a.initial.label = rootLabel → (definitions.foldlM
      (fun a d => (define a d.value).mapError (·.foundAt d.line)) a = .error e ↔
    definitions.findSome? Located.error? = some e)
  | [], a, _, _ => by
    constructor
    · intro h
      cases h
    · intro h
      cases h
  | d :: rest, a, hwf, hl => by
    rw [List.foldlM_cons, List.findSome?_cons]
    cases hd : d.value.automaton with
    | error fault =>
      have herror : d.error? = some (fault.foundAt d.line) := by simp [Located.error?, hd]
      have hdefine : define a d.value = .error fault := by
        rw [define, hd]
        rfl
      rw [herror, hdefine]
      show Except.error (fault.foundAt d.line) = .error e ↔ some (fault.foundAt d.line) = some e
      rw [Except.error.injEq, Option.some.injEq]
    | ok b =>
      have hnone : d.error? = none := by simp [Located.error?, hd]
      obtain ⟨c, hc, -, hl'⟩ := define_joined hwf hl hd
      rw [hnone, hc]
      exact foldlM_define_eq_error_iff (define_wellFormed hwf hc) hl'

/-- A file is refused for its first error. -/
theorem ofLines_eq_error_iff {lines : List (List Char)} :
    ofLines lines = .error e ↔ (DefinitionFile.read lines).firstError? = some e := by
  unfold ofLines DefinitionFile.automaton DefinitionFile.firstError?
  generalize DefinitionFile.read lines = file
  cases hfold : file.definitions.foldlM
    (fun a d => (define a d.value).mapError (·.foundAt d.line)) Builder.fresh with
  | error first =>
    rw [(foldlM_define_eq_error_iff (withInitial_wellFormed rootLabel) rfl).1 hfold, Option.some_or,
      Option.some.injEq]
    show Except.error first = .error e ↔ first = e
    rw [Except.error.injEq]
  | ok a =>
    have hnone : file.definitions.findSome? Located.error? = none := by
      rw [Option.eq_none_iff_forall_ne_some]
      intro first hfirst
      cases hfold.symm.trans ((foldlM_define_eq_error_iff (withInitial_wellFormed rootLabel) rfl).2 hfirst)
    rw [hnone, Option.none_or]
    cases file.fault with
    | none =>
      constructor
      · intro h
        cases h
      · intro h
        cases h
    | some fault =>
      show Except.error (GrammarError.atLine fault.line (.malformed fault.value)) = .error e ↔
        some (GrammarError.atLine fault.line (.malformed fault.value)) = some e
      rw [Except.error.injEq, Option.some.injEq]

end Automaton

end TokenAutomata
