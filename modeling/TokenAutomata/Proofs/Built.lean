/-
# Built automata

A caller gets an automaton from nothing, from a text, from rules, from the
lines of a definition file, from a stored table or by determinization, and
changes it by edits, which may fail. `Automaton.Built` says that an automaton
came about in such a way, `State.Built` the same of a state. Whatever is
built is well-formed, and every well-formed state can be built.

Key definitions: `State.Built`, `Automaton.Built`, `Automaton.KeptByCompiling`.
Key theorems: `State.built_iff`, `Automaton.KeptByCompiling.definition`,
`Automaton.Built.wellFormed`.
-/
import TokenAutomata.Automaton.Determinize
import TokenAutomata.Grammar.Compile
import TokenAutomata.Proofs.WellFormed
import TokenAutomata.Table.Json

namespace TokenAutomata

/-! ### Built states -/

namespace State

/-- A state that edits made from a new one; a state merged into it was built
itself. -/
inductive Built : State → Prop
  | new (id : Nat) (label : String) : Built (.new id label)
  | edit {s t : State} {e : Edit} : Built s →
      (∀ o, e = .mergeMarker o ∨ e = .mergeMoves o → Built o) → s.edit e = .ok t → Built t

theorem Built.wellFormed {s : State} (h : s.Built) : s.WellFormed := by
  induction h with
  | new id label => exact .new id label
  | edit _ _ he ih iho => exact ih.edit iho he

theorem upsert_of_not_mem {c : Symbol} {f : IdSet → IdSet} : ∀ {entries : List (Symbol × IdSet)},
    c ∉ entries.map Prod.fst → Moves.upsert c f entries = entries ++ [(c, f ∅)]
  | [], _ => rfl
  | (d, ids) :: rest, h => by
    rw [List.map_cons, List.mem_cons, not_or] at h
    rw [Moves.upsert, if_neg (Ne.symm h.1), upsert_of_not_mem h.2]
    rfl

/-- The entries of well-formed moves can be assigned one after the other. -/
theorem Built.withMoves {s : State} (hs : s.Built) : ∀ {before rest : List (Symbol × IdSet)},
    s.moves = ⟨before⟩ → (Moves.mk (before ++ rest)).WellFormed →
      ({ s with moves := ⟨before ++ rest⟩ } : State).Built
  | before, [], hm, _ => by
    rw [List.append_nil, ← hm]
    exact hs
  | before, (c, ids) :: rest, hm, h => by
    have hne : ids ≠ ∅ := h.nonempty (c, ids) (List.mem_append_right _ List.mem_cons_self)
    have hset : s.setMoves c ids = { s with moves := ⟨before ++ [(c, ids)]⟩ } := by
      have he : ¬ ids.isEmpty = true := fun h => hne (IdSet.isEmpty_iff.1 h)
      rw [setMoves, hm, Moves.assign, if_neg he, upsert_of_not_mem h.not_mem_before]
    have hb : (s.setMoves c ids).Built :=
      .edit (e := .setMoves c ids) hs (by rintro o (h | h) <;> cases h) rfl
    rw [hset] at hb
    have hcons : before ++ (c, ids) :: rest = (before ++ [(c, ids)]) ++ rest := by
      rw [List.append_assoc, List.singleton_append]
    rw [hcons] at h ⊢
    exact hb.withMoves rfl h

/-- What can be built is what is well-formed, so a state taken out of an
automaton counts as built. -/
theorem built_iff {s : State} : s.Built ↔ s.WellFormed := by
  refine ⟨Built.wellFormed, fun h => ?_⟩
  have hmarker : (({ id := s.id, label := s.label } : State).setMarker s.marker).Built :=
    .edit (e := .setMarker s.marker) (.new s.id s.label) (by rintro o (h | h) <;> cases h) rfl
  rw [setMarker, h.filter_marker] at hmarker
  exact @Built.withMoves _ hmarker [] s.moves.entries rfl h.moves

end State

namespace Automaton

/-- An automaton that a caller can get. -/
inductive Built : Automaton → Prop
  | withInitial (label : String) : Built (.withInitial label)
  | ofLiteral {token : String} {literal : List Symbol} {a : Automaton} :
      ofLiteral token literal = .ok a → Built a
  | ofWord {word : List Symbol} {a : Automaton} : ofWord word = .ok a → Built a
  | ofRules {rules : List Rule} {a : Automaton} : ofRules rules = .ok a → Built a
  | ofRuleLines {lines : List (List Char)} {a : Automaton} : ofRuleLines lines = .ok a → Built a
  | ofLines {lines : List (List Char)} {a : Automaton} : ofLines lines = .ok a → Built a
  | load {file : Json.Bytes} {a : Automaton} : load file = .ok a → Built a
  | determinize {a d : Automaton} : Built a → a.determinize = .ok d → Built d
  | addState {a : Automaton} (label : String) : Built a → Built ((addState label).after a)
  | addFinalState {a : Automaton} (label token : String) : Built a →
      Built ((addFinalState label token).after a)
  | addTransition {a : Automaton} (p : Nat) (c : Symbol) (q : Nat) : Built a →
      Built ((addTransition p c q).after a)
  | setMarker {a : Automaton} (id : Nat) (marker : Option String) : Built a →
      Built ((setMarker id marker).after a)
  | forgetState {a : Automaton} (id : Nat) : Built a → Built ((forgetState id).after a)
  | concat {a other : Automaton} : Built a → Built other → Built ((concat other).after a)
  | removeDead {a : Automaton} : Built a → Built (removeDead.after a)
  | removeUnreachable {a : Automaton} : Built a → Built (removeUnreachable.after a)
  | prune {a : Automaton} : Built a → Built (prune.after a)
  | editState {a : Automaton} (id : Nat) (e : State.Edit) : Built a →
      (∀ o, e = .mergeMarker o ∨ e = .mergeMoves o → o.Built) → Built ((editState id e).after a)

open Change (Keeps)

/-! ### From texts and rules -/

/-- Kept by every edit that definitions are made into automata with. -/
structure KeptByCompiling (P : Automaton → Prop) : Prop where
  addState : ∀ label, Keeps P (addState label)
  addFinalState : ∀ label token, Keeps P (addFinalState label token)
  addTransition : ∀ source c target, Keeps P (addTransition source c target)
  setMarker : ∀ id marker, Keeps P (setMarker id marker)
  prune : Keeps P prune

namespace KeptByCompiling

variable {P : Automaton → Prop} (hP : KeptByCompiling P)

include hP

theorem addPath {stem : String} {finish : Nat → Edit (Nat × Nat)} (hf : ∀ k, Keeps P (finish k)) :
    ∀ (source : Nat) (symbols : List Symbol) (k : Nat), Keeps P (addPath stem finish source symbols k)
  | _, [], k => .pure k
  | _, [_], k => (hf k).bind fun _ => (hP.addTransition _ _ _).bind fun _ => .pure _
  | _, _ :: d :: rest, k => (hP.addState _).bind fun target =>
      (hP.addTransition _ _ _).bind fun _ => addPath hf target (d :: rest) (k + 1)

theorem declareRules : ∀ (declared : List (Rule × Nat)) (rules : List Rule),
    Keeps P (declareRules declared rules)
  | _, [] => .pure _
  | declared, rule :: rest => by
    have hrest : Keeps P (Automaton.addState rule.name >>= fun id =>
        Automaton.declareRules (declared ++ [(rule, id)]) rest) :=
      (hP.addState rule.name).bind fun _ => declareRules _ rest
    rw [Automaton.declareRules]
    dsimp only
    split
    · exact .bind (.throw _) fun _ => hrest
    · exact hrest

theorem addAlternative (declared : List (Rule × Nat)) (name : String) (source k : Nat) :
    ∀ alt : Alternative, Keeps P (addAlternative declared name source k alt)
  | .epsilon => (hP.setMarker _ _).bind fun _ => .pure _
  | .production terminals none =>
    hP.addPath (fun _ => (hP.addFinalState _ _).bind fun _ => .pure _) source terminals k
  | .production terminals (some next) => by
    rw [Automaton.addAlternative]
    split
    · exact .pure k
    · exact hP.addPath (fun _ => .pure _) source terminals k

theorem addRules (first : Rule) (rest : List Rule) : Keeps P (addRules first rest) := by
  refine .bind .get fun a => (hP.declareRules _ rest).bind fun declared => .bind (.forM ?_) ?_
  · intro rule _
    exact .discard (.foldlM fun k alt _ => hP.addAlternative declared _ _ k alt)
  · exact fun _ => hP.prune.discard

theorem ofLiteral (hnew : P new) {token : String} {literal : List Symbol} {a : Automaton}
    (h : ofLiteral token literal = .ok a) : P a :=
  (hP.addPath (fun _ => (hP.addFinalState _ _).bind fun _ => .pure _) _ _ _).exec hnew h

theorem ofRules (hnew : P new) {rules : List Rule} {a : Automaton} (h : ofRules rules = .ok a) : P a := by
  cases rules with
  | nil => cases h
  | cons first rest => exact (hP.addRules first rest).exec hnew (mapError_eq_ok.1 h)

theorem definition (hnew : P new) {d : Definition} {a : Automaton} (h : d.automaton = .ok a) : P a := by
  cases d with
  | block rules => exact hP.ofRules hnew h
  | tokenRule token literal => exact hP.ofLiteral hnew (mapError_eq_ok.1 h)
  | sentence word => exact hP.ofLiteral hnew (mapError_eq_ok.1 h)

end KeptByCompiling

theorem wellFormed_kept : KeptByCompiling WellFormed :=
  ⟨keeps_addState, keeps_addFinalState, keeps_addTransition, keeps_setMarker, keeps_prune⟩

theorem ofLiteral_wellFormed {token : String} {literal : List Symbol} {a : Automaton}
    (h : ofLiteral token literal = .ok a) : a.WellFormed :=
  wellFormed_kept.ofLiteral (withInitial_wellFormed _) h

theorem ofRules_wellFormed {rules : List Rule} {a : Automaton} (h : ofRules rules = .ok a) :
    a.WellFormed := wellFormed_kept.ofRules (withInitial_wellFormed _) h

theorem definition_wellFormed {d : Definition} {a : Automaton} (h : d.automaton = .ok a) :
    a.WellFormed := wellFormed_kept.definition (withInitial_wellFormed _) h

theorem define_wellFormed {a b : Automaton} {d : Definition} (ha : a.WellFormed)
    (h : define a d = .ok b) : b.WellFormed := by
  obtain ⟨fragment, hf, hb⟩ := except_bind_eq_ok.1 h
  exact (keeps_concat (definition_wellFormed hf)).exec ha (mapError_eq_ok.1 hb)

theorem foldlM_define_wellFormed : ∀ {definitions : List (Located Definition)} {a b : Automaton},
    a.WellFormed → definitions.foldlM
      (fun a d => (define a d.value).mapError (·.foundAt d.line)) a = .ok b → b.WellFormed
  | [], a, b, ha, h => by
    cases h
    exact ha
  | d :: rest, a, b, ha, h => by
    rw [List.foldlM_cons] at h
    obtain ⟨c, hc, hb⟩ := except_bind_eq_ok.1 h
    exact foldlM_define_wellFormed (define_wellFormed ha (mapError_eq_ok.1 hc)) hb

theorem ofLines_wellFormed {lines : List (List Char)} {a : Automaton} (h : ofLines lines = .ok a) :
    a.WellFormed := by
  obtain ⟨b, hb, ha⟩ := except_bind_eq_ok.1 h
  have hwf := foldlM_define_wellFormed (withInitial_wellFormed _) hb
  split at ha
  · cases ha
    exact hwf
  · cases ha

theorem ofRuleLines_wellFormed {lines : List (List Char)} {a : Automaton}
    (h : ofRuleLines lines = .ok a) : a.WellFormed := by
  obtain ⟨rules, -, ha⟩ := except_bind_eq_ok.1 h
  exact ofRules_wellFormed ha

/-! ### From sets of states -/

theorem foldl_union_wellFormed : ∀ {states : List State} {m : Moves}, m.WellFormed →
    (∀ s ∈ states, s.WellFormed) → (states.foldl (fun m s => m.union s.moves) m).WellFormed
  | [], _, hm, _ => hm
  | s :: states, _, hm, hs => @foldl_union_wellFormed states _
      (hm.union (hs s List.mem_cons_self).moves) fun t ht => hs t (List.mem_cons_of_mem _ ht)

theorem mem_states_of_mem_statesOf {a : Automaton} {set : IdSet} {s : State}
    (h : s ∈ a.statesOf set) : s ∈ a.states := by
  obtain ⟨id, -, hs⟩ := List.mem_filterMap.1 h
  exact mem_states_of_state? hs

theorem jointMoves_wellFormed {a : Automaton} (ha : ∀ s ∈ a.states, s.WellFormed) (set : IdSet) :
    (a.jointMoves set).WellFormed :=
  foldl_union_wellFormed .empty fun s hs => ha s (mem_states_of_mem_statesOf hs)

theorem subsetState_wellFormed {a : Automaton} (ha : ∀ s ∈ a.states, s.WellFormed)
    (sets : List IdSet) (set : IdSet) (id : Nat) : (a.subsetState sets set id).WellFormed := by
  refine ⟨⟨?_, fun e he => ?_⟩, fun h => ?_⟩
  · show (((a.jointMoves set).entries.map _).map Prod.fst).Nodup
    rw [List.map_map]
    exact (jointMoves_wellFormed ha set).nodup
  · obtain ⟨e', -, rfl⟩ := List.mem_map.1 he
    exact IdSet.singleton_ne_empty _
  · obtain ⟨s, hs, hm⟩ := List.exists_of_findSome?_eq_some h
    exact (ha s (mem_states_of_mem_statesOf hs)).marker hm

theorem determinize_wellFormed {a d : Automaton} (ha : a.WellFormed) (h : a.determinize = .ok d) :
    d.WellFormed := by
  obtain ⟨u, -, hd⟩ := except_bind_eq_ok.1 h
  refine Keeps.exec (.forM fun (set, id) _ => ?_) (withInitial_wellFormed _) hd
  dsimp only
  split
  · exact keeps_replaceInitial (subsetState_wellFormed ha.states _ _ _)
  · exact (keeps_adopt (subsetState_wellFormed ha.states _ _ _)).discard

/-! ### From stored tables -/

theorem foldl_insert_wellFormed {c : Symbol} {f : Nat → Nat} : ∀ {ids : List Nat} {m : Moves},
    m.WellFormed → (ids.foldl (fun m id => m.insert c (f id)) m).WellFormed
  | [], _, hm => hm
  | id :: ids, _, hm => @foldl_insert_wellFormed c f ids _ (hm.insert c (f id))

theorem movesUnder_wellFormed (s : StoredState) (rename : Nat → Nat) :
    (s.movesUnder rename).WellFormed := by
  have hfold : ∀ (entries : List StoredMove) {m : Moves}, m.WellFormed → (entries.foldl
      (fun m entry => entry.targets.foldl (fun m id => m.insert entry.symbol (rename id)) m) m).WellFormed := by
    intro entries
    induction entries with
    | nil => exact fun hm => hm
    | cons entry rest ih => exact fun hm => ih (foldl_insert_wellFormed hm)
  exact hfold s.moves .empty

theorem stateUnder_wellFormed (s : StoredState) (rename : Nat → Nat) :
    (s.stateUnder rename).WellFormed :=
  ⟨movesUnder_wellFormed s rename,
    ((State.WellFormed.new (rename s.id) s.label).setMarker s.marker).marker⟩

theorem addStoredState_wellFormed {t : StoredTable} {a b : Automaton} {s : StoredState}
    (ha : a.WellFormed) (h : t.addState a s = .ok b) : b.WellFormed := by
  unfold StoredTable.addState at h
  dsimp only at h
  split at h
  · exact (keeps_replaceInitial (stateUnder_wellFormed s _)).exec ha (mapError_eq_ok.1 h)
  · exact (keeps_insert (stateUnder_wellFormed s _)).exec ha (mapError_eq_ok.1 h)

theorem table_wellFormed {t : StoredTable} {a : Automaton} (h : t.automaton = .ok a) :
    a.WellFormed := by
  have hfold : ∀ (states : List StoredState) {b c : Automaton}, b.WellFormed →
      states.foldlM t.addState b = .ok c → c.WellFormed := by
    intro states
    induction states with
    | nil =>
      intro b c hb hc
      cases hc
      exact hb
    | cons s rest ih =>
      intro b c hb hc
      rw [List.foldlM_cons] at hc
      obtain ⟨b', hb', hc⟩ := except_bind_eq_ok.1 hc
      exact ih (addStoredState_wellFormed hb hb') hc
  unfold StoredTable.automaton at h
  split at h
  · cases h
  · obtain ⟨b, hb, h⟩ := except_bind_eq_ok.1 h
    obtain ⟨u, -, h⟩ := except_bind_eq_ok.1 h
    cases h
    exact hfold t.states (withInitial_wellFormed _) hb

theorem load_wellFormed {file : Json.Bytes} {a : Automaton} (h : load file = .ok a) : a.WellFormed := by
  unfold load at h
  split at h
  · cases h
  · exact table_wellFormed h

/-- However an automaton came about, and whichever edits failed on the way,
it is well-formed. -/
theorem Built.wellFormed {a : Automaton} (h : Built a) : a.WellFormed := by
  induction h with
  | withInitial label => exact withInitial_wellFormed label
  | ofLiteral h => exact ofLiteral_wellFormed h
  | ofWord h => exact ofLiteral_wellFormed h
  | ofRules h => exact ofRules_wellFormed h
  | ofRuleLines h => exact ofRuleLines_wellFormed h
  | ofLines h => exact ofLines_wellFormed h
  | load h => exact load_wellFormed h
  | determinize _ h ih => exact determinize_wellFormed ih h
  | addState label _ ih => exact keeps_addState label _ ih
  | addFinalState label token _ ih => exact keeps_addFinalState label token _ ih
  | addTransition p c q _ ih => exact keeps_addTransition p c q _ ih
  | setMarker id marker _ ih => exact keeps_setMarker id marker _ ih
  | forgetState id _ ih => exact keeps_forgetState id _ ih
  | concat _ _ ih iho => exact keeps_concat iho _ ih
  | removeDead _ ih => exact keeps_removeDead _ ih
  | removeUnreachable _ ih => exact keeps_removeUnreachable _ ih
  | prune _ ih => exact keeps_prune _ ih
  | editState id e _ ho ih => exact keeps_editState id (fun o h => (ho o h).wellFormed) _ ih

end Automaton
end TokenAutomata
