/-
# Building registries

Texts, rules, definition files and stored tables are made into registries by
the same steps as into automata. Each step mirrors its counterpart, so what is
built agrees: both fail with the same error, or the registry is sound and shows
the automaton (`Registry.Agrees`).

Key theorems: `Registry.mirrors_addPath`, `Registry.mirrors_addRules`,
`Registry.ofLiteral_agrees`, `Registry.ofRules_agrees`,
`Registry.ofRuleLines_agrees`, `Registry.ofLines_agrees`,
`Registry.load_agrees`.
-/
import TokenAutomata.Proofs.Built
import TokenAutomata.Proofs.RegistryJoining
import TokenAutomata.Proofs.RegistryRemoval

namespace TokenAutomata
namespace Registry

/-! ### What agrees -/

namespace Agrees

variable {ε ε' : Type} {x : Except ε Registry} {x' : Except ε Automaton} {r : Registry}

theorem bind {f : Registry → Except ε Registry} {f' : Automaton → Except ε Automaton} (hx : Agrees x x')
    (hf : ∀ r, r.Sound → Agrees (f r) (f' r.view)) : Agrees (x >>= f) (x' >>= f') := by
  cases hx with
  | ok h => exact hf _ h
  | error e => exact .error e

/-- What comes before may be the same for both. -/
theorem bind_same {α : Type} {f : α → Except ε Registry} {f' : α → Except ε Automaton} (v : Except ε α)
    (hf : ∀ v, Agrees (f v) (f' v)) : Agrees (v >>= f) (v >>= f') := by
  cases v with
  | ok v => exact hf v
  | error e => exact .error e

theorem mapError (f : ε → ε') (hx : Agrees x x') : Agrees (x.mapError f) (x'.mapError f) := by
  cases hx with
  | ok h => exact .ok h
  | error e => exact .error (f e)

theorem foldlM {ι : Type} {f : Registry → ι → Except ε Registry} {f' : Automaton → ι → Except ε Automaton}
    (hf : ∀ r i, r.Sound → Agrees (f r i) (f' r.view i)) : ∀ (is : List ι) {r : Registry}, r.Sound →
      Agrees (is.foldlM f r) (is.foldlM f' r.view)
  | [], _, h => .ok h
  | i :: is, r, h => by
    rw [List.foldlM_cons, List.foldlM_cons]
    exact (hf r i h).bind fun s hs => foldlM hf is hs

/-- A registry that was made is sound and shows the automaton that is made. -/
theorem of_ok (hx : Agrees x x') (h : x = .ok r) : r.Sound ∧ x' = .ok r.view := by
  subst h
  cases hx with
  | ok h => exact ⟨h, rfl⟩

/-- An automaton that is made is shown by the registry that is made. -/
theorem eq_ok {a : Automaton} (hx : Agrees x x') (h : x' = .ok a) : ∃ r, x = .ok r ∧ r.Sound ∧ r.view = a := by
  subst h
  cases hx with
  | @ok r hr => exact ⟨r, rfl, hr, rfl⟩

theorem error_iff (hx : Agrees x x') {e : ε} : x = .error e ↔ x' = .error e := by
  cases hx <;> simp

end Agrees

theorem new_sound : new.Sound := withInitial_sound Automaton.rootLabel

/-! ### Paths -/

/-- A path to states that mirror each other. -/
theorem mirrors_addPath {stem : String} {finish : Nat → Change Registry (Nat × Nat)}
    {finish' : Nat → Edit (Nat × Nat)} (hf : ∀ k, Mirrors (finish k) (finish' k)) :
    ∀ (source : Nat) (symbols : List Symbol) (k : Nat),
      Mirrors (Automaton.addPath stem finish source symbols k) (Automaton.addPath stem finish' source symbols k)
  | _, [], k => .pure k
  | _, [_], k => (hf k).bind fun _ => (mirrors_addTransition _ _ _).bind fun _ => .pure _
  | _, _ :: d :: rest, k => (mirrors_addState _).bind fun target =>
      (mirrors_addTransition _ _ _).bind fun _ => mirrors_addPath hf target (d :: rest) (k + 1)

theorem ofLiteral_agrees (token : String) (literal : List Symbol) :
    Agrees (Automaton.ofLiteral token literal) (Automaton.ofLiteral token literal) :=
  (mirrors_addPath (fun _ => (mirrors_addFinalState token token).bind fun _ => .pure _) _ literal 0).exec
    new_sound

theorem ofWord_agrees (word : List Symbol) : Agrees (Automaton.ofWord word) (Automaton.ofWord word) :=
  ofLiteral_agrees _ word

/-! ### Rules -/

theorem mirrors_declareRules : ∀ (declared : List (Rule × Nat)) (rules : List Rule),
    Mirrors (Automaton.declareRules declared rules) (Automaton.declareRules declared rules)
  | _, [] => .pure _
  | declared, rule :: rest => by
    have hrest : Mirrors
        (addState rule.name >>= fun id => Automaton.declareRules (declared ++ [(rule, id)]) rest)
        (Automaton.addState rule.name >>= fun id => Automaton.declareRules (declared ++ [(rule, id)]) rest) :=
      (mirrors_addState rule.name).bind fun _ => mirrors_declareRules _ rest
    rw [Automaton.declareRules, Automaton.declareRules]
    dsimp only
    split
    · exact .bind (.throw _) fun _ => hrest
    · exact hrest

theorem mirrors_addAlternative (declared : List (Rule × Nat)) (name : String) (source k : Nat) :
    ∀ alt : Alternative, Mirrors (Automaton.addAlternative declared name source k alt)
      (Automaton.addAlternative declared name source k alt)
  | .epsilon => (mirrors_setMarker _ _).bind fun _ => .pure _
  | .production terminals none =>
    mirrors_addPath (fun _ => (mirrors_addFinalState _ _).bind fun _ => .pure _) source terminals k
  | .production terminals (some next) => by
    rw [Automaton.addAlternative, Automaton.addAlternative]
    split
    · exact .pure k
    · exact mirrors_addPath (fun _ => .pure _) source terminals k

theorem mirrors_addRules (first : Rule) (rest : List Rule) :
    Mirrors (Automaton.addRules first rest) (Automaton.addRules first rest) := by
  refine .get_bind fun r h => ?_
  have hroot : Builder.initialId r.view = r.initial := h.initialState_id
  rw [hroot]
  refine Mirrors.bind (mirrors_declareRules _ rest) (fun declared => .bind (.forM ?_) ?_) r h
  · intro rule _
    exact .discard (.foldlM fun k alt _ => mirrors_addAlternative declared _ _ k alt)
  · exact fun _ => mirrors_prune.discard

theorem ofRules_agrees : ∀ rules : List Rule, Agrees (Automaton.ofRules rules) (Automaton.ofRules rules)
  | [] => .error _
  | first :: rest => ((mirrors_addRules first rest).exec new_sound).mapError _

theorem ofRuleLines_agrees (lines : List (List Char)) :
    Agrees (Automaton.ofRuleLines lines) (Automaton.ofRuleLines lines) :=
  .bind_same _ fun rules => ofRules_agrees rules

/-! ### Definition files -/

theorem definition_agrees : ∀ d : Definition, Agrees d.automaton d.automaton
  | .block rules => ofRules_agrees rules
  | .tokenRule token literal => (ofLiteral_agrees token literal).mapError _
  | .sentence word => (ofWord_agrees word).mapError _

theorem define_agrees {r : Registry} (h : r.Sound) (d : Definition) :
    Agrees (Automaton.define r d) (Automaton.define r.view d) :=
  (definition_agrees d).bind fun _ hf => ((mirrors_concat hf).exec h).mapError _

theorem ofLines_agrees (lines : List (List Char)) :
    Agrees (Automaton.ofLines lines) (Automaton.ofLines lines) := by
  unfold Automaton.ofLines DefinitionFile.automaton
  refine (Agrees.foldlM (fun r d h => (define_agrees h d.value).mapError _) _ new_sound).bind fun r h => ?_
  split
  · exact .ok h
  · exact .error _

/-! ### Stored tables -/

theorem addState_agrees {r : Registry} (h : r.Sound) (t : StoredTable) (s : StoredState) :
    Agrees (t.addState r s) (t.addState r.view s) := by
  have hs := Automaton.stateUnder_wellFormed s t.idOf
  unfold StoredTable.addState
  dsimp only
  split
  · exact ((mirrors_replaceInitial hs).exec h).mapError _
  · exact ((mirrors_insert hs).exec h).mapError _

theorem table_agrees (t : StoredTable) : Agrees t.automaton t.automaton := by
  unfold StoredTable.automaton
  split
  · exact .error _
  · refine (Agrees.foldlM (fun r s h => addState_agrees h t s) t.states (withInitial_sound _)).bind
      fun r h => ?_
    have hvalidate : Builder.validate r.view = Builder.validate r := h.validate_view
    rw [hvalidate]
    cases Builder.validate r with
    | error e => exact .error _
    | ok u => exact .ok h

theorem load_agrees (file : Json.Bytes) : Agrees (Automaton.load file) (Automaton.load file) := by
  unfold Automaton.load
  split
  · exact .error _
  · exact table_agrees _

end Registry
end TokenAutomata
