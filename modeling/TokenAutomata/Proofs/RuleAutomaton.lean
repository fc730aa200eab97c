/-
# The automaton of a block of rules

After all states of nonterminals and all paths of alternatives have been
added, and before anything is pruned, the automaton spells the rules and has a
path for every alternative that can be used (`Automaton.Compiled`). So it
reads from the state of one nonterminal to that of another just what is
derived (`Compiled.path_iff`), and to a marker just the words that are derived
with that marker (`Compiled.word_iff`).

The automaton of a text is the case of one rule with one alternative.

Key definitions: `Rule.Proper`, `Automaton.Realized`, `Automaton.Compiled`.
Key theorems: `Automaton.addAlternative_realized`, `Automaton.Compiled.path_iff`,
`Automaton.Compiled.word_iff`, `Automaton.ofRules_compiled`,
`Automaton.ofLiteral_compiled`.
-/
import TokenAutomata.Proofs.Spelling

namespace TokenAutomata

/-- The rule has a name, and the alternatives other than the empty one have
terminals. -/
structure Rule.Proper (r : Rule) : Prop where
  name : r.name ≠ ""
  terminals : ∀ u next, .production u next ∈ r.alternatives → u ≠ []

namespace Automaton

/-- Each nonterminal has a state in its role, and the rules have different
names. -/
structure Declares (role : Nat → Role) (a : Automaton) (declared : List (Rule × Nat)) : Prop where
  names : (declared.map (·.1.name)).Nodup
  mem_ids : ∀ e ∈ declared, e.2 ∈ a.ids
  role : ∀ e ∈ declared, role e.2 = .nonterminal e.1.name

/-- What an alternative asks for is there. -/
def Realized (declared : List (Rule × Nat)) (a : Automaton) (name : String) (source : Nat) :
    Alternative → Prop
  | .epsilon => a.markerOf? source = some name
  | .production u none => ∃ q, a.Path source u q ∧ a.markerOf? q = some name
  | .production u (some next) => ∀ q, stateOf? declared next = some q → a.Path source u q

variable {rules : List Rule} {role role' : Nat → Role} {a b : Automaton}
  {declared : List (Rule × Nat)}

theorem Declares.grown (h : Declares role a declared) (hg : Grown rules role role' a b) :
    Declares role' b declared :=
  ⟨h.names, fun e he => hg.ids _ (h.mem_ids e he),
    fun e he => (hg.role _ (h.mem_ids e he)).trans (h.role e he)⟩

theorem Realized.grown {name : String} {source : Nat} {alt : Alternative}
    (h : Realized declared a name source alt) (hg : Grown rules role role' a b) :
    Realized declared b name source alt := by
  cases alt with
  | epsilon => exact hg.marker _ _ h
  | production u next =>
    cases next with
    | none =>
      obtain ⟨q, hq, ht⟩ := h
      exact ⟨q, hg.path hq, hg.marker _ _ ht⟩
    | some next => exact fun q hq => hg.path (h q hq)

theorem stateOf?_eq_some_iff (h : (declared.map (·.1.name)).Nodup) {name : String} {q : Nat} :
    stateOf? declared name = some q ↔ ∃ e ∈ declared, e.1.name = name ∧ e.2 = q := by
  unfold stateOf?
  rw [Option.map_eq_some_iff]
  constructor
  · rintro ⟨e, he, rfl⟩
    exact ⟨e, List.mem_of_find?_eq_some he, by simpa using List.find?_some he, rfl⟩
  · rintro ⟨e, he, rfl, rfl⟩
    have hsome : (declared.find? (·.1.name == e.1.name)).isSome := by
      rw [List.find?_isSome]
      exact ⟨e, he, by simp⟩
    obtain ⟨e', he'⟩ := Option.isSome_iff_exists.1 hsome
    have hname : e'.1.name = e.1.name := by simpa using List.find?_some he'
    have hee := List.inj_on_of_nodup_map h (List.mem_of_find?_eq_some he') he hname
    exact ⟨e', he', by rw [hee]⟩

/-! ### Nonterminals -/

theorem declareRules_declares : ∀ {rest : List Rule} {declared declared' : List (Rule × Nat)}
    {role : Nat → Role} {a b : Automaton}, Spells rules role a → Declares role a declared →
    declareRules declared rest a = .ok declared' b →
    ∃ role', Grown rules role role' a b ∧ Declares role' b declared' ∧
      declared'.map Prod.fst = declared.map Prod.fst ++ rest ∧ declared <+: declared'
  | [], declared, declared', role, a, b, ha, hd, hrun => by
    obtain ⟨rfl, rfl⟩ := Change.pure_eq_ok.1 hrun
    exact ⟨role, .refl ha, hd, (List.append_nil _).symm, List.prefix_rfl⟩
  | rule :: rest, declared, declared', role, a, b, ha, hd, hrun => by
    rw [declareRules] at hrun
    by_cases hname : declared.any (·.1.name == rule.name) = true
    · rw [if_pos hname] at hrun
      cases hrun
    · rw [if_neg hname] at hrun
      obtain ⟨id, a1, hadd, hrun⟩ := Change.bind_eq_ok.1 hrun
      obtain ⟨hid, hg⟩ := ha.addState hadd (.nonterminal rule.name)
      have hold := hd.grown hg
      have hd1 : Declares (Function.update role id (.nonterminal rule.name)) a1
          (declared ++ [(rule, id)]) := by
        refine ⟨?_, fun e he => ?_, fun e he => ?_⟩
        · rw [List.map_append, List.nodup_append]
          refine ⟨hd.names, List.nodup_singleton _, fun n hn m hm hnm => hname ?_⟩
          obtain ⟨e, he, rfl⟩ := List.mem_map.1 hn
          rw [List.map_singleton, List.mem_singleton] at hm
          exact List.any_eq_true.2 ⟨e, he, by simp [hnm, hm]⟩
        · rcases List.mem_append.1 he with he | he
          · exact hold.mem_ids e he
          · rw [List.mem_singleton.1 he]
            exact hid
        · rcases List.mem_append.1 he with he | he
          · exact hold.role e he
          · rw [List.mem_singleton.1 he]
            exact Function.update_self _ _ _
      obtain ⟨role', hg', hd', hrules, hpart⟩ := declareRules_declares hg.spells hd1 hrun
      refine ⟨role', hg.trans hg', hd', ?_, (List.prefix_append _ _).trans hpart⟩
      rw [hrules, List.map_append, List.append_assoc]
      rfl

/-! ### Alternatives -/

theorem ending_of_final {name : String} {u : List Symbol} (hname : name ≠ "")
    (label : Nat → String) (next : Nat → Nat) : Ending rules role a
      (fun k => addFinalState (label k) name >>= fun target => pure (target, next k))
      (.inside name u [] none) fun b q => b.markerOf? q = some name := by
  intro role' a' k target k' b hg hrun
  obtain ⟨target', b', hadd, hrun⟩ := Change.bind_eq_ok.1 hrun
  obtain ⟨he, rfl⟩ := Change.pure_eq_ok.1 hrun
  cases he
  obtain ⟨htarget, hmarker, hg'⟩ := hg.spells.addFinalState hadd (Role.Final.terminals name u)
  exact ⟨_, hg', htarget, Function.update_self _ _ _, hmarker hname⟩

theorem ending_of_declared {next : String} {q : Nat} (hq : q ∈ a.ids) (hrole : role q = .nonterminal next) :
    Ending rules role a (fun k => pure (q, k)) (.nonterminal next) fun _ p => p = q := by
  intro role' a' k target k' b hg hrun
  obtain ⟨he, rfl⟩ := Change.pure_eq_ok.1 hrun
  cases he
  exact ⟨role', .refl hg.spells, hg.ids _ hq, (hg.role _ hq).trans hrole, rfl⟩

theorem addAlternative_realized (ha : Spells rules role a) (hd : Declares role a declared)
    {e : Rule × Nat} (he : e ∈ declared) (hrule : e.1 ∈ rules) (hproper : e.1.Proper)
    {alt : Alternative} (halt : alt ∈ e.1.alternatives) {k k' : Nat}
    (hrun : addAlternative declared e.1.name e.2 k alt a = .ok k' b) :
    ∃ role', Grown rules role role' a b ∧ Realized declared b e.1.name e.2 alt := by
  have hsource := hd.role e he
  cases alt with
  | epsilon =>
    obtain ⟨u, a1, hset, hrun⟩ := Change.bind_eq_ok.1 hrun
    obtain ⟨rfl, rfl⟩ := Change.pure_eq_ok.1 hrun
    have hf : Role.Final rules (role e.2) e.1.name := by
      rw [hsource]
      exact .epsilon hrule halt
    obtain ⟨hmarker, hg⟩ := ha.setMarker hset hf
    exact ⟨role, hg, hmarker hproper.name⟩
  | production u next =>
    have hne := hproper.terminals u next halt
    have hstep : ∀ x after, u = x :: after →
        Role.Step rules (role e.2) x (.place e.1.name ([] ++ [x]) after next) := by
      rintro x after rfl
      rw [hsource]
      exact .first hrule halt
    cases next with
    | none =>
      have hlasting : Lasting rules fun b q => b.markerOf? q = some e.1.name :=
        fun _ _ _ _ _ hg ht => hg.marker _ _ ht
      have hending := @ending_of_final rules role a e.1.name u hproper.name
        (fun k => s!"{e.1.name}_{k + 1}") (· + 1)
      obtain ⟨role', hg, hpath⟩ := Spells.addPath hlasting ha hending (hd.mem_ids e he) hstep hrun
      exact ⟨role', hg, hpath hne⟩
    | some next =>
      cases hq : stateOf? declared next with
      | none =>
        simp only [addAlternative, hq] at hrun
        obtain ⟨rfl, rfl⟩ := Change.pure_eq_ok.1 hrun
        exact ⟨role, .refl ha, fun q hq' => by rw [hq] at hq'; cases hq'⟩
      | some q =>
        simp only [addAlternative, hq] at hrun
        obtain ⟨e', he', hname, rfl⟩ := (stateOf?_eq_some_iff hd.names).1 hq
        have hlasting : Lasting rules fun _ q => q = e'.2 := fun _ _ _ _ _ _ ht => ht
        have hending := @ending_of_declared rules role a next e'.2 (hd.mem_ids e' he')
          (hname ▸ hd.role e' he')
        obtain ⟨role', hg, hpath⟩ := Spells.addPath hlasting ha hending (hd.mem_ids e he) hstep hrun
        obtain ⟨target, hw, rfl⟩ := hpath hne
        exact ⟨role', hg, fun q hq' => by
          rw [hq] at hq'
          cases hq'
          exact hw⟩

theorem foldlM_alternatives {e : Rule × Nat} (he : e ∈ declared) (hrule : e.1 ∈ rules)
    (hproper : e.1.Proper) : ∀ {alts : List Alternative} {role : Nat → Role} {a b : Automaton}
    {k k' : Nat}, (∀ alt ∈ alts, alt ∈ e.1.alternatives) → Spells rules role a →
    Declares role a declared →
    alts.foldlM (fun k => addAlternative declared e.1.name e.2 k) k a = .ok k' b →
    ∃ role', Grown rules role role' a b ∧ ∀ alt ∈ alts, Realized declared b e.1.name e.2 alt
  | [], role, a, b, k, k', _, ha, _, hrun => by
    obtain ⟨-, rfl⟩ := Change.pure_eq_ok.1 hrun
    exact ⟨role, .refl ha, fun alt halt => absurd halt List.not_mem_nil⟩
  | alt :: alts, role, a, b, k, k', hmem, ha, hd, hrun => by
    rw [List.foldlM_cons] at hrun
    obtain ⟨k1, a1, halt, hrun⟩ := Change.bind_eq_ok.1 hrun
    obtain ⟨role1, hg, hreal⟩ :=
      addAlternative_realized ha hd he hrule hproper (hmem alt List.mem_cons_self) halt
    obtain ⟨role', hg', hall⟩ := foldlM_alternatives he hrule hproper
      (fun alt h => hmem alt (List.mem_cons_of_mem _ h)) hg.spells (hd.grown hg) hrun
    refine ⟨role', hg.trans hg', fun alt' halt' => ?_⟩
    rcases List.mem_cons.1 halt' with rfl | halt'
    · exact hreal.grown hg'
    · exact hall alt' halt'

theorem forM_alternatives (hproper : ∀ rule ∈ rules, rule.Proper) : ∀ {es : List (Rule × Nat)}
    {role : Nat → Role} {a b : Automaton} {u : Unit}, (∀ e ∈ es, e ∈ declared ∧ e.1 ∈ rules) →
    Spells rules role a → Declares role a declared →
    es.forM (fun e => addAlternatives declared e.1 e.2) a = .ok u b →
    ∃ role', Grown rules role role' a b ∧
      ∀ e ∈ es, ∀ alt ∈ e.1.alternatives, Realized declared b e.1.name e.2 alt
  | [], role, a, b, u, _, ha, _, hrun => by
    obtain ⟨-, rfl⟩ := Change.pure_eq_ok.1 hrun
    exact ⟨role, .refl ha, fun e he => absurd he List.not_mem_nil⟩
  | e :: es, role, a, b, u, hmem, ha, hd, hrun => by
    obtain ⟨u1, a1, hall, hrun⟩ := Change.bind_eq_ok.1 hrun
    obtain ⟨k, hall⟩ := Change.discard_eq_ok.1 hall
    obtain ⟨he, hrule⟩ := hmem e List.mem_cons_self
    obtain ⟨role1, hg, hreal⟩ :=
      foldlM_alternatives he hrule (hproper _ hrule) (fun _ h => h) ha hd hall
    obtain ⟨role', hg', hrest⟩ := forM_alternatives hproper
      (fun e h => hmem e (List.mem_cons_of_mem _ h)) hg.spells (hd.grown hg) hrun
    refine ⟨role', hg.trans hg', fun e' he' alt halt => ?_⟩
    rcases List.mem_cons.1 he' with rfl | he'
    · exact (hreal alt halt).grown hg'
    · exact hrest e' he' alt halt

/-! ### All rules -/

/-- `a` spells the rules and has all that their alternatives ask for. -/
structure Compiled (rules : List Rule) (declared : List (Rule × Nat)) (role : Nat → Role)
    (a : Automaton) : Prop where
  spells : Spells rules role a
  declares : Declares role a declared
  rules_eq : declared.map Prod.fst = rules
  realized : ∀ e ∈ declared, ∀ alt ∈ e.1.alternatives, Realized declared a e.1.name e.2 alt

namespace Compiled

variable (h : Compiled rules declared role a) {n m : String} {p q : Nat} {u w : List Symbol}

include h

theorem role_of_stateOf? (hn : stateOf? declared n = some p) : role p = .nonterminal n := by
  obtain ⟨e, he, rfl, rfl⟩ := (stateOf?_eq_some_iff h.declares.names).1 hn
  exact h.declares.role e he

/-- A rule has a state, and its alternatives are realized there. -/
theorem exists_state {rule : Rule} (hrule : rule ∈ rules) :
    ∃ p, stateOf? declared rule.name = some p ∧
      ∀ alt ∈ rule.alternatives, Realized declared a rule.name p alt := by
  rw [← h.rules_eq] at hrule
  obtain ⟨e, he, rfl⟩ := List.mem_map.1 hrule
  exact ⟨e.2, (stateOf?_eq_some_iff h.declares.names).2 ⟨e, he, rfl, rfl⟩, h.realized e he⟩

/-- Derivations that end at a nonterminal with a state are paths. -/
theorem path_of_derives (hd : Derives rules n w m) (hm : stateOf? declared m = some q) :
    ∃ p, stateOf? declared n = some p ∧ a.Path p w q := by
  induction hd with
  | refl n => exact ⟨q, hm, .nil q⟩
  | @step rule terminals u next m hrule halt _ ih =>
    obtain ⟨r, hr, hu⟩ := ih hm
    obtain ⟨p, hp, hreal⟩ := h.exists_state hrule
    exact ⟨p, hp, Path.append (hreal _ halt r hr) hu⟩

/-- From the state of one nonterminal to that of another, what is derived is
read. -/
theorem path_iff (hn : stateOf? declared n = some p) (hm : stateOf? declared m = some q) :
    a.Path p w q ↔ Derives rules n w m := by
  constructor
  · intro hw
    have hread := h.spells.reading (h.role_of_stateOf? hn) hw
    rw [h.role_of_stateOf? hm] at hread
    exact hread
  · intro hd
    obtain ⟨p', hp', hw⟩ := h.path_of_derives hd hm
    obtain rfl : p' = p := Option.some.inj (hp'.symm.trans hn)
    exact hw

/-- To a marker, the words are read that are derived with that marker. -/
theorem word_iff (hn : stateOf? declared n = some p) :
    (∃ q, a.Path p w q ∧ a.markerOf? q = some m) ↔ DerivesWord rules n w m := by
  constructor
  · rintro ⟨q, hw, ht⟩
    exact (h.spells.reading (h.role_of_stateOf? hn) hw).final (h.spells.marker q m ht)
  · rintro ⟨u, v, rfl, hu, hv⟩
    have hlast : ∃ r q, stateOf? declared m = some r ∧ a.Path r v q ∧ a.markerOf? q = some m := by
      cases hv with
      | epsilon hrule halt =>
        obtain ⟨r, hr, hreal⟩ := h.exists_state hrule
        exact ⟨r, r, hr, .nil r, hreal _ halt⟩
      | terminals hrule halt =>
        obtain ⟨r, hr, hreal⟩ := h.exists_state hrule
        obtain ⟨q, hq, ht⟩ := hreal _ halt
        exact ⟨r, q, hr, hq, ht⟩
    obtain ⟨r, q, hr, hv, ht⟩ := hlast
    exact ⟨q, ((h.path_iff hn hr).2 hu).append hv, ht⟩

end Compiled

/-! ### Blocks and texts -/

theorem dests_new (p : Nat) (x : Symbol) : new.dests p x = ∅ := by
  unfold dests
  cases hs : new.state? p with
  | none => rfl
  | some s =>
    rw [List.mem_singleton.1 (mem_states_of_state? hs)]
    rfl

theorem markerOf?_new (p : Nat) : new.markerOf? p = none := by
  unfold markerOf?
  cases hs : new.state? p with
  | none => rfl
  | some s =>
    rw [List.mem_singleton.1 (mem_states_of_state? hs)]
    rfl

theorem eq_nil_of_reaches_new {w : List Symbol} {q : Nat} (h : new.Reaches w q) : w = [] := by
  cases h with
  | nil => rfl
  | cons hq _ =>
    rw [dests_new] at hq
    exact absurd hq (IdSet.not_mem_empty _)

theorem spells_new (rules : List Rule) (role : Nat → Role) : Spells rules role new := by
  refine ⟨withInitial_wellFormed rootLabel, fun p x q hq => ?_, fun p x q hq => ?_, fun p t ht => ?_⟩
  · rw [dests_new] at hq
    exact absurd hq (IdSet.not_mem_empty q)
  · rw [dests_new] at hq
    exact absurd hq (IdSet.not_mem_empty q)
  · rw [markerOf?_new] at ht
    cases ht

theorem declares_new (rule : Rule) : Declares (fun _ => .nonterminal rule.name) new
    [(rule, new.initial.id)] := by
  refine ⟨List.nodup_singleton _, fun e he => ?_, fun e he => ?_⟩
  · rw [List.mem_singleton.1 he]
    exact initial_mem_ids new
  · rw [List.mem_singleton.1 he]

/-- The automaton of a block is the one that has been compiled from it,
pruned. -/
theorem ofRules_compiled {first : Rule} {rest : List Rule} {b : Automaton}
    (hproper : ∀ rule ∈ first :: rest, rule.Proper) (h : ofRules (first :: rest) = .ok b) :
    ∃ declared role a, Compiled (first :: rest) declared role a ∧
      stateOf? declared first.name = some a.initial.id ∧ b = a.pruned := by
  obtain ⟨v, hrun⟩ := Change.exec_eq_ok.1 (mapError_eq_ok.1 h)
  obtain ⟨a0, a0', hget, hrun⟩ := Change.bind_eq_ok.1 hrun
  cases hget
  obtain ⟨declared, a1, hdeclare, hrun⟩ := Change.bind_eq_ok.1 hrun
  obtain ⟨u, a, halts, hrun⟩ := Change.bind_eq_ok.1 hrun
  obtain ⟨k, hprune⟩ := Change.discard_eq_ok.1 hrun
  cases hprune
  obtain ⟨role1, hg1, hd1, hrules, hpart⟩ :=
    declareRules_declares (spells_new (first :: rest) _) (declares_new first) hdeclare
  replace hrules : declared.map Prod.fst = first :: rest := hrules
  have hmem : ∀ e ∈ declared, e ∈ declared ∧ e.1 ∈ first :: rest := fun e he =>
    ⟨he, hrules ▸ List.mem_map_of_mem he⟩
  obtain ⟨role, hg, hreal⟩ := forM_alternatives hproper hmem hg1.spells hd1 halts
  have hfirst : (first, new.initial.id) ∈ declared := hpart.subset List.mem_cons_self
  have hroot : a.initial.id = new.initial.id := hg.spells.wellFormed.initial_id
  refine ⟨declared, role, a, ⟨hg.spells, hd1.grown hg, hrules, hreal⟩, ?_, rfl⟩
  rw [hroot]
  exact (stateOf?_eq_some_iff hd1.names).2 ⟨_, hfirst, rfl, rfl⟩

/-- The rule that a text amounts to. -/
def literalRule (token : String) (literal : List Symbol) : Rule :=
  { name := token, alternatives := [.production literal none] }

theorem ofLiteral_compiled {token : String} {literal : List Symbol} {b : Automaton} (htoken : token ≠ "")
    (hne : literal ≠ []) (h : ofLiteral token literal = .ok b) :
    ∃ declared role, Compiled [literalRule token literal] declared role b ∧
      stateOf? declared token = some b.initial.id := by
  obtain ⟨v, hrun⟩ := Change.exec_eq_ok.1 h
  have hd := declares_new (literalRule token literal)
  have hstep : ∀ x after, literal = x :: after → Role.Step [literalRule token literal]
      (.nonterminal token) x (.place token ([] ++ [x]) after none) := by
    rintro x after rfl
    exact @Role.Step.first _ (literalRule token (x :: after)) x after none List.mem_cons_self
      List.mem_cons_self
  have hlasting : Lasting [literalRule token literal] fun b q => b.markerOf? q = some token :=
    fun _ _ _ _ _ hg ht => hg.marker _ _ ht
  have hending := @ending_of_final [literalRule token literal] (fun _ => .nonterminal token) new token
    literal htoken (fun _ => token) id
  have hnew := spells_new [literalRule token literal] fun _ => .nonterminal token
  obtain ⟨role, hg, hpath⟩ := Spells.addPath hlasting hnew hending (initial_mem_ids new) hstep hrun
  have hroot : b.initial.id = new.initial.id := hg.spells.wellFormed.initial_id
  refine ⟨_, role, ⟨hg.spells, hd.grown hg, rfl, fun e he alt halt => ?_⟩, ?_⟩
  · rw [List.mem_singleton.1 he] at halt ⊢
    rw [List.mem_singleton.1 halt]
    exact hpath hne
  · rw [hroot]
    exact (stateOf?_eq_some_iff hd.names).2 ⟨_, List.mem_cons_self, rfl, rfl⟩

end Automaton
end TokenAutomata
