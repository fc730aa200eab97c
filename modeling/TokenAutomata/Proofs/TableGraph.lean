/-
# The graph of a table

A table says by itself which words it stands for: those that its entries spell
on a path from the initial id to a state with a marker
(`StoredTable.Matches`). Several entries for one symbol count together, an
entry without destinations for nothing, and an empty marker for none. The
automaton that the table becomes accepts just these words, wherever the
initial state stands in the list and whatever its id is
(`StoredTable.accepts_iff_matches`).

What the ids are does not matter either. Under other ids, no two states under
the same one, the table becomes the same automaton with the states under other
ids (`StoredTable.renamed_of_renumbered`).

Key definitions: `StoredTable.Leads`, `StoredTable.Path`, `StoredTable.Matches`,
`StoredTable.renumbered`.
Key theorems: `StoredTable.path_iff`, `StoredTable.accepts_iff_matches`,
`StoredState.rename_stateUnder`, `StoredTable.Valid.renumbered`,
`StoredTable.renamed_of_renumbered`, `StoredTable.load_graph`.
-/
import TokenAutomata.Proofs.MovesAlgebra
import TokenAutomata.Proofs.Renaming
import TokenAutomata.Proofs.TableLoading

namespace TokenAutomata

/-! ### Words that a table stands for -/

namespace StoredTable

/-- A state of id `p` has an entry for `c` with the destination `q`. -/
def Leads (t : StoredTable) (p : Nat) (c : Symbol) (q : Nat) : Prop :=
  ∃ s ∈ t.states, s.id = p ∧ ∃ m ∈ s.moves, m.symbol = c ∧ q ∈ m.targets

/-- `t.Path p w q`: some entries lead from `p` to `q` and spell `w`. -/
inductive Path (t : StoredTable) : Nat → List Symbol → Nat → Prop
  | nil (p : Nat) : Path t p [] p
  | cons {p q r : Nat} {c : Symbol} {w : List Symbol} :
      t.Leads p c q → Path t q w r → Path t p (c :: w) r

/-- A state of id `p` has a marker that is not empty. -/
def Marked (t : StoredTable) (p : Nat) : Prop :=
  ∃ s ∈ t.states, s.id = p ∧ ∃ token, s.marker = some token ∧ token ≠ ""

def Matches (t : StoredTable) (w : List Symbol) : Prop := ∃ q, t.Path t.initial w q ∧ t.Marked q

variable {t : StoredTable} {a b : Automaton} {c : Symbol} {w : List Symbol} {p x : Nat}

theorem path_nil_iff : t.Path p [] x ↔ p = x := by
  constructor
  · intro h
    cases h
    rfl
  · rintro rfl
    exact .nil p

theorem path_cons_iff : t.Path p (c :: w) x ↔ ∃ q, t.Leads p c q ∧ t.Path q w x := by
  constructor
  · intro h
    cases h with
    | cons hq hw => exact ⟨_, hq, hw⟩
  · rintro ⟨q, hq, hw⟩
    exact .cons hq hw

section Accepting

variable (hperm : a.states.Perm (t.states.map (·.stateUnder t.idOf))) (hids : a.ids.Nodup)

include hperm hids

theorem mem_dests_iff : x ∈ a.dests (t.idOf p) c ↔ ∃ q, t.Leads p c q ∧ t.idOf q = x := by
  rw [Automaton.mem_dests_iff_states hids]
  simp only [hperm.mem_iff, List.mem_map, exists_exists_and_eq_and]
  constructor
  · rintro ⟨s, hs, hid, hx⟩
    obtain ⟨m, hm, rfl, q, hq, rfl⟩ := StoredState.mem_dests_movesUnder.1 hx
    exact ⟨q, ⟨s, hs, t.idOf_injective hid, m, hm, rfl, hq⟩, rfl⟩
  · rintro ⟨q, ⟨s, hs, rfl, m, hm, hc, hq⟩, rfl⟩
    exact ⟨s, hs, rfl, StoredState.mem_dests_movesUnder.2 ⟨m, hm, hc, q, hq, rfl⟩⟩

/-- The paths of the automaton are those of the table under the new ids. -/
theorem path_iff : a.Path (t.idOf p) w x ↔ ∃ q, t.Path p w q ∧ t.idOf q = x := by
  induction w generalizing p with
  | nil => simp [path_nil_iff]
  | cons c w ih =>
    simp only [Automaton.path_cons_iff, mem_dests_iff hperm hids, path_cons_iff]
    constructor
    · rintro ⟨_, ⟨q, hq, rfl⟩, hw⟩
      obtain ⟨r, hr, rfl⟩ := ih.1 hw
      exact ⟨r, ⟨q, hq, hr⟩, rfl⟩
    · rintro ⟨r, ⟨q, hq, hr⟩, rfl⟩
      exact ⟨t.idOf q, ⟨q, hq, rfl⟩, ih.2 ⟨r, hr, rfl⟩⟩

theorem marked_iff : (a.markerOf? (t.idOf p)).isSome ↔ t.Marked p := by
  rw [Option.isSome_iff_exists]
  constructor
  · rintro ⟨token, htoken⟩
    obtain ⟨u, hu, hmarker⟩ := Automaton.markerOf?_eq_some_iff.1 htoken
    obtain ⟨hmem, hid⟩ := (Automaton.state?_eq_some_iff hids).1 hu
    obtain ⟨s, hs, rfl⟩ := List.mem_map.1 (hperm.mem_iff.1 hmem)
    obtain ⟨hsome, hne⟩ := Option.filter_eq_some_iff.1 hmarker
    exact ⟨s, hs, t.idOf_injective hid, token, hsome, of_decide_eq_true hne⟩
  · rintro ⟨s, hs, rfl, token, hsome, hne⟩
    have hmem : s.stateUnder t.idOf ∈ a.states := hperm.mem_iff.2 (List.mem_map_of_mem hs)
    have hmarker : (s.stateUnder t.idOf).marker = some token :=
      Option.filter_eq_some_iff.2 ⟨hsome, decide_eq_true hne⟩
    exact ⟨token, (Automaton.markerOf?_of_mem_states hids hmem).trans hmarker⟩

/-- The automaton accepts the words that the table stands for. -/
theorem accepts_iff_matches (hinitial : a.initial.id = 0) : a.accepts w = true ↔ t.Matches w := by
  rw [Automaton.accepts_iff]
  simp only [Automaton.Reaches, hinitial, ← t.idOf_initial, path_iff hperm hids]
  constructor
  · rintro ⟨_, ⟨q, hq, rfl⟩, hm⟩
    exact ⟨q, hq, (marked_iff hperm hids).1 hm⟩
  · rintro ⟨q, hq, hm⟩
    exact ⟨t.idOf q, ⟨q, hq, rfl⟩, (marked_iff hperm hids).2 hm⟩

end Accepting

end StoredTable

/-! ### Other ids -/

def StoredMove.renumbered (m : StoredMove) (f : Nat → Nat) : StoredMove :=
  { m with targets := m.targets.map f }

def StoredState.renumbered (s : StoredState) (f : Nat → Nat) : StoredState :=
  { s with id := f s.id, moves := s.moves.map (·.renumbered f) }

/-- The table with every id replaced. -/
def StoredTable.renumbered (t : StoredTable) (f : Nat → Nat) : StoredTable :=
  { initial := f t.initial, states := t.states.map (·.renumbered f) }

namespace StoredState

variable {f g : Nat → Nat}

theorem movesUnder_renumbered (s : StoredState) (f g : Nat → Nat) :
    (s.renumbered f).movesUnder g = s.movesUnder (g ∘ f) := by
  simp only [movesUnder, renumbered, StoredMove.renumbered, List.foldl_map]
  rfl

theorem rename_movesUnder (s : StoredState) (f g : Nat → Nat) :
    (s.movesUnder f).rename g = s.movesUnder (g ∘ f) := by
  refine (List.foldl_hom (Moves.rename · g) fun m entry => ?_).symm
  exact List.foldl_hom (Moves.rename · g) fun m x => (m.rename_insert entry.symbol (f x) g).symm

theorem stateUnder_renumbered (s : StoredState) (f g : Nat → Nat) :
    (s.renumbered f).stateUnder g = s.stateUnder (g ∘ f) := by
  unfold stateUnder
  rw [movesUnder_renumbered]
  rfl

theorem rename_stateUnder (s : StoredState) (f g : Nat → Nat) :
    (s.stateUnder f).rename g = s.stateUnder (g ∘ f) := by
  unfold stateUnder State.rename
  dsimp only
  rw [rename_movesUnder]
  rfl

end StoredState

namespace StoredTable

variable {t : StoredTable} {a b : Automaton} {f : Nat → Nat}

theorem ids_renumbered (t : StoredTable) (f : Nat → Nat) : (t.renumbered f).ids = t.ids.map f := by
  rw [ids, renumbered, List.map_map, ids, List.map_map]
  rfl

theorem labels_renumbered (t : StoredTable) (f : Nat → Nat) : (t.renumbered f).labels = t.labels := by
  rw [labels, renumbered, List.map_map, labels]
  rfl

/-- A valid table is valid under other ids. -/
theorem Valid.renumbered (ht : t.Valid) (hf : Set.InjOn f {x | x ∈ t.ids}) : (t.renumbered f).Valid where
  initial_listed := ids_renumbered t f ▸ List.mem_map_of_mem ht.initial_listed
  nodup_ids := ids_renumbered t f ▸ ht.nodup_ids.map_on hf
  nodup_labels := labels_renumbered t f ▸ ht.nodup_labels
  targets_listed := by
    rw [ids_renumbered]
    intro s' hs' m' hm' x' hx'
    obtain ⟨s, hs, rfl⟩ := List.mem_map.1 hs'
    obtain ⟨m, hm, rfl⟩ := List.mem_map.1 hm'
    obtain ⟨x, hx, rfl⟩ := List.mem_map.1 hx'
    exact List.mem_map_of_mem (ht.targets_listed s hs m hm x hx)

/-- How the new id of a state changes with its id in the table. -/
def newIdOf (t : StoredTable) (f : Nat → Nat) (x : Nat) : Nat := (t.renumbered f).idOf (f (t.idOf x))

theorem newIdOf_idOf (t : StoredTable) (f : Nat → Nat) (x : Nat) :
    t.newIdOf f (t.idOf x) = (t.renumbered f).idOf (f x) := by
  rw [newIdOf, idOf_idOf]

/-- The state made of a row is the same, under the new id. -/
theorem stateUnder_renumbered (t : StoredTable) (f : Nat → Nat) (s : StoredState) :
    (s.renumbered f).stateUnder (t.renumbered f).idOf = (s.stateUnder t.idOf).rename (t.newIdOf f) := by
  have hids : t.newIdOf f ∘ t.idOf = (t.renumbered f).idOf ∘ f := funext (t.newIdOf_idOf f)
  rw [StoredState.stateUnder_renumbered, StoredState.rename_stateUnder, hids]

section Listed

variable (hf : Set.InjOn f {x | x ∈ t.ids}) (hlisted : t.initial ∈ t.ids)

include hf hlisted

theorem initial_renumbered_iff {s : StoredState} (hs : s ∈ t.states) :
    f s.id = f t.initial ↔ s.id = t.initial :=
  ⟨fun he => hf (List.mem_map_of_mem hs) hlisted he, congrArg f⟩

theorem roots_renumbered : (t.renumbered f).roots = t.roots.map (·.renumbered f) := by
  rw [roots, renumbered, List.filter_map]
  exact congrArg _ (List.filter_congr fun s hs => decide_eq_decide.2 (initial_renumbered_iff hf hlisted hs))

theorem rest_renumbered : (t.renumbered f).rest = t.rest.map (·.renumbered f) := by
  rw [rest, renumbered, List.filter_map]
  exact congrArg _ (List.filter_congr fun s hs =>
    decide_eq_decide.2 (not_congr (initial_renumbered_iff hf hlisted hs)))

end Listed

/-- Under other ids the same states are made, in the same order. -/
theorem renamed_of_renumbered (hf : Set.InjOn f {x | x ∈ t.ids}) (honce : t.ids.count t.initial = 1)
    (ha : t.automaton = .ok a) (hb : (t.renumbered f).automaton = .ok b) :
    a.Renamed (t.newIdOf f) b := by
  have hlisted := initial_mem_ids ha
  obtain ⟨first, -, hfold, -⟩ := automaton_eq_ok.1 ha
  obtain ⟨first', -, hfold', -⟩ := automaton_eq_ok.1 hb
  refine ⟨?_, ?_, ?_⟩
  · rw [count_initial, List.length_eq_one_iff] at honce
    obtain ⟨root, hroot⟩ := honce
    have hroot' : (t.renumbered f).roots = [root.renumbered f] := by
      rw [roots_renumbered hf hlisted, hroot, List.map_singleton]
    rw [initial_of_added hfold' hroot', initial_of_added hfold hroot, stateUnder_renumbered]
  · rw [others_of_added hfold', rest_renumbered hf hlisted, others_of_added hfold, List.map_map, List.map_map]
    exact List.map_congr_left fun s _ => t.stateUnder_renumbered f s
  · intro p hp q hq h
    rw [(ids_perm (states_perm hfold honce)).mem_iff] at hp hq
    obtain ⟨x, hx, rfl⟩ := List.mem_map.1 hp
    obtain ⟨y, hy, rfl⟩ := List.mem_map.1 hq
    rw [newIdOf_idOf, newIdOf_idOf] at h
    rw [hf hx hy ((t.renumbered f).idOf_injective h)]

/-! ### Files -/

variable {file : Json.Bytes}

/-- The automaton loaded from the text of a table accepts the words that the
table stands for. With other ids in the text, an automaton is loaded too; it
accepts the same words and gives the same answers to all texts. -/
theorem load_graph (ht : (Json.parse? file).bind ofJson? = some t) (hids : t.ids.Nodup)
    (ha : Automaton.load file = .ok a) :
    (∀ w, a.accepts w = true ↔ t.Matches w) ∧
    ∀ f, Set.InjOn f {x | x ∈ t.ids} →
      ∀ file', (Json.parse? file').bind ofJson? = some (t.renumbered f) →
        ∃ b : Automaton, Automaton.load file' = .ok b ∧ (∀ w, b.accepts w = a.accepts w) ∧
          ∀ input, b.lex input = a.lex input := by
  rw [load_of_parsed ht] at ha
  have honce := List.count_eq_one_of_mem hids (initial_mem_ids ha)
  have hvalid := valid_of_automaton ha honce
  have hwf : a.WellFormed := Automaton.table_wellFormed ha
  obtain ⟨root, -, hfold, hclosed⟩ := automaton_eq_ok.1 ha
  rw [Automaton.validate_eq_ok_iff] at hclosed
  refine ⟨fun w => accepts_iff_matches (states_perm hfold honce) hwf.nodup_ids hwf.initial_id, ?_⟩
  intro f hf file' ht'
  obtain ⟨b, hb⟩ := (hvalid.renumbered hf).exists_automaton
  have hrenamed := renamed_of_renumbered hf honce ha hb
  exact ⟨b, (load_of_parsed ht').trans hb, hrenamed.accepts_eq hclosed, hrenamed.lex_eq hclosed⟩

theorem initialLast_graph :
    (Json.parse? (Json.print initialLast.toJson)).bind ofJson? = some initialLast ∧ initialLast.ids.Nodup ∧
    ∃ a : Automaton, Automaton.load (Json.print initialLast.toJson) = .ok a ∧
      (∀ w, a.accepts w = true ↔ initialLast.Matches w) ∧
      ∃ b : Automaton, Automaton.load (Json.print (initialLast.renumbered (1 - ·)).toJson) = .ok b ∧
        (∀ w, b.accepts w = a.accepts w) ∧ ∀ input, b.lex input = a.lex input := by
  have hparse : (Json.parse? (Json.print initialLast.toJson)).bind ofJson? = some initialLast :=
    initialLast.parse?_print.trans (if_pos (by decide))
  have hparse' := (initialLast.renumbered (1 - ·)).parse?_print
  rw [if_pos (by decide)] at hparse'
  have hids : initialLast.ids.Nodup := by decide
  have hvalid : initialLast.Valid := ⟨by decide, hids, by decide, by decide⟩
  have hinj : Set.InjOn (1 - ·) {x | x ∈ initialLast.ids} := by
    have hall : ∀ x ∈ initialLast.ids, ∀ y ∈ initialLast.ids, 1 - x = 1 - y → x = y := by decide
    exact fun x hx y hy h => hall x hx y hy h
  obtain ⟨a, ha⟩ := hvalid.exists_automaton
  have hload := (load_of_parsed hparse).trans ha
  have hgraph := load_graph hparse hids hload
  exact ⟨hparse, hids, a, hload, hgraph.1, hgraph.2 (1 - ·) hinj _ hparse'⟩

end StoredTable
end TokenAutomata
