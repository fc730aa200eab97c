/-
# Which tables become automata

A table is valid if its initial id is listed, ids and labels are listed once,
and all moves lead to ids that are listed (`StoredTable.Valid`). A valid table
becomes an automaton, in whatever order its states are listed: the initial
place is taken under the right label from the start, and swapping two ids keeps
ids different. The states of the automaton are those of the table, one for
one (`StoredTable.states_perm`), so nothing else becomes an automaton …

… as long as the initial id is listed once. A second state of that id is not
refused but takes the place of the first, which is lost with its moves
(`StoredTable.listedTwice_loads`). How many states are lost is the difference in
`StoredTable.size_automaton`.

Key definitions: `StoredTable.ids`, `StoredTable.labels`, `StoredTable.roots`,
`StoredTable.rest`, `StoredTable.Valid`.
Key theorems: `StoredTable.automaton_eq_ok`, `StoredTable.states_of_foldlM`,
`StoredTable.states_perm`, `StoredTable.Valid.exists_automaton`,
`StoredTable.valid_of_automaton`, `StoredTable.load_iff_valid`.
-/
import TokenAutomata.Proofs.Adopting
import TokenAutomata.Proofs.Built
import TokenAutomata.Proofs.Path
import TokenAutomata.Proofs.StoredJson

namespace TokenAutomata

open Automaton (insert_eq_ok replaceInitial_eq_ok withInitial)

namespace StoredTable

/-- The ids listed, in order. -/
def ids (t : StoredTable) : List Nat := t.states.map (·.id)

def labels (t : StoredTable) : List String := t.states.map (·.label)

/-- The states listed under the initial id. -/
def roots (t : StoredTable) : List StoredState := t.states.filter (·.id = t.initial)

/-- The states listed under other ids. -/
def rest (t : StoredTable) : List StoredState := t.states.filter (·.id ≠ t.initial)

/-- The table describes an automaton. -/
structure Valid (t : StoredTable) : Prop where
  initial_listed : t.initial ∈ t.ids
  nodup_ids : t.ids.Nodup
  nodup_labels : t.labels.Nodup
  targets_listed : ∀ s ∈ t.states, ∀ m ∈ s.moves, ∀ id ∈ m.targets, id ∈ t.ids

variable {t : StoredTable} {a b : Automaton} {s : StoredState} {states : List StoredState}

/-! ### Ids -/

@[simp] theorem idOf_initial (t : StoredTable) : t.idOf t.initial = 0 := if_pos rfl

/-- Swapping twice changes nothing. -/
theorem idOf_idOf (t : StoredTable) (id : Nat) : t.idOf (t.idOf id) = id := by
  unfold idOf
  split_ifs <;> omega

theorem idOf_injective (t : StoredTable) : Function.Injective t.idOf :=
  Function.LeftInverse.injective t.idOf_idOf

theorem idOf_eq_zero_iff {id : Nat} : t.idOf id = 0 ↔ id = t.initial := by
  rw [← t.idOf_initial, t.idOf_injective.eq_iff]

theorem roots_append_rest_perm (t : StoredTable) : (t.roots ++ t.rest).Perm t.states := by
  simpa only [roots, rest, decide_not] using
    List.filter_append_perm (fun s => decide (s.id = t.initial)) t.states

theorem count_initial (t : StoredTable) : t.ids.count t.initial = t.roots.length := by
  rw [ids, List.count_eq_countP, List.countP_map, List.countP_eq_length_filter]
  rfl

theorem id_of_mem_roots (h : s ∈ t.roots) : s.id = t.initial := of_decide_eq_true (List.mem_filter.1 h).2

/-- The first state listed under the initial id is found. -/
theorem find?_initial (t : StoredTable) : t.states.find? (·.id == t.initial) = t.roots.head? :=
  (List.head?_filter).symm

end StoredTable

/-! ### Moves under new ids -/

namespace StoredState

variable {s : StoredState} {f : Nat → Nat} {c : Symbol} {x : Nat}

theorem mem_dests_foldl_insert {d : Symbol} : ∀ {ids : List Nat} {m : Moves},
    x ∈ (ids.foldl (fun m id => m.insert d (f id)) m).dests c ↔
      x ∈ m.dests c ∨ d = c ∧ ∃ id ∈ ids, f id = x
  | [], m => by simp
  | id :: ids, m => by
    rw [List.foldl_cons, mem_dests_foldl_insert, Moves.mem_dests_insert, or_assoc]
    simp only [List.mem_cons, exists_eq_or_imp]
    grind

/-- A state leads where its entries lead. -/
theorem mem_dests_movesUnder : x ∈ (s.movesUnder f).dests c ↔
    ∃ m ∈ s.moves, m.symbol = c ∧ ∃ id ∈ m.targets, f id = x := by
  have hfold : ∀ (entries : List StoredMove) (start : Moves), x ∈ (entries.foldl
      (fun m entry => entry.targets.foldl (fun m id => m.insert entry.symbol (f id)) m) start).dests c ↔
      x ∈ start.dests c ∨ ∃ m ∈ entries, m.symbol = c ∧ ∃ id ∈ m.targets, f id = x := by
    intro entries
    induction entries with
    | nil => simp
    | cons entry entries ih =>
      intro start
      rw [List.foldl_cons, ih, mem_dests_foldl_insert, or_assoc]
      simp only [List.mem_cons, exists_eq_or_imp]
  rw [movesUnder, hfold]
  simp

theorem mem_targets_movesUnder : x ∈ (s.movesUnder f).targets ↔
    ∃ m ∈ s.moves, ∃ id ∈ m.targets, f id = x := by
  rw [Moves.mem_targets_iff (Automaton.movesUnder_wellFormed s f)]
  simp only [mem_dests_movesUnder]
  constructor
  · rintro ⟨c, m, hm, -, hid⟩
    exact ⟨m, hm, hid⟩
  · rintro ⟨m, hm, hid⟩
    exact ⟨m.symbol, m, hm, rfl, hid⟩

end StoredState

theorem Automaton.labels_extended {a : Automaton} {more : List State} {n : Nat} :
    (a.extended more n).labels = a.labels ++ more.map (·.label) := by
  rw [labels, states_extended, List.map_append]
  rfl

namespace StoredTable

variable {t : StoredTable} {a b : Automaton} {s : StoredState} {states : List StoredState}

/-! ### Adding the states of a table -/

theorem addState_initial (hs : s.id = t.initial) : t.addState a s = .ok b ↔
    0 = a.initial.id ∧ (s.label = a.initial.label ∨ s.label ∉ a.labels) ∧
      { a with initial := s.stateUnder t.idOf } = b := by
  have hid : (s.stateUnder t.idOf).id = 0 := (congrArg t.idOf hs).trans t.idOf_initial
  rw [addState, if_pos hs, Automaton.builder_replaceInitial, mapError_eq_ok, Change.exec_eq_ok]
  simp only [replaceInitial_eq_ok, exists_const, hid]
  rfl

theorem addState_other (hs : s.id ≠ t.initial) : t.addState a s = .ok b ↔
    s.label ∉ a.labels ∧ t.idOf s.id ∉ a.ids ∧
      a.extended [s.stateUnder t.idOf] (max a.nextId (t.idOf s.id + 1)) = b := by
  rw [addState, if_neg hs, Automaton.builder_insert, mapError_eq_ok, Change.exec_eq_ok]
  simp only [insert_eq_ok, exists_and_left, exists_eq_left']
  rfl

/-- The states other than the initial one come in the order in which they are
listed, and the last one listed under the initial id is the initial one. -/
theorem states_of_foldlM : ∀ {states : List StoredState} {a b : Automaton},
    states.foldlM t.addState a = .ok b →
    b.others = a.others ++ (states.filter (·.id ≠ t.initial)).map (·.stateUnder t.idOf) ∧
    b.initial = (states.filter (·.id = t.initial)).foldl (fun _ s => s.stateUnder t.idOf) a.initial
  | [], a, b, h => by
    cases h
    simp
  | s :: states, a, b, h => by
    rw [List.foldlM_cons] at h
    obtain ⟨a', hs, hrest⟩ := except_bind_eq_ok.1 h
    obtain ⟨hothers, hinitial⟩ := states_of_foldlM hrest
    by_cases hid : s.id = t.initial
    · obtain ⟨-, -, rfl⟩ := (addState_initial hid).1 hs
      simp [hothers, hinitial, hid]
    · obtain ⟨-, -, rfl⟩ := (addState_other hid).1 hs
      simp [hothers, hinitial, hid, Automaton.extended]

theorem automaton_eq_ok : t.automaton = .ok a ↔ ∃ root, t.states.find? (·.id == t.initial) = some root ∧
    t.states.foldlM t.addState (withInitial root.label) = .ok a ∧ a.validate = .ok () := by
  unfold automaton
  cases t.states.find? (·.id == t.initial) with
  | none => simp [throw, throwThe, MonadExceptOf.throw]
  | some root =>
    simp only [except_bind_eq_ok, mapError_eq_ok, Option.some.injEq, exists_eq_left']
    constructor
    · rintro ⟨b, hb, u, hv, he⟩
      cases he
      exact ⟨hb, hv⟩
    · rintro ⟨ha, hv⟩
      exact ⟨a, ha, (), hv, rfl⟩

theorem automaton_of_added {root : StoredState} (hroot : t.roots = [root])
    (ha : t.states.foldlM t.addState (withInitial root.label) = .ok a) :
    t.automaton = (a.validate.mapError .automaton).map fun _ => a := by
  unfold automaton
  rw [find?_initial, hroot, List.head?_cons]
  show (do let a ← t.states.foldlM t.addState (withInitial root.label)
           a.validate.mapError .automaton
           return a : Except LoadError Automaton) = _
  rw [ha]
  show (do a.validate.mapError .automaton; return a : Except LoadError Automaton) = _
  cases a.validate with
  | ok => rfl
  | error cause => rfl

theorem initial_mem_ids (h : t.automaton = .ok a) : t.initial ∈ t.ids := by
  obtain ⟨root, hroot, -⟩ := automaton_eq_ok.1 h
  have hid : root.id = t.initial := by simpa using List.find?_some hroot
  exact hid ▸ List.mem_map_of_mem (List.mem_of_find?_eq_some hroot)

/-- Behind the initial state come those listed under other ids, in order. -/
theorem others_of_added {label : String} (h : t.states.foldlM t.addState (withInitial label) = .ok a) :
    a.others = t.rest.map (·.stateUnder t.idOf) :=
  (states_of_foldlM h).1

theorem initial_of_added {label : String} (h : t.states.foldlM t.addState (withInitial label) = .ok a)
    {root : StoredState} (hroot : t.roots = [root]) : a.initial = root.stateUnder t.idOf := by
  have hinitial := (states_of_foldlM h).2
  rw [← roots, hroot] at hinitial
  exact hinitial

/-- Of the states listed under the initial id, all but one are lost. -/
theorem size_automaton (h : t.automaton = .ok a) :
    a.size + t.ids.count t.initial = t.states.length + 1 := by
  obtain ⟨root, -, hfold, -⟩ := automaton_eq_ok.1 h
  have hsplit := t.roots_append_rest_perm.length_eq
  have hsize : a.size = a.others.length + 1 := rfl
  rw [List.length_append] at hsplit
  rw [hsize, others_of_added hfold, List.length_map, count_initial]
  omega

/-- Where the initial id is listed once, the states made are those listed. -/
theorem states_perm {label : String} (h : t.states.foldlM t.addState (withInitial label) = .ok a)
    (honce : t.ids.count t.initial = 1) : a.states.Perm (t.states.map (·.stateUnder t.idOf)) := by
  rw [count_initial, List.length_eq_one_iff] at honce
  obtain ⟨root, hroot⟩ := honce
  have hperm := t.roots_append_rest_perm.map (·.stateUnder t.idOf)
  rw [hroot] at hperm
  rw [Automaton.states, initial_of_added h hroot, others_of_added h]
  exact hperm

/-! ### What becomes an automaton -/

section Made

variable (h : a.states.Perm (t.states.map (·.stateUnder t.idOf)))

include h

theorem ids_perm : a.ids.Perm (t.ids.map t.idOf) := by
  have hids := h.map (·.id)
  rw [List.map_map] at hids
  rw [ids, List.map_map]
  exact hids

theorem labels_perm : a.labels.Perm t.labels := by
  have hlabels := h.map (·.label)
  rw [List.map_map] at hlabels
  exact hlabels

theorem mem_targets_iff {x : Nat} : x ∈ a.targets ↔
    ∃ s ∈ t.states, ∃ m ∈ s.moves, ∃ id ∈ m.targets, t.idOf id = x := by
  rw [Automaton.targets, (h.flatMap_right (·.moves.targets)).mem_iff, List.mem_flatMap]
  simp only [List.mem_map, exists_exists_and_eq_and, StoredState.stateUnder,
    StoredState.mem_targets_movesUnder]

/-- The automaton is closed if the table lists all destinations. -/
theorem closed_iff : a.Closed ↔ ∀ s ∈ t.states, ∀ m ∈ s.moves, ∀ id ∈ m.targets, id ∈ t.ids := by
  have hmem : ∀ id, t.idOf id ∈ a.ids ↔ id ∈ t.ids := fun id => by
    rw [(ids_perm h).mem_iff, List.mem_map_of_injective t.idOf_injective]
  constructor
  · intro hclosed s hs m hm id hid
    exact (hmem id).1 (hclosed _ ((mem_targets_iff h).2 ⟨s, hs, m, hm, id, hid, rfl⟩))
  · intro hlisted x hx
    obtain ⟨s, hs, m, hm, id, hid, rfl⟩ := (mem_targets_iff h).1 hx
    exact (hmem id).2 (hlisted s hs m hm id hid)

end Made

theorem valid_of_automaton (h : t.automaton = .ok a) (honce : t.ids.count t.initial = 1) : t.Valid := by
  have hwf : a.WellFormed := Automaton.table_wellFormed h
  obtain ⟨root, -, hfold, hv⟩ := automaton_eq_ok.1 h
  have hperm := states_perm hfold honce
  refine ⟨?_, ?_, ?_, ?_⟩
  · exact List.count_pos_iff.1 (by omega)
  · exact ((ids_perm hperm).nodup_iff.1 hwf.nodup_ids).of_map
  · exact (labels_perm hperm).nodup_iff.1 hwf.nodup_labels
  · exact (closed_iff hperm).1 (Automaton.validate_eq_ok_iff.1 hv)

/-! ### Valid tables -/

/-- States can be added one after the other if ids and labels stay different
and a state under the initial id has the label that is there. -/
theorem exists_foldlM : ∀ {states : List StoredState} {a : Automaton}, a.initial.id = 0 →
    (∀ s ∈ states, s.id = t.initial → s.label = a.initial.label) →
    (a.ids ++ (states.filter (·.id ≠ t.initial)).map (t.idOf ·.id)).Nodup →
    (a.labels ++ (states.filter (·.id ≠ t.initial)).map (·.label)).Nodup →
    ∃ b, states.foldlM t.addState a = .ok b
  | [], a, _, _, _, _ => ⟨a, rfl⟩
  | s :: states, a, ha, hroots, hids, hlabels => by
    have hrest : ∀ s' ∈ states, s'.id = t.initial → s'.label = a.initial.label :=
      fun s' hs' => hroots s' (List.mem_cons_of_mem _ hs')
    rw [List.foldlM_cons]
    by_cases hid : s.id = t.initial
    · have hlabel := hroots s List.mem_cons_self hid
      have hs : t.addState a s = .ok { a with initial := s.stateUnder t.idOf } :=
        (addState_initial hid).2 ⟨ha.symm, Or.inl hlabel, rfl⟩
      have hid' : (s.stateUnder t.idOf).id = a.initial.id := by
        rw [ha]
        exact idOf_eq_zero_iff.2 hid
      rw [List.filter_cons_of_neg (by simpa using hid)] at hids hlabels
      -- the initial place keeps its id and its label
      have hids' : ({ a with initial := s.stateUnder t.idOf } : Automaton).ids = a.ids := by
        rw [Automaton.ids_cons, Automaton.ids_cons, hid']
      have hlabels' : ({ a with initial := s.stateUnder t.idOf } : Automaton).labels = a.labels := by
        rw [Automaton.labels_cons, Automaton.labels_cons, ← hlabel]
        rfl
      obtain ⟨b, hb⟩ := exists_foldlM (a := { a with initial := s.stateUnder t.idOf }) (hid'.trans ha)
        (fun s' hs' h => (hrest s' hs' h).trans hlabel.symm) (hids' ▸ hids) (hlabels' ▸ hlabels)
      exact ⟨b, except_bind_eq_ok.2 ⟨_, hs, hb⟩⟩
    · rw [List.filter_cons_of_pos (by simpa using hid), List.map_cons] at hids hlabels
      have hfresh : t.idOf s.id ∉ a.ids := fun hm =>
        (List.nodup_append.1 hids).2.2 _ hm _ List.mem_cons_self rfl
      have hfree : s.label ∉ a.labels := fun hm =>
        (List.nodup_append.1 hlabels).2.2 _ hm _ List.mem_cons_self rfl
      have hs : t.addState a s =
          .ok (a.extended [s.stateUnder t.idOf] (max a.nextId (t.idOf s.id + 1))) :=
        (addState_other hid).2 ⟨hfree, hfresh, rfl⟩
      rw [List.append_cons] at hids hlabels
      have hids' : (a.extended [s.stateUnder t.idOf] (max a.nextId (t.idOf s.id + 1))).ids =
          a.ids ++ [t.idOf s.id] := Automaton.ids_extended
      have hlabels' : (a.extended [s.stateUnder t.idOf] (max a.nextId (t.idOf s.id + 1))).labels =
          a.labels ++ [s.label] := Automaton.labels_extended
      rw [← hids'] at hids
      rw [← hlabels'] at hlabels
      obtain ⟨b, hb⟩ := exists_foldlM
        (a := a.extended [s.stateUnder t.idOf] (max a.nextId (t.idOf s.id + 1))) ha hrest hids hlabels
      exact ⟨b, except_bind_eq_ok.2 ⟨_, hs, hb⟩⟩

/-- The states of a table can all be added if its initial id is listed and its
ids and labels are listed once. -/
theorem exists_added (hinitial : t.initial ∈ t.ids) (hids : t.ids.Nodup) (hlabels : t.labels.Nodup) :
    ∃ root a, t.roots = [root] ∧ t.states.foldlM t.addState (withInitial root.label) = .ok a := by
  have honce := List.count_eq_one_of_mem hids hinitial
  rw [count_initial, List.length_eq_one_iff] at honce
  obtain ⟨root, hroot⟩ := honce
  have hperm := t.roots_append_rest_perm
  rw [hroot, List.singleton_append] at hperm
  have hstart : ∀ s ∈ t.states, s.id = t.initial → s.label = (withInitial root.label).initial.label := by
    intro s hs hid
    have hmem : s ∈ t.roots := List.mem_filter.2 ⟨hs, decide_eq_true hid⟩
    rw [hroot, List.mem_singleton] at hmem
    rw [hmem]
    rfl
  have hids' : ((withInitial root.label).ids ++ t.rest.map (t.idOf ·.id)).Nodup := by
    have hzero : (withInitial root.label).ids = [t.idOf root.id] := by
      rw [id_of_mem_roots (hroot ▸ List.mem_singleton_self root), idOf_initial]
      rfl
    have hnodup := hids.map t.idOf_injective
    rw [ids, List.map_map] at hnodup
    rw [hzero]
    exact (hperm.map fun s : StoredState => t.idOf s.id).nodup_iff.2 hnodup
  have hlabels' : ((withInitial root.label).labels ++ t.rest.map (·.label)).Nodup :=
    (hperm.map StoredState.label).nodup_iff.2 hlabels
  obtain ⟨a, ha⟩ := exists_foldlM (a := withInitial root.label) rfl hstart hids' hlabels'
  exact ⟨root, a, hroot, ha⟩

theorem Valid.count_initial (ht : t.Valid) : t.ids.count t.initial = 1 :=
  List.count_eq_one_of_mem ht.nodup_ids ht.initial_listed

/-- A valid table becomes an automaton. -/
theorem Valid.exists_automaton (ht : t.Valid) : ∃ a, t.automaton = .ok a := by
  obtain ⟨root, a, hroot, ha⟩ := exists_added ht.initial_listed ht.nodup_ids ht.nodup_labels
  have hfind : t.states.find? (·.id == t.initial) = some root := by rw [find?_initial, hroot, List.head?_cons]
  have hclosed : a.Closed := (closed_iff (states_perm ha ht.count_initial)).2 ht.targets_listed
  exact ⟨a, automaton_eq_ok.2 ⟨root, hfind, ha, Automaton.validate_eq_ok_iff.2 hclosed⟩⟩

/-! ### Files -/

variable {file : Json.Bytes}

theorem load_of_parsed (ht : (Json.parse? file).bind ofJson? = some t) :
    Automaton.load file = t.automaton := by
  rw [Automaton.load, ht]

/-- The text of a table with all its states is loaded just if the table is
valid. If the initial id is listed once at most, it is either loaded so or not
at all; of more states listed under that id, all but one are lost. -/
theorem load_iff_valid (ht : (Json.parse? file).bind ofJson? = some t) :
    ((∃ a : Automaton, Automaton.load file = .ok a ∧ a.size = t.states.length) ↔ t.Valid) ∧
    (t.ids.count t.initial ≤ 1 → ((∃ a : Automaton, Automaton.load file = .ok a) ↔ t.Valid)) ∧
    ∀ a, Automaton.load file = .ok a → a.size + t.ids.count t.initial = t.states.length + 1 := by
  rw [load_of_parsed ht]
  refine ⟨⟨?_, ?_⟩, fun hle => ⟨?_, Valid.exists_automaton⟩, fun a => size_automaton⟩
  · rintro ⟨a, ha, hsize⟩
    have hlost := size_automaton ha
    exact valid_of_automaton ha (by omega)
  · intro hvalid
    obtain ⟨a, ha⟩ := hvalid.exists_automaton
    have hlost := size_automaton ha
    rw [hvalid.count_initial] at hlost
    exact ⟨a, ha, by omega⟩
  · rintro ⟨a, ha⟩
    have hpos := List.count_pos_iff.2 (initial_mem_ids ha)
    exact valid_of_automaton ha (by omega)

/-- Two states, the initial one last and under id 1. -/
def initialLast : StoredTable :=
  { initial := 1
    states := [{ id := 0, label := "IF", marker := some "IF" },
      { id := 1, label := "START", moves := [⟨'f', [0, 1]⟩, ⟨'i', []⟩, ⟨'f', [0]⟩] }] }

/-- The text of `initialLast` is loaded with both states. -/
theorem initialLast_loads : (Json.parse? (Json.print initialLast.toJson)).bind ofJson? = some initialLast ∧
    ∃ a : Automaton, Automaton.load (Json.print initialLast.toJson) = .ok a ∧ a.size = 2 := by
  have hparse : (Json.parse? (Json.print initialLast.toJson)).bind ofJson? = some initialLast :=
    initialLast.parse?_print.trans (if_pos (by decide))
  exact ⟨hparse, (load_iff_valid hparse).1.2 ⟨by decide, by decide, by decide, by decide⟩⟩

/-- The initial id listed twice, with a marker the first time. -/
def listedTwice : StoredTable :=
  { initial := 0
    states := [{ id := 0, label := "START", marker := some "A" }, { id := 0, label := "START" }] }

/-- A table that is not valid, and whose text is loaded: the first of the two
states is lost with its marker. -/
theorem listedTwice_loads : (Json.parse? (Json.print listedTwice.toJson)).bind ofJson? = some listedTwice ∧
    ¬ listedTwice.Valid ∧
    ∃ a : Automaton, Automaton.load (Json.print listedTwice.toJson) = .ok a ∧ a.states = [.new 0 "START"] := by
  have hparse : (Json.parse? (Json.print listedTwice.toJson)).bind ofJson? = some listedTwice :=
    listedTwice.parse?_print.trans (if_pos (by decide))
  refine ⟨hparse, fun hvalid => absurd hvalid.nodup_ids (by decide), ?_⟩
  rw [load_of_parsed hparse]
  exact ⟨_, rfl, rfl⟩

end StoredTable
end TokenAutomata
