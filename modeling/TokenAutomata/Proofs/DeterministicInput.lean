/-
# Determinizing what is deterministic

In a deterministic automaton a set of one state leads to sets of one state, so
the sets reached are the states reached, each as a set and in the same order
(`Automaton.reachedSets_of_isDeterministic`). The state of such a set is the
member itself under the place of the set (`Automaton.subsetState_singleton`).
Its label was that of one state before, so it is never taken when its turn
comes: whatever has been added bears the label that belongs to its id
(`Automaton.keeps_names_adopt`). So determinization only drops what cannot be
reached and numbers the rest in the order in which it is reached, and what is
numbered like that already stays as it is.

Key definitions: `Automaton.reachedStates`, `Automaton.NumberedBy`.
Key theorems: `Automaton.reachedSets_of_isDeterministic`,
`Automaton.names_of_determinize`, `Automaton.states_of_deterministic_input`,
`Automaton.determinize_idempotent`, `Automaton.numberedBy_reachable`.
-/
import TokenAutomata.Proofs.CanonicalStates
import TokenAutomata.Proofs.MovesAlgebra

namespace TokenAutomata

/-- Under other names an item has the same place. -/
theorem idxOf_map {α β : Type} [BEq α] [LawfulBEq α] [BEq β] [LawfulBEq β] {f : α → β}
    (hf : Function.Injective f) (x : α) : ∀ xs : List α, (xs.map f).idxOf (f x) = xs.idxOf x
  | [] => rfl
  | y :: ys => by
    have heq : (f y == f x) = (y == x) := by
      rw [Bool.eq_iff_iff, beq_iff_eq, beq_iff_eq, hf.eq_iff]
    rw [List.map_cons, List.idxOf_cons, List.idxOf_cons, heq, idxOf_map hf x ys]

/-! ### Sets of one state -/

namespace IdSet

theorem singleton_injective : Function.Injective singleton := fun x y h => by
  rw [← mem_singleton, ← h, mem_singleton]

theorem exists_singleton {s : IdSet} (hne : s ≠ ∅) (h : s.size ≤ 1) : ∃ x, s = singleton x := by
  obtain ⟨x, hx⟩ := ne_empty_iff.1 hne
  refine ⟨x, ext fun y => ?_⟩
  rw [mem_singleton]
  constructor
  · exact fun hy => eq_of_size_le_one h hy hx
  · rintro rfl
    exact hx

end IdSet

/-! ### Moves of one state -/

namespace Moves

variable {m : Moves}

theorem foldl_add_entries : ∀ {rest before : List (Symbol × IdSet)},
    (Moves.mk (before ++ rest)).WellFormed →
      rest.foldl (fun m (c, ids) => m.add c ids) (Moves.mk before) = ⟨before ++ rest⟩
  | [], before, _ => by rw [List.foldl_nil, List.append_nil]
  | (c, ids) :: rest, before, h => by
    have hadd : (Moves.mk before).add c ids = ⟨before ++ [(c, ids)]⟩ := by
      rw [add, State.upsert_of_not_mem h.not_mem_before, IdSet.empty_union]
    have hcons : before ++ (c, ids) :: rest = (before ++ [(c, ids)]) ++ rest := by
      rw [List.append_assoc, List.singleton_append]
    rw [hcons] at h ⊢
    rw [List.foldl_cons]
    dsimp only
    rw [hadd]
    exact foldl_add_entries h

/-- Joined to no moves, well-formed moves stay as they are. -/
theorem empty_union (hm : m.WellFormed) : ({} : Moves).union m = m :=
  @foldl_add_entries m.entries [] hm

theorem exists_singleton (hm : m.WellFormed) (hd : m.isDeterministic = true) {e : Symbol × IdSet}
    (he : e ∈ m.entries) : ∃ q, e.2 = .singleton q := by
  have hsize : e.2.size ≤ 1 := by simpa using List.all_eq_true.1 hd e he
  exact IdSet.exists_singleton (hm.nonempty e he) hsize

/-- The sets of deterministic moves, in order, are the destinations. -/
theorem map_snd_entries (hm : m.WellFormed) (hd : m.isDeterministic = true) :
    m.entries.map Prod.snd = m.targets.map .singleton := by
  rw [targets, List.map_flatMap, List.map_eq_flatMap]
  refine List.flatMap_congr fun e he => ?_
  obtain ⟨q, hq⟩ := exists_singleton hm hd he
  rw [hq]
  rfl

theorem symbols_rename (m : Moves) (f : Nat → Nat) : (m.rename f).symbols = m.symbols := by
  rw [symbols, rename, List.map_map]
  rfl

/-- Under names that are the old ones nothing changes. -/
theorem rename_eq_self {f : Nat → Nat} (hf : ∀ q ∈ m.targets, f q = q) : m.rename f = m :=
  (rename_congr hf).trans (rename_id m)

end Moves

/-- A state is fixed by its label and what goes with it. -/
theorem State.Relabelled.eq_of_label {s t : State} (h : s.Relabelled t) (hl : t.label = s.label) :
    t = s := by
  obtain ⟨hid, hmarker, hmoves⟩ := h
  cases s
  cases t
  simp_all

namespace Automaton

open Change (Keeps)

variable {a d : Automaton} {s : State} {x : Nat}

theorem statesOf_singleton (hs : a.state? x = some s) : a.statesOf (.singleton x) = [s] := by
  simp [statesOf, hs]

theorem jointMoves_singleton (ha : a.WellFormed) (hs : a.state? x = some s) :
    a.jointMoves (.singleton x) = s.moves := by
  rw [jointMoves, statesOf_singleton hs, List.foldl_cons, List.foldl_nil]
  exact Moves.empty_union (ha.states s (mem_states_of_state? hs)).moves

theorem moves_isDeterministic (hd : a.isDeterministic = true) (hs : a.state? x = some s) :
    s.moves.isDeterministic = true :=
  List.all_eq_true.1 hd s (mem_states_of_state? hs)

theorem successorSets_singleton (ha : a.WellFormed) (hd : a.isDeterministic = true) (x : Nat) :
    a.successorSets (.singleton x) = (a.successors x).map .singleton := by
  unfold successorSets successors
  cases hs : a.state? x with
  | none => simp [jointMoves, statesOf, hs]
  | some s =>
    have hmoves := (ha.states s (mem_states_of_state? hs)).moves
    rw [jointMoves_singleton ha hs]
    exact Moves.map_snd_entries hmoves (moves_isDeterministic hd hs)

/-- Sets are reached as states are. -/
theorem reachedSets_of_isDeterministic (ha : a.WellFormed) (hd : a.isDeterministic = true) :
    a.reachedSets = a.reachable.map .singleton := by
  have hstart : [IdSet.singleton a.initial.id] = [a.initial.id].map .singleton := rfl
  rw [reachedSets, hstart]
  exact search_map (fun _ _ _ _ he => IdSet.singleton_injective he)
    fun x _ => successorSets_singleton ha hd x

/-! ### The states reached -/

/-- The states that can be reached, nearest first. -/
def reachedStates (a : Automaton) : List State := a.reachable.filterMap a.state?

theorem mem_reachedStates_iff (ha : a.WellFormed) :
    s ∈ a.reachedStates ↔ s ∈ a.states ∧ s.id ∈ a.reachable := by
  rw [reachedStates, List.mem_filterMap]
  constructor
  · rintro ⟨x, hx, hs⟩
    exact ⟨mem_states_of_state? hs, (id_of_state? hs).symm ▸ hx⟩
  · rintro ⟨hs, hx⟩
    exact ⟨s.id, hx, (state?_eq_some_iff ha.nodup_ids).2 ⟨hs, rfl⟩⟩

theorem state?_reachedStates (ha : a.WellFormed) (hs : s ∈ a.reachedStates) : a.state? s.id = some s :=
  (state?_eq_some_iff ha.nodup_ids).2 ⟨((mem_reachedStates_iff ha).1 hs).1, rfl⟩

/-- Where every move leads to a state, there is one for each id reached. -/
theorem map_id_reachedStates (ha : a.WellFormed) (hc : a.Closed) :
    a.reachedStates.map (·.id) = a.reachable := by
  have hid : ∀ x ∈ a.reachable, (a.state? x).map (·.id) = some x := by
    intro x hx
    obtain ⟨w, hw⟩ := (mem_reachable_iff ha).1 hx
    obtain ⟨s, hs⟩ := mem_ids_iff.1 (hw.mem_ids hc)
    rw [hs, Option.map_some, id_of_state? hs]
  rw [reachedStates, List.map_filterMap, List.filterMap_congr hid, List.filterMap_some]

theorem nodup_labels_reachedStates (ha : a.WellFormed) (hc : a.Closed) :
    (a.reachedStates.map (·.label)).Nodup := by
  have hids : (a.reachedStates.map (·.id)).Nodup := by
    rw [map_id_reachedStates ha hc]
    exact nodup_search
  refine hids.of_map.map_on fun s hs t ht he => ?_
  have hs := ((mem_reachedStates_iff ha).1 hs).1
  have ht := ((mem_reachedStates_iff ha).1 ht).1
  exact List.inj_on_of_nodup_map ha.nodup_labels hs ht he

/-- The state of a set of one state is that state, under its place. -/
theorem subsetState_singleton (ha : a.WellFormed) (hd : a.isDeterministic = true)
    (hs : a.state? x = some s) {order : List Nat} :
    a.subsetState (order.map .singleton) (.singleton x) (order.idxOf x) = s.rename order.idxOf := by
  have hplace : ∀ q, (order.map IdSet.singleton).idxOf (.singleton q) = order.idxOf q :=
    fun q => idxOf_map IdSet.singleton_injective q order
  have hmoves : (a.jointMoves (.singleton x)).entries.map (fun e =>
      (e.1, IdSet.singleton ((order.map IdSet.singleton).idxOf e.2))) = (s.moves.rename order.idxOf).entries := by
    rw [jointMoves_singleton ha hs]
    refine List.map_congr_left fun ⟨c, ids⟩ he => ?_
    obtain ⟨q, rfl⟩ := Moves.exists_singleton (ha.states s (mem_states_of_state? hs)).moves
      (moves_isDeterministic hd hs) he
    dsimp only
    rw [hplace, IdSet.map_singleton]
  have hlabel : (a.subsetState (order.map .singleton) (.singleton x) (order.idxOf x)).label = s.label := by
    simp [subsetState, statesOf_singleton hs]
  have hmarker : (a.subsetState (order.map .singleton) (.singleton x) (order.idxOf x)).marker = s.marker := by
    simp [subsetState, statesOf_singleton hs]
  rw [State.rename, ← hlabel, ← hmarker, id_of_state? hs]
  exact congrArg (fun entries => State.mk _ _ _ ⟨entries⟩) hmoves

/-! ### Labels and the counter -/

/-- Whatever adding the states of the sets keeps is true of the result. -/
theorem holds_of_determinize {P : Automaton → Prop} (h : a.determinize = .ok d)
    (hroot : P (withInitial a.initial.label))
    (hreplace : ∀ x ∈ a.reachedSets.zipIdx, Keeps P (replaceInitial (a.subsetState a.reachedSets x.1 x.2)))
    (hadopt : ∀ x ∈ a.reachedSets.zipIdx, Keeps P (adopt (a.subsetState a.reachedSets x.1 x.2))) : P d := by
  obtain ⟨u, -, hd⟩ := except_bind_eq_ok.1 h
  refine Keeps.exec (.forM fun (set, id) hx => ?_) hroot hd
  dsimp only
  split
  · exact hreplace _ hx
  · exact (hadopt _ hx).discard

/-- Every state bears the name that stands at the place of its id. -/
def NamedBy (names : List String) (a : Automaton) : Prop :=
  ∀ s ∈ a.states, names[s.id]? = some s.label

theorem adopt_atomic (s : State) : Change.Atomic (adopt s) := fun a e b h =>
  insert_atomic { s with label := a.uniqueLabel s.label s.id } a e b h

/-- A name in use is that of the id in use. So a state whose id is free and
that is named like the others keeps its label. -/
theorem keeps_names_adopt {names : List String} (hnames : names.Nodup)
    (hs : names[s.id]? = some s.label) : Keeps (NamedBy names) (adopt s) := by
  refine .of_atomic (adopt_atomic s) fun a id b ha h => ?_
  obtain ⟨-, hid, -, rfl⟩ := insert_eq_ok.1
    (show insert { s with label := a.uniqueLabel s.label s.id } a = .ok id b from h)
  have hfree : s.label ∉ a.labels := by
    intro hm
    obtain ⟨t, ht, hl⟩ := List.mem_map.1 hm
    have hname : names[t.id]? = some t.label := ha t ht
    have hlt : t.id < names.length := (List.getElem?_eq_some_iff.1 hname).1
    have he : t.id = s.id := (List.getElem?_inj hlt hnames).1 (by rw [hname, hs, hl])
    exact hid (he ▸ List.mem_map_of_mem ht)
  rintro t (ht : t ∈ a.states ++ _)
  rcases List.mem_append.1 ht with ht | ht
  · exact ha t ht
  · rw [List.mem_singleton.1 ht]
    show names[s.id]? = some (a.uniqueLabel s.label s.id)
    rw [uniqueLabel, if_neg hfree]
    exact hs

theorem keeps_names_replaceInitial {names : List String} (hs : names[s.id]? = some s.label) :
    Keeps (NamedBy names) (replaceInitial s) := by
  refine .of_atomic (replaceInitial_atomic s) fun a u b ha h => ?_
  obtain ⟨-, -, rfl⟩ := replaceInitial_eq_ok.1 h
  intro t ht
  rcases List.mem_cons.1 ht with rfl | ht
  · exact hs
  · exact ha t (List.mem_cons_of_mem _ ht)

/-- If the labels that the sets ask for differ, each set gets its own. -/
theorem names_of_determinize (h : a.determinize = .ok d) {names : List String} (hnames : names.Nodup)
    (hlabels : ∀ x ∈ a.reachedSets.zipIdx,
      names[x.2]? = some (a.subsetState a.reachedSets x.1 x.2).label) : NamedBy names d := by
  refine holds_of_determinize h (fun t ht => ?_) (fun x hx => ?_) fun x hx => ?_
  · obtain ⟨rest, hsets⟩ := reachedSets_cons a
    have hfirst : (IdSet.singleton a.initial.id, 0) ∈ a.reachedSets.zipIdx := by
      rw [hsets]
      exact List.mem_cons_self
    rw [List.mem_singleton.1 ht]
    exact (hlabels _ hfirst).trans (congrArg some (label_subsetState_initial a a.reachedSets))
  · exact keeps_names_replaceInitial (hlabels x hx)
  · exact keeps_names_adopt hnames (hlabels x hx)

/-- The next new state gets the id that follows the last one. -/
theorem nextId_of_determinize (ha : a.WellFormed) (h : a.determinize = .ok d) : d.nextId = d.size := by
  have hpos : 0 < a.reachedSets.length := by
    obtain ⟨rest, hsets⟩ := reachedSets_cons a
    rw [hsets]
    exact Nat.succ_pos _
  have hle : d.nextId ≤ a.reachedSets.length := by
    refine holds_of_determinize (P := fun b => b.nextId ≤ a.reachedSets.length) h hpos
      (fun x hx => ?_) fun x hx => ?_
    · refine .of_atomic (replaceInitial_atomic _) fun b u c hb hrun => ?_
      obtain ⟨-, -, rfl⟩ := replaceInitial_eq_ok.1 hrun
      exact hb
    · refine .of_atomic (adopt_atomic _) fun b id c hb hrun => ?_
      obtain ⟨-, -, -, rfl⟩ := insert_eq_ok.1 (show insert _ b = .ok id c from hrun)
      exact Nat.max_le.2 ⟨hb, List.snd_lt_of_mem_zipIdx hx⟩
  have hlast : a.reachedSets.length - 1 ∈ d.ids := by
    rw [ids_of_determinize h, List.mem_range]
    omega
  have hlt := (determinize_wellFormed ha h).lt_nextId _ hlast
  rw [size_of_determinize h]
  omega

/-! ### Deterministic automata renumbered -/

/-- The sets are those of the states reached, in order. -/
theorem subsetState_of_isDeterministic (ha : a.WellFormed) (hc : a.Closed)
    (hd : a.isDeterministic = true) {set : IdSet} {i : Nat} (hset : a.reachedSets[i]? = some set) :
    ∃ s, a.reachedStates[i]? = some s ∧
      a.subsetState a.reachedSets set i = s.rename a.reachable.idxOf := by
  rw [reachedSets_of_isDeterministic ha hd, List.getElem?_map, Option.map_eq_some_iff] at hset
  obtain ⟨x, hx, rfl⟩ := hset
  have hplace : a.reachable.idxOf x = i := by
    obtain ⟨hi, rfl⟩ := List.getElem?_eq_some_iff.1 hx
    exact nodup_search.idxOf_getElem i hi
  rw [← map_id_reachedStates ha hc, List.getElem?_map, Option.map_eq_some_iff] at hx
  obtain ⟨s, hs, rfl⟩ := hx
  have hstate : a.state? s.id = some s := state?_reachedStates ha (List.mem_of_getElem? hs)
  refine ⟨s, hs, ?_⟩
  rw [reachedSets_of_isDeterministic ha hd, ← hplace]
  exact subsetState_singleton ha hd hstate

/-- The `i`-th state of the result has the label of the `i`-th state reached. -/
theorem named_of_deterministic_input (ha : a.WellFormed) (hd : a.isDeterministic = true)
    (h : a.determinize = .ok d) : NamedBy (a.reachedStates.map (·.label)) d := by
  have hc : a.Closed := validate_eq_ok_iff.1 (validate_of_determinize h)
  refine names_of_determinize h (nodup_labels_reachedStates ha hc) fun ⟨set, i⟩ hx => ?_
  obtain ⟨s, hs, hsubset⟩ :=
    subsetState_of_isDeterministic ha hc hd (List.mk_mem_zipIdx_iff_getElem?.1 hx)
  dsimp only
  rw [hsubset, List.getElem?_map, hs]
  rfl

theorem length_reachedStates (ha : a.WellFormed) (hc : a.Closed) (hd : a.isDeterministic = true) :
    a.reachedStates.length = a.reachedSets.length := by
  have hids := congrArg List.length (map_id_reachedStates ha hc)
  rw [List.length_map] at hids
  rw [hids, reachedSets_of_isDeterministic ha hd, List.length_map]

/-- Determinization keeps the states that can be reached, under their places. -/
theorem states_of_deterministic_input (ha : a.WellFormed) (hd : a.isDeterministic = true)
    (h : a.determinize = .ok d) : d.states = a.reachedStates.map (·.rename a.reachable.idxOf) := by
  have hc : a.Closed := validate_eq_ok_iff.1 (validate_of_determinize h)
  have hlength : d.states.length = a.reachedStates.length :=
    (size_of_determinize h).trans (length_reachedStates ha hc hd).symm
  refine List.ext_getElem (by rw [List.length_map, hlength]) fun i hi hi' => ?_
  have hsets : i < a.reachedSets.length := size_of_determinize h ▸ hi
  have hzip : i < a.reachedSets.zipIdx.length := by rwa [List.length_zipIdx]
  obtain ⟨s, hs, hsubset⟩ :=
    subsetState_of_isDeterministic ha hc hd (List.getElem?_eq_getElem hsets)
  -- all but the label is that of the set's state
  have hrel : (s.rename a.reachable.idxOf).Relabelled d.states[i] := by
    have hget := (states_of_determinize h).get hzip hi
    simp only [List.get_eq_getElem, List.getElem_zipIdx, Nat.zero_add, hsubset] at hget
    exact hget
  have hlabel : d.states[i].label = s.label := by
    have hid : d.states[i].id = i := by
      have hplace : d.ids[i]? = some i := by rw [ids_of_determinize h, List.getElem?_range hsets]
      simpa [ids, hi] using hplace
    have hname := named_of_deterministic_input ha hd h d.states[i] (List.getElem_mem hi)
    rw [hid, List.getElem?_map, hs] at hname
    exact (Option.some.inj hname).symm
  have hs' : a.reachedStates[i] = s := (List.getElem?_eq_some_iff.1 hs).2
  rw [List.getElem_map, hs']
  exact hrel.eq_of_label hlabel

/-! ### What is numbered already -/

/-- The states come in the order in which they are reached, and that order is
what the ids are. -/
theorem reachedStates_of_determinize (ha : a.WellFormed) (h : a.determinize = .ok d) :
    d.reachedStates = d.states := by
  have hwf := determinize_wellFormed ha h
  have hreach : d.reachable = d.ids := (reachable_of_determinize h).trans (ids_of_determinize h).symm
  have hstate : ∀ s ∈ d.states, d.state? s.id = some s := fun s hs =>
    (state?_eq_some_iff hwf.nodup_ids).2 ⟨hs, rfl⟩
  rw [reachedStates, hreach, ids, List.filterMap_map]
  exact (List.filterMap_congr hstate).trans List.filterMap_some

/-- Determinizing once more changes nothing. -/
theorem determinize_idempotent (ha : a.WellFormed) (h : a.determinize = .ok d) :
    d.determinize = .ok d := by
  have hwf := determinize_wellFormed ha h
  have hclosed := closed_of_determinize ha h
  obtain ⟨d', hd', -⟩ := determinize_states (validate_eq_ok_iff.2 hclosed)
  -- every id is its own place
  have hplace : ∀ q ∈ d.ids, d.reachable.idxOf q = q := by
    intro q hq
    rw [ids_of_determinize h, List.mem_range] at hq
    have hat := List.nodup_range.idxOf_getElem q (by rwa [List.length_range])
    rw [List.getElem_range] at hat
    rw [reachable_of_determinize h, hat]
  have hrename : ∀ s ∈ d.states, s.rename d.reachable.idxOf = s := by
    intro s hs
    have hmoves : s.moves.rename d.reachable.idxOf = s.moves := Moves.rename_eq_self fun q hq =>
      hplace q (hclosed q (mem_targets_of_mem_states hs hq))
    rw [State.rename, hmoves, hplace s.id (List.mem_map_of_mem hs)]
  have hstates : d'.states = d.states := by
    rw [states_of_deterministic_input hwf (isDeterministic_of_determinize h) hd',
      reachedStates_of_determinize ha h]
    exact (List.map_congr_left hrename).trans (List.map_id _)
  have hnext : d'.nextId = d.nextId := by
    rw [nextId_of_determinize hwf hd', nextId_of_determinize ha h, size, hstates, size]
  rw [hd']
  exact congrArg Except.ok (eq_of_states hstates hnext)

/-! ### The whole of it -/

/-- `d` has the states of `a` that `order` lists, each under its place in it:
with the same label, marker and symbols, and with moves to the places of where
the moves of `a` lead. -/
structure NumberedBy (order : List Nat) (d a : Automaton) : Prop where
  size : d.size = order.length
  state : ∀ i id, order[i]? = some id → ∃ s t : State, a.state? id = some s ∧ d.states[i]? = some t ∧
    t.id = i ∧ t.label = s.label ∧ t.marker = s.marker ∧ t.moves.symbols = s.moves.symbols ∧
    ∀ c ∈ s.moves.symbols, ∃ q j, s.moves.dests c = .singleton q ∧ order[j]? = some q ∧
      t.moves.dests c = .singleton j

/-- Every symbol of a state that is reached leads to one state, which is reached too. -/
theorem exists_dest_of_reachable (ha : a.WellFormed) (hd : a.isDeterministic = true)
    (hs : a.state? s.id = some s) (hr : s.id ∈ a.reachable) {c : Symbol} (hc : c ∈ s.moves.symbols) :
    ∃ q ∈ a.reachable, s.moves.dests c = .singleton q := by
  have hwf := (ha.states s (mem_states_of_state? hs)).moves
  obtain ⟨⟨c', ids⟩, he, rfl⟩ := List.mem_map.1 hc
  obtain ⟨q, rfl⟩ := Moves.exists_singleton hwf (moves_isDeterministic hd hs) he
  refine ⟨q, mem_search_of_next hr ?_, ((Moves.mem_entries_iff hwf).1 he).1⟩
  rw [successors, hs]
  exact List.mem_flatMap.2 ⟨_, he, List.mem_singleton.2 rfl⟩

theorem numberedBy_reachable (ha : a.WellFormed) (hd : a.isDeterministic = true)
    (h : a.determinize = .ok d) : NumberedBy a.reachable d a := by
  have hc : a.Closed := validate_eq_ok_iff.1 (validate_of_determinize h)
  have hstates := states_of_deterministic_input ha hd h
  have hids := map_id_reachedStates ha hc
  refine ⟨?_, fun i id hi => ?_⟩
  · rw [size, hstates, List.length_map, ← hids, List.length_map]
  · have hplace : a.reachable.idxOf id = i := by
      obtain ⟨hlt, rfl⟩ := List.getElem?_eq_some_iff.1 hi
      exact nodup_search.idxOf_getElem i hlt
    rw [← hids, List.getElem?_map, Option.map_eq_some_iff] at hi
    obtain ⟨s, hs, rfl⟩ := hi
    have hmem := List.mem_of_getElem? hs
    have hstate : a.state? s.id = some s := state?_reachedStates ha hmem
    have hplaced : d.states[i]? = some (s.rename a.reachable.idxOf) := by
      rw [hstates, List.getElem?_map, hs, Option.map_some]
    refine ⟨s, s.rename a.reachable.idxOf, hstate, hplaced, hplace, rfl, rfl,
      Moves.symbols_rename _ _, fun c hcs => ?_⟩
    obtain ⟨q, hq, hdests⟩ :=
      exists_dest_of_reachable ha hd hstate ((mem_reachedStates_iff ha).1 hmem).2 hcs
    refine ⟨q, a.reachable.idxOf q, hdests, List.getElem?_idxOf hq, ?_⟩
    show (s.moves.rename a.reachable.idxOf).dests c = _
    rw [Moves.dests_rename, hdests, IdSet.map_singleton]

end Automaton
end TokenAutomata
