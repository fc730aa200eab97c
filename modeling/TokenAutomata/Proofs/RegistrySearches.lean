/-
# The searches of a registry

The loops of a registry keep a list of the ids that wait and a set of all ids
seen. Beside the worklist of a search, that list is what the worklist holds
from the place on whose turn it is, and that set holds the items it has
(`Registry.Keeps`). A turn of the loop is a turn of the search, so the ids are
taken in the order in which the search meets them (`Registry.Sound.reachable_view`).

The index of moves by destination has an entry for every move, so the sources
of a state are listed more than once. That changes nothing about what follows
from what, hence not what the search finds (`Registry.Sound.mem_live_view`).

Key definitions: `Registry.Keeps`.
Key theorems: `Registry.Keeps.meet`, `Registry.reachFrom_eq`,
`Registry.mem_liveFrom_iff`, `Registry.mem_sources_incoming`,
`Registry.Sound.reachable_view`, `Registry.Sound.mem_live_view`.
-/
import TokenAutomata.Proofs.BreadthFirst
import TokenAutomata.Proofs.RegistryView
import TokenAutomata.Registry.Reach

namespace TokenAutomata

/-- What is found depends on what follows from what, but not on the order nor
on how often it does. -/
theorem mem_search_congr {α : Type} [DecidableEq α] {next next' : α → List α}
    (bounded : ∃ u : List α, ∀ x, ∀ y ∈ next x, y ∈ u) (bounded' : ∃ u : List α, ∀ x, ∀ y ∈ next' x, y ∈ u)
    {starts : List α} (h : ∀ x y, y ∈ next x ↔ y ∈ next' x) (z : α) :
    z ∈ search next bounded starts ↔ z ∈ search next' bounded' starts := by
  constructor
  · exact search_induction (P := (· ∈ search next' bounded' starts)) (fun x hx => mem_search_of_start hx)
      (fun x hx y hy => mem_search_of_next hx ((h x y).1 hy)) z
  · exact search_induction (P := (· ∈ search next bounded starts)) (fun x hx => mem_search_of_start hx)
      (fun x hx y hy => mem_search_of_next hx ((h x y).2 hy)) z

/-- Distinct new items are all listed. -/
theorem Worklist.items_addAll_of_nodup {α : Type} [DecidableEq α] : ∀ {xs : List α} {w : Worklist α},
    (w.items ++ xs).Nodup → (w.addAll xs).items = w.items ++ xs
  | [], w, _ => (List.append_nil w.items).symm
  | x :: xs, w, h => by
    have hx : x ∉ w.items := fun hm =>
      (List.nodup_append.1 h).2.2 x hm x List.mem_cons_self rfl
    have hitems : (w.add x).items = w.items ++ [x] := by rw [items_add, if_neg hx]
    show ((w.add x).addAll xs).items = _
    rw [items_addAll_of_nodup (by rwa [hitems, List.append_assoc]), hitems, List.append_assoc]
    rfl

namespace Registry

/-- Beside a worklist: all its items were seen, and those from the `k`-th on wait. -/
structure Keeps (k : Nat) (w : Worklist Nat) (seen : IdSet) (queue : List Nat) : Prop where
  le : k ≤ w.size
  seen : ∀ id, id ∈ seen ↔ id ∈ w.items
  queue : w.items.drop k = queue

variable {r : Registry} {k : Nat} {w : Worklist Nat} {seen : IdSet} {queue order : List Nat}

theorem Keeps.meet : ∀ {ids : List Nat} {w : Worklist Nat} {seen : IdSet} {queue : List Nat},
    Keeps k w seen queue →
      Keeps k (w.addAll ids) (meet (seen, queue) ids).1 (meet (seen, queue) ids).2
  | [], _, _, _, h => h
  | id :: ids, w, seen, queue, h => by
    by_cases hid : id ∈ w.items
    · have hadd : w.add id = w := by simp [Worklist.add, hid]
      have hmeet : Registry.meet (seen, queue) (id :: ids) = Registry.meet (seen, queue) ids := by
        simp [Registry.meet, h.seen, hid]
      show Keeps k ((w.add id).addAll ids) _ _
      rw [hadd, hmeet]
      exact h.meet
    · have hitems : (w.add id).items = w.items ++ [id] := by rw [Worklist.items_add, if_neg hid]
      have hmeet : Registry.meet (seen, queue) (id :: ids) =
          Registry.meet (seen.insert id, queue ++ [id]) ids := by
        simp [Registry.meet, h.seen, hid]
      rw [hmeet]
      refine Keeps.meet (w := w.add id) ⟨?_, fun x => ?_, ?_⟩
      · rw [Worklist.size, hitems, List.length_append]
        exact Nat.le_add_right_of_le h.le
      · rw [IdSet.mem_insert, h.seen, hitems, List.mem_append, List.mem_singleton, or_comm]
      · rw [hitems, List.drop_append_of_le_length h.le, h.queue]

/-- Whoever is next in turn is the first that waits. -/
theorem Keeps.take (h : Keeps k w seen queue) (hturn : w.InTurn k) {rest : Worklist Nat} {n x : Nat}
    (hpop : w.pop? = some ((n, x), rest)) : ∃ queue', queue = x :: queue' ∧
      w.items.take (k + 1) = w.items.take k ++ [x] ∧ Keeps (k + 1) (rest.close n) seen queue' := by
  obtain ⟨hx, hi, hnext⟩ := hturn.take hpop
  refine ⟨w.items.drop (k + 1), ?_, ?_, hnext.le, fun id => ?_, ?_⟩
  · rw [← h.queue]
    exact List.drop_eq_getElem?_toList_append.trans (by rw [hx]; rfl)
  · rw [List.take_add_one, hx]
    rfl
  · show id ∈ seen ↔ id ∈ rest.items
    rw [hi]
    exact h.seen id
  · show rest.items.drop (k + 1) = _
    rw [hi]

theorem Keeps.queue_eq_nil (h : Keeps k w seen queue) (hturn : w.InTurn k) (hpop : w.pop? = none) :
    queue = [] := by
  rw [← h.queue]
  exact List.drop_of_length_le (Nat.le_of_eq (hturn.size_eq hpop))

/-! ### Reachable ids -/

/-- The ids are taken in the order in which the worklist numbers them. -/
theorem reachFrom_eq (bounded : ∃ u : List Nat, ∀ x, ∀ y ∈ r.successors x, y ∈ u) (w : Worklist Nat)
    (h : Keeps k w seen queue) (hturn : w.InTurn k) :
    r.reachFrom (w.items.take k) seen queue = (w.run r.successors bounded).items := by
  fun_induction Worklist.run r.successors bounded w generalizing k seen queue with
  | case1 w hpop =>
    rw [h.queue_eq_nil hturn hpop, reachFrom]
    exact List.take_of_length_le (Nat.le_of_eq (hturn.size_eq hpop))
  | case2 w n x rest hpop ih =>
    obtain ⟨queue', rfl, htake, hkeeps⟩ := h.take hturn hpop
    obtain ⟨-, hi, hnext⟩ := hturn.take hpop
    obtain ⟨new, hnew⟩ := Worklist.prefix_items_addAll (r.successors x) (rest.close n)
    -- the ids taken so far keep their places
    have horder : ((rest.close n).addAll (r.successors x)).items.take (k + 1) = w.items.take k ++ [x] := by
      rw [← hnew, List.take_append_of_le_length hnext.le, ← htake]
      exact congrArg _ hi
    rw [reachFrom, ← horder]
    exact ih hkeeps.meet hnext.addAll

namespace Sound

variable (h : r.Sound)

include h

theorem successors_view : r.view.successors = r.successors := by
  funext id
  cases hs : r.state? id with
  | none => rw [Automaton.successors, successors, h.state?_view, hs]
  | some s => rw [Automaton.successors, successors, h.state?_view, hs]

/-- The loop lists what the search finds, in the same order. -/
theorem reachable_view : r.view.reachable = r.reachable := by
  have bounded : ∃ u : List Nat, ∀ x, ∀ y ∈ r.successors x, y ∈ u :=
    ⟨r.targets, fun _ _ => mem_targets_of_mem_successors⟩
  have hsearch : r.view.reachable = search r.successors bounded [r.initial] := by
    unfold Automaton.reachable
    simp only [h.successors_view, show r.view.initial.id = r.initial from h.initialState_id]
  have hstart : Keeps 0 (Worklist.empty.addAll [r.initial]) (.singleton r.initial) [r.initial] :=
    ⟨Nat.zero_le _, fun id => by rw [IdSet.mem_singleton]; exact List.mem_singleton.symm, rfl⟩
  rw [hsearch, search, reachable]
  exact (reachFrom_eq bounded _ hstart (Worklist.inTurn_addAll _)).symm

end Sound

/-! ### Live ids -/

/-- All that were ever queued are found. -/
theorem mem_liveFrom_iff {incoming : OrderedMap Nat (List Nat)}
    (bounded : ∃ u : List Nat, ∀ x, ∀ y ∈ sources incoming x, y ∈ u) (w : Worklist Nat)
    (h : Keeps k w seen queue) (hturn : w.InTurn k) (id : Nat) :
    id ∈ liveFrom incoming seen queue ↔ id ∈ (w.run (sources incoming) bounded).items := by
  fun_induction Worklist.run (sources incoming) bounded w generalizing k seen queue with
  | case1 w hpop =>
    rw [h.queue_eq_nil hturn hpop, liveFrom]
    exact h.seen id
  | case2 w n x rest hpop ih =>
    obtain ⟨queue', rfl, -, hkeeps⟩ := h.take hturn hpop
    obtain ⟨-, -, hnext⟩ := hturn.take hpop
    rw [liveFrom]
    exact ih hkeeps.meet hnext.addAll

theorem mem_sources_append {incoming : OrderedMap Nat (List Nat)} {target source x y : Nat} :
    y ∈ sources (incoming.append target source) x ↔ y ∈ sources incoming x ∨ x = target ∧ y = source := by
  unfold sources OrderedMap.append
  rw [OrderedMap.get?_insert]
  by_cases hx : x = target
  · simp [hx]
  · simp [hx]

/-- The moves of one state. -/
theorem mem_sources_foldl_append {source x y : Nat} :
    ∀ {targets : List Nat} {incoming : OrderedMap Nat (List Nat)},
    y ∈ sources (targets.foldl (fun m target => m.append target source) incoming) x ↔
      y ∈ sources incoming x ∨ x ∈ targets ∧ y = source
  | [], _ => by simp
  | target :: targets, incoming => by
    rw [List.foldl_cons, mem_sources_foldl_append, mem_sources_append, List.mem_cons, or_and_right, or_assoc]

theorem mem_sources_foldl {x y : Nat} : ∀ {states : List State} {incoming : OrderedMap Nat (List Nat)},
    y ∈ sources (states.foldl
        (fun m s => s.moves.targets.foldl (fun m target => m.append target s.id) m) incoming) x ↔
      y ∈ sources incoming x ∨ ∃ s ∈ states, x ∈ s.moves.targets ∧ y = s.id
  | [], _ => by simp
  | s :: states, incoming => by
    rw [List.foldl_cons, mem_sources_foldl, mem_sources_foldl_append, or_assoc]
    simp only [List.mem_cons, or_and_right, exists_or, exists_eq_left]

/-- The index lists a state where one of its moves leads. -/
theorem mem_sources_incoming {x y : Nat} :
    y ∈ sources r.incoming x ↔ ∃ s ∈ r.states.values, x ∈ s.moves.targets ∧ s.id = y := by
  have hempty : y ∉ sources ∅ x := by
    simp [sources]
  rw [incoming, mem_sources_foldl]
  simp only [hempty, false_or, eq_comm]

/-- Both find the same ids. -/
theorem Sound.mem_live_view (h : r.Sound) (id : Nat) : id ∈ r.view.live ↔ id ∈ r.live := by
  have bounded : ∃ u : List Nat, ∀ x, ∀ y ∈ sources r.incoming x, y ∈ u :=
    ⟨_, fun _ _ => mem_flatten_of_mem_sources⟩
  have hfinals : r.view.finals = r.states.values.filter (·.isFinal) := by
    rw [Automaton.finals, h.states_view]
  have hnodup : ((r.states.values.filter (·.isFinal)).map (·.id)).Nodup := by
    have hids := h.nodup_ids_view
    rw [h.ids_view, h.keys_eq] at hids
    exact hids.sublist (List.filter_sublist.map _)
  have hitems : (Worklist.empty.addAll ((r.states.values.filter (·.isFinal)).map (·.id))).items = _ :=
    Worklist.items_addAll_of_nodup hnodup
  have hstart : Keeps 0 (Worklist.empty.addAll ((r.states.values.filter (·.isFinal)).map (·.id)))
      (.ofList ((r.states.values.filter (·.isFinal)).map (·.id)))
      ((r.states.values.filter (·.isFinal)).map (·.id)) :=
    ⟨Nat.zero_le _, fun x => by rw [IdSet.mem_ofList, hitems]; rfl, hitems⟩
  have hnext : ∀ x y, y ∈ r.view.predecessors x ↔ y ∈ sources r.incoming x := fun x y => by
    rw [mem_sources_incoming, Automaton.mem_predecessors_iff, h.states_view]
  unfold Automaton.live live
  rw [IdSet.mem_ofList, hfinals, mem_search_congr _ bounded hnext]
  exact (mem_liveFrom_iff bounded _ hstart (Worklist.inTurn_addAll _) id).symm

end Registry
end TokenAutomata
