/-
# The live states are those with a path to a state that accepts

The search for the live states runs backward, from the states that accept to
those with a move to one found before. It takes each id it lists in one turn
(`turns_search`), and it lists no id twice and none that has no state. So there
are no more turns than states, whatever cycles there are.

What it finds are the ids of the states from which a path leads to a state that
accepts, each state on it having a move to the next (`Automaton.FinishingPath`).
Such a path is followed from its end, one state at a time. Moves to ids without
a state lead nowhere and are on no path. No property of the automaton is needed.

Key definitions: `Automaton.FinishingPath`.
Key theorems: `Automaton.mem_live_iff_path`, `Automaton.live_backward_closure`.
-/
import TokenAutomata.Automaton.Reach
import TokenAutomata.Proofs.BreadthFirst

namespace TokenAutomata
namespace Automaton

/-- A path over states of the automaton, from one with the id `p` to one that
accepts: each has a move to the id of the next. -/
structure FinishingPath (a : Automaton) (p : Nat) (path : List State) : Prop where
  exist : ∀ s ∈ path, s ∈ a.states
  start : ∃ s, path.head? = some s ∧ s.id = p
  moves : path.IsChain fun s t => ∃ e ∈ s.moves.entries, t.id ∈ e.2
  finish : ∃ s, path.getLast? = some s ∧ s.isFinal = true

variable {a : Automaton} {p : Nat} {s : State} {path : List State}

theorem finishingPath_singleton (hs : s ∈ a.states) (hf : s.isFinal = true) : a.FinishingPath s.id [s] where
  exist _ ht := List.mem_singleton.1 ht ▸ hs
  start := ⟨s, rfl, rfl⟩
  moves := List.isChain_singleton s
  finish := ⟨s, rfl, hf⟩

/-- Before a path comes any state with a move to where it starts. -/
theorem FinishingPath.cons (h : a.FinishingPath p path) (hs : s ∈ a.states) (hp : p ∈ s.moves.targets) :
    a.FinishingPath s.id (s :: path) := by
  obtain ⟨e, he, hmem⟩ := List.mem_flatMap.1 hp
  obtain ⟨t, ht, rfl⟩ := h.start
  obtain ⟨rest, rfl⟩ := List.head?_eq_some_iff.1 ht
  refine ⟨fun r hr => ?_, ⟨s, rfl, rfl⟩, List.isChain_cons_cons.2 ⟨⟨e, he, hmem⟩, h.moves⟩, h.finish⟩
  rcases List.mem_cons.1 hr with rfl | hr
  · exact hs
  · exact h.exist r hr

theorem exists_path_of_mem_live (h : p ∈ a.live) : ∃ path, a.FinishingPath p path := by
  refine search_induction (P := fun p => ∃ path, a.FinishingPath p path) (fun p hp => ?_)
    (fun p hp q hq => ?_) p (IdSet.mem_ofList.1 h)
  · obtain ⟨s, hs, rfl⟩ := List.mem_map.1 hp
    obtain ⟨hs, hf⟩ := List.mem_filter.1 hs
    exact ⟨[s], finishingPath_singleton hs hf⟩
  · obtain ⟨path, hpath⟩ := hp
    obtain ⟨s, hs, hmove, rfl⟩ := mem_predecessors_iff.1 hq
    exact ⟨s :: path, hpath.cons hs hmove⟩

/-- The first state of a path is found after the second one, which is found as
the first state of what remains of the path. -/
theorem mem_live_of_path (h : a.FinishingPath p path) : p ∈ a.live := by
  induction path generalizing p with
  | nil =>
    obtain ⟨_, hnone, -⟩ := h.start
    cases hnone
  | cons s path ih =>
    obtain ⟨_, hhead, rfl⟩ := h.start
    cases hhead
    have hs : s ∈ a.states := h.exist s List.mem_cons_self
    cases path with
    | nil =>
      obtain ⟨_, hlast, hf⟩ := h.finish
      cases hlast
      exact IdSet.mem_ofList.2 (mem_search_of_start
        (List.mem_map_of_mem (List.mem_filter.2 ⟨hs, hf⟩)))
    | cons t path =>
      obtain ⟨⟨e, he, hmem⟩, hmoves⟩ := List.isChain_cons_cons.1 h.moves
      have ht : t.id ∈ a.live :=
        ih ⟨fun r hr => h.exist r (List.mem_cons_of_mem s hr), ⟨t, rfl, rfl⟩, hmoves, h.finish⟩
      have hmove : s.id ∈ a.predecessors t.id :=
        mem_predecessors_iff.2 ⟨s, hs, List.mem_flatMap.2 ⟨e, he, hmem⟩, rfl⟩
      exact IdSet.mem_ofList.2 (mem_search_of_next (IdSet.mem_ofList.1 ht) hmove)

theorem mem_live_iff_path : p ∈ a.live ↔ ∃ path, a.FinishingPath p path :=
  ⟨exists_path_of_mem_live, fun ⟨_, h⟩ => mem_live_of_path h⟩

theorem FinishingPath.mem_ids (h : a.FinishingPath p path) : p ∈ a.ids := by
  obtain ⟨s, hs, rfl⟩ := h.start
  exact List.mem_map_of_mem (h.exist s (List.mem_of_head? hs))

/-- The backward search comes to its end in one turn for each id it lists, so in
no more turns than there are states. It lists the ids of the states from which a
path leads to a state that accepts, and no id without a state. -/
theorem live_backward_closure (a : Automaton) :
    (∃ w, Worklist.Turns a.predecessors w.size (Worklist.empty.addAll (a.finals.map (·.id))) w ∧
      w.pop? = none ∧ w.size ≤ a.size ∧ a.live = .ofList w.items) ∧
    (∀ p, p ∈ a.live ↔ ∃ path, a.FinishingPath p path) ∧ a.live.toList ⊆ a.ids := by
  have hids : ∀ p ∈ a.live, p ∈ a.ids := fun p hp => by
    obtain ⟨path, hpath⟩ := exists_path_of_mem_live hp
    exact hpath.mem_ids
  refine ⟨?_, fun p => mem_live_iff_path, hids⟩
  obtain ⟨w, hturns, hend, hitems⟩ : ∃ w, Worklist.Turns a.predecessors w.size _ w ∧ w.pop? = none ∧
      w.items = search a.predecessors ⟨a.ids, fun _ _ => mem_ids_of_mem_predecessors⟩ (a.finals.map (·.id)) :=
    turns_search
  have hlive : a.live = .ofList w.items := by rw [hitems]; rfl
  have hnodup : w.items.Nodup := hitems ▸ nodup_search
  refine ⟨w, hturns, hend, ?_, hlive⟩
  -- the ids listed are distinct and have states
  have hsub : w.items ⊆ a.ids := fun p hp => hids p (hlive ▸ IdSet.mem_ofList.2 hp)
  have hle : w.items.length ≤ a.ids.length := (hnodup.subperm hsub).length_le
  rwa [ids, List.length_map] at hle

end Automaton
end TokenAutomata
