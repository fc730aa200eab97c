/-
# Determinizing a registry

The loop hands out the id of a set before it makes the state of the set, and
expands a set in the turn in which it makes its state. Beside it runs the
worklist of the search for the sets (`RemapQueue.Tracks`): the ids handed out
are the places of the sets in the list that the search ends with, so a move
leads to such a place from the moment it is made (`Registry.expand_eq`). A set
leads to no other one twice on a symbol, so expanding it never fails.

The state made in the `k`-th turn is the one that stands for the `k`-th set, and
it is put where the list of all states has it (`Registry.Sound.shows_place`). So
in the end the registry shows the automaton that is made from the whole list of
sets (`Registry.Sound.determinize_agrees`).

Key theorems: `Registry.expand_eq`, `Registry.Sound.shows_place`,
`Registry.discover_agrees`, `Registry.Sound.determinize_agrees`.
-/
import TokenAutomata.Proofs.DeterminizedStates
import TokenAutomata.Proofs.MovesAlgebra
import TokenAutomata.Proofs.RegistryBuilding
import TokenAutomata.Proofs.RegistrySearches
import TokenAutomata.Proofs.RemapQueueCalls
import TokenAutomata.Registry.Determinize

namespace TokenAutomata

/-- A symbol that comes into use comes last. -/
theorem Moves.insert_of_not_mem {m : Moves} {c : Symbol} (h : c ∉ m.symbols) (id : Nat) :
    m.insert c id = ⟨m.entries ++ [(c, .singleton id)]⟩ := by
  rw [insert, add, State.upsert_of_not_mem h, IdSet.empty_union]

/-- The number of the next turn is the one taken. -/
theorem Worklist.InTurn.number_eq {α : Type} {w rest : Worklist α} {k n : Nat} {x : α} (h : w.InTurn k)
    (hpop : w.pop? = some ((n, x), rest)) : n = k := by
  have hpending := (pop?_eq_some hpop).1
  rw [h.pending, List.range'_eq_cons_iff] at hpending
  exact hpending.1.symm

/-- One edit after the other, without looking at what the first one answers. -/
theorem Change.exec_bind {σ : Type} (x y : Change σ Unit) (a : σ) :
    (x >>= fun _ => y).exec a = x.exec a >>= y.exec := by
  unfold exec
  cases hx : x a with
  | ok v b => rw [bind_of_ok hx]; rfl
  | error e b => rw [bind_of_error hx]; rfl

namespace Registry

variable {nfa dfa r : Registry} {queue rest : RemapQueue} {w : Worklist IdSet} {set : IdSet} {s : State}
  {k : Nat}

/-! ### Expanding a set -/

/-- The sets get their places in `sets`, where the worklist leads to them. -/
theorem expand_eq {sets : List IdSet} : ∀ {entries : List (Symbol × IdSet)} {queue : RemapQueue}
    {w : Worklist IdSet} {s : State}, queue.Tracks w →
      ((s.moves.symbols ++ entries.map Prod.fst).Nodup) → (w.addAll (entries.map Prod.snd)).items <+: sets →
      ∃ queue', queue'.Tracks (w.addAll (entries.map Prod.snd)) ∧ expand queue s entries = .ok (queue',
        { s with moves := ⟨s.moves.entries ++ entries.map fun e => (e.1, .singleton (sets.idxOf e.2))⟩ })
  | [], queue, w, s, h, _, _ => ⟨queue, h, by rw [List.map_nil, List.append_nil]; rfl⟩
  | (c, set) :: entries, queue, w, s, h, hnodup, hinit => by
    have hc : c ∉ s.moves.symbols := fun hc =>
      (List.nodup_append.1 hnodup).2.2 c hc c List.mem_cons_self rfl
    obtain ⟨hmint, htracks⟩ := h.mint set
    have hitems : (w.add set).items <+: sets :=
      (Worklist.prefix_items_addAll (entries.map Prod.snd) (w.add set)).trans hinit
    have hplace : (queue.mint set).1.1 = sets.idxOf set := by
      obtain ⟨more, hmore⟩ := hitems
      rw [hmint, ← hmore, List.idxOf_append_of_mem (Worklist.mem_items_add.2 (Or.inr rfl))]
      rfl
    have hadd : s.addDeterministicMove c (sets.idxOf set) =
        .ok { s with moves := ⟨s.moves.entries ++ [(c, .singleton (sets.idxOf set))]⟩ } := by
      rw [State.addDeterministicMove, if_neg hc, State.addMove, Moves.insert_of_not_mem hc]
    have hrest : (({ s with
        moves := ⟨s.moves.entries ++ [(c, .singleton (sets.idxOf set))]⟩ } : State).moves.symbols ++
          entries.map Prod.fst).Nodup := by
      have happend : (s.moves.entries ++ [(c, IdSet.singleton (sets.idxOf set))]).map Prod.fst =
          s.moves.symbols ++ [c] := List.map_append
      show ((s.moves.entries ++ _).map Prod.fst ++ _).Nodup
      rw [happend, List.append_assoc]
      exact hnodup
    obtain ⟨queue', htracks', hexpand⟩ := expand_eq htracks hrest hinit
    refine ⟨queue', htracks', ?_⟩
    rw [expand]
    dsimp only
    rw [hplace, hadd]
    refine hexpand.trans ?_
    rw [List.append_assoc]
    rfl

/-! ### The state of a set -/

namespace Sound

theorem jointMoves_view (h : nfa.Sound) (set : IdSet) :
    jointMoves (nfa.statesOf set) = nfa.view.jointMoves set := by
  rw [jointMoves, Automaton.jointMoves, h.statesOf_view]

/-- A set is expanded to the state that stands for it, under a label that is
free unless it is the first one. -/
theorem expand_subset (h : nfa.Sound) {sets : List IdSet} (htracks : queue.Tracks w)
    (hinit : (w.addAll (nfa.view.successorSets set)).items <+: sets) :
    ∃ queue', queue'.Tracks (w.addAll (nfa.view.successorSets set)) ∧
      expand queue (subsetStart nfa dfa k set) (jointMoves (nfa.statesOf set)).entries = .ok (queue',
        { nfa.view.subsetState sets set k with
          label := if k = dfa.initial then (nfa.view.subsetState sets set k).label
            else dfa.uniqueLabel (nfa.view.subsetState sets set k).label k }) := by
  have hnodup : ((subsetStart nfa dfa k set).moves.symbols ++
      (nfa.view.jointMoves set).entries.map Prod.fst).Nodup :=
    (Automaton.jointMoves_wellFormed h.view_wellFormed.states set).nodup
  obtain ⟨queue', htracks', hexpand⟩ := expand_eq htracks hnodup hinit
  refine ⟨queue', htracks', ?_⟩
  rw [h.jointMoves_view, hexpand]
  -- the members have no empty markers, so setting one of them sets it as it is
  have hmarker : ((nfa.statesOf set).findSome? (·.marker)).filter (· ≠ "") =
      (nfa.statesOf set).findSome? (·.marker) := by
    cases hm : (nfa.statesOf set).findSome? (·.marker) with
    | none => rfl
    | some token =>
      obtain ⟨t, ht, htoken⟩ := List.exists_of_findSome?_eq_some hm
      obtain ⟨id, -, hid⟩ := List.mem_filterMap.1 ht
      have hne : token ≠ "" := fun he => (h.state_wellFormed hid).marker (he ▸ htoken)
      simp [Option.filter, hne]
  unfold subsetStart State.setMarker
  dsimp only
  rw [hmarker]
  unfold Automaton.subsetState
  rw [h.statesOf_view]
  rfl

/-- The first state takes the initial place, and the others are added under
labels made unique. -/
theorem shows_place (h : dfa.Sound) (hs : s.WellFormed) :
    Shows (place { s with label := if s.id = dfa.initial then s.label else dfa.uniqueLabel s.label s.id } dfa)
      ((if s.id = 0 then Automaton.replaceInitial s else discard (Automaton.adopt s)) dfa.view) := by
  unfold place
  dsimp only
  rw [← h.initial_eq]
  by_cases hid : s.id = dfa.initial
  · simp only [if_pos hid]
    exact mirrors_replaceInitial hs dfa h
  · simp only [if_neg hid, ← h.uniqueLabel_view]
    exact (mirrors_insert (hs.relabel (dfa.view.uniqueLabel s.label s.id))).discard dfa h

end Sound

/-! ### All sets -/

theorem discover_of_none (h : queue.pop? = none) : discover nfa queue dfa = .ok dfa := by
  rw [discover]
  split
  · rfl
  · rename_i hsome
    cases h.symm.trans hsome

/-- A turn. -/
theorem discover_of_some {queue' : RemapQueue} (h : queue.pop? = some ((k, set), rest))
    (hexpand : expand (rest.close k) (subsetStart nfa dfa k set) (jointMoves (nfa.statesOf set)).entries =
      .ok (queue', s)) :
    discover nfa queue dfa = (place s).exec dfa >>= discover nfa queue' := by
  rw [discover]
  split
  · rename_i hnone
    cases h.symm.trans hnone
  · rename_i hsome
    cases h.symm.trans hsome
    split
    · rename_i herror
      cases hexpand.symm.trans herror
    · rename_i hok
      cases hexpand.symm.trans hok
      cases (place s).exec dfa <;> rfl

/-- From the `k`-th turn on the loop adds the states of the sets from the `k`-th
on, of all those that the search finds in the end. -/
theorem discover_agrees (h : nfa.Sound)
    (bounded : ∃ u : List IdSet, ∀ x, ∀ y ∈ nfa.view.successorSets x, y ∈ u) (w : Worklist IdSet)
    (htracks : queue.Tracks w) (hturn : w.InTurn k) (hdfa : dfa.Sound) :
    Agrees (discover nfa queue dfa)
      ((((w.run nfa.view.successorSets bounded).items.zipIdx.drop k).forM fun (set, id) =>
        if id = 0 then
          Automaton.replaceInitial (nfa.view.subsetState (w.run nfa.view.successorSets bounded).items set id)
        else discard (Automaton.adopt
          (nfa.view.subsetState (w.run nfa.view.successorSets bounded).items set id))).exec dfa.view) := by
  fun_induction Worklist.run nfa.view.successorSets bounded w generalizing queue k dfa with
  | case1 w hpop =>
    obtain ⟨hq, -⟩ | ⟨_, _, _, -, hw, -⟩ := htracks.pop?_cases
    · rw [discover_of_none hq, List.drop_of_length_le]
      · exact .ok hdfa
      · rw [List.length_zipIdx]
        exact Nat.le_of_eq (hturn.size_eq hpop)
    · cases hpop.symm.trans hw
  | case2 w n x rest hpop ih =>
    obtain ⟨-, hw⟩ | ⟨next, queue', rest', hq, hw, hrest⟩ := htracks.pop?_cases
    · cases hpop.symm.trans hw
    cases hpop.symm.trans hw
    obtain rfl := hturn.number_eq hpop
    obtain ⟨hx, hi, hnext⟩ := hturn.take hpop
    generalize hsets : (Worklist.run nfa.view.successorSets bounded
      ((rest.close n).addAll (nfa.view.successorSets x))).items = sets at ih ⊢
    have hinit : ((rest.close n).addAll (nfa.view.successorSets x)).items <+: sets :=
      hsets ▸ Worklist.prefix_items_run bounded _
    obtain ⟨queue'', htracks', hexpand⟩ := h.expand_subset (hrest.close n) hinit
    rw [discover_of_some hq hexpand]
    have hplace : sets.zipIdx[n]? = some (x, n) := by
      have hfirst : sets[n]? = some x := by
        obtain ⟨more, hmore⟩ :=
          (Worklist.prefix_items_addAll (nfa.view.successorSets x) (rest.close n)).trans hinit
        have hlt : n < (rest.close n).items.length := by
          show n < rest.items.length
          rw [hi]
          exact (List.getElem?_eq_some_iff.1 hx).1
        rw [← hmore, List.getElem?_append_left hlt]
        show rest.items[n]? = some x
        rw [hi, hx]
      rw [List.getElem?_zipIdx, hfirst]
      simp
    have hdrop : sets.zipIdx.drop n = (x, n) :: sets.zipIdx.drop (n + 1) := by
      rw [List.drop_eq_getElem?_toList_append, hplace]
      rfl
    rw [hdrop, Change.forM_cons, Change.exec_bind]
    have hwf := Automaton.subsetState_wellFormed h.view_wellFormed.states sets x n
    exact (hdfa.shows_place hwf).exec.bind fun dfa' hdfa' => ih htracks' hnext.addAll hdfa'

/-- Determinizing a registry shows determinizing what it shows. -/
theorem Sound.determinize_agrees (h : nfa.Sound) : Agrees nfa.determinize nfa.view.determinize := by
  have bounded : ∃ u : List IdSet, ∀ x, ∀ y ∈ nfa.view.successorSets x, y ∈ u :=
    ⟨_, fun _ _ => Automaton.mem_subsets_of_mem_successorSets⟩
  unfold determinize Automaton.determinize
  rw [h.validate_view]
  cases nfa.validate with
  | error e => exact .error e
  | ok u =>
    have htracks := (RemapQueue.tracks_empty.mint (.singleton nfa.initial)).2
    have hagrees := discover_agrees h bounded _ htracks (Worklist.inTurn_addAll [IdSet.singleton nfa.initial])
      (withInitial_sound nfa.initialState.label)
    rw [List.drop_zero] at hagrees
    have hsets : nfa.view.reachedSets =
        (Worklist.run nfa.view.successorSets bounded
          (Worklist.empty.addAll [IdSet.singleton nfa.initial])).items := by
      unfold Automaton.reachedSets search
      rw [show nfa.view.initial.id = nfa.initial from h.initialState_id]
    show Agrees (discover nfa _ _) ((Automaton.addSubsetStates nfa.view nfa.view.reachedSets).exec _)
    rw [hsets]
    exact hagrees

end Registry
end TokenAutomata
