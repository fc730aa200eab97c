/-
# Determinization, one set after the other

The states of a deterministic automaton are made as their sets are taken from
the queue. A set is expanded: each symbol leads to the id of the set that the
symbol leads to, which is handed out at that moment if the set is new. Then
the state is put into the registry, the first one in the place of the initial
state. So ids are handed out before their states are made.

Key definitions: `Registry.expand`, `Registry.place`, `Registry.discover`,
`Registry.determinize`.
-/
import TokenAutomata.Automaton.Determinize
import TokenAutomata.RemapQueue
import TokenAutomata.Registry.Concat

namespace TokenAutomata
namespace Registry

/-- The label of the state for some states taken together. -/
def subsetLabel (id : Nat) : List State → String
  | [s] => s.label
  | _ => s!"q{id}"

/-- The moves of some states, joined symbol by symbol. -/
def jointMoves (states : List State) : Moves := states.foldl (fun m s => m.union s.moves) {}

/-- Adds a move for each symbol, to the id of the set it leads to. -/
def expand : RemapQueue → State → List (Symbol × IdSet) → Except AutomatonError (RemapQueue × State)
  | queue, s, [] => return (queue, s)
  | queue, s, (c, set) :: rest => do
    let ((target, _), queue) := queue.mint set
    let s ← s.addDeterministicMove c target
    expand queue s rest

/-- What the queue has become does not depend on the state. -/
theorem queue_of_expand {entries : List (Symbol × IdSet)} {queue queue' : RemapQueue} {s s' : State}
    (h : expand queue s entries = .ok (queue', s')) : queue' = queue.mintAll (entries.map Prod.snd) := by
  induction entries generalizing queue s with
  | nil =>
    cases h
    rfl
  | cons e rest ih =>
    unfold expand at h
    dsimp only at h
    cases hadd : s.addDeterministicMove e.1 (queue.mint e.2).1.1 with
    | error err =>
      rw [hadd] at h
      cases h
    | ok t =>
      rw [hadd] at h
      exact ih h

/-- Puts a state into the place of the initial one, if it has its id, or last. -/
def place (s : State) : Change Registry Unit := fun r =>
  if s.id = r.initial then replaceInitial s r else discard (insert s) r

/-- The state of a set before it has moves. Its label is made unique unless it
is the initial state. -/
def subsetStart (nfa dfa : Registry) (id : Nat) (set : IdSet) : State :=
  let members := nfa.statesOf set
  let label := subsetLabel id members
  let label := if id = dfa.initial then label else dfa.uniqueLabel label id
  (State.new id label).setMarker (members.findSome? (·.marker))

theorem mem_subsets_of_mem_jointMoves {nfa : Registry} {set : IdSet} {e : Symbol × IdSet}
    (h : e ∈ (jointMoves (nfa.statesOf set)).entries) : e.2 ∈ IdSet.subsets nfa.targets := by
  refine IdSet.mem_subsets fun id hid => ?_
  have hm : id ∈ (jointMoves (nfa.statesOf set)).targets := List.mem_flatMap.2 ⟨e, h, hid⟩
  rcases Automaton.mem_targets_of_mem_foldl_union _ _ hm with hm | ⟨s, hs, hm⟩
  · cases hm
  · obtain ⟨i, -, hi⟩ := List.mem_filterMap.1 hs
    exact List.mem_flatMap.2 ⟨s, OrderedMap.mem_values_iff.2 ⟨i, hi⟩, hm⟩

/-- A turn shrinks what of the possible sets has no id, or else the queue. -/
theorem turn_decreases {nfa : Registry} {queue rest queue' : RemapQueue} {id : Nat} {set : IdSet}
    {s s' : State} (hpop : queue.pop? = some ((id, set), rest))
    (h : expand (rest.close id) s (jointMoves (nfa.statesOf set)).entries = .ok (queue', s')) :
    Prod.Lex (· < ·) (· < ·)
      ((queue'.unminted (IdSet.subsets nfa.targets)).length, queue'.pending.length)
      ((queue.unminted (IdSet.subsets nfa.targets)).length, queue.pending.length) := by
  have hrest : rest.ids = queue.ids ∧ rest.pending.length < queue.pending.length := by
    unfold RemapQueue.pop? at hpop
    split at hpop
    · cases hpop
    · rename_i hp
      cases hpop
      exact ⟨rfl, by rw [hp]; exact Nat.lt_succ_self _⟩
  have hclosed : (rest.close id).unminted (IdSet.subsets nfa.targets) =
      queue.unminted (IdSet.subsets nfa.targets) := by
    unfold RemapQueue.unminted RemapQueue.close
    rw [hrest.1]
  have hsets : ∀ t ∈ (jointMoves (nfa.statesOf set)).entries.map Prod.snd, t ∈ IdSet.subsets nfa.targets := by
    intro t ht
    obtain ⟨e, he, rfl⟩ := List.mem_map.1 ht
    exact mem_subsets_of_mem_jointMoves he
  rw [queue_of_expand h, ← hclosed]
  rcases RemapQueue.unminted_mintAll (q := rest.close id) hsets with hsame | hlt
  · rw [hsame]
    exact Prod.Lex.right _ hrest.2
  · exact Prod.Lex.left _ _ hlt

/-- Makes the states of the sets that wait. -/
def discover (nfa : Registry) (queue : RemapQueue) (dfa : Registry) : Except AutomatonError Registry :=
  match _hpop : queue.pop? with
  | none => .ok dfa
  | some ((id, set), rest) =>
    match _hexpand : expand (rest.close id) (subsetStart nfa dfa id set)
        (jointMoves (nfa.statesOf set)).entries with
    | .error e => .error e
    | .ok (queue, s) =>
      match (place s).exec dfa with
      | .error e => .error e
      | .ok dfa => discover nfa queue dfa
termination_by ((queue.unminted (IdSet.subsets nfa.targets)).length, queue.pending.length)
decreasing_by exact turn_decreases _hpop _hexpand

/-- The deterministic automaton of the same language. It exists unless a move
leads to no state. -/
def determinize (nfa : Registry) : Except AutomatonError Registry := do
  nfa.validate
  discover nfa (RemapQueue.empty.mint (.singleton nfa.initial)).2 (withInitial nfa.initialState.label)

end Registry
end TokenAutomata
