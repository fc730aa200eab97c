/-
# Removing states from a registry

The states that can be reached are found by taking ids from a queue and
queueing the destinations seen for the first time; the list of the ids taken
is the answer. The live states are found by a queue as well, over an index of
the moves by destination, in which a state is listed as often as it has moves
there, and destinations without a state are listed too.

States can be removed all at once: those of the given ids from the map, the
labels that lead to such ids from the index, and one id after the other from
all moves.

Key definitions: `Registry.meet`, `Registry.reachable`, `Registry.incoming`,
`Registry.live`, `Registry.forgetAll`, `Registry.removeDead`,
`Registry.removeUnreachable`, `Registry.prune`.
Key theorems: `Registry.meet_cases`.
-/
import TokenAutomata.Registry.Basic

namespace TokenAutomata

/-- One more value in the list under a key. -/
def OrderedMap.append {κ ν : Type} [DecidableEq κ] (m : OrderedMap κ (List ν)) (k : κ) (v : ν) :
    OrderedMap κ (List ν) :=
  m.insert k ((m.get? k).getD [] ++ [v])

namespace Registry

/-! ### Queues of ids -/

/-- The ids that are seen for the first time join the queue. -/
def meet : IdSet × List Nat → List Nat → IdSet × List Nat :=
  List.foldl fun (seen, queue) id =>
    if id ∈ seen then (seen, queue) else (seen.insert id, queue ++ [id])

/-- The part of `u` that was not seen. -/
def unseen (seen : IdSet) (u : List Nat) : List Nat := u.filter (· ∉ seen)

theorem unseen_insert_lt {seen : IdSet} {u : List Nat} {id : Nat} (hu : id ∈ u) (hid : id ∉ seen) :
    (unseen (seen.insert id) u).length < (unseen seen u).length := by
  have h : unseen (seen.insert id) u = (unseen seen u).filter (· ≠ id) := by
    unfold unseen
    rw [List.filter_filter]
    refine List.filter_congr fun x _ => ?_
    simp
  rw [h]
  exact List.length_filter_lt_length_iff_exists.2 ⟨id, List.mem_filter.2 ⟨hu, by simpa using hid⟩, by simp⟩

/-- Nothing is new, or less of `u` remains unseen. -/
theorem meet_cases {u : List Nat} : ∀ {ids : List Nat} (seen : IdSet) (queue : List Nat),
    (∀ id ∈ ids, id ∈ u) → meet (seen, queue) ids = (seen, queue) ∨
      (unseen (meet (seen, queue) ids).1 u).length < (unseen seen u).length
  | [], _, _, _ => Or.inl rfl
  | id :: ids, seen, queue, h => by
    have hrest : ∀ x ∈ ids, x ∈ u := fun x hx => h x (List.mem_cons_of_mem _ hx)
    by_cases hid : id ∈ seen
    · have hstep : meet (seen, queue) (id :: ids) = meet (seen, queue) ids := by
        simp [meet, hid]
      rw [hstep]
      exact meet_cases seen queue hrest
    · have hstep : meet (seen, queue) (id :: ids) = meet (seen.insert id, queue ++ [id]) ids := by
        simp [meet, hid]
      rw [hstep]
      right
      have hlt := unseen_insert_lt (h id List.mem_cons_self) hid
      rcases meet_cases (seen.insert id) (queue ++ [id]) hrest with he | he
      · rw [he]
        exact hlt
      · exact Nat.lt_trans he hlt

theorem meet_decreases {u ids queue : List Nat} {seen : IdSet} {id : Nat} (h : ∀ x ∈ ids, x ∈ u) :
    Prod.Lex (· < ·) (· < ·)
      ((unseen (meet (seen, queue) ids).1 u).length, (meet (seen, queue) ids).2.length)
      ((unseen seen u).length, (id :: queue).length) := by
  rcases meet_cases seen queue h with he | hlt
  · rw [he]
    exact Prod.Lex.right _ (Nat.lt_succ_self _)
  · exact Prod.Lex.left _ _ hlt

/-! ### Reachable states -/

/-- Where the state of an id leads, symbol by symbol; nowhere if there is no
such state. -/
def successors (r : Registry) (id : Nat) : List Nat :=
  match r.state? id with
  | some s => s.moves.targets
  | none => []

/-- The destinations of all moves, state by state. -/
def targets (r : Registry) : List Nat := r.states.values.flatMap (·.moves.targets)

theorem mem_targets_of_mem_successors {r : Registry} {x y : Nat} (h : y ∈ r.successors x) :
    y ∈ r.targets := by
  unfold successors at h
  split at h
  · rename_i s hs
    exact List.mem_flatMap.2 ⟨s, OrderedMap.mem_values_iff.2 ⟨x, hs⟩, h⟩
  · cases h

/-- Takes the ids that wait, after those of `order`. -/
def reachFrom (r : Registry) (order : List Nat) (seen : IdSet) : List Nat → List Nat
  | [] => order
  | id :: queue =>
    let met := meet (seen, queue) (r.successors id)
    reachFrom r (order ++ [id]) met.1 met.2
termination_by queue => ((unseen seen r.targets).length, queue.length)
decreasing_by exact meet_decreases fun _ => mem_targets_of_mem_successors

/-- The ids that can be reached from the initial state, in the order in which
they are taken. -/
def reachable (r : Registry) : List Nat := r.reachFrom [] (.singleton r.initial) [r.initial]

/-! ### Live states -/

/-- The ids of the states that have moves to an id, once for each move. -/
def incoming (r : Registry) : OrderedMap Nat (List Nat) :=
  r.states.values.foldl (fun m s => s.moves.targets.foldl (fun m target => m.append target s.id) m) ∅

/-- The states listed with a move to an id. -/
def sources (incoming : OrderedMap Nat (List Nat)) (id : Nat) : List Nat := (incoming.get? id).getD []

theorem mem_flatten_of_mem_sources {incoming : OrderedMap Nat (List Nat)} {x y : Nat}
    (h : y ∈ sources incoming x) : y ∈ incoming.values.flatten := by
  unfold sources at h
  cases hx : incoming.get? x with
  | none => simp [hx] at h
  | some ids =>
    rw [hx, Option.getD_some] at h
    exact List.mem_flatten.2 ⟨ids, OrderedMap.mem_values_iff.2 ⟨x, hx⟩, h⟩

/-- Takes the ids that wait; all that were ever queued are live. -/
def liveFrom (incoming : OrderedMap Nat (List Nat)) (live : IdSet) : List Nat → IdSet
  | [] => live
  | id :: queue =>
    let met := meet (live, queue) (sources incoming id)
    liveFrom incoming met.1 met.2
termination_by queue => ((unseen live incoming.values.flatten).length, queue.length)
decreasing_by exact meet_decreases fun _ => mem_flatten_of_mem_sources

/-- The ids of the states that can reach a state that accepts. -/
def live (r : Registry) : IdSet :=
  let finals := (r.states.values.filter (·.isFinal)).map (·.id)
  liveFrom r.incoming (.ofList finals) finals

/-! ### Removal -/

/-- Removes the states of the given ids and every move to them, and tells how
many ids that were. -/
def forgetAll (ids : List Nat) : Change Registry Nat := fun r =>
  if ids.isEmpty then .ok 0 r
  else
    .ok ids.length { r with
      states := (r.states.retain fun id _ => id ∉ ids).mapValues fun s => ids.foldl State.forget s
      labels := r.labels.retain fun _ id => id ∉ ids }

/-- Removes the states that are not live. The initial one stays. -/
def removeDead : Change Registry Nat := fun r =>
  let live := r.live
  forgetAll (r.states.keys.filter fun id => id ≠ r.initial ∧ id ∉ live) r

def removeUnreachable : Change Registry Nat := fun r =>
  let reached := IdSet.ofList r.reachable
  forgetAll (r.states.keys.filter fun id => id ∉ reached) r

/-- Without the dead states, then without those that became unreachable. -/
def prune : Change Registry Nat := do
  let dead ← removeDead
  let unreachable ← removeUnreachable
  return dead + unreachable

end Registry
end TokenAutomata
