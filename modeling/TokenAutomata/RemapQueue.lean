/-
# The queue of the subset construction

The queue hands out one id for each set of ids it is shown and lets each new
id wait once. It keeps what it knows in six fields: the ids closed, the ids
waiting with their sets, in order, the ids waiting as a set, the set of each
id, the id of each set, and the next id.

The fields repeat each other: an id waits in two of them, and a set goes with
its id in three. What they have to agree on is what a worklist of sets is
(`Worklist`); that they do is shown for every call elsewhere.

Key definitions: `RemapQueue`, `RemapQueue.mint`, `RemapQueue.enqueue`,
`RemapQueue.pop?`, `RemapQueue.close`, `RemapQueue.mintAll`.
Key theorems: `RemapQueue.unminted_mintAll`.
-/
import TokenAutomata.IdSet
import TokenAutomata.OrderedMap

namespace TokenAutomata

structure RemapQueue where
  closed : IdSet := ∅
  pending : List (Nat × IdSet) := []
  waiting : IdSet := ∅
  sets : OrderedMap Nat IdSet := ∅
  ids : OrderedMap IdSet Nat := ∅
  nextId : Nat := 0

namespace RemapQueue

/-- No set has an id. -/
def empty : RemapQueue := {}

/-- Lets an id wait, unless it is closed, or waits, or has no set. -/
def enqueue (q : RemapQueue) (id : Nat) : RemapQueue :=
  if id ∈ q.closed ∨ id ∈ q.waiting then q
  else
    match q.sets.get? id with
    | none => q
    | some set => { q with waiting := q.waiting.insert id, pending := q.pending ++ [(id, set)] }

/-- The id of a set, which gets the next one and waits if it had none, and
whether that was so. -/
def mint (q : RemapQueue) (set : IdSet) : (Nat × Bool) × RemapQueue :=
  match q.ids.get? set with
  | some id => ((id, false), q)
  | none =>
    let numbered := { q with
      nextId := q.nextId + 1, ids := q.ids.insert set q.nextId, sets := q.sets.insert q.nextId set }
    ((q.nextId, true), numbered.enqueue q.nextId)

/-- Takes the id that has waited longest, with its set. -/
def pop? (q : RemapQueue) : Option ((Nat × IdSet) × RemapQueue) :=
  match q.pending with
  | [] => none
  | next :: rest => some (next, { q with pending := rest, waiting := q.waiting.erase next.1 })

/-- Closes an id, whether or not it has a set or waits. -/
def close (q : RemapQueue) (id : Nat) : RemapQueue := { q with closed := q.closed.insert id }

def isClosed (q : RemapQueue) (id : Nat) : Bool := id ∈ q.closed

/-- The set that an id was given to. -/
def set? (q : RemapQueue) (id : Nat) : Option IdSet := q.sets.get? id

/-- How many ids were given. -/
def size (q : RemapQueue) : Nat := q.sets.size

/-! ### Several sets -/

/-- The ids of some sets, one after the other. -/
def mintAll (q : RemapQueue) (sets : List IdSet) : RemapQueue := sets.foldl (fun q set => (q.mint set).2) q

/-- The part of `u` that has no id yet. -/
def unminted (q : RemapQueue) (u : List IdSet) : List IdSet := u.filter (· ∉ q.ids.keys)

theorem ids_enqueue (q : RemapQueue) (id : Nat) : (q.enqueue id).ids = q.ids := by
  unfold enqueue
  split
  · rfl
  · split <;> rfl

/-- A set has its id already, or becomes the last one that has. -/
theorem mint_cases (q : RemapQueue) (set : IdSet) :
    (q.mint set).2 = q ∨ set ∉ q.ids.keys ∧ (q.mint set).2.ids.keys = q.ids.keys ++ [set] := by
  unfold mint
  split
  · exact Or.inl rfl
  · rename_i h
    have hnew := OrderedMap.get?_eq_none_iff.1 h
    refine Or.inr ⟨hnew, ?_⟩
    rw [ids_enqueue]
    exact OrderedMap.keys_insert_of_not_mem hnew

theorem unminted_mint_lt {q : RemapQueue} {u : List IdSet} {set : IdSet} (hu : set ∈ u)
    (hnew : set ∉ q.ids.keys) (hkeys : (q.mint set).2.ids.keys = q.ids.keys ++ [set]) :
    ((q.mint set).2.unminted u).length < (q.unminted u).length := by
  have h : (q.mint set).2.unminted u = (q.unminted u).filter (· ≠ set) := by
    unfold unminted
    rw [hkeys, List.filter_filter]
    refine List.filter_congr fun s _ => ?_
    simp [Bool.and_comm]
  rw [h]
  exact List.length_filter_lt_length_iff_exists.2
    ⟨set, List.mem_filter.2 ⟨hu, by simpa using hnew⟩, by simp⟩

/-- Minting sets of `u` leaves the queue as it is or shrinks what of `u` has
no id. -/
theorem unminted_mintAll {u : List IdSet} : ∀ {sets : List IdSet} {q : RemapQueue}, (∀ s ∈ sets, s ∈ u) →
    q.mintAll sets = q ∨ ((q.mintAll sets).unminted u).length < (q.unminted u).length
  | [], _, _ => Or.inl rfl
  | set :: sets, q, h => by
    have hrest : ∀ s ∈ sets, s ∈ u := fun s hs => h s (List.mem_cons_of_mem _ hs)
    have hstep : q.mintAll (set :: sets) = (q.mint set).2.mintAll sets := rfl
    rw [hstep]
    rcases mint_cases q set with hsame | ⟨hnew, hkeys⟩
    · rw [hsame]
      exact unminted_mintAll hrest
    · right
      have hlt := unminted_mint_lt (h set List.mem_cons_self) hnew hkeys
      rcases unminted_mintAll (q := (q.mint set).2) hrest with he | he
      · rw [he]
        exact hlt
      · exact Nat.lt_trans he hlt

end RemapQueue
end TokenAutomata
