/-
# A worklist that numbers what it has seen

A search meets the same item many times. The worklist gives every distinct
item a number, `0, 1, 2, …` in the order of first sight, and queues each
number once; numbers leave the queue in the order they entered it. An item
that is done is closed, and a closed number does not enter the queue again.

`run` empties the queue: it takes the first number, closes it and adds the
items that follow from its item. It ends when what can follow is bounded by
some list, since each turn either shortens the queue or shrinks the part of
that list that has no number yet (`unlisted_addAll`).

Key definitions: `Worklist`, `Worklist.add`, `Worklist.mint`,
`Worklist.enqueue`, `Worklist.pop?`, `Worklist.close`, `Worklist.run`,
`search`.
Key theorems: `Worklist.items_add`, `Worklist.unlisted_addAll`.
-/
namespace TokenAutomata

/-- The items in the order of their numbers, the numbers waiting in the order
they will leave, and the numbers closed. -/
structure Worklist (α : Type) where
  items : List α := []
  pending : List Nat := []
  closed : List Nat := []

namespace Worklist

variable {α : Type} [DecidableEq α]

/-- No item has a number. -/
def empty : Worklist α := {}

/-- The item that has number `n`. -/
def item? (w : Worklist α) (n : Nat) : Option α := w.items[n]?

/-- How many items have a number. -/
def size (w : Worklist α) : Nat := w.items.length

def isClosed (w : Worklist α) (n : Nat) : Bool := n ∈ w.closed

/-- Closes a number, whether or not it is in use or waiting. -/
def close (w : Worklist α) (n : Nat) : Worklist α := { w with closed := n :: w.closed }

/-- Queues a number in use, unless it is closed or waiting. -/
def enqueue (w : Worklist α) (n : Nat) : Worklist α :=
  if n ∈ w.closed ∨ n ∈ w.pending ∨ w.size ≤ n then w
  else { w with pending := w.pending ++ [n] }

/-- Gives an item the next number and queues it, unless it has a number. -/
def add (w : Worklist α) (x : α) : Worklist α :=
  if x ∈ w.items then w else { w with items := w.items ++ [x] }.enqueue w.size

/-- Adds the items of a list in their order. -/
def addAll (w : Worklist α) (xs : List α) : Worklist α := xs.foldl add w

/-- The number of an item, given to it now if it had none, and whether that
was so. -/
def mint (w : Worklist α) (x : α) : (Nat × Bool) × Worklist α :=
  (((w.add x).items.idxOf x, x ∉ w.items), w.add x)

/-- Takes the number that has waited longest, with its item. -/
def pop? (w : Worklist α) : Option ((Nat × α) × Worklist α) :=
  match w.pending with
  | [] => none
  | n :: rest => (w.item? n).map fun x => ((n, x), { w with pending := rest })

omit [DecidableEq α] in
@[simp] theorem items_enqueue (w : Worklist α) (n : Nat) : (w.enqueue n).items = w.items := by
  unfold enqueue
  split <;> rfl

theorem items_add (w : Worklist α) (x : α) :
    (w.add x).items = if x ∈ w.items then w.items else w.items ++ [x] := by
  unfold add
  split <;> simp

omit [DecidableEq α] in
theorem pop?_eq_some {w rest : Worklist α} {n : Nat} {x : α} (h : w.pop? = some ((n, x), rest)) :
    w.pending = n :: rest.pending ∧ w.item? n = some x ∧ rest.items = w.items := by
  unfold pop? at h
  split at h
  · simp at h
  · rename_i hp
    obtain ⟨y, hy, he⟩ := Option.map_eq_some_iff.1 h
    simp only [Prod.mk.injEq] at he
    obtain ⟨⟨rfl, rfl⟩, rfl⟩ := he
    exact ⟨hp, hy, rfl⟩

/-! ### Emptying the queue -/

/-- The part of `u` that has no number yet. -/
def unlisted (w : Worklist α) (u : List α) : List α := u.filter (· ∉ w.items)

theorem unlisted_add_lt {w : Worklist α} {u : List α} {x : α} (hu : x ∈ u) (hx : x ∉ w.items) :
    ((w.add x).unlisted u).length < (w.unlisted u).length := by
  have h : (w.add x).unlisted u = (w.unlisted u).filter (· ≠ x) := by
    unfold unlisted
    rw [items_add, if_neg hx, List.filter_filter]
    refine List.filter_congr fun a _ => ?_
    simp [Bool.and_comm]
  rw [h]
  exact List.length_filter_lt_length_iff_exists.2
    ⟨x, List.mem_filter.2 ⟨hu, by simpa using hx⟩, by simp⟩

/-- Adding items of `u` leaves the worklist as it is or shrinks what of `u`
has no number. -/
theorem unlisted_addAll {u : List α} : ∀ {xs : List α} {w : Worklist α}, (∀ x ∈ xs, x ∈ u) →
    w.addAll xs = w ∨ ((w.addAll xs).unlisted u).length < (w.unlisted u).length
  | [], _, _ => Or.inl rfl
  | x :: xs, w, h => by
    have hxs : ∀ y ∈ xs, y ∈ u := fun y hy => h y (List.mem_cons_of_mem _ hy)
    have hstep : w.addAll (x :: xs) = (w.add x).addAll xs := rfl
    rw [hstep]
    by_cases hx : x ∈ w.items
    · have hw : w.add x = w := by simp [add, hx]
      rw [hw]
      exact unlisted_addAll hxs
    · right
      have hlt := unlisted_add_lt (h x List.mem_cons_self) hx
      rcases unlisted_addAll (w := w.add x) hxs with he | he
      · rw [he]
        exact hlt
      · exact Nat.lt_trans he hlt

/-- Takes, closes and expands the first number until none waits. -/
def run (next : α → List α) (bounded : ∃ u : List α, ∀ x, ∀ y ∈ next x, y ∈ u)
    (w : Worklist α) : Worklist α :=
  match _h : w.pop? with
  | none => w
  | some ((n, x), rest) => run next bounded ((rest.close n).addAll (next x))
termination_by ((w.unlisted bounded.choose).length, w.pending.length)
decreasing_by
  obtain ⟨hp, -, hi⟩ := pop?_eq_some _h
  have hu : (rest.close n).unlisted bounded.choose = w.unlisted bounded.choose := by
    simp [unlisted, close, hi]
  rcases unlisted_addAll (w := rest.close n) (bounded.choose_spec x) with he | hlt
  · rw [he, hu]
    exact Prod.Lex.right _ (by simp [close, hp])
  · exact Prod.Lex.left _ _ (hu ▸ hlt)

end Worklist

/-- Breadth-first search: all items that follow from those of `starts` by
`next`, in the order they are met. -/
def search {α : Type} [DecidableEq α] (next : α → List α)
    (bounded : ∃ u : List α, ∀ x, ∀ y ∈ next x, y ∈ u) (starts : List α) : List α :=
  (Worklist.run next bounded (Worklist.empty.addAll starts)).items

end TokenAutomata
