/-
# What a search finds

A search ends with the least list that holds the items it started from and,
with each item, all that follow from it; no item is listed twice, and the
first item it started from comes first.

The invariant is `Worklist.Sound`: every number in use waits or is closed.
With it goes that all that follows from a closed item has a number
(`Worklist.Expanded`). A turn closes the number it takes just when it adds
what follows from it, and when no number waits any more, all are closed.

The order depends on what follows from what alone: if the items have other
names, the same items are found under these names in the same order
(`search_map`), and what follows from items that are not met does not matter
(`search_congr`).

Key definitions: `Worklist.Sound`, `Worklist.Expanded`, `Worklist.Finished`,
`Worklist.map`.
Key theorems: `Worklist.finished_run`, `Worklist.run_map`, `nodup_search`,
`mem_search_of_start`, `mem_search_of_next`, `search_induction`,
`search_singleton`, `search_map`, `search_congr`.
-/
import Mathlib.Data.List.Nodup
import TokenAutomata.Worklist

namespace TokenAutomata
namespace Worklist

variable {α : Type} [DecidableEq α] {w : Worklist α}

/-- No item has two numbers, and the numbers in use are those that wait and
those that are closed. -/
structure Sound (w : Worklist α) : Prop where
  nodup : w.items.Nodup
  pending_lt : ∀ n ∈ w.pending, n < w.size
  closed_lt : ∀ n ∈ w.closed, n < w.size
  covered : ∀ n < w.size, n ∈ w.pending ∨ n ∈ w.closed

/-- All that follows from a closed item has a number. -/
def Expanded (next : α → List α) (w : Worklist α) : Prop :=
  ∀ n ∈ w.closed, ∀ x, w.item? n = some x → ∀ y ∈ next x, y ∈ w.items

omit [DecidableEq α] in
theorem sound_empty : (empty : Worklist α).Sound where
  nodup := List.nodup_nil
  pending_lt := fun _ hn => absurd hn List.not_mem_nil
  closed_lt := fun _ hn => absurd hn List.not_mem_nil
  covered := fun n hn => absurd hn (Nat.not_lt_zero n)

/-! ### Adding items -/

theorem mem_items_add {x y : α} : y ∈ (w.add x).items ↔ y ∈ w.items ∨ y = x := by
  rw [items_add]
  by_cases hx : x ∈ w.items
  · rw [if_pos hx]
    constructor
    · exact Or.inl
    · rintro (hy | rfl)
      · exact hy
      · exact hx
  · rw [if_neg hx, List.mem_append, List.mem_singleton]

theorem mem_items_addAll {y : α} : ∀ {xs : List α} {w : Worklist α},
    y ∈ (w.addAll xs).items ↔ y ∈ w.items ∨ y ∈ xs
  | [], w => by simp [addAll]
  | x :: xs, w => by
    have ih : y ∈ ((w.add x).addAll xs).items ↔ _ := mem_items_addAll
    show y ∈ ((w.add x).addAll xs).items ↔ _
    rw [ih, mem_items_add, List.mem_cons, or_assoc]

theorem prefix_items_add (w : Worklist α) (x : α) : w.items <+: (w.add x).items := by
  rw [items_add]
  split
  · exact List.prefix_rfl
  · exact List.prefix_append _ _

theorem prefix_items_addAll : ∀ (xs : List α) (w : Worklist α), w.items <+: (w.addAll xs).items
  | [], _ => List.prefix_rfl
  | x :: xs, w => (prefix_items_add w x).trans (prefix_items_addAll xs (w.add x))

/-- A new item gets the next number, which then waits. -/
theorem add_of_not_mem (hc : w.size ∉ w.closed) (hp : w.size ∉ w.pending) {x : α} (hx : x ∉ w.items) :
    w.add x = { items := w.items ++ [x], pending := w.pending ++ [w.size], closed := w.closed } := by
  have hs : ¬ (w.items ++ [x]).length ≤ w.size := by
    rw [List.length_append, List.length_singleton]
    exact Nat.not_succ_le_self _
  unfold add
  rw [if_neg hx]
  exact if_neg (not_or.2 ⟨hc, not_or.2 ⟨hp, hs⟩⟩)

theorem Sound.add (hw : w.Sound) (x : α) : (w.add x).Sound := by
  by_cases hx : x ∈ w.items
  · have he : w.add x = w := by simp [Worklist.add, hx]
    rw [he]
    exact hw
  · have hc : w.size ∉ w.closed := fun h => Nat.lt_irrefl _ (hw.closed_lt _ h)
    have hp : w.size ∉ w.pending := fun h => Nat.lt_irrefl _ (hw.pending_lt _ h)
    rw [add_of_not_mem hc hp hx]
    refine ⟨?_, fun n hn => ?_, fun n hn => ?_, fun n hn => ?_⟩
    · exact List.nodup_append.2 ⟨hw.nodup, List.nodup_singleton x, fun y hy z hz hyz =>
        hx (List.mem_singleton.1 hz ▸ hyz ▸ hy)⟩
    · show n < (w.items ++ [x]).length
      rw [List.length_append, List.length_singleton]
      rcases List.mem_append.1 hn with hn | hn
      · exact Nat.lt_succ_of_lt (hw.pending_lt n hn)
      · rw [List.mem_singleton.1 hn]
        exact Nat.lt_succ_self _
    · show n < (w.items ++ [x]).length
      rw [List.length_append, List.length_singleton]
      exact Nat.lt_succ_of_lt (hw.closed_lt n hn)
    · change n < (w.items ++ [x]).length at hn
      rw [List.length_append, List.length_singleton] at hn
      rcases Nat.lt_succ_iff_lt_or_eq.1 hn with hn | rfl
      · rcases hw.covered n hn with h | h
        · exact Or.inl (List.mem_append_left _ h)
        · exact Or.inr h
      · exact Or.inl (List.mem_append_right _ (List.mem_singleton.2 rfl))

theorem Sound.addAll : ∀ {xs : List α} {w : Worklist α}, w.Sound → (w.addAll xs).Sound
  | [], _, hw => hw
  | x :: xs, _, hw => @Sound.addAll xs _ (hw.add x)

omit [DecidableEq α] in
theorem closed_enqueue (w : Worklist α) (n : Nat) : (w.enqueue n).closed = w.closed := by
  unfold enqueue
  split <;> rfl

theorem closed_add (w : Worklist α) (x : α) : (w.add x).closed = w.closed := by
  unfold add
  split
  · rfl
  · exact closed_enqueue _ _

theorem closed_addAll : ∀ (xs : List α) (w : Worklist α), (w.addAll xs).closed = w.closed
  | [], _ => rfl
  | x :: xs, w => (closed_addAll xs (w.add x)).trans (closed_add w x)

/-! ### Taking numbers -/

omit [DecidableEq α] in
theorem closed_of_pop? {rest : Worklist α} {n : Nat} {x : α} (h : w.pop? = some ((n, x), rest)) :
    rest.closed = w.closed := by
  unfold pop? at h
  split at h
  · cases h
  · obtain ⟨y, -, he⟩ := Option.map_eq_some_iff.1 h
    cases he
    rfl

omit [DecidableEq α] in
/-- If the numbers that wait are in use, the first one can be taken. -/
theorem pop?_eq_none_iff (hw : ∀ n ∈ w.pending, n < w.size) : w.pop? = none ↔ w.pending = [] := by
  unfold pop?
  cases hp : w.pending with
  | nil => simp
  | cons n rest =>
    have hn : n < w.items.length := hw n (by simp [hp])
    simp [item?, hn]

omit [DecidableEq α] in
theorem Sound.close_pop (hw : w.Sound) {rest : Worklist α} {n : Nat} {x : α}
    (h : w.pop? = some ((n, x), rest)) : (rest.close n).Sound := by
  obtain ⟨hp, -, hi⟩ := pop?_eq_some h
  have hc := closed_of_pop? h
  refine ⟨?_, fun k hk => ?_, fun k hk => ?_, fun k hk => ?_⟩
  · show rest.items.Nodup
    rw [hi]
    exact hw.nodup
  · show k < rest.items.length
    rw [hi]
    exact hw.pending_lt k (hp ▸ List.mem_cons_of_mem _ hk)
  · show k < rest.items.length
    rw [hi]
    rcases List.mem_cons.1 (show k ∈ n :: rest.closed from hk) with rfl | hk
    · exact hw.pending_lt k (hp ▸ List.mem_cons_self)
    · exact hw.closed_lt k (hc ▸ hk)
  · change k < rest.items.length at hk
    rw [hi] at hk
    show k ∈ rest.pending ∨ k ∈ n :: rest.closed
    rw [hc]
    rcases hw.covered k hk with h | h
    · rw [hp] at h
      rcases List.mem_cons.1 h with rfl | h
      · exact Or.inr List.mem_cons_self
      · exact Or.inl h
    · exact Or.inr (List.mem_cons_of_mem _ h)

/-- A turn keeps what follows from closed items numbered. -/
theorem Expanded.turn {next : α → List α} (hw : w.Sound) (he : w.Expanded next) {rest : Worklist α}
    {n : Nat} {x : α} (h : w.pop? = some ((n, x), rest)) :
    ((rest.close n).addAll (next x)).Expanded next := by
  obtain ⟨-, hx, hi⟩ := pop?_eq_some h
  have hc := closed_of_pop? h
  intro k hk y hy z hz
  rw [closed_addAll] at hk
  rw [mem_items_addAll]
  -- a closed number was in use before the turn, so it still has its item
  have hlt : k < (rest.close n).items.length := (hw.close_pop h).closed_lt k hk
  obtain ⟨new, hnew⟩ := prefix_items_addAll (next x) (rest.close n)
  have hitem : w.items[k]? = some y := by
    rw [item?, ← hnew, List.getElem?_append_left hlt] at hy
    exact hi ▸ hy
  rcases List.mem_cons.1 (show k ∈ n :: rest.closed from hk) with rfl | hk
  · obtain rfl : x = y := Option.some.inj (hx.symm.trans hitem)
    exact Or.inr hz
  · left
    show z ∈ rest.items
    rw [hi]
    exact he k (hc ▸ hk) y hitem z hz

/-! ### A whole run -/

/-- When the queue is empty, what follows from a numbered item is numbered. -/
structure Finished (next : α → List α) (w : Worklist α) : Prop where
  nodup : w.items.Nodup
  mem_of_next : ∀ x ∈ w.items, ∀ y ∈ next x, y ∈ w.items

omit [DecidableEq α] in
theorem Sound.finished {next : α → List α} (hw : w.Sound) (he : w.Expanded next)
    (h : w.pending = []) : w.Finished next := by
  refine ⟨hw.nodup, fun x hx y hy => ?_⟩
  obtain ⟨n, hn, hxn⟩ := List.getElem_of_mem hx
  rcases hw.covered n hn with hp | hc
  · rw [h] at hp
    cases hp
  · exact he n hc x (List.getElem?_eq_some_iff.2 ⟨hn, hxn⟩) y hy

theorem finished_run {next : α → List α} (bounded : ∃ u : List α, ∀ x, ∀ y ∈ next x, y ∈ u)
    (w : Worklist α) (hw : w.Sound) (he : w.Expanded next) : (w.run next bounded).Finished next := by
  fun_induction run next bounded w with
  | case1 w h => exact hw.finished he ((pop?_eq_none_iff hw.pending_lt).1 h)
  | case2 w n x rest h ih => exact ih (hw.close_pop h).addAll (he.turn hw h)

theorem prefix_items_run {next : α → List α} (bounded : ∃ u : List α, ∀ x, ∀ y ∈ next x, y ∈ u)
    (w : Worklist α) : w.items <+: (w.run next bounded).items := by
  fun_induction run next bounded w with
  | case1 w h => exact List.prefix_rfl
  | case2 w n x rest h ih =>
    obtain ⟨-, -, hi⟩ := pop?_eq_some h
    have hp : w.items <+: ((rest.close n).addAll (next x)).items := by
      rw [← hi]
      exact prefix_items_addAll (next x) (rest.close n)
    exact hp.trans ih

/-- What holds of the items at the start and of all that follows from items
it holds of, holds of all items at the end. -/
theorem run_induction {next : α → List α} (bounded : ∃ u : List α, ∀ x, ∀ y ∈ next x, y ∈ u)
    {P : α → Prop} (hnext : ∀ x, P x → ∀ y ∈ next x, P y) (w : Worklist α)
    (hstart : ∀ x ∈ w.items, P x) : ∀ x ∈ (w.run next bounded).items, P x := by
  fun_induction run next bounded w with
  | case1 w h => exact hstart
  | case2 w n x rest h ih =>
    obtain ⟨-, hx, hi⟩ := pop?_eq_some h
    refine ih fun y hy => ?_
    rcases mem_items_addAll.1 hy with hy | hy
    · exact hstart y (hi ▸ hy)
    · exact hnext x (hstart x (List.mem_of_getElem? hx)) y hy

/-! ### Under other names -/

section Mapped

variable {β : Type}

/-- The worklist with every item under another name. -/
def map (w : Worklist α) (φ : α → β) : Worklist β :=
  { items := w.items.map φ, pending := w.pending, closed := w.closed }

omit [DecidableEq α] in
theorem pop?_map (w : Worklist α) (φ : α → β) :
    (w.map φ).pop? = w.pop?.map fun ((n, x), rest) => ((n, φ x), rest.map φ) := by
  unfold pop? map
  cases w.pending with
  | nil => rfl
  | cons n rest =>
    simp only [item?, List.getElem?_map, Option.map_map]
    rfl

variable [DecidableEq β] {φ : α → β}

theorem add_map {x : α} (hinj : ∀ y ∈ w.items, φ x = φ y → x = y) :
    (w.map φ).add (φ x) = (w.add x).map φ := by
  have hiff : φ x ∈ w.items.map φ ↔ x ∈ w.items := by
    constructor
    · intro h
      obtain ⟨y, hy, he⟩ := List.mem_map.1 h
      exact hinj y hy he.symm ▸ hy
    · exact List.mem_map_of_mem
  unfold add
  by_cases hx : x ∈ w.items
  · rw [if_pos hx]
    exact if_pos (hiff.2 hx)
  · rw [if_neg hx]
    refine (if_neg (mt hiff.1 hx)).trans ?_
    simp only [enqueue, map, size, List.length_append, List.length_map, List.length_singleton]
    split_ifs <;> simp

theorem addAll_map : ∀ {xs : List α} {w : Worklist α},
    (∀ x ∈ (w.addAll xs).items, ∀ y ∈ (w.addAll xs).items, φ x = φ y → x = y) →
      (w.map φ).addAll (xs.map φ) = (w.addAll xs).map φ
  | [], w, _ => rfl
  | x :: xs, w, hinj => by
    have hx : x ∈ (w.addAll (x :: xs)).items := mem_items_addAll.2 (Or.inr List.mem_cons_self)
    have hstep : (w.map φ).add (φ x) = (w.add x).map φ :=
      add_map fun y hy => hinj x hx y (mem_items_addAll.2 (Or.inl hy))
    show ((w.map φ).add (φ x)).addAll (xs.map φ) = ((w.add x).addAll xs).map φ
    rw [hstep]
    exact addAll_map hinj

/-- A run under other names takes the same turns. -/
theorem run_map {next : α → List α} {next' : β → List β}
    (bounded : ∃ u : List α, ∀ x, ∀ y ∈ next x, y ∈ u)
    (bounded' : ∃ u : List β, ∀ x, ∀ y ∈ next' x, y ∈ u) (w : Worklist α)
    (hinj : ∀ x ∈ (run next bounded w).items, ∀ y ∈ (run next bounded w).items, φ x = φ y → x = y)
    (hnext : ∀ x ∈ (run next bounded w).items, next' (φ x) = (next x).map φ) :
    run next' bounded' (w.map φ) = (run next bounded w).map φ := by
  fun_induction run next bounded w with
  | case1 w h =>
    have hpop : (w.map φ).pop? = none := by rw [pop?_map, h]; rfl
    rw [run]
    split
    · rfl
    · rename_i hsome
      cases hpop.symm.trans hsome
  | case2 w n x rest h ih =>
    have hpop : (w.map φ).pop? = some ((n, φ x), rest.map φ) := by rw [pop?_map, h]; rfl
    obtain ⟨-, hitem, hi⟩ := pop?_eq_some h
    have hfront := prefix_items_run bounded ((rest.close n).addAll (next x))
    have hx : x ∈ (run next bounded ((rest.close n).addAll (next x))).items :=
      hfront.subset (mem_items_addAll.2 (Or.inl (hi ▸ List.mem_of_getElem? hitem)))
    have hadd : ((rest.map φ).close n).addAll (next' (φ x)) = ((rest.close n).addAll (next x)).map φ := by
      rw [hnext x hx]
      exact addAll_map fun y hy z hz => hinj y (hfront.subset hy) z (hfront.subset hz)
    rw [run]
    split
    · rename_i hnone
      cases hpop.symm.trans hnone
    · rename_i n' x' rest' hsome
      cases hpop.symm.trans hsome
      rw [hadd]
      exact ih hinj hnext

end Mapped

end Worklist

/-! ### Searches -/

section Searches

open Worklist

variable {α : Type} [DecidableEq α] {next : α → List α}
  {bounded : ∃ u : List α, ∀ x, ∀ y ∈ next x, y ∈ u} {starts : List α}

theorem finished_search : (Worklist.run next bounded (empty.addAll starts)).Finished next := by
  refine finished_run bounded _ sound_empty.addAll fun n hn => ?_
  rw [closed_addAll] at hn
  cases hn

theorem nodup_search : (search next bounded starts).Nodup := finished_search.nodup

theorem mem_search_of_start {x : α} (h : x ∈ starts) : x ∈ search next bounded starts :=
  (prefix_items_run bounded _).subset (mem_items_addAll.2 (Or.inr h))

theorem mem_search_of_next {x y : α} (hx : x ∈ search next bounded starts) (hy : y ∈ next x) :
    y ∈ search next bounded starts :=
  finished_search.mem_of_next x hx y hy

theorem search_induction {P : α → Prop} (hstart : ∀ x ∈ starts, P x)
    (hnext : ∀ x, P x → ∀ y ∈ next x, P y) : ∀ x ∈ search next bounded starts, P x := by
  refine run_induction bounded hnext _ fun x hx => ?_
  rcases mem_items_addAll.1 hx with hx | hx
  · cases hx
  · exact hstart x hx

/-- A search from one item lists it first. -/
theorem search_singleton (x : α) : ∃ rest, search next bounded [x] = x :: rest := by
  have hitems : ((empty : Worklist α).addAll [x]).items = [x] := by
    show (empty.add x).items = [x]
    rw [items_add]
    rfl
  obtain ⟨rest, hrest⟩ := prefix_items_run bounded ((empty : Worklist α).addAll [x])
  rw [hitems] at hrest
  exact ⟨rest, hrest.symm⟩

/-- A search under other names finds the same in the same order. -/
theorem search_map {β : Type} [DecidableEq β] {next' : β → List β}
    {bounded' : ∃ u : List β, ∀ x, ∀ y ∈ next' x, y ∈ u} {φ : α → β}
    (hinj : ∀ x ∈ search next bounded starts, ∀ y ∈ search next bounded starts, φ x = φ y → x = y)
    (hnext : ∀ x ∈ search next bounded starts, next' (φ x) = (next x).map φ) :
    search next' bounded' (starts.map φ) = (search next bounded starts).map φ := by
  have hfront := prefix_items_run bounded ((empty : Worklist α).addAll starts)
  have hstart : (empty : Worklist β).addAll (starts.map φ) = ((empty : Worklist α).addAll starts).map φ :=
    addAll_map fun x hx y hy => hinj x (hfront.subset hx) y (hfront.subset hy)
  rw [search, hstart, run_map bounded bounded' _ hinj hnext]
  rfl

/-- What follows from items that are not met makes no difference. -/
theorem search_congr {next' : α → List α} {bounded' : ∃ u : List α, ∀ x, ∀ y ∈ next' x, y ∈ u}
    (hnext : ∀ x ∈ search next bounded starts, next' x = next x) :
    search next' bounded' starts = search next bounded starts := by
  have hmap : search next' bounded' (starts.map id) = (search next bounded starts).map id :=
    search_map (fun _ _ _ _ he => he) fun x hx => (hnext x hx).trans (List.map_id (next x)).symm
  rwa [List.map_id, List.map_id] at hmap

end Searches
end TokenAutomata
