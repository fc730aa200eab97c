/-
# Searches go breadth first

A search takes the items in the order in which it met them. So after `k` turns
it has met the items it started from and what follows from the first `k` of
its list, and no others, and these make up the front of the list from then on
(`search_front`). An item that follows from an earlier one is met no later
than one that does not. There are as many turns as items listed
(`turns_search`), and turns after which nothing waits make up the whole search
(`Worklist.run_of_turns`).

For an automaton this orders the ids that can be reached. Those at the end of a
walk of at most `n` moves make up a front of the list
(`Automaton.front_of_walks`), so nearer ids come first, and of two ids the one
comes first to which some earlier id leads (`Automaton.foundFrom_le`). A walk
may end at an id without a state. No property of the automaton is needed.

Key definitions: `Worklist.InTurn`, `Worklist.Turned`, `Worklist.Turns`,
`Automaton.Leads`, `Automaton.Walk`, `Automaton.distance`,
`Automaton.foundFrom`.
Key theorems: `Worklist.Turned.front`, `Worklist.turns_run`, `search_front`,
`turns_search`, `Automaton.mem_reachable_iff_walk`, `Automaton.front_of_walks`,
`Automaton.foundFrom_le`, `Automaton.reachable_breadth_first`.
-/
import Mathlib.Order.Lattice.Nat
import TokenAutomata.Automaton.Reach
import TokenAutomata.Proofs.Search

namespace TokenAutomata

/-- The front part of a list holds just what is first listed there. -/
theorem mem_front_iff {α : Type} [DecidableEq α] {front xs : List α} {x : α} (h : front <+: xs) :
    x ∈ front ↔ xs.idxOf x < front.length := by
  obtain ⟨rest, rfl⟩ := h
  rw [List.idxOf_append]
  by_cases hx : x ∈ front
  · simp [hx, List.idxOf_lt_length_of_mem hx]
  · simp [hx]

namespace Worklist

variable {α : Type} [DecidableEq α] {w : Worklist α} {next : α → List α} {starts : List α} {k : Nat}

/-- The first `k` numbers have been taken, and the others wait in their order. -/
structure InTurn (k : Nat) (w : Worklist α) : Prop where
  le : k ≤ w.size
  pending : w.pending = List.range' k (w.size - k)
  closed_lt : ∀ n ∈ w.closed, n < k

theorem InTurn.add (h : w.InTurn k) (x : α) : (w.add x).InTurn k := by
  by_cases hx : x ∈ w.items
  · have hsame : w.add x = w := by simp [Worklist.add, hx]
    rw [hsame]
    exact h
  · have hc : w.size ∉ w.closed := fun hm => Nat.not_lt.2 h.le (h.closed_lt _ hm)
    have hp : w.size ∉ w.pending := by
      rw [h.pending, List.mem_range'_1]
      have hle := h.le
      omega
    rw [add_of_not_mem hc hp hx]
    have hsize : (w.items ++ [x]).length = w.size + 1 := by rw [List.length_append]; rfl
    refine ⟨?_, ?_, h.closed_lt⟩
    · show k ≤ (w.items ++ [x]).length
      rw [hsize]
      exact Nat.le_succ_of_le h.le
    · show w.pending ++ [w.size] = List.range' k ((w.items ++ [x]).length - k)
      rw [h.pending, hsize, Nat.succ_sub h.le, List.range'_1_concat, Nat.add_sub_cancel' h.le]

theorem InTurn.addAll (h : w.InTurn k) : ∀ {xs : List α}, (w.addAll xs).InTurn k := by
  intro xs
  induction xs generalizing w with
  | nil => exact h
  | cons x xs ih => exact ih (h.add x)

theorem inTurn_addAll (starts : List α) : ((empty : Worklist α).addAll starts).InTurn 0 :=
  InTurn.addAll ⟨Nat.le_refl 0, rfl, fun _ hn => absurd hn List.not_mem_nil⟩

omit [DecidableEq α] in
/-- The next number is the one taken. -/
theorem InTurn.take (h : w.InTurn k) {rest : Worklist α} {n : Nat} {x : α}
    (hpop : w.pop? = some ((n, x), rest)) :
    w.items[k]? = some x ∧ rest.items = w.items ∧ (rest.close n).InTurn (k + 1) := by
  obtain ⟨hp, hx, hi⟩ := pop?_eq_some hpop
  rw [h.pending, List.range'_eq_cons_iff] at hp
  obtain ⟨rfl, hpos, hrest⟩ := hp
  refine ⟨hx, hi, ?_, ?_, fun m hm => ?_⟩
  · show k + 1 ≤ rest.items.length
    rw [hi]
    exact Nat.lt_of_sub_pos hpos
  · show rest.pending = List.range' (k + 1) (rest.items.length - (k + 1))
    rw [hrest, hi, ← Nat.sub_sub]
    rfl
  · rcases List.mem_cons.1 (show m ∈ k :: rest.closed from hm) with rfl | hm
    · exact Nat.lt_succ_self m
    · rw [closed_of_pop? hpop] at hm
      exact Nat.lt_succ_of_lt (h.closed_lt m hm)

omit [DecidableEq α] in
/-- If nothing waits, all items have had their turn. -/
theorem InTurn.size_eq (h : w.InTurn k) (hpop : w.pop? = none) : w.size = k := by
  have hle := h.le
  have hpending : w.pending = [] := by
    refine (pop?_eq_none_iff fun n hn => ?_).1 hpop
    rw [h.pending, List.mem_range'_1] at hn
    omega
  have hlength := congrArg List.length (h.pending.symm.trans hpending)
  rw [List.length_range', List.length_nil] at hlength
  omega

/-- The items are those of `starts` and what follows from the first `k`. -/
structure Turned (next : α → List α) (starts : List α) (k : Nat) (w : Worklist α) : Prop
    extends InTurn k w where
  mem_items : ∀ y, y ∈ w.items ↔ y ∈ starts ∨ ∃ x ∈ w.items.take k, y ∈ next x

theorem turned_addAll (starts : List α) : ((empty : Worklist α).addAll starts).Turned next starts 0 where
  toInTurn := inTurn_addAll starts
  mem_items y := by
    rw [mem_items_addAll]
    simp [empty]

theorem Turned.turn (h : w.Turned next starts k) {rest : Worklist α} {n : Nat} {x : α}
    (hpop : w.pop? = some ((n, x), rest)) :
    ((rest.close n).addAll (next x)).Turned next starts (k + 1) := by
  obtain ⟨hx, hi, hturn⟩ := h.toInTurn.take hpop
  refine ⟨hturn.addAll, fun y => ?_⟩
  -- the first items stay in their places
  obtain ⟨new, hnew⟩ := prefix_items_addAll (next x) (rest.close n)
  have htake : ((rest.close n).addAll (next x)).items.take (k + 1) = w.items.take k ++ [x] := by
    have hlt : k + 1 ≤ (rest.close n).items.length := hturn.le
    rw [← hnew, List.take_append_of_le_length hlt]
    show rest.items.take (k + 1) = _
    rw [hi, List.take_add_one, hx]
    rfl
  have hold : y ∈ (rest.close n).items ↔ y ∈ w.items := by
    show y ∈ rest.items ↔ _
    rw [hi]
  rw [mem_items_addAll, hold, h.mem_items, htake, or_assoc]
  simp only [List.mem_append, List.mem_singleton, or_and_right, exists_or, exists_eq_left]

/-- What a run has met after any number of turns is the front of what it lists
in the end. -/
theorem Turned.front (bounded : ∃ u : List α, ∀ x, ∀ y ∈ next x, y ∈ u) (w : Worklist α)
    (h : w.Turned next starts k) {j : Nat} (hj : k ≤ j) : ∃ front, front <+: (w.run next bounded).items ∧
      ∀ y, y ∈ front ↔ y ∈ starts ∨ ∃ x ∈ (w.run next bounded).items.take j, y ∈ next x := by
  fun_induction run next bounded w generalizing k with
  | case1 w hpop =>
    have hall : w.size ≤ k := Nat.le_of_eq (h.toInTurn.size_eq hpop)
    refine ⟨w.items, List.prefix_rfl, fun y => ?_⟩
    rw [h.mem_items, List.take_of_length_le hall, List.take_of_length_le (Nat.le_trans hall hj)]
  | case2 w n x rest hpop ih =>
    rcases Nat.eq_or_lt_of_le hj with rfl | hlt
    · obtain ⟨-, hi, -⟩ := h.toInTurn.take hpop
      have hprefix : w.items <+: (run next bounded ((rest.close n).addAll (next x))).items := by
        have hstep := prefix_items_addAll (next x) (rest.close n)
        rw [show (rest.close n).items = w.items from hi] at hstep
        exact hstep.trans (prefix_items_run bounded _)
      refine ⟨w.items, hprefix, fun y => ?_⟩
      obtain ⟨more, hmore⟩ := hprefix
      rw [h.mem_items, ← hmore, List.take_append_of_le_length h.le]
    · exact ih (h.turn hpop) hlt

/-! ### How many turns there are -/

/-- So many turns lead from one worklist to the other: a turn takes the number
that has waited longest, closes it and adds what follows from its item. -/
inductive Turns (next : α → List α) : Nat → Worklist α → Worklist α → Prop
  | none (w : Worklist α) : Turns next 0 w w
  | turn {n k : Nat} {x : α} {w rest w' : Worklist α} : w.pop? = some ((n, x), rest) →
      Turns next k ((rest.close n).addAll (next x)) w' → Turns next (k + 1) w w'

/-- A run comes to its end in as many turns as items have not had theirs. -/
theorem turns_run (bounded : ∃ u : List α, ∀ x, ∀ y ∈ next x, y ∈ u) (w : Worklist α) (h : w.InTurn k) :
    ∃ n, k + n = (w.run next bounded).size ∧ Turns next n w (w.run next bounded) ∧
      (w.run next bounded).pop? = none := by
  fun_induction run next bounded w generalizing k with
  | case1 w hpop => exact ⟨0, (h.size_eq hpop).symm, .none w, hpop⟩
  | case2 w m x rest hpop ih =>
    obtain ⟨-, -, hturn⟩ := h.take hpop
    obtain ⟨n, hsize, hturns, hend⟩ := ih hturn.addAll
    exact ⟨n + 1, by omega, .turn hpop hturns, hend⟩

/-- Turns after which nothing waits are a whole run. -/
theorem run_of_turns (bounded : ∃ u : List α, ∀ x, ∀ y ∈ next x, y ∈ u) {w' : Worklist α}
    (h : Turns next k w w') (hend : w'.pop? = none) : w.run next bounded = w' := by
  induction h with
  | none w =>
    rw [run]
    split
    · rfl
    · rename_i hpop
      cases hend.symm.trans hpop
  | turn hturn _ ih =>
    rw [run]
    split
    · rename_i hpop
      cases hturn.symm.trans hpop
    · rename_i hpop
      cases hturn.symm.trans hpop
      exact ih hend

end Worklist

/-- A search takes each item it lists in one turn. -/
theorem turns_search {α : Type} [DecidableEq α] {next : α → List α}
    {bounded : ∃ u : List α, ∀ x, ∀ y ∈ next x, y ∈ u} {starts : List α} :
    ∃ w, Worklist.Turns next w.size (Worklist.empty.addAll starts) w ∧ w.pop? = none ∧
      w.items = search next bounded starts := by
  have hstart : (Worklist.empty.addAll starts).Turned next starts 0 := Worklist.turned_addAll starts
  obtain ⟨n, hsize, hturns, hend⟩ := Worklist.turns_run bounded _ hstart.toInTurn
  rw [Nat.zero_add] at hsize
  subst hsize
  exact ⟨_, hturns, hend, rfl⟩

/-- The items a search starts from and what follows from the first `k` it lists
make up a front of its list. -/
theorem search_front {α : Type} [DecidableEq α] {next : α → List α}
    {bounded : ∃ u : List α, ∀ x, ∀ y ∈ next x, y ∈ u} {starts : List α} (k : Nat) :
    ∃ front, front <+: search next bounded starts ∧
      ∀ y, y ∈ front ↔ y ∈ starts ∨ ∃ x ∈ (search next bounded starts).take k, y ∈ next x :=
  (Worklist.turned_addAll starts).front bounded _ (Nat.zero_le k)

namespace Automaton

/-- A move of the state `p` leads to `q`. -/
def Leads (a : Automaton) (p q : Nat) : Prop := ∃ s, a.state? p = some s ∧ ∃ e ∈ s.moves.entries, q ∈ e.2

/-- `n` moves, one after the other, lead from the initial state to `q`. The ids
on the way have states; `q` need not have one. -/
inductive Walk (a : Automaton) : Nat → Nat → Prop
  | start : Walk a 0 a.initial.id
  | move {n p q : Nat} : Walk a n p → a.Leads p q → Walk a (n + 1) q

/-- The length of the shortest walk to `q`. -/
noncomputable def distance (a : Automaton) (q : Nat) : Nat := sInf {n | a.Walk n q}

/-- The place of the first id listed that leads to `q`. -/
noncomputable def foundFrom (a : Automaton) (q : Nat) : Nat :=
  sInf {i | ∃ p ∈ a.reachable, a.Leads p q ∧ a.reachable.idxOf p = i}

variable {a : Automaton} {p q r n : Nat}

theorem leads_iff : a.Leads p q ↔ q ∈ a.successors p := by
  unfold Leads successors Moves.targets
  cases a.state? p with
  | none => simp
  | some s => simp [IdSet.mem_toList]

theorem reachable_cons (a : Automaton) : ∃ rest, a.reachable = a.initial.id :: rest := search_singleton _

theorem mem_reachable_iff_walk : q ∈ a.reachable ↔ ∃ n, a.Walk n q := by
  constructor
  · intro h
    refine search_induction (P := fun q => ∃ n, a.Walk n q) (fun p hp => ?_) (fun p hp q hq => ?_) q h
    · obtain rfl := List.mem_singleton.1 hp
      exact ⟨0, .start⟩
    · obtain ⟨n, hn⟩ := hp
      exact ⟨n + 1, .move hn (leads_iff.2 hq)⟩
  · rintro ⟨n, hn⟩
    induction hn with
    | start => exact mem_search_of_start (List.mem_singleton_self _)
    | move _ hq ih => exact mem_search_of_next ih (leads_iff.1 hq)

/-- The initial state and what the first `k` ids lead to make up a front of the
list. -/
theorem front_of_leads (a : Automaton) (k : Nat) : ∃ front, front <+: a.reachable ∧
    ∀ q, q ∈ front ↔ q = a.initial.id ∨ ∃ p ∈ a.reachable.take k, a.Leads p q := by
  obtain ⟨front, hfront, hmem⟩ : ∃ front, front <+: a.reachable ∧
      ∀ q, q ∈ front ↔ q ∈ [a.initial.id] ∨ ∃ p ∈ a.reachable.take k, q ∈ a.successors p := search_front k
  refine ⟨front, hfront, fun q => ?_⟩
  simp only [hmem, List.mem_singleton, leads_iff]

/-- So do the ends of the walks of at most `n` moves. -/
theorem front_of_walks (a : Automaton) : ∀ n, ∃ front, front <+: a.reachable ∧
    ∀ q, q ∈ front ↔ ∃ m ≤ n, a.Walk m q
  | 0 => by
    obtain ⟨rest, hrest⟩ := a.reachable_cons
    refine ⟨[a.initial.id], ⟨rest, hrest.symm⟩, fun q => ?_⟩
    rw [List.mem_singleton]
    constructor
    · rintro rfl
      exact ⟨0, Nat.le_refl 0, .start⟩
    · rintro ⟨m, hm, hwalk⟩
      obtain rfl := Nat.le_zero.1 hm
      cases hwalk
      rfl
  | n + 1 => by
    obtain ⟨near, hnear, hwalks⟩ := front_of_walks a n
    obtain ⟨front, hfront, hmem⟩ := a.front_of_leads near.length
    refine ⟨front, hfront, fun q => ?_⟩
    rw [hmem, ← List.prefix_iff_eq_take.1 hnear]
    constructor
    · rintro (rfl | ⟨p, hp, hq⟩)
      · exact ⟨0, Nat.zero_le _, .start⟩
      · obtain ⟨m, hm, hwalk⟩ := (hwalks p).1 hp
        exact ⟨m + 1, Nat.succ_le_succ hm, .move hwalk hq⟩
    · rintro ⟨m, hm, hwalk⟩
      cases hwalk with
      | start => exact Or.inl rfl
      | move hp hq => exact Or.inr ⟨_, (hwalks _).2 ⟨_, Nat.le_of_succ_le_succ hm, hp⟩, hq⟩

/-! ### Nearer ids come first -/

theorem walk_distance (h : q ∈ a.reachable) : a.Walk (a.distance q) q :=
  Nat.sInf_mem (mem_reachable_iff_walk.1 h)

theorem distance_le (hr : r ∈ a.reachable) (hle : a.reachable.idxOf q ≤ a.reachable.idxOf r) :
    a.distance q ≤ a.distance r := by
  obtain ⟨front, hfront, hmem⟩ := a.front_of_walks (a.distance r)
  have hrfront : r ∈ front := (hmem r).2 ⟨_, Nat.le_refl _, walk_distance hr⟩
  have hqfront : q ∈ front :=
    (mem_front_iff hfront).2 (Nat.lt_of_le_of_lt hle ((mem_front_iff hfront).1 hrfront))
  obtain ⟨m, hm, hwalk⟩ := (hmem q).1 hqfront
  exact Nat.le_trans (Nat.sInf_le hwalk) hm

/-! ### Found earlier, listed earlier -/

/-- All but the initial state are found from some id. -/
theorem exists_foundFrom (h : q ∈ a.reachable) (hne : q ≠ a.initial.id) :
    ∃ p ∈ a.reachable, a.Leads p q ∧ a.reachable.idxOf p = a.foundFrom q := by
  obtain ⟨n, hn⟩ := mem_reachable_iff_walk.1 h
  have hplaces : {i | ∃ p ∈ a.reachable, a.Leads p q ∧ a.reachable.idxOf p = i}.Nonempty := by
    cases hn with
    | start => exact absurd rfl hne
    | move hp hq => exact ⟨_, _, mem_reachable_iff_walk.2 ⟨_, hp⟩, hq, rfl⟩
  exact Nat.sInf_mem hplaces

theorem foundFrom_le (hr : r ∈ a.reachable) (hq : q ≠ a.initial.id) (hne : r ≠ a.initial.id)
    (hle : a.reachable.idxOf q ≤ a.reachable.idxOf r) : a.foundFrom q ≤ a.foundFrom r := by
  obtain ⟨p, hp, hlead, hplace⟩ := exists_foundFrom hr hne
  obtain ⟨front, hfront, hmem⟩ := a.front_of_leads (a.foundFrom r + 1)
  have htake : ∀ x ∈ a.reachable, x ∈ a.reachable.take (a.foundFrom r + 1) ↔
      a.reachable.idxOf x ≤ a.foundFrom r := fun x hx => by
    have hlt := List.idxOf_lt_length_of_mem hx
    rw [mem_front_iff (List.take_prefix _ _), List.length_take]
    omega
  have hrfront : r ∈ front := (hmem r).2 (Or.inr ⟨p, (htake p hp).2 (Nat.le_of_eq hplace), hlead⟩)
  have hqfront : q ∈ front :=
    (mem_front_iff hfront).2 (Nat.lt_of_le_of_lt hle ((mem_front_iff hfront).1 hrfront))
  obtain ⟨p', hp', hlead'⟩ := ((hmem q).1 hqfront).resolve_left hq
  have hlisted : p' ∈ a.reachable := List.mem_of_mem_take hp'
  exact Nat.le_trans (Nat.sInf_le ⟨p', hlisted, hlead', rfl⟩) ((htake p' hlisted).1 hp')

/-- Only the initial state is as near as the initial state. -/
theorem eq_initial_of_distance (h : q ∈ a.reachable) (hdist : a.distance q = a.distance a.initial.id) :
    q = a.initial.id := by
  have hzero : a.distance a.initial.id = 0 := Nat.le_zero.1 (Nat.sInf_le .start)
  have hwalk := walk_distance h
  rw [hdist, hzero] at hwalk
  cases hwalk
  rfl

theorem idxOf_lt_of_foundFrom (hq : q ∈ a.reachable) (hr : r ∈ a.reachable) (hdist : a.distance q = a.distance r)
    (hfound : a.foundFrom q < a.foundFrom r) : a.reachable.idxOf q < a.reachable.idxOf r := by
  -- neither is the initial state, which is alone at its distance
  have hqroot : q ≠ a.initial.id := by
    rintro rfl
    have hrroot := eq_initial_of_distance hr hdist.symm
    exact Nat.lt_irrefl _ (hrroot ▸ hfound)
  have hrroot : r ≠ a.initial.id := by
    rintro rfl
    exact hqroot (eq_initial_of_distance hq hdist)
  by_contra hnot
  exact Nat.not_le.2 hfound (foundFrom_le hq hrroot hqroot (Nat.le_of_not_lt hnot))

/-- The list of reachable ids starts with the initial state, repeats none, and
holds the ends of all walks. The nearer an id is, the earlier it is listed, and
of ids equally near, the one first that is found from an earlier one. -/
theorem reachable_breadth_first (a : Automaton) :
    a.reachable.head? = some a.initial.id ∧ a.reachable.Nodup ∧
      (∀ q, q ∈ a.reachable ↔ ∃ n, a.Walk n q) ∧
      a.reachable.Pairwise (fun q r => a.distance q ≤ a.distance r) ∧
      ∀ q ∈ a.reachable, ∀ r ∈ a.reachable, a.distance q = a.distance r → a.foundFrom q < a.foundFrom r →
        a.reachable.idxOf q < a.reachable.idxOf r := by
  obtain ⟨rest, hrest⟩ := a.reachable_cons
  have hnodup : a.reachable.Nodup := nodup_search
  refine ⟨by rw [hrest]; rfl, hnodup, fun q => mem_reachable_iff_walk, ?_, fun q hq r hr =>
    idxOf_lt_of_foundFrom hq hr⟩
  refine List.pairwise_iff_getElem.2 fun i j hi hj hij => distance_le (List.getElem_mem hj) ?_
  rw [hnodup.idxOf_getElem, hnodup.idxOf_getElem]
  exact Nat.le_of_lt hij

end Automaton
end TokenAutomata
