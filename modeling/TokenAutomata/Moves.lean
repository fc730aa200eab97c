/-
# Moves: where a state leads on which symbol

The moves of a state map each symbol to a set of state ids. They remember the
order in which the symbols came into use: a symbol keeps its place while its
set is not empty, and a symbol whose set becomes empty is dropped, so it
comes last when it is used again.

As a map, `m` is the function `m.dests`; each operation is described by what
it does to that function (`dests_add`, `dests_assign`, `dests_union`).

Key definitions: `Moves`, `Moves.dests`, `Moves.add`, `Moves.assign`,
`Moves.forget`, `Moves.union`, `Moves.rename`, `Moves.WellFormed`.
Key theorems: `Moves.dests_add`, `Moves.dests_assign`, `Moves.dests_union`.
-/
import TokenAutomata.IdSet

namespace TokenAutomata

/-- A symbol of the alphabet is one character. -/
abbrev Symbol := Char

/-- The symbols in use, each with its destinations. -/
structure Moves where
  entries : List (Symbol × IdSet) := []
deriving DecidableEq, Inhabited

namespace Moves

/-- A symbol is listed once, and only with destinations. -/
structure WellFormed (m : Moves) : Prop where
  nodup : (m.entries.map Prod.fst).Nodup
  nonempty : ∀ e ∈ m.entries, e.2 ≠ ∅

/-- The destinations on a symbol. -/
def dests (m : Moves) (c : Symbol) : IdSet := (m.entries.lookup c).getD ∅

/-- The symbols in use, in order. -/
def symbols (m : Moves) : List Symbol := m.entries.map Prod.fst

/-- All destinations, symbol by symbol. -/
def targets (m : Moves) : List Nat := m.entries.flatMap (·.2.toList)

def isEmpty (m : Moves) : Bool := m.entries.isEmpty

/-- No symbol has two destinations. -/
def isDeterministic (m : Moves) : Bool := m.entries.all (·.2.size ≤ 1)

/-- The same map, whatever the order of the symbols. -/
def sameMap (m n : Moves) : Bool :=
  m.entries.length == n.entries.length &&
    m.entries.all fun (c, ids) => n.entries.lookup c == some ids

/-! ### Changing one symbol -/

/-- Changes the entry of `c` at its place; a new entry comes last. -/
def upsert (c : Symbol) (f : IdSet → IdSet) : List (Symbol × IdSet) → List (Symbol × IdSet)
  | [] => [(c, f ∅)]
  | (d, ids) :: rest => if d = c then (d, f ids) :: rest else (d, ids) :: upsert c f rest

theorem lookup_cons (d c : Symbol) (ids : IdSet) (rest : List (Symbol × IdSet)) :
    ((c, ids) :: rest).lookup d = if d = c then some ids else rest.lookup d := by
  rw [List.lookup_cons]
  by_cases h : d = c
  · simp [h]
  · have hdc : (d == c) = false := by simpa using h
    simp [hdc, h]

theorem lookup_upsert (c d : Symbol) (f : IdSet → IdSet) : ∀ entries : List (Symbol × IdSet),
    (upsert c f entries).lookup d =
      if d = c then some (f ((entries.lookup c).getD ∅)) else entries.lookup d
  | [] => by simp [upsert, lookup_cons]
  | (b, ids) :: rest => by
    have ih := lookup_upsert c d f rest
    unfold upsert
    split
    · grind [lookup_cons]
    · grind [lookup_cons]

/-- More destinations on `c`. -/
def add (m : Moves) (c : Symbol) (ids : IdSet) : Moves := ⟨upsert c (·.union ids) m.entries⟩

theorem dests_add (m : Moves) (c d : Symbol) (ids : IdSet) :
    (m.add c ids).dests d = if d = c then (m.dests c).union ids else m.dests d := by
  unfold dests add
  rw [lookup_upsert]
  split <;> simp

/-- One more destination on `c`. -/
def insert (m : Moves) (c : Symbol) (id : Nat) : Moves := m.add c (.singleton id)

/-- These destinations on `c`, whatever they were; without any, `c` goes out
of use. -/
def assign (m : Moves) (c : Symbol) (ids : IdSet) : Moves :=
  if ids.isEmpty then ⟨m.entries.filter (·.1 ≠ c)⟩ else ⟨upsert c (fun _ => ids) m.entries⟩

theorem lookup_filter_ne (c d : Symbol) : ∀ entries : List (Symbol × IdSet),
    (entries.filter (·.1 ≠ c)).lookup d = if d = c then none else entries.lookup d
  | [] => by simp
  | (b, ids) :: rest => by
    have ih := lookup_filter_ne c d rest
    rw [List.filter_cons]
    split <;> grind [lookup_cons]

theorem dests_assign (m : Moves) (c d : Symbol) (ids : IdSet) :
    (m.assign c ids).dests d = if d = c then ids else m.dests d := by
  unfold assign
  split
  · rename_i h
    have hids := IdSet.isEmpty_iff.1 h
    unfold dests
    rw [lookup_filter_ne]
    split <;> simp [hids]
  · unfold dests
    rw [lookup_upsert]
    split <;> simp

/-! ### Changing all symbols -/

/-- Without the destination `id`; symbols that led only there go out of use. -/
def forget (m : Moves) (id : Nat) : Moves :=
  ⟨(m.entries.map fun (c, ids) => (c, ids.erase id)).filter (!·.2.isEmpty)⟩

/-- The moves of both; the symbols of `m` come first. -/
def union (m n : Moves) : Moves := n.entries.foldl (fun m (c, ids) => m.add c ids) m

/-- Every destination under its new id. -/
def rename (m : Moves) (f : Nat → Nat) : Moves :=
  ⟨m.entries.map fun (c, ids) => (c, ids.map f)⟩

theorem dests_foldl_add (d : Symbol) : ∀ (entries : List (Symbol × IdSet)) (m : Moves),
    (entries.map Prod.fst).Nodup →
    (entries.foldl (fun m (c, ids) => m.add c ids) m).dests d =
      (m.dests d).union ((entries.lookup d).getD ∅)
  | [], m, _ => by
    ext a
    simp
  | (c, ids) :: rest, m, h => by
    rw [List.map_cons, List.nodup_cons] at h
    rw [List.foldl_cons, dests_foldl_add d rest _ h.2, dests_add]
    by_cases hd : d = c
    · subst hd
      have hnone : rest.lookup d = none := by
        rw [List.lookup_eq_none_iff]
        intro e he
        have hne : d ≠ e.1 := fun heq => h.1 (List.mem_map.2 ⟨e, he, heq.symm⟩)
        simpa using hne
      ext a
      simp [hnone]
    · simp [lookup_cons, hd]

theorem dests_union (m : Moves) {n : Moves} (hn : n.WellFormed) (d : Symbol) :
    (m.union n).dests d = (m.dests d).union (n.dests d) :=
  dests_foldl_add d n.entries m hn.nodup

/-! ### All destinations -/

theorem mem_targets_upsert {id : Nat} {c : Symbol} {ids : IdSet} :
    ∀ {entries : List (Symbol × IdSet)},
      id ∈ (upsert c (·.union ids) entries).flatMap (·.2.toList) ↔
        id ∈ entries.flatMap (·.2.toList) ∨ id ∈ ids
  | [] => by simp [upsert, IdSet.mem_toList]
  | (d, s) :: rest => by
    have ih : id ∈ (upsert c (·.union ids) rest).flatMap (·.2.toList) ↔ _ := mem_targets_upsert
    unfold upsert
    split
    · simp only [List.flatMap_cons, List.mem_append, IdSet.mem_toList, IdSet.mem_union]
      grind
    · simp only [List.flatMap_cons, List.mem_append, ih]
      grind

theorem mem_targets_add {m : Moves} {id : Nat} {c : Symbol} {ids : IdSet} :
    id ∈ (m.add c ids).targets ↔ id ∈ m.targets ∨ id ∈ ids :=
  mem_targets_upsert

theorem mem_targets_foldl_add {id : Nat} : ∀ {entries : List (Symbol × IdSet)} {m : Moves},
    id ∈ (entries.foldl (fun m (c, ids) => m.add c ids) m).targets ↔
      id ∈ m.targets ∨ id ∈ entries.flatMap (·.2.toList)
  | [], m => by simp
  | (c, ids) :: rest, m => by
    rw [List.foldl_cons, mem_targets_foldl_add, mem_targets_add, List.flatMap_cons, List.mem_append,
      IdSet.mem_toList]
    grind

@[simp] theorem mem_targets_union {m n : Moves} {id : Nat} :
    id ∈ (m.union n).targets ↔ id ∈ m.targets ∨ id ∈ n.targets :=
  mem_targets_foldl_add

end Moves
end TokenAutomata
