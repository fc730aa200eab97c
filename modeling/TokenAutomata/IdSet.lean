/-
# Sets of state ids

States are numbered, and a set of state ids is the strictly ascending list of
its members. So a set has one form: two sets with the same members are equal
(`IdSet.ext`), and the members are listed in their order as numbers. Every
operation is described by the members of its result.

Key definitions: `IdSet`, `IdSet.insert`, `IdSet.erase`, `IdSet.union`,
`IdSet.ofList`, `IdSet.map`, `IdSet.subsets`.
Key theorems: `IdSet.ext`, `IdSet.mem_insert`, `IdSet.mem_erase`,
`IdSet.mem_union`, `IdSet.mem_ofList`, `IdSet.mem_map`, `IdSet.mem_subsets`.
-/
namespace TokenAutomata

/-- A finite set of state ids, as the ascending list of its members. -/
structure IdSet where
  toList : List Nat
  ascending : toList.Pairwise (· < ·)
deriving DecidableEq

namespace IdSet

instance : Membership Nat IdSet := ⟨fun s x => x ∈ s.toList⟩

instance (x : Nat) (s : IdSet) : Decidable (x ∈ s) :=
  inferInstanceAs (Decidable (x ∈ s.toList))

theorem mem_toList {x : Nat} {s : IdSet} : x ∈ s.toList ↔ x ∈ s := Iff.rfl

/-- An ascending list is determined by its members. -/
theorem ascending_ext {xs ys : List Nat} (hx : xs.Pairwise (· < ·)) (hy : ys.Pairwise (· < ·))
    (h : ∀ a, a ∈ xs ↔ a ∈ ys) : xs = ys :=
  List.Perm.eq_of_pairwise (fun _ _ _ _ hab hba => absurd hab (Nat.lt_asymm hba)) hx hy
    ((List.perm_ext_iff_of_nodup (hx.imp Nat.ne_of_lt) (hy.imp Nat.ne_of_lt)).2 h)

@[ext] theorem ext {s t : IdSet} (h : ∀ a, a ∈ s ↔ a ∈ t) : s = t := by
  cases s with
  | mk xs hx =>
    cases t with
    | mk ys hy =>
      have : xs = ys := ascending_ext hx hy h
      subst this
      rfl

/-! ### Small sets -/

/-- The set without members. -/
def empty : IdSet := ⟨[], List.Pairwise.nil⟩

instance : EmptyCollection IdSet := ⟨empty⟩

instance : Inhabited IdSet := ⟨∅⟩

@[simp] theorem not_mem_empty (a : Nat) : a ∉ (∅ : IdSet) := List.not_mem_nil

@[simp] theorem toList_empty : (∅ : IdSet).toList = [] := rfl

/-- The set with one member. -/
def singleton (x : Nat) : IdSet := ⟨[x], List.pairwise_singleton _ _⟩

@[simp] theorem mem_singleton {a x : Nat} : a ∈ singleton x ↔ a = x := List.mem_singleton

@[simp] theorem toList_singleton (x : Nat) : (singleton x).toList = [x] := rfl

def isEmpty (s : IdSet) : Bool := s.toList.isEmpty

theorem isEmpty_iff {s : IdSet} : s.isEmpty = true ↔ s = ∅ := by
  cases s with
  | mk xs hx => cases xs <;> simp [isEmpty, EmptyCollection.emptyCollection, empty]

def size (s : IdSet) : Nat := s.toList.length

/-- The least member. -/
def least? (s : IdSet) : Option Nat := s.toList.head?

/-! ### Insertion -/

/-- Puts `x` at its place in an ascending list, unless it is there. -/
def place (x : Nat) : List Nat → List Nat
  | [] => [x]
  | y :: ys => if x < y then x :: y :: ys else if x = y then y :: ys else y :: place x ys

theorem mem_place {a x : Nat} : ∀ {xs : List Nat}, a ∈ place x xs ↔ a = x ∨ a ∈ xs
  | [] => by simp [place]
  | y :: ys => by
    unfold place
    split
    · simp
    · split
      · rename_i h
        subst h
        simp
      · simp only [List.mem_cons, mem_place]
        grind

theorem ascending_place {x : Nat} : ∀ {xs : List Nat}, xs.Pairwise (· < ·) →
    (place x xs).Pairwise (· < ·)
  | [], _ => List.pairwise_singleton _ _
  | y :: ys, h => by
    rw [List.pairwise_cons] at h
    unfold place
    split
    · rename_i hxy
      refine List.pairwise_cons.2 ⟨fun a ha => ?_, List.pairwise_cons.2 h⟩
      rcases List.mem_cons.1 ha with rfl | ha
      · exact hxy
      · exact Nat.lt_trans hxy (h.1 a ha)
    · split
      · exact List.pairwise_cons.2 h
      · refine List.pairwise_cons.2 ⟨fun a ha => ?_, ascending_place h.2⟩
        rcases mem_place.1 ha with rfl | ha
        · omega
        · exact h.1 a ha

def insert (x : Nat) (s : IdSet) : IdSet := ⟨place x s.toList, ascending_place s.ascending⟩

@[simp] theorem mem_insert {a x : Nat} {s : IdSet} : a ∈ s.insert x ↔ a = x ∨ a ∈ s := mem_place

/-- The members of a list. -/
def ofList (xs : List Nat) : IdSet := xs.foldr insert ∅

@[simp] theorem mem_ofList {a : Nat} : ∀ {xs : List Nat}, a ∈ ofList xs ↔ a ∈ xs
  | [] => by simp [ofList]
  | x :: xs => by
    have ih : a ∈ ofList xs ↔ a ∈ xs := mem_ofList
    simp only [ofList, List.foldr_cons, mem_insert, List.mem_cons] at ih ⊢
    rw [ih]

/-- The members of a set, listed, give it back. -/
@[simp] theorem ofList_toList (s : IdSet) : ofList s.toList = s := ext fun _ => mem_ofList

/-! ### Removal, union and renaming -/

def erase (x : Nat) (s : IdSet) : IdSet :=
  ⟨s.toList.filter (· ≠ x), s.ascending.filter _⟩

@[simp] theorem mem_erase {a x : Nat} {s : IdSet} : a ∈ s.erase x ↔ a ∈ s ∧ a ≠ x := by
  show a ∈ s.toList.filter (· ≠ x) ↔ _
  simp [mem_toList]

def union (s t : IdSet) : IdSet := t.toList.foldr insert s

theorem mem_foldr_insert {a : Nat} {s : IdSet} : ∀ {xs : List Nat},
    a ∈ xs.foldr insert s ↔ a ∈ s ∨ a ∈ xs
  | [] => by simp
  | x :: xs => by
    simp only [List.foldr_cons, mem_insert, mem_foldr_insert, List.mem_cons]
    grind

@[simp] theorem mem_union {a : Nat} {s t : IdSet} : a ∈ s.union t ↔ a ∈ s ∨ a ∈ t :=
  mem_foldr_insert

/-- The set of the images. -/
def map (f : Nat → Nat) (s : IdSet) : IdSet := ofList (s.toList.map f)

@[simp] theorem mem_map {b : Nat} {f : Nat → Nat} {s : IdSet} :
    b ∈ s.map f ↔ ∃ a ∈ s, f a = b := by
  simp [map, mem_toList]

/-! ### All sets over some ids -/

/-- All sets whose members are in a list. -/
def subsets : List Nat → List IdSet
  | [] => [∅]
  | x :: xs => subsets xs ++ (subsets xs).map (insert x)

theorem mem_subsets : ∀ {xs : List Nat} {s : IdSet}, (∀ a ∈ s, a ∈ xs) → s ∈ subsets xs
  | [], s, h => by
    have hs : s = ∅ := ext fun a => ⟨fun ha => absurd (h a ha) List.not_mem_nil,
      fun ha => absurd ha (not_mem_empty a)⟩
    simp [subsets, hs]
  | x :: xs, s, h => by
    refine List.mem_append.2 ?_
    by_cases hx : x ∈ s
    · right
      refine List.mem_map.2 ⟨s.erase x, mem_subsets fun a ha => ?_, ext fun a => ?_⟩
      · obtain ⟨ha, hne⟩ := mem_erase.1 ha
        exact (List.mem_cons.1 (h a ha)).resolve_left hne
      · rw [mem_insert, mem_erase]
        by_cases ha : a = x
        · simp [ha, hx]
        · simp [ha]
    · left
      refine mem_subsets fun a ha => (List.mem_cons.1 (h a ha)).resolve_left fun he => hx ?_
      exact he ▸ ha

end IdSet
end TokenAutomata
