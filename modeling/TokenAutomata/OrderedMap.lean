/-
# Maps that remember the order of their keys

A map lists its entries in the order in which their keys came into it. No key
is listed twice, which the map itself carries, so an entry is what is found
under its key (`OrderedMap.get?_eq_some_iff`). A key keeps its place when its
value is replaced, and the other keys keep theirs when it is removed.

Where nothing asks for the order, the map stands for one without any.

Key definitions: `OrderedMap`, `OrderedMap.get?`, `OrderedMap.insert`,
`OrderedMap.remove`, `OrderedMap.retain`, `OrderedMap.mapValues`,
`OrderedMap.modify`.
Key theorems: `OrderedMap.get?_eq_some_iff`, `OrderedMap.get?_insert`,
`OrderedMap.get?_remove`, `OrderedMap.entries_insert_of_not_mem`.
-/
namespace TokenAutomata

/-- Keys with their values, each key once. -/
structure OrderedMap (κ ν : Type) where
  entries : List (κ × ν)
  nodup : (entries.map Prod.fst).Nodup
deriving DecidableEq

namespace OrderedMap

variable {κ ν : Type}

theorem ext {m n : OrderedMap κ ν} (h : m.entries = n.entries) : m = n := by
  cases m
  cases n
  cases h
  rfl

/-- No key has a value. -/
def empty : OrderedMap κ ν := ⟨[], List.nodup_nil⟩

instance : EmptyCollection (OrderedMap κ ν) := ⟨empty⟩

def keys (m : OrderedMap κ ν) : List κ := m.entries.map Prod.fst

def values (m : OrderedMap κ ν) : List ν := m.entries.map Prod.snd

def size (m : OrderedMap κ ν) : Nat := m.entries.length

/-- Only the entries that pass a test. -/
def retain (m : OrderedMap κ ν) (keep : κ → ν → Bool) : OrderedMap κ ν :=
  ⟨m.entries.filter fun e => keep e.1 e.2, m.nodup.sublist (List.filter_sublist.map _)⟩

/-- Every value changed in its place, which the key may have a say in. -/
def mapWithKey (m : OrderedMap κ ν) (f : κ → ν → ν) : OrderedMap κ ν :=
  ⟨m.entries.map fun e => (e.1, f e.1 e.2), by
    rw [List.map_map]
    exact m.nodup⟩

/-- Every value changed in its place. -/
def mapValues (m : OrderedMap κ ν) (f : ν → ν) : OrderedMap κ ν := m.mapWithKey fun _ => f

variable [DecidableEq κ]

def get? (m : OrderedMap κ ν) (k : κ) : Option ν := m.entries.lookup k

def contains (m : OrderedMap κ ν) (k : κ) : Bool := (m.get? k).isSome

/-- Without a key and its value. -/
def remove (m : OrderedMap κ ν) (k : κ) : OrderedMap κ ν := m.retain fun k' _ => k' ≠ k

/-- The value of one key changed in its place, if there is one. -/
def modify (m : OrderedMap κ ν) (k : κ) (f : ν → ν) : OrderedMap κ ν :=
  m.mapWithKey fun k' v => if k' = k then f v else v

theorem get?_eq_some_iff {m : OrderedMap κ ν} {k : κ} {v : ν} : m.get? k = some v ↔ (k, v) ∈ m.entries := by
  unfold get?
  obtain ⟨entries, h⟩ := m
  induction entries with
  | nil => simp
  | cons e rest ih =>
    obtain ⟨k', v'⟩ := e
    rw [List.map_cons, List.nodup_cons] at h
    rw [List.lookup_cons, List.mem_cons, Prod.mk.injEq]
    by_cases hk : k = k'
    · subst hk
      have hnot : (k, v) ∉ rest := fun hm => h.1 (List.mem_map.2 ⟨(k, v), hm, rfl⟩)
      simp [hnot, eq_comm]
    · have hne : (k == k') = false := by simpa using hk
      simpa [hne, hk] using ih h.2

theorem mem_keys_iff {m : OrderedMap κ ν} {k : κ} : k ∈ m.keys ↔ ∃ v, m.get? k = some v := by
  simp [keys, get?_eq_some_iff]

theorem contains_iff {m : OrderedMap κ ν} {k : κ} : m.contains k = true ↔ k ∈ m.keys := by
  rw [contains, Option.isSome_iff_exists, mem_keys_iff]

theorem get?_eq_none_iff {m : OrderedMap κ ν} {k : κ} : m.get? k = none ↔ k ∉ m.keys := by
  rw [mem_keys_iff]
  cases m.get? k <;> simp

theorem mem_values_iff {m : OrderedMap κ ν} {v : ν} : v ∈ m.values ↔ ∃ k, m.get? k = some v := by
  simp [values, get?_eq_some_iff]

/-- Puts a value under a key: in the place of the one that is there, or last. -/
def insert (m : OrderedMap κ ν) (k : κ) (v : ν) : OrderedMap κ ν :=
  if h : k ∈ m.keys then m.modify k fun _ => v
  else ⟨m.entries ++ [(k, v)], by
    rw [List.map_append, List.nodup_append]
    refine ⟨m.nodup, List.pairwise_singleton _ _, fun x hx y hy hxy => h ?_⟩
    obtain rfl : y = k := List.mem_singleton.1 hy
    exact hxy ▸ hx⟩

/-! ### What is found -/

@[simp] theorem get?_empty (k : κ) : (∅ : OrderedMap κ ν).get? k = none := rfl

theorem get?_retain {m : OrderedMap κ ν} {keep : κ → ν → Bool} {k : κ} {v : ν} :
    (m.retain keep).get? k = some v ↔ m.get? k = some v ∧ keep k v = true := by
  simp [get?_eq_some_iff, retain]

theorem get?_remove (m : OrderedMap κ ν) (k k' : κ) :
    (m.remove k).get? k' = if k' = k then none else m.get? k' := by
  refine Option.ext fun v => ?_
  rw [remove, get?_retain]
  by_cases h : k' = k <;> simp [h]

theorem get?_mapWithKey (m : OrderedMap κ ν) (f : κ → ν → ν) (k : κ) :
    (m.mapWithKey f).get? k = (m.get? k).map (f k) := by
  refine Option.ext fun v => ?_
  rw [get?_eq_some_iff, Option.map_eq_some_iff]
  simp only [mapWithKey, List.mem_map, Prod.mk.injEq, get?_eq_some_iff]
  constructor
  · rintro ⟨⟨k', v'⟩, hm, rfl, rfl⟩
    exact ⟨v', hm, rfl⟩
  · rintro ⟨v', hm, rfl⟩
    exact ⟨(k, v'), hm, rfl, rfl⟩

theorem get?_modify (m : OrderedMap κ ν) (k : κ) (f : ν → ν) (k' : κ) :
    (m.modify k f).get? k' = if k' = k then (m.get? k).map f else m.get? k' := by
  rw [modify, get?_mapWithKey]
  by_cases h : k' = k
  · simp [h]
  · simp [h]

theorem entries_insert_of_not_mem {m : OrderedMap κ ν} {k : κ} {v : ν} (h : k ∉ m.keys) :
    (m.insert k v).entries = m.entries ++ [(k, v)] := by
  unfold insert
  rw [dif_neg h]

/-- Where a key has a value, that one is replaced. -/
theorem insert_of_mem {m : OrderedMap κ ν} {k : κ} {v : ν} (h : k ∈ m.keys) :
    m.insert k v = m.modify k fun _ => v := by
  unfold insert
  rw [dif_pos h]

theorem get?_insert (m : OrderedMap κ ν) (k : κ) (v : ν) (k' : κ) :
    (m.insert k v).get? k' = if k' = k then some v else m.get? k' := by
  by_cases hk : k ∈ m.keys
  · obtain ⟨v', hv'⟩ := mem_keys_iff.1 hk
    rw [insert_of_mem hk, get?_modify, hv']
    rfl
  · refine Option.ext fun w => ?_
    rw [get?_eq_some_iff, entries_insert_of_not_mem hk]
    by_cases h : k' = k
    · subst h
      have hnot : (k', w) ∉ m.entries := fun hm => hk (List.mem_map.2 ⟨(k', w), hm, rfl⟩)
      simp [hnot, eq_comm]
    · simp [h, get?_eq_some_iff]

/-! ### Keys and values in order -/

theorem keys_insert_of_not_mem {m : OrderedMap κ ν} {k : κ} {v : ν} (h : k ∉ m.keys) :
    (m.insert k v).keys = m.keys ++ [k] := by
  rw [keys, entries_insert_of_not_mem h, List.map_append]
  rfl

theorem values_insert_of_not_mem {m : OrderedMap κ ν} {k : κ} {v : ν} (h : k ∉ m.keys) :
    (m.insert k v).values = m.values ++ [v] := by
  rw [values, entries_insert_of_not_mem h, List.map_append]
  rfl

@[simp] theorem keys_modify (m : OrderedMap κ ν) (k : κ) (f : ν → ν) : (m.modify k f).keys = m.keys := by
  unfold keys modify mapWithKey
  rw [List.map_map]
  rfl

omit [DecidableEq κ] in
@[simp] theorem keys_mapWithKey (m : OrderedMap κ ν) (f : κ → ν → ν) : (m.mapWithKey f).keys = m.keys := by
  unfold keys mapWithKey
  rw [List.map_map]
  rfl

end OrderedMap
end TokenAutomata
