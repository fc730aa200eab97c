/-
# Moves are a map

Well-formed moves list each symbol once and never with an empty set, so they
are determined by where they lead: an entry is listed just if its set is what
`Moves.dests` gives and is not empty (`Moves.mem_entries_iff`). So moves that
lead to the same ids are equal but for the order of their symbols
(`Moves.sameMap_iff`). Every operation on moves keeps them well-formed.

Key theorems: `Moves.mem_entries_iff`, `Moves.sameMap_iff`,
`Moves.mem_targets_iff`, `Moves.WellFormed.add`, `Moves.WellFormed.union`,
`Moves.mem_dests_forget`, `Moves.dests_rename`.
-/
import Mathlib.Data.List.Nodup
import Mathlib.Data.List.Perm.Subperm
import TokenAutomata.Moves

namespace TokenAutomata
namespace IdSet

theorem ne_empty_iff {s : IdSet} : s ≠ ∅ ↔ ∃ a, a ∈ s := by
  constructor
  · intro h
    by_contra hn
    exact h (ext fun a => ⟨fun ha => absurd ⟨a, ha⟩ hn, fun ha => absurd ha (not_mem_empty a)⟩)
  · rintro ⟨a, ha⟩ rfl
    exact not_mem_empty a ha

theorem singleton_ne_empty (x : Nat) : singleton x ≠ ∅ := ne_empty_iff.2 ⟨x, mem_singleton.2 rfl⟩

theorem union_ne_empty {s t : IdSet} (h : t ≠ ∅) : s.union t ≠ ∅ := by
  obtain ⟨a, ha⟩ := ne_empty_iff.1 h
  exact ne_empty_iff.2 ⟨a, mem_union.2 (Or.inr ha)⟩

theorem map_ne_empty {f : Nat → Nat} {s : IdSet} (h : s ≠ ∅) : s.map f ≠ ∅ := by
  obtain ⟨a, ha⟩ := ne_empty_iff.1 h
  exact ne_empty_iff.2 ⟨f a, mem_map.2 ⟨a, ha, rfl⟩⟩

theorem mem_of_least? {s : IdSet} {x : Nat} (h : s.least? = some x) : x ∈ s :=
  List.mem_of_head? h

theorem least?_eq_none_iff {s : IdSet} : s.least? = none ↔ s = ∅ := by
  rw [least?, List.head?_eq_none_iff, ← isEmpty_iff, isEmpty, List.isEmpty_iff]

theorem eq_of_size_le_one {s : IdSet} (h : s.size ≤ 1) {x y : Nat} (hx : x ∈ s) (hy : y ∈ s) :
    x = y := by
  unfold size at h
  rw [← mem_toList] at hx hy
  cases hs : s.toList with
  | nil =>
    rw [hs] at hx
    cases hx
  | cons z rest =>
    rw [hs, List.length_cons] at h
    have hrest : rest = [] := List.eq_nil_of_length_eq_zero (by omega)
    rw [hs, hrest, List.mem_singleton] at hx hy
    rw [hx, hy]

end IdSet

namespace Moves

/-! ### Entries -/

theorem lookup_eq_some_iff {c : Symbol} {ids : IdSet} : ∀ {entries : List (Symbol × IdSet)},
    (entries.map Prod.fst).Nodup → (entries.lookup c = some ids ↔ (c, ids) ∈ entries)
  | [], _ => by simp
  | (d, s) :: rest, h => by
    rw [List.map_cons, List.nodup_cons] at h
    rw [lookup_cons, List.mem_cons, Prod.mk.injEq]
    by_cases hcd : c = d
    · subst hcd
      have hnone : (c, ids) ∉ rest := fun hm => h.1 (List.mem_map.2 ⟨_, hm, rfl⟩)
      simp [hnone, eq_comm]
    · simp [hcd, lookup_eq_some_iff h.2]

/-- A symbol in use is listed with its destinations. -/
theorem mem_entries_iff {m : Moves} (hm : m.WellFormed) {c : Symbol} {ids : IdSet} :
    (c, ids) ∈ m.entries ↔ m.dests c = ids ∧ ids ≠ ∅ := by
  rw [← lookup_eq_some_iff hm.nodup, dests]
  constructor
  · intro h
    rw [h]
    exact ⟨rfl, hm.nonempty (c, ids) ((lookup_eq_some_iff hm.nodup).1 h)⟩
  · rintro ⟨rfl, hne⟩
    cases h : m.entries.lookup c with
    | none =>
      rw [h] at hne
      exact absurd rfl hne
    | some s => rfl

theorem mem_symbols_iff {m : Moves} (hm : m.WellFormed) {c : Symbol} :
    c ∈ m.symbols ↔ m.dests c ≠ ∅ := by
  constructor
  · intro h
    obtain ⟨⟨d, ids⟩, he, rfl⟩ := List.mem_map.1 h
    obtain ⟨hdests, hne⟩ := (mem_entries_iff hm).1 he
    rw [hdests]
    exact hne
  · intro h
    exact List.mem_map.2 ⟨_, (mem_entries_iff hm).2 ⟨rfl, h⟩, rfl⟩

theorem isDeterministic_iff {m : Moves} (hm : m.WellFormed) :
    m.isDeterministic = true ↔ ∀ c, (m.dests c).size ≤ 1 := by
  simp only [isDeterministic, List.all_eq_true, decide_eq_true_eq]
  constructor
  · intro h c
    by_cases hc : m.dests c = ∅
    · rw [hc]
      exact Nat.zero_le 1
    · exact h _ ((mem_entries_iff hm).2 ⟨rfl, hc⟩)
  · intro h e he
    rw [← ((mem_entries_iff hm).1 he).1]
    exact h e.1

theorem isEmpty_eq_false_iff {m : Moves} (hm : m.WellFormed) :
    m.isEmpty = false ↔ ∃ c, m.dests c ≠ ∅ := by
  have hsymbols : m.isEmpty = m.symbols.isEmpty := List.isEmpty_map.symm
  rw [hsymbols, List.isEmpty_eq_false_iff_exists_mem]
  exact exists_congr fun c => mem_symbols_iff hm

/-- Moves that lead to the same ids have the same entries, but for their order. -/
theorem perm_entries_iff {m n : Moves} (hm : m.WellFormed) (hn : n.WellFormed) :
    m.entries.Perm n.entries ↔ ∀ c, m.dests c = n.dests c := by
  rw [List.perm_ext_iff_of_nodup hm.nodup.of_map hn.nodup.of_map]
  constructor
  · intro h c
    by_contra hne
    by_cases hc : m.dests c = ∅
    · have hc' : n.dests c ≠ ∅ := fun he => hne (hc.trans he.symm)
      exact hne ((mem_entries_iff hm).1 ((h _).2 ((mem_entries_iff hn).2 ⟨rfl, hc'⟩))).1
    · exact hne ((mem_entries_iff hn).1 ((h _).1 ((mem_entries_iff hm).2 ⟨rfl, hc⟩))).1.symm
  · rintro h ⟨c, ids⟩
    rw [mem_entries_iff hm, mem_entries_iff hn, h]

theorem sameMap_iff {m n : Moves} (hm : m.WellFormed) (hn : n.WellFormed) :
    m.sameMap n = true ↔ ∀ c, m.dests c = n.dests c := by
  rw [← perm_entries_iff hm hn]
  simp only [sameMap, Bool.and_eq_true, List.all_eq_true, beq_iff_eq, lookup_eq_some_iff hn.nodup]
  constructor
  · rintro ⟨hlength, hsub⟩
    have hnodup : m.entries.Nodup := hm.nodup.of_map
    exact (hnodup.subperm hsub).perm_of_length_le (Nat.le_of_eq hlength.symm)
  · intro h
    exact ⟨h.length_eq, fun e he => h.mem_iff.1 he⟩

theorem mem_dests_lookup {entries : List (Symbol × IdSet)} {c : Symbol} {id : Nat}
    (h : id ∈ (entries.lookup c).getD ∅) : ∃ ids, (c, ids) ∈ entries ∧ id ∈ ids := by
  induction entries with
  | nil => exact absurd h (IdSet.not_mem_empty id)
  | cons e rest ih =>
    obtain ⟨d, s⟩ := e
    rw [lookup_cons] at h
    by_cases hcd : c = d
    · subst hcd
      rw [if_pos rfl] at h
      exact ⟨s, List.mem_cons_self, h⟩
    · rw [if_neg hcd] at h
      obtain ⟨ids, hm, hid⟩ := ih h
      exact ⟨ids, List.mem_cons_of_mem _ hm, hid⟩

/-- Where moves lead is among their destinations. -/
theorem mem_targets_of_mem_dests {m : Moves} {c : Symbol} {id : Nat} (h : id ∈ m.dests c) :
    id ∈ m.targets := by
  obtain ⟨ids, hm, hid⟩ := mem_dests_lookup h
  exact List.mem_flatMap.2 ⟨(c, ids), hm, hid⟩

theorem mem_targets_iff {m : Moves} (hm : m.WellFormed) {id : Nat} :
    id ∈ m.targets ↔ ∃ c, id ∈ m.dests c := by
  constructor
  · intro h
    obtain ⟨⟨c, ids⟩, he, hid⟩ := List.mem_flatMap.1 h
    rw [((mem_entries_iff hm).1 he).1.symm] at hid
    exact ⟨c, hid⟩
  · rintro ⟨c, hc⟩
    exact mem_targets_of_mem_dests hc

/-! ### Changing one symbol -/

theorem keys_upsert (c : Symbol) (f : IdSet → IdSet) : ∀ entries : List (Symbol × IdSet),
    (upsert c f entries).map Prod.fst =
      if c ∈ entries.map Prod.fst then entries.map Prod.fst else entries.map Prod.fst ++ [c]
  | [] => rfl
  | (d, s) :: rest => by
    unfold upsert
    by_cases hdc : d = c
    · simp [hdc]
    · have hcd : ¬ c = d := fun h => hdc h.symm
      rw [if_neg hdc, List.map_cons, keys_upsert c f rest]
      by_cases hc : c ∈ rest.map Prod.fst
      · simp only [List.map_cons, List.mem_cons, hc, or_true, if_true]
      · simp only [List.map_cons, List.mem_cons, hc, hcd, or_self, if_false, List.cons_append]

theorem symbols_upsert (c : Symbol) (f : IdSet → IdSet) (m : Moves) :
    (mk (upsert c f m.entries)).symbols = if c ∈ m.symbols then m.symbols else m.symbols ++ [c] :=
  keys_upsert c f m.entries

theorem nonempty_upsert {c : Symbol} {f : IdSet → IdSet} (hf : ∀ s, f s ≠ ∅) :
    ∀ {entries : List (Symbol × IdSet)}, (∀ e ∈ entries, e.2 ≠ ∅) →
      ∀ e ∈ upsert c f entries, e.2 ≠ ∅
  | [], _, e, he => by
    rw [upsert, List.mem_singleton] at he
    rw [he]
    exact hf ∅
  | (d, s) :: rest, h, e, he => by
    have hrest : ∀ e ∈ rest, e.2 ≠ ∅ := fun e he => h e (List.mem_cons_of_mem _ he)
    unfold upsert at he
    split at he
    · rcases List.mem_cons.1 he with rfl | he
      · exact hf s
      · exact hrest e he
    · rcases List.mem_cons.1 he with rfl | he
      · exact h _ List.mem_cons_self
      · exact nonempty_upsert hf hrest e he

namespace WellFormed

variable {m n : Moves}

theorem empty : ({} : Moves).WellFormed := ⟨List.nodup_nil, by simp⟩

/-- The symbol of an entry is not that of an earlier one. -/
theorem not_mem_before {before rest : List (Symbol × IdSet)} {c : Symbol} {ids : IdSet}
    (h : (Moves.mk (before ++ (c, ids) :: rest)).WellFormed) : c ∉ before.map Prod.fst := by
  have hnodup := h.nodup
  rw [List.map_append, List.map_cons, List.nodup_append] at hnodup
  exact fun hc => hnodup.2.2 c hc c List.mem_cons_self rfl

theorem upsert {entries : List (Symbol × IdSet)} {c : Symbol} {f : IdSet → IdSet}
    (h : (Moves.mk entries).WellFormed) (hf : ∀ s, f s ≠ ∅) :
    (Moves.mk (upsert c f entries)).WellFormed := by
  refine ⟨?_, nonempty_upsert hf h.nonempty⟩
  show ((Moves.upsert c f entries).map Prod.fst).Nodup
  rw [keys_upsert]
  split
  · exact h.nodup
  · rename_i hc
    exact List.nodup_append.2 ⟨h.nodup, List.nodup_singleton c, fun a ha b hb hab =>
      hc (List.mem_singleton.1 hb ▸ hab ▸ ha)⟩

theorem add (hm : m.WellFormed) (c : Symbol) {ids : IdSet} (hids : ids ≠ ∅) :
    (m.add c ids).WellFormed :=
  hm.upsert fun _ => IdSet.union_ne_empty hids

theorem insert (hm : m.WellFormed) (c : Symbol) (id : Nat) : (m.insert c id).WellFormed :=
  hm.add c (IdSet.singleton_ne_empty id)

theorem filter (hm : m.WellFormed) (keep : Symbol × IdSet → Bool) :
    (Moves.mk (m.entries.filter keep)).WellFormed :=
  ⟨hm.nodup.sublist (List.filter_sublist.map _), fun e he => hm.nonempty e (List.mem_filter.1 he).1⟩

theorem assign (hm : m.WellFormed) (c : Symbol) (ids : IdSet) : (m.assign c ids).WellFormed := by
  unfold Moves.assign
  split
  · exact hm.filter _
  · rename_i h
    exact hm.upsert fun _ he => h (IdSet.isEmpty_iff.2 he)

theorem forget (hm : m.WellFormed) (id : Nat) : (m.forget id).WellFormed := by
  refine ⟨?_, fun e he => ?_⟩
  · have h : (m.entries.map fun e => (e.1, e.2.erase id)).map Prod.fst = m.entries.map Prod.fst := by
      rw [List.map_map]
      rfl
    exact (h ▸ hm.nodup).sublist (List.filter_sublist.map _)
  · have hne := (List.mem_filter.1 he).2
    intro hempty
    rw [IdSet.isEmpty_iff.2 hempty] at hne
    cases hne

theorem foldl_add : ∀ {entries : List (Symbol × IdSet)} {m : Moves}, m.WellFormed →
    (∀ e ∈ entries, e.2 ≠ ∅) → (entries.foldl (fun m (c, ids) => m.add c ids) m).WellFormed
  | [], _, hm, _ => hm
  | (c, ids) :: rest, m, hm, h => by
    rw [List.foldl_cons]
    exact foldl_add (hm.add c (h (c, ids) List.mem_cons_self))
      fun e he => h e (List.mem_cons_of_mem _ he)

theorem union (hm : m.WellFormed) (hn : n.WellFormed) : (m.union n).WellFormed :=
  foldl_add hm hn.nonempty

theorem rename (hm : m.WellFormed) (f : Nat → Nat) : (m.rename f).WellFormed := by
  refine ⟨?_, fun e he => ?_⟩
  · have h : (m.rename f).entries.map Prod.fst = m.entries.map Prod.fst := by
      rw [Moves.rename, List.map_map]
      rfl
    rw [h]
    exact hm.nodup
  · obtain ⟨e', he', rfl⟩ := List.mem_map.1 he
    exact IdSet.map_ne_empty (hm.nonempty e' he')

end WellFormed

/-! ### What the operations do to the map -/

@[simp] theorem dests_empty (c : Symbol) : ({} : Moves).dests c = ∅ := rfl

theorem mem_dests_insert {m : Moves} {c d : Symbol} {id x : Nat} :
    x ∈ (m.insert c id).dests d ↔ x ∈ m.dests d ∨ d = c ∧ x = id := by
  rw [insert, dests_add]
  by_cases h : d = c
  · subst h
    rw [if_pos rfl, IdSet.mem_union, IdSet.mem_singleton]
    simp
  · rw [if_neg h]
    simp [h]

/-- A symbol leads on as before, only not to `id`. -/
theorem mem_dests_forget {m : Moves} (hm : m.WellFormed) {c : Symbol} {id x : Nat} :
    x ∈ (m.forget id).dests c ↔ x ∈ m.dests c ∧ x ≠ id := by
  have hmem : ∀ s, (c, s) ∈ (m.forget id).entries ↔ ∃ t, (c, t) ∈ m.entries ∧ t.erase id = s ∧ s ≠ ∅ := by
    intro s
    rw [forget, List.mem_filter, List.mem_map]
    constructor
    · rintro ⟨⟨⟨d, t⟩, ht, he⟩, hne⟩
      obtain ⟨rfl, rfl⟩ := Prod.mk.injEq _ _ _ _ ▸ he
      refine ⟨t, ht, rfl, fun hs => ?_⟩
      rw [IdSet.isEmpty_iff.2 hs] at hne
      cases hne
    · rintro ⟨t, ht, rfl, hne⟩
      refine ⟨⟨(c, t), ht, rfl⟩, ?_⟩
      have : (t.erase id).isEmpty ≠ true := fun h => hne (IdSet.isEmpty_iff.1 h)
      simpa using this
  constructor
  · intro hx
    have hs := (mem_entries_iff (hm.forget id)).2 ⟨rfl, IdSet.ne_empty_iff.2 ⟨x, hx⟩⟩
    obtain ⟨t, ht, he, -⟩ := (hmem _).1 hs
    rw [← he, IdSet.mem_erase] at hx
    rw [((mem_entries_iff hm).1 ht).1]
    exact hx
  · rintro ⟨hx, hne⟩
    have hxe : x ∈ (m.dests c).erase id := IdSet.mem_erase.2 ⟨hx, hne⟩
    have ht := (mem_entries_iff hm).2 ⟨rfl, IdSet.ne_empty_iff.2 ⟨x, hx⟩⟩
    have hs := (hmem _).2 ⟨_, ht, rfl, IdSet.ne_empty_iff.2 ⟨x, hxe⟩⟩
    rw [((mem_entries_iff (hm.forget id)).1 hs).1]
    exact hxe

theorem lookup_map_snd (f : IdSet → IdSet) (c : Symbol) : ∀ entries : List (Symbol × IdSet),
    (entries.map fun (d, ids) => (d, f ids)).lookup c = (entries.lookup c).map f
  | [] => rfl
  | (d, ids) :: rest => by
    rw [List.map_cons, lookup_cons, lookup_cons, lookup_map_snd f c rest]
    split <;> rfl

theorem dests_rename (m : Moves) (f : Nat → Nat) (c : Symbol) :
    (m.rename f).dests c = (m.dests c).map f := by
  unfold dests rename
  rw [lookup_map_snd]
  cases m.entries.lookup c <;> rfl

end Moves
end TokenAutomata
