/-
# Laws of joining and renaming moves

Moves remember the order in which their symbols came into use, so two ways to
make the same map may differ in that order. The laws here are equations of
moves with their order. Adding on a symbol that is in use changes its entry in
place, so it can be done before or after other additions
(`Moves.add_right_comm`); joining moves adds the entries one after the other,
so it does not matter how joins are grouped (`Moves.union_assoc`). Renaming
destinations goes through all of this.

Key theorems: `Moves.add_add`, `Moves.add_right_comm`, `Moves.union_assoc`,
`Moves.rename_union`, `Moves.rename_congr`.
-/
import TokenAutomata.Proofs.MovesAsMap

namespace TokenAutomata

/-! ### Sets -/

namespace IdSet

variable {f g : Nat → Nat} {s t : IdSet}

theorem empty_union (s : IdSet) : (∅ : IdSet).union s = s := by
  ext x
  simp

theorem union_comm (s t : IdSet) : s.union t = t.union s := by
  ext x
  simp [or_comm]

theorem map_singleton (f : Nat → Nat) (x : Nat) : (singleton x).map f = singleton (f x) := by
  ext y
  simp [eq_comm]

theorem map_union (f : Nat → Nat) (s t : IdSet) : (s.union t).map f = (s.map f).union (t.map f) := by
  ext y
  simp only [mem_map, mem_union, or_and_right, exists_or]

theorem map_map (f g : Nat → Nat) (s : IdSet) : (s.map f).map g = s.map (g ∘ f) := by
  ext y
  simp

theorem map_id (s : IdSet) : s.map id = s := by
  ext x
  simp

theorem map_congr (h : ∀ x ∈ s, f x = g x) : s.map f = s.map g := by
  ext y
  rw [mem_map, mem_map]
  exact exists_congr fun x => and_congr_right fun hx => by rw [h x hx]

end IdSet

namespace Moves

variable {m n : Moves} {c d : Symbol} {s t : IdSet} {f g : Nat → Nat}

/-! ### Adding twice -/

theorem upsert_upsert (c : Symbol) (f g : IdSet → IdSet) : ∀ entries : List (Symbol × IdSet),
    upsert c g (upsert c f entries) = upsert c (g ∘ f) entries
  | [] => by simp [upsert]
  | (d, ids) :: rest => by
    by_cases h : d = c
    · simp only [upsert, if_pos h]
      rfl
    · simp only [upsert, if_neg h, upsert_upsert c f g rest]

theorem add_add (m : Moves) (c : Symbol) (s t : IdSet) : (m.add c s).add c t = m.add c (s.union t) := by
  have hunion : (fun ids : IdSet => ids.union t) ∘ (fun ids : IdSet => ids.union s) =
      fun ids : IdSet => ids.union (s.union t) := by
    funext ids
    ext x
    simp [or_assoc]
  rw [add, add, upsert_upsert, hunion]
  rfl

/-- A symbol in use keeps its place, so entries of two symbols can be changed in
either order. -/
theorem upsert_comm (hcd : c ≠ d) (f g : IdSet → IdSet) : ∀ {entries : List (Symbol × IdSet)},
    c ∈ entries.map Prod.fst → upsert c f (upsert d g entries) = upsert d g (upsert c f entries)
  | [], hc => absurd hc List.not_mem_nil
  | (b, ids) :: rest, hc => by
    rw [List.map_cons, List.mem_cons] at hc
    by_cases hbc : b = c
    · subst hbc
      simp only [upsert, if_neg hcd, if_pos]
    · have hrest : c ∈ rest.map Prod.fst := hc.resolve_left fun he => hbc he.symm
      by_cases hbd : b = d
      · subst hbd
        simp only [upsert, if_neg hbc, if_pos]
      · simp only [upsert, if_neg hbc, if_neg hbd, upsert_comm hcd f g hrest]

theorem add_right_comm (hc : c ∈ m.symbols) : (m.add d t).add c s = (m.add c s).add d t := by
  by_cases hcd : c = d
  · subst hcd
    rw [add_add, add_add, IdSet.union_comm]
  · exact congrArg mk (upsert_comm hcd _ _ hc)

theorem mem_symbols_add : c ∈ (m.add d s).symbols ↔ c ∈ m.symbols ∨ c = d := by
  rw [add, symbols_upsert]
  by_cases hd : d ∈ m.symbols
  · rw [if_pos hd]
    exact ⟨Or.inl, fun hc => hc.elim id fun he => he ▸ hd⟩
  · rw [if_neg hd, List.mem_append, List.mem_singleton]

/-! ### Joining -/

theorem foldl_add_right_comm : ∀ {entries : List (Symbol × IdSet)} {m : Moves}, c ∈ m.symbols →
    (entries.foldl (fun m (d, ids) => m.add d ids) m).add c s =
      entries.foldl (fun m (d, ids) => m.add d ids) (m.add c s)
  | [], _, _ => rfl
  | (d, ids) :: rest, m, hc => by
    have hstep : (m.add c s).add d ids = (m.add d ids).add c s := (add_right_comm hc).symm
    rw [List.foldl_cons, List.foldl_cons, foldl_add_right_comm (mem_symbols_add.2 (Or.inl hc))]
    dsimp only
    rw [hstep]

theorem foldl_add_upsert : ∀ (entries : List (Symbol × IdSet)) (m : Moves),
    (upsert c (·.union s) entries).foldl (fun m (d, ids) => m.add d ids) m =
      (entries.foldl (fun m (d, ids) => m.add d ids) m).add c s
  | [], m => by
    rw [upsert, List.foldl_cons, IdSet.empty_union]
    rfl
  | (d, ids) :: rest, m => by
    unfold upsert
    split
    · rename_i hd
      subst hd
      have hstep : m.add d (ids.union s) = (m.add d ids).add d s := (add_add m d ids s).symm
      rw [List.foldl_cons, List.foldl_cons]
      dsimp only
      rw [hstep]
      exact (foldl_add_right_comm (mem_symbols_add.2 (Or.inr rfl))).symm
    · rw [List.foldl_cons, List.foldl_cons, foldl_add_upsert rest]

/-- What is added to the moves joined in is added to all of them. -/
theorem union_add (m n : Moves) (c : Symbol) (s : IdSet) : m.union (n.add c s) = (m.union n).add c s :=
  foldl_add_upsert n.entries m

theorem union_assoc (m n p : Moves) : (m.union n).union p = m.union (n.union p) :=
  List.foldl_hom (m.union ·) fun n e => (union_add m n e.1 e.2).symm

/-! ### Renaming -/

theorem map_upsert {f f' h : IdSet → IdSet} (hf : ∀ ids, h (f ids) = f' (h ids)) (hempty : h ∅ = ∅)
    (c : Symbol) : ∀ entries : List (Symbol × IdSet),
      (upsert c f entries).map (fun (d, ids) => (d, h ids)) =
        upsert c f' (entries.map fun (d, ids) => (d, h ids))
  | [] => by simp only [upsert, List.map_cons, List.map_nil, hf, hempty]
  | (d, ids) :: rest => by
    by_cases hd : d = c
    · simp only [upsert, List.map_cons, if_pos hd, hf]
    · simp only [upsert, List.map_cons, if_neg hd, map_upsert hf hempty c rest]

theorem rename_add (m : Moves) (c : Symbol) (s : IdSet) (g : Nat → Nat) :
    (m.add c s).rename g = (m.rename g).add c (s.map g) :=
  congrArg mk (map_upsert (fun ids => IdSet.map_union g ids s) rfl c m.entries)

theorem rename_insert (m : Moves) (c : Symbol) (x : Nat) (g : Nat → Nat) :
    (m.insert c x).rename g = (m.rename g).insert c (g x) := by
  rw [insert, rename_add, IdSet.map_singleton]
  rfl

theorem rename_union (m n : Moves) (g : Nat → Nat) :
    (m.union n).rename g = (m.rename g).union (n.rename g) := by
  have hentries : (n.rename g).entries = n.entries.map fun e => (e.1, e.2.map g) := rfl
  rw [union, union, hentries, List.foldl_map]
  exact (List.foldl_hom (Moves.rename · g) fun m e => (rename_add m e.1 e.2 g).symm).symm

theorem rename_rename (m : Moves) (f g : Nat → Nat) : (m.rename f).rename g = m.rename (g ∘ f) := by
  rw [rename, rename, List.map_map, rename]
  congr 1
  exact List.map_congr_left fun e _ => congrArg (Prod.mk e.1) (IdSet.map_map f g e.2)

theorem rename_id (m : Moves) : m.rename id = m :=
  congrArg mk ((List.map_congr_left fun e _ => congrArg (Prod.mk e.1) (IdSet.map_id e.2)).trans
    (List.map_id _))

/-- Only the new names of destinations play a part. -/
theorem rename_congr (h : ∀ q ∈ m.targets, f q = g q) : m.rename f = m.rename g := by
  refine congrArg mk (List.map_congr_left fun e he => congrArg (Prod.mk e.1) ?_)
  exact IdSet.map_congr fun q hq => h q (List.mem_flatMap.2 ⟨e, he, hq⟩)

end Moves
end TokenAutomata
