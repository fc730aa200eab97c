/-
# States changed step by step

What is done to a state from the time it was new is a list of changes. A state
merged in is told by what was done to it, so it may be any state, also the one
that is changed. A change that is refused changes nothing.

Followed on the map from symbols to destinations alone, a change is an
insertion, an assignment, a removal or a union (`State.Change.onMap`), and the
state leads where the map does (`State.dests_changed`). The map tells the order
of the symbols too: they stand in the order of the changes with which they last
came into use, and those that came into use by one merge as in the state merged
in (`State.symbols_inOrder`).

Key definitions: `Moves.Continues`, `State.Change`, `State.made`,
`State.mapAfter`, `State.EntersLast`, `State.Precedes`, `State.FollowsMap`.
Key theorems: `Moves.symbols_union`, `State.continues_apply`,
`State.dests_changed`, `State.symbols_inOrder`, `State.changed_followsMap`.
-/
import Mathlib.Data.List.Induction
import Mathlib.Logic.Function.Basic
import TokenAutomata.Proofs.PrunedStates

namespace TokenAutomata

/-! ### The order of the symbols -/

namespace Moves

variable {m n : Moves} {x : Symbol}

/-- The symbols of `m` still in use in `n` keep their order, and those that come
into use follow them, ordered by `r`. -/
def Continues (r : Symbol → Symbol → Prop) (m n : Moves) : Prop :=
  ∃ kept fresh, n.symbols = kept ++ fresh ∧ kept.Sublist m.symbols ∧ (∀ x ∈ fresh, x ∉ m.symbols) ∧
    fresh.Pairwise r

variable {r : Symbol → Symbol → Prop}

theorem Continues.of_sublist (h : n.symbols.Sublist m.symbols) : Continues r m n :=
  ⟨n.symbols, [], (List.append_nil _).symm, h, fun _ hx => absurd hx List.not_mem_nil, .nil⟩

theorem Continues.upsert (x : Symbol) (f : IdSet → IdSet) (m : Moves) :
    Continues r m ⟨Moves.upsert x f m.entries⟩ := by
  have hsymbols := symbols_upsert x f m
  by_cases hx : x ∈ m.symbols
  · rw [if_pos hx] at hsymbols
    exact .of_sublist (hsymbols ▸ List.Sublist.refl _)
  · rw [if_neg hx] at hsymbols
    exact ⟨m.symbols, [x], hsymbols, .refl _, fun y hy => List.mem_singleton.1 hy ▸ hx,
      List.pairwise_singleton r x⟩

theorem Continues.assign (x : Symbol) (ids : IdSet) (m : Moves) : Continues r m (m.assign x ids) := by
  unfold Moves.assign
  split
  · exact .of_sublist (List.filter_sublist.map _)
  · exact .upsert x _ m

theorem Continues.forget (hm : m.WellFormed) (id : Nat) : Continues r m (m.forget id) :=
  .of_sublist (symbols_forget hm id ▸ List.filter_sublist)

theorem symbols_foldl_add : ∀ {entries : List (Symbol × IdSet)} {m : Moves}, (entries.map Prod.fst).Nodup →
    (entries.foldl (fun m (x, ids) => m.add x ids) m).symbols =
      m.symbols ++ (entries.map Prod.fst).filter (· ∉ m.symbols)
  | [], m, _ => (List.append_nil _).symm
  | (x, ids) :: rest, m, h => by
    rw [List.map_cons, List.nodup_cons] at h
    have hadd : (m.add x ids).symbols = _ := symbols_upsert x _ m
    rw [List.foldl_cons, symbols_foldl_add h.2, List.map_cons]
    dsimp only
    by_cases hx : x ∈ m.symbols
    · rw [if_pos hx] at hadd
      rw [hadd, List.filter_cons_of_neg (by simpa using hx)]
    · rw [if_neg hx] at hadd
      have hrest : (rest.map Prod.fst).filter (· ∉ m.symbols ++ [x]) =
          (rest.map Prod.fst).filter (· ∉ m.symbols) := List.filter_congr fun y hy => by
        have hne : y ≠ x := fun he => h.1 (he ▸ hy)
        simp [hne]
      rw [hadd, hrest, List.filter_cons_of_pos (by simpa using hx), List.append_assoc]
      rfl

/-- The symbols of `m` come first, then the others of `n`. -/
theorem symbols_union (m : Moves) (hn : n.WellFormed) :
    (m.union n).symbols = m.symbols ++ n.symbols.filter (· ∉ m.symbols) :=
  symbols_foldl_add hn.nodup

theorem pairwise_idxOf (hm : m.WellFormed) :
    m.symbols.Pairwise fun x y => m.symbols.idxOf x < m.symbols.idxOf y := by
  refine List.pairwise_iff_getElem.2 fun i j hi hj hij => ?_
  have hnodup : m.symbols.Nodup := hm.nodup
  rw [hnodup.idxOf_getElem, hnodup.idxOf_getElem]
  exact hij

theorem Continues.union (m : Moves) (hn : n.WellFormed) :
    Continues (fun x y => n.symbols.idxOf x < n.symbols.idxOf y) m (m.union n) :=
  ⟨m.symbols, _, symbols_union m hn, .refl _, fun x hx => by simpa using (List.mem_filter.1 hx).2,
    (pairwise_idxOf hn).filter _⟩

/-! ### What a change of one symbol does to the map -/

theorem dests_insert (m : Moves) (x : Symbol) (q : Nat) :
    (m.insert x q).dests = Function.update m.dests x ((m.dests x).insert q) := by
  have hunion : (m.dests x).union (.singleton q) = (m.dests x).insert q := by
    ext p
    simp [or_comm]
  funext y
  rw [insert, dests_add, Function.update_apply, hunion]

theorem dests_assign_eq (m : Moves) (x : Symbol) (ids : IdSet) :
    (m.assign x ids).dests = Function.update m.dests x ids := by
  funext y
  rw [dests_assign, Function.update_apply]

end Moves

namespace State

/-! ### Changes -/

/-- A change to a state. A state merged in is given by its id, its label and
what was done to it, from the time it was new; one that is merged with itself,
by the changes made so far. -/
inductive Change where
  | addMove (x : Symbol) (q : Nat)
  | addDeterministicMove (x : Symbol) (q : Nat)
  | setMoves (x : Symbol) (ids : IdSet)
  | setMarker (marker : Option String)
  | forget (q : Nat)
  | mergeMarker (id : Nat) (label : String) (past : List Change)
  | mergeMoves (id : Nat) (label : String) (past : List Change)

mutual

def Change.toEdit : Change → Edit
  | .addMove x q => .addMove x q
  | .addDeterministicMove x q => .addDeterministicMove x q
  | .setMoves x ids => .setMoves x ids
  | .setMarker marker => .setMarker marker
  | .forget q => .forget q
  | .mergeMarker id label past => .mergeMarker ((new id label).changed past)
  | .mergeMoves id label past => .mergeMoves ((new id label).changed past)

/-- The state after the changes, one after the other. -/
def changed : State → List Change → State
  | s, [] => s
  | s, c :: cs => ((s.edit c.toEdit).toOption.getD s).changed cs

end

def apply (s : State) (c : Change) : State := (s.edit c.toEdit).toOption.getD s

mutual

/-- What a change does to the map from symbols to destinations. -/
def Change.onMap : Change → (Symbol → IdSet) → Symbol → IdSet
  | .addMove x q, f => Function.update f x ((f x).insert q)
  | .addDeterministicMove x q, f => if f x = ∅ then Function.update f x ((f x).insert q) else f
  | .setMoves x ids, f => Function.update f x ids
  | .setMarker _, f => f
  | .forget q, f => fun x => (f x).erase q
  | .mergeMarker _ _ _, f => f
  | .mergeMoves _ _ past, f => fun x => (f x).union (mapFrom (fun _ => ∅) past x)

def mapFrom : (Symbol → IdSet) → List Change → Symbol → IdSet
  | f, [] => f
  | f, c :: cs => mapFrom (c.onMap f) cs

end

/-- The map after the changes, if no symbol led anywhere before. -/
def mapAfter (cs : List Change) : Symbol → IdSet := mapFrom (fun _ => ∅) cs

variable {s : State} {c : Change} {cs : List Change} {x y : Symbol} {k : Nat}

/-- A new state after some changes. -/
def made (id : Nat) (label : String) (cs : List Change) : State := (new id label).changed cs

theorem changed_concat : ∀ (s : State) (cs : List Change) (c : Change),
    s.changed (cs ++ [c]) = (s.changed cs).apply c
  | _, [], _ => by simp only [List.nil_append, changed, apply]
  | s, d :: cs, c => by
    rw [List.cons_append, changed, changed, changed_concat]

theorem id_apply (s : State) (c : Change) : (s.apply c).id = s.id := by
  unfold apply
  cases h : s.edit c.toEdit with
  | error _ => rfl
  | ok t => exact id_edit h

theorem label_apply (s : State) (c : Change) : (s.apply c).label = s.label := by
  unfold apply
  cases h : s.edit c.toEdit with
  | error _ => rfl
  | ok t => exact label_edit h

theorem id_changed : ∀ (s : State) (cs : List Change), (s.changed cs).id = s.id
  | _, [] => rfl
  | s, c :: cs => (id_changed (s.apply c) cs).trans (id_apply s c)

theorem label_changed : ∀ (s : State) (cs : List Change), (s.changed cs).label = s.label
  | _, [] => rfl
  | s, c :: cs => (label_changed (s.apply c) cs).trans (label_apply s c)

/-- A deterministic move is added where the symbol leads nowhere. -/
theorem addDeterministicMove_eq (hs : s.WellFormed) (x : Symbol) (q : Nat) :
    s.addDeterministicMove x q =
      if s.moves.dests x = ∅ then .ok (s.addMove x q) else .error (.notDeterministic s.label x) := by
  unfold addDeterministicMove
  by_cases hx : s.moves.dests x = ∅
  · rw [if_pos hx, if_neg fun hm => (Moves.mem_symbols_iff hs.moves).1 hm hx]
  · rw [if_neg hx, if_pos ((Moves.mem_symbols_iff hs.moves).2 hx)]

theorem apply_addDeterministicMove (hs : s.WellFormed) (x : Symbol) (q : Nat) :
    s.apply (.addDeterministicMove x q) = if s.moves.dests x = ∅ then s.addMove x q else s := by
  show (s.addDeterministicMove x q).toOption.getD s = _
  rw [addDeterministicMove_eq hs]
  split <;> rfl

mutual

theorem WellFormed.apply : ∀ (c : Change) {s : State}, s.WellFormed → (s.apply c).WellFormed
  | .addMove x q, _, hs => hs.addMove x q
  | .addDeterministicMove x q, s, hs => by
    rw [apply_addDeterministicMove hs]
    split
    · exact hs.addMove x q
    · exact hs
  | .setMoves x ids, _, hs => hs.setMoves x ids
  | .setMarker marker, _, hs => hs.setMarker marker
  | .forget q, _, hs => hs.forget q
  | .mergeMarker id label past, _, hs => hs.mergeMarker (WellFormed.changed past (.new id label))
  | .mergeMoves id label past, _, hs => hs.mergeMoves (WellFormed.changed past (.new id label))

theorem WellFormed.changed : ∀ (cs : List Change) {s : State}, s.WellFormed → (s.changed cs).WellFormed
  | [], _, hs => hs
  | c :: cs, _, hs => WellFormed.changed cs (WellFormed.apply c hs)

end

theorem wellFormed_made (id : Nat) (label : String) (cs : List Change) : (made id label cs).WellFormed :=
  WellFormed.changed cs (.new id label)

/-! ### The map -/

mutual

theorem dests_apply : ∀ (c : Change) {s : State}, s.WellFormed →
    (s.apply c).moves.dests = c.onMap s.moves.dests
  | .addMove x q, s, _ => Moves.dests_insert s.moves x q
  | .addDeterministicMove x q, s, hs => by
    rw [apply_addDeterministicMove hs, Change.onMap]
    split
    · exact Moves.dests_insert s.moves x q
    · rfl
  | .setMoves x ids, s, _ => Moves.dests_assign_eq s.moves x ids
  | .setMarker _, _, _ => rfl
  | .forget q, _, hs => funext (Moves.dests_forget hs.moves q)
  | .mergeMarker _ _ _, _, _ => rfl
  | .mergeMoves id label past, s, _ => by
    have hpast : (made id label past).moves.dests = _ := dests_changed past (.new id label)
    funext x
    show (s.moves.union (made id label past).moves).dests x = _
    rw [Moves.dests_union s.moves (wellFormed_made id label past).moves, hpast]
    rfl

/-- The state leads where the map does. -/
theorem dests_changed : ∀ (cs : List Change) {s : State}, s.WellFormed →
    (s.changed cs).moves.dests = mapFrom s.moves.dests cs
  | [], _, _ => rfl
  | c :: cs, s, hs => by
    rw [mapFrom, ← dests_apply c hs]
    exact dests_changed cs (WellFormed.apply c hs)

end

theorem dests_made (id : Nat) (label : String) (cs : List Change) :
    (made id label cs).moves.dests = mapAfter cs :=
  dests_changed cs (.new id label)

theorem mem_symbols_made {id : Nat} {label : String} :
    x ∈ (made id label cs).moves.symbols ↔ mapAfter cs x ≠ ∅ := by
  rw [Moves.mem_symbols_iff (wellFormed_made id label cs).moves, dests_made]

/-! ### The order of the symbols -/

/-- The symbols a change goes through, in its order. Only a merge of moves can
bring several into use. -/
def Change.merged : Change → List Symbol
  | .mergeMoves id label past => (made id label past).moves.symbols
  | _ => []

theorem continues_apply (hs : s.WellFormed) (c : Change) :
    Moves.Continues (fun x y => c.merged.idxOf x < c.merged.idxOf y) s.moves (s.apply c).moves := by
  cases c with
  | addMove x q => exact .upsert x _ s.moves
  | addDeterministicMove x q =>
    rw [apply_addDeterministicMove hs]
    split
    · exact .upsert x _ s.moves
    · exact .of_sublist (.refl _)
  | setMoves x ids => exact .assign x ids s.moves
  | setMarker marker => exact .of_sublist (.refl _)
  | forget q => exact .forget hs.moves q
  | mergeMarker id label past => exact .of_sublist (.refl _)
  | mergeMoves id label past => exact .union s.moves (wellFormed_made id label past).moves

/-- The change with number `k` brings `x` into use. -/
def Enters (cs : List Change) (x : Symbol) (k : Nat) : Prop :=
  k < cs.length ∧ mapAfter (cs.take k) x = ∅ ∧ mapAfter (cs.take (k + 1)) x ≠ ∅

/-- No later one does. -/
def EntersLast (cs : List Change) (x : Symbol) (k : Nat) : Prop :=
  Enters cs x k ∧ ∀ l, Enters cs x l → l ≤ k

/-- The symbol `x` last came into use before `y`, or by the same merge and
before `y` in the order of the state merged in. -/
def Precedes (cs : List Change) (x y : Symbol) : Prop :=
  ∃ k l, EntersLast cs x k ∧ EntersLast cs y l ∧
    (k < l ∨ k = l ∧ ∃ c, cs[k]? = some c ∧ c.merged.idxOf x < c.merged.idxOf y)

theorem enters_concat : Enters (cs ++ [c]) x k ↔
    Enters cs x k ∨ k = cs.length ∧ mapAfter cs x = ∅ ∧ mapAfter (cs ++ [c]) x ≠ ∅ := by
  have hlength : (cs ++ [c]).length = cs.length + 1 := List.length_append
  unfold Enters
  rcases Nat.lt_trichotomy k cs.length with hk | rfl | hk
  · rw [List.take_append_of_le_length hk, List.take_append_of_le_length (Nat.le_of_lt hk)]
    simp [hk, Nat.ne_of_lt hk, Nat.lt_succ_of_lt hk]
  · rw [List.take_left, ← hlength, List.take_length]
    simp
  · refine iff_of_false (fun h => ?_) fun h => ?_
    · rw [hlength] at h
      exact Nat.not_lt_of_ge (Nat.le_of_lt_succ h.1) hk
    · exact h.elim (fun h => Nat.lt_asymm hk h.1) fun h => Nat.ne_of_gt hk h.1

/-- A symbol in use cannot come into use. -/
theorem EntersLast.concat (h : EntersLast cs x k) (hx : mapAfter cs x ≠ ∅) : EntersLast (cs ++ [c]) x k :=
  ⟨enters_concat.2 (Or.inl h.1), fun l hl =>
    (enters_concat.1 hl).elim (h.2 l) fun hlast => absurd hlast.2.1 hx⟩

theorem entersLast_concat (hx : mapAfter cs x = ∅) (hnew : mapAfter (cs ++ [c]) x ≠ ∅) :
    EntersLast (cs ++ [c]) x cs.length :=
  ⟨enters_concat.2 (Or.inr ⟨rfl, hx, hnew⟩), fun _ hl =>
    (enters_concat.1 hl).elim (fun h => Nat.le_of_lt h.1) fun h => Nat.le_of_eq h.1⟩

theorem exists_entersLast : ∀ {cs : List Change}, mapAfter cs x ≠ ∅ → ∃ k, EntersLast cs x k := by
  intro cs
  induction cs using List.reverseRecOn with
  | nil => exact fun hx => absurd rfl hx
  | append_singleton cs c ih =>
    intro hx
    by_cases hold : mapAfter cs x = ∅
    · exact ⟨cs.length, entersLast_concat hold hx⟩
    · obtain ⟨k, hk⟩ := ih hold
      exact ⟨k, hk.concat hold⟩

theorem Precedes.concat (h : Precedes cs x y) (hx : mapAfter cs x ≠ ∅) (hy : mapAfter cs y ≠ ∅) :
    Precedes (cs ++ [c]) x y := by
  obtain ⟨k, l, hk, hl, horder⟩ := h
  rw [← List.getElem?_append_left hk.1.1] at horder
  exact ⟨k, l, hk.concat hx, hl.concat hy, horder⟩

theorem symbols_inOrder (id : Nat) (label : String) (cs : List Change) :
    (made id label cs).moves.symbols.Pairwise (Precedes cs) := by
  induction cs using List.reverseRecOn with
  | nil => exact .nil
  | append_singleton cs c ih =>
    obtain ⟨kept, fresh, hsymbols, hkept, hfresh, hmerged⟩ :=
      continues_apply (wellFormed_made id label cs) c
    have hlast : (made id label cs).apply c = made id label (cs ++ [c]) := (changed_concat _ cs c).symm
    rw [hlast] at hsymbols
    have hused : ∀ x ∈ kept, mapAfter cs x ≠ ∅ := fun x hx => mem_symbols_made.1 (hkept.subset hx)
    have hnew : ∀ x ∈ fresh, EntersLast (cs ++ [c]) x cs.length := fun x hx => by
      have hunused : mapAfter cs x = ∅ := not_not.1 fun hne => hfresh x hx (mem_symbols_made.2 hne)
      refine entersLast_concat hunused (mem_symbols_made.1 (?_ : x ∈ (made id label (cs ++ [c])).moves.symbols))
      rw [hsymbols]
      exact List.mem_append_right kept hx
    -- the last change brings symbols into use later than those that were in use before
    rw [hsymbols]
    refine List.pairwise_append.2 ⟨?_, ?_, fun x hx y hy => ?_⟩
    · exact (ih.sublist hkept).imp_of_mem fun hx hy h => h.concat (hused _ hx) (hused _ hy)
    · refine hmerged.imp_of_mem fun hx hy h => ⟨_, _, hnew _ hx, hnew _ hy, Or.inr ⟨rfl, c, ?_, h⟩⟩
      exact List.getElem?_concat_length
    · obtain ⟨k, hk⟩ := exists_entersLast (hused x hx)
      exact ⟨k, _, hk.concat (hused x hx), hnew y hy, Or.inl hk.1.1⟩

/-! ### All together -/

/-- The state shows what the map tells. -/
structure FollowsMap (cs : List Change) (s : State) : Prop where
  dests : ∀ x, s.moves.dests x = mapAfter cs x
  addDeterministicMove : ∀ x q, s.edit (.addDeterministicMove x q) =
    if mapAfter cs x = ∅ then .ok (s.addMove x q) else .error (.notDeterministic s.label x)
  nodup_symbols : s.moves.symbols.Nodup
  mem_symbols : ∀ x, x ∈ s.moves.symbols ↔ mapAfter cs x ≠ ∅
  inOrder : s.moves.symbols.Pairwise (Precedes cs)
  isDeterministic : s.moves.isDeterministic = true ↔ ∀ x, (mapAfter cs x).size ≤ 1
  isEmpty : s.moves.isEmpty = false ↔ ∃ x, mapAfter cs x ≠ ∅

/-- A state made by changes follows the map they make, with its symbols in the
order in which they last came into use. Two such states with one id, one label
and one marker are the same just if their maps are, whatever the order of their
symbols. -/
theorem changed_followsMap :
    (∀ (id : Nat) (label : String) (cs : List Change), FollowsMap cs (made id label cs)) ∧
      ∀ (id id' : Nat) (label label' : String) (cs cs' : List Change),
        (made id label cs).same (made id' label' cs') = true ↔ id = id' ∧ label = label' ∧
          (made id label cs).marker = (made id' label' cs').marker ∧ ∀ x, mapAfter cs x = mapAfter cs' x := by
  refine ⟨fun id label cs => ?_, fun id id' label label' cs cs' => ?_⟩
  · have hwf := wellFormed_made id label cs
    have hdests := dests_made id label cs
    refine ⟨congrFun hdests, fun x q => ?_, hwf.moves.nodup, fun x => mem_symbols_made,
      symbols_inOrder id label cs, ?_, ?_⟩
    · rw [← hdests]
      exact addDeterministicMove_eq hwf x q
    · rw [← hdests, Moves.isDeterministic_iff hwf.moves]
    · rw [← hdests, Moves.isEmpty_eq_false_iff hwf.moves]
  · have hmoves := (wellFormed_made id label cs).moves
    have hmoves' := (wellFormed_made id' label' cs').moves
    have hid : ∀ id label cs, (made id label cs).id = id := fun id label cs => id_changed (new id label) cs
    have hlabel : ∀ id label cs, (made id label cs).label = label := fun id label cs =>
      label_changed (new id label) cs
    simp only [same, Bool.and_eq_true, beq_iff_eq, Moves.sameMap_iff hmoves hmoves', hid, hlabel, dests_made,
      and_assoc]

example : (made 0 "S" [.addMove 'a' 1, .addMove 'b' 2, .forget 1, .addMove 'a' 2,
    .mergeMoves 1 "T" [.addMove 'd' 1, .addMove 'a' 1, .addMove 'c' 1]]).moves.symbols =
      ['b', 'a', 'd', 'c'] := by decide

end State
end TokenAutomata
