/-
# Joining in either grouping

Three automata can be joined from left to right, or the last two first. The
copies of a state then pass through other ids on the way, but they end at the
same ones: the states behind the initial one are counted on from `nextId`, so
only how many came before a state matters (`Automaton.joinedId_join_left`,
`Automaton.joinedId_join_right`). The initial states are merged in another
nesting, and their moves come out in the same order, since joining moves is
associative.

Labels are another matter. A copy is relabelled if its label is taken when it
comes in, and that depends on the grouping. So `Automaton.join` joins without
looking at labels, which makes it associative (`Automaton.join_assoc`), and
`Automaton.shape` leaves the labels out that may differ
(`Automaton.concat_shape`).

Key definitions: `Automaton.join`, `Automaton.shape`.
Key theorems: `Automaton.join_assoc`, `Automaton.shape_join`,
`Automaton.concat_shape`, `Automaton.concat_assoc`.
-/
import TokenAutomata.Proofs.Built
import TokenAutomata.Proofs.Joining
import TokenAutomata.Proofs.MovesAlgebra

namespace TokenAutomata

namespace State

variable {f g : Nat → Nat} {s : State}

theorem rename_rename (s : State) (f g : Nat → Nat) : (s.rename f).rename g = s.rename (g ∘ f) := by
  simp [rename, Moves.rename_rename]

theorem rename_congr (hid : f s.id = g s.id) (hmoves : ∀ q ∈ s.moves.targets, f q = g q) :
    s.rename f = s.rename g := by
  rw [rename, rename, hid, Moves.rename_congr hmoves]

/-- A state merged into another one: its marker counts if there is none yet, and
its moves are added. -/
def merge (s t : State) : State := (s.mergeMarker t).mergeMoves t

theorem merge_assoc (s t u : State) : (s.merge t).merge u = s.merge (t.merge u) := by
  simp [merge, mergeMarker, mergeMoves, Option.or_assoc, Moves.union_assoc]

theorem rename_merge (s t : State) (f : Nat → Nat) :
    (s.merge t).rename f = (s.rename f).merge (t.rename f) := by
  simp [merge, mergeMarker, mergeMoves, rename, Moves.rename_union]

def unlabelled (s : State) : State := { s with label := "" }

/-- Copies are what they copy, but for the label. -/
theorem map_unlabelled_of_relabelled {β : Type} {g : β → State} {xs : List β} {copies : List State}
    (h : List.Forall₂ (fun x t => (g x).Relabelled t) xs copies) :
    copies.map unlabelled = (xs.map g).map unlabelled := by
  induction h with
  | nil => rfl
  | @cons x t _ _ hxt _ ih =>
    obtain ⟨hid, hmarker, hmoves⟩ := hxt
    have hsame : t.unlabelled = (g x).unlabelled := by
      rw [unlabelled, unlabelled, hid, hmarker, hmoves]
    rw [List.map_cons, List.map_cons, List.map_cons, ih, hsame]

end State

namespace Automaton

variable {a b c e : Automaton} {p : Nat}

/-- `b` joined to `a`, with every label left as it is. -/
def join (a b : Automaton) : Automaton where
  initial := a.initial.merge (b.initial.rename (a.joinedId b))
  others := a.others ++ b.others.map (·.rename (a.joinedId b))
  nextId := a.nextId + b.others.length

/-- The automaton without the labels of the states behind the initial one. -/
def shape (a : Automaton) : Automaton := { a with others := a.others.map State.unlabelled }

/-! ### Ids in either grouping -/

theorem ids_join : (b.join c).ids = b.ids ++ c.others.map fun s => b.joinedId c s.id := by
  rw [ids_cons, ids_cons, join, List.map_append, List.map_map]
  rfl

section Grouping

variable (hb : b.WellFormed) (hc : c.WellFormed)

include hb hc

/-- The states of `b` are counted the same with those of `c` behind them … -/
theorem joinedId_join_left (hp : p ∈ b.ids) : a.joinedId (b.join c) p = a.joinedId b p := by
  have hnodup : (b.join c).ids.Nodup := ids_join ▸ nodup_joinedIds hb hc
  rcases mem_ids_cases hp with rfl | ⟨k, s, hs, rfl⟩
  · exact (joinedId_initial a (b.join c)).trans (joinedId_initial a b).symm
  · have hs' : (b.join c).others[k]? = some s :=
      (List.getElem?_append_left (List.getElem?_eq_some_iff.1 hs).1).trans hs
    rw [joinedId_others hnodup hs', joinedId_others hb.nodup_ids hs]

/-- … and those of `c` are counted on behind the states of `b`. -/
theorem joinedId_join_right (hp : p ∈ c.ids) :
    a.joinedId (b.join c) (b.joinedId c p) = (a.join b).joinedId c p := by
  have hnodup : (b.join c).ids.Nodup := ids_join ▸ nodup_joinedIds hb hc
  rcases mem_ids_cases hp with rfl | ⟨k, s, hs, rfl⟩
  · calc a.joinedId (b.join c) (b.joinedId c c.initial.id)
        = a.joinedId (b.join c) (b.join c).initial.id := by rw [joinedId_initial]; rfl
      _ = (a.join b).initial.id := joinedId_initial a (b.join c)
      _ = (a.join b).joinedId c c.initial.id := (joinedId_initial (a.join b) c).symm
  · have hs' : (b.join c).others[b.others.length + k]? = some (s.rename (b.joinedId c)) := by
      show (b.others ++ c.others.map (·.rename (b.joinedId c)))[b.others.length + k]? = _
      rw [List.getElem?_append_right (Nat.le_add_right _ _), Nat.add_sub_cancel_left,
        List.getElem?_map, hs]
      rfl
    calc a.joinedId (b.join c) (b.joinedId c s.id)
        = a.nextId + (b.others.length + k) := joinedId_others hnodup hs'
      _ = (a.join b).nextId + k := (Nat.add_assoc _ _ _).symm
      _ = (a.join b).joinedId c s.id := (joinedId_others hc.nodup_ids hs).symm

variable (hbc : b.Closed) (hcc : c.Closed)

include hbc hcc

/-- Without a look at labels the grouping does not matter. -/
theorem join_assoc (a : Automaton) : (a.join b).join c = a.join (b.join c) := by
  have htarget : ∀ {d : Automaton} {s : State} {q : Nat}, d.Closed → s ∈ d.states → q ∈ s.moves.targets →
      q ∈ d.ids := fun hd hs hq => hd _ (mem_targets_of_mem_states hs hq)
  have hleft : ∀ s ∈ b.states, s.rename (a.joinedId (b.join c)) = s.rename (a.joinedId b) :=
    fun s hs => State.rename_congr (joinedId_join_left hb hc (List.mem_map_of_mem hs))
      fun q hq => joinedId_join_left hb hc (htarget hbc hs hq)
  have hright : ∀ s ∈ c.states, (s.rename (b.joinedId c)).rename (a.joinedId (b.join c)) =
      s.rename ((a.join b).joinedId c) := fun s hs => by
    rw [State.rename_rename]
    exact State.rename_congr (joinedId_join_right hb hc (List.mem_map_of_mem hs))
      fun q hq => joinedId_join_right hb hc (htarget hcc hs hq)
  have hinitial : ((a.join b).join c).initial = (a.join (b.join c)).initial := by
    calc (a.initial.merge (b.initial.rename (a.joinedId b))).merge
          (c.initial.rename ((a.join b).joinedId c))
        = a.initial.merge ((b.initial.rename (a.joinedId b)).merge
            (c.initial.rename ((a.join b).joinedId c))) := State.merge_assoc _ _ _
      _ = a.initial.merge ((b.initial.merge (c.initial.rename (b.joinedId c))).rename
            (a.joinedId (b.join c))) := by
          rw [State.rename_merge, hleft _ List.mem_cons_self, hright _ List.mem_cons_self]
  have hothers : ((a.join b).join c).others = (a.join (b.join c)).others := by
    show (a.others ++ b.others.map _) ++ c.others.map _ = a.others ++ (b.others ++ c.others.map _).map _
    rw [List.append_assoc, List.map_append, List.map_map]
    congr 2
    · exact List.map_congr_left fun s hs => (hleft s (List.mem_cons_of_mem _ hs)).symm
    · exact List.map_congr_left fun s hs => (hright s (List.mem_cons_of_mem _ hs)).symm
  have hnext : ((a.join b).join c).nextId = (a.join (b.join c)).nextId := by
    show a.nextId + b.others.length + c.others.length = a.nextId + (b.others ++ c.others.map _).length
    rw [List.length_append, List.length_map, Nat.add_assoc]
  cases h : (a.join b).join c
  cases h' : a.join (b.join c)
  rw [h, h'] at hinitial hothers hnext
  exact congr (congr (congrArg mk hinitial) hothers) hnext

end Grouping

/-! ### Leaving labels out -/

theorem joinedId_shape (a b : Automaton) : a.shape.joinedId b.shape = a.joinedId b := by
  funext id
  unfold joinedId shape
  rw [List.findIdx?_map]
  rfl

/-- What is joined in shape is joined from the shapes. -/
theorem shape_join (a b : Automaton) : (a.join b).shape = a.shape.join b.shape := by
  unfold join
  rw [joinedId_shape]
  simp only [shape, List.map_append, List.map_map, List.length_map]
  rfl

/-- Joining two automata joins them in shape, and keeps the initial label. -/
theorem concat_shape (ha : a.WellFormed) (hb : b.WellFormed) (hl : b.initial.label = a.initial.label) :
    ∃ c, concat b a = .ok () c ∧ c.WellFormed ∧ c.shape = (a.join b).shape ∧
      c.initial.label = a.initial.label := by
  obtain ⟨copies, hcopies, hrun⟩ := concat_copies ha hb hl.symm
  refine ⟨_, hrun, (keeps_concat hb).ok ha hrun, ?_, rfl⟩
  unfold shape join
  rw [List.map_append, List.map_append, State.map_unlabelled_of_relabelled hcopies.relabelled]
  rfl

/-- Nothing is joined with an automaton that has the initial state only, if this
has no marker and no moves. -/
theorem concat_blank (hothers : e.others = []) (hmarker : e.initial.marker = none)
    (hmoves : e.initial.moves = {}) (hl : e.initial.label = a.initial.label) : concat e a = .ok () a := by
  have hrun : e.others.forM (fun s => discard (adopt (s.rename (a.joinedId e)))) a =
      .ok () (a.extended [] a.nextId) := by
    rw [hothers, extended, List.append_nil]
    rfl
  have hroot : (a.initial.mergeMarker (e.initial.rename (a.joinedId e))).mergeMoves
      (e.initial.rename (a.joinedId e)) = a.initial := by
    simp [State.mergeMarker, State.mergeMoves, State.rename, hmarker, hmoves, Moves.rename, Moves.union]
  rw [concat_eq hl.symm hrun, hroot, List.append_nil]

/-! ### Three automata -/

/-- Joining `b` and then `c` to `a` gives the same states in the same order, with
the same ids, markers and moves, as joining to `a` what `b` and `c` were joined
to before, and the same counter; only labels of states other than the initial
one may differ. An automaton that has the initial state only, without a marker
and moves, changes nothing. -/
theorem concat_assoc (ha : Built a) (hb : Built b) (hc : Built c) (hvb : b.validate = .ok ())
    (hvc : c.validate = .ok ()) (hlb : b.initial.label = a.initial.label)
    (hlc : c.initial.label = a.initial.label) :
    (∃ ab abc bc abc', concat b a = .ok () ab ∧ concat c ab = .ok () abc ∧
      concat c b = .ok () bc ∧ concat bc a = .ok () abc' ∧ abc'.shape = abc.shape) ∧
    ∀ e : Automaton, e.others = [] → e.initial.marker = none → e.initial.moves = {} →
      (concat e).after a = a ∧ (e.initial.label = a.initial.label → concat e a = .ok () a) := by
  constructor
  · obtain ⟨ab, hab, hwab, hsab, hlab⟩ := concat_shape ha.wellFormed hb.wellFormed hlb
    obtain ⟨abc, habc, -, hsabc, -⟩ := concat_shape hwab hc.wellFormed (hlc.trans hlab.symm)
    obtain ⟨bc, hbc, hwbc, hsbc, hlbc⟩ := concat_shape hb.wellFormed hc.wellFormed (hlc.trans hlb.symm)
    obtain ⟨abc', habc', -, hsabc', -⟩ := concat_shape ha.wellFormed hwbc (hlbc.trans hlb)
    refine ⟨ab, abc, bc, abc', hab, habc, hbc, habc', ?_⟩
    have hassoc := join_assoc hb.wellFormed hc.wellFormed (validate_eq_ok_iff.1 hvb)
      (validate_eq_ok_iff.1 hvc) a
    calc abc'.shape = a.shape.join bc.shape := by rw [hsabc', shape_join]
      _ = (a.join (b.join c)).shape := by rw [hsbc, ← shape_join]
      _ = ((a.join b).join c).shape := by rw [hassoc]
      _ = ab.shape.join c.shape := by rw [shape_join, hsab]
      _ = abc.shape := by rw [hsabc, shape_join]
  · intro e hothers hmarker hmoves
    have hblank := concat_blank (a := a) hothers hmarker hmoves
    refine ⟨?_, hblank⟩
    by_cases hl : e.initial.label = a.initial.label
    · exact Change.after_of_ok (hblank hl)
    · exact Change.after_of_error (concat_of_ne fun h => hl h.symm)

/-- Knows the word of one symbol. The id 1 has been given up. -/
def gapped (x : Symbol) : Automaton :=
  (addTransition 0 x 2).after ((forgetState 1).after
    ((addFinalState "X" "X").after ((addState "Y").after (withInitial rootLabel))))

/-- The third state of the label `X` becomes `X#4` in one grouping and `X#3#4` in
the other. -/
theorem concat_assoc_gapped : ∃ ab abc bc abc', concat (gapped 'b') (gapped 'a') = .ok () ab ∧
    concat (gapped 'c') ab = .ok () abc ∧ concat (gapped 'c') (gapped 'b') = .ok () bc ∧
    concat bc (gapped 'a') = .ok () abc' ∧ abc'.shape = abc.shape ∧ abc'.labels ≠ abc.labels := by
  have hbuilt : ∀ x, Built (gapped x) := fun x => .addTransition 0 x 2
    (.forgetState 1 (.addFinalState "X" "X" (.addState "Y" (.withInitial rootLabel))))
  obtain ⟨⟨ab, abc, bc, abc', hab, habc, hbc, habc', hshape⟩, -⟩ :=
    concat_assoc (hbuilt 'a') (hbuilt 'b') (hbuilt 'c') (by decide) (by decide) rfl rfl
  refine ⟨ab, abc, bc, abc', hab, habc, hbc, habc', hshape, ?_⟩
  rw [← Change.after_of_ok habc', ← Change.after_of_ok hbc, ← Change.after_of_ok habc, ← Change.after_of_ok hab]
  decide +kernel

end Automaton
end TokenAutomata
