/-
# Determinization follows the sets of states

After any word, the automaton that determinization makes is in the state that
stands for the set the other one keeps, and it is stuck just where that set
is empty. So both accept the same words, and a word ends at the marker of the
lowest state of the set that has one.

The state of number `i` stands for the `i`-th of the sets reached
(`determinize_states`), and it leads on a symbol where its set does
(`mem_dests_subsetState`). A set that a word leads to is listed unless it is
empty (`statesAfter_mem_reachedSets`), so that a word leads to the number of
its set (`Represents.reaches_iff`).

Key definitions: `Automaton.Follows`.
Key theorems: `Automaton.dests_jointMoves`, `Automaton.determinize_run`,
`Automaton.determinize_states`, `Automaton.Represents.reaches_iff`,
`Automaton.determinize_follows`.
-/
import Mathlib.Data.List.Induction
import TokenAutomata.Proofs.Adopting
import TokenAutomata.Proofs.Built
import TokenAutomata.Proofs.Path
import TokenAutomata.Proofs.Search

namespace TokenAutomata
namespace Automaton

variable {a d : Automaton} {sets : List IdSet} {set : IdSet} {c : Symbol} {w : List Symbol}

/-! ### Where a set leads -/

theorem mem_dests_foldl_union {x : Nat} : ∀ {states : List State} {m : Moves},
    (∀ s ∈ states, s.WellFormed) →
      (x ∈ (states.foldl (fun m s => m.union s.moves) m).dests c ↔
        x ∈ m.dests c ∨ ∃ s ∈ states, x ∈ s.moves.dests c)
  | [], m, _ => by simp
  | s :: states, m, h => by
    rw [List.foldl_cons, mem_dests_foldl_union fun t ht => h t (List.mem_cons_of_mem _ ht),
      Moves.dests_union m (h s List.mem_cons_self).moves, IdSet.mem_union, or_assoc]
    simp

/-- A set leads where its members lead. -/
theorem dests_jointMoves (ha : a.WellFormed) (set : IdSet) (c : Symbol) :
    (a.jointMoves set).dests c = a.step set c := by
  have hs : ∀ s ∈ a.statesOf set, s.WellFormed := fun s hs => ha.states s (mem_states_of_mem_statesOf hs)
  ext x
  rw [jointMoves, mem_dests_foldl_union hs, step, IdSet.mem_ofList, List.mem_flatMap]
  simp [IdSet.mem_toList]

theorem mem_successorSets (ha : a.WellFormed) {t : IdSet} :
    t ∈ a.successorSets set ↔ t ≠ ∅ ∧ ∃ c, a.step set c = t := by
  have he : ∀ c, (c, t) ∈ (a.jointMoves set).entries ↔ a.step set c = t ∧ t ≠ ∅ := fun c => by
    rw [Moves.mem_entries_iff (jointMoves_wellFormed ha.states set), dests_jointMoves ha]
  unfold successorSets
  rw [List.mem_map]
  constructor
  · rintro ⟨⟨c, t'⟩, hm, rfl⟩
    obtain ⟨hc, hne⟩ := (he c).1 hm
    exact ⟨hne, c, hc⟩
  · rintro ⟨hne, c, hc⟩
    exact ⟨(c, t), (he c).2 ⟨hc, hne⟩, rfl⟩

/-- The state of a set leads to the number of the set that its set leads to,
unless that is empty. -/
theorem mem_dests_subsetState (ha : a.WellFormed) {id q : Nat} :
    q ∈ (a.subsetState sets set id).moves.dests c ↔
      a.step set c ≠ ∅ ∧ q = sets.idxOf (a.step set c) := by
  have hd : (a.subsetState sets set id).moves.dests c =
      (((a.jointMoves set).entries.lookup c).map fun ids => .singleton (sets.idxOf ids)).getD ∅ := by
    rw [← Moves.lookup_map_snd]
    rfl
  have hstep := dests_jointMoves ha set c
  rw [hd]
  cases hl : (a.jointMoves set).entries.lookup c with
  | none =>
    rw [Moves.dests, hl] at hstep
    simp [← hstep]
  | some ids =>
    have hm := (Moves.lookup_eq_some_iff (jointMoves_wellFormed ha.states set).nodup).1 hl
    have hne : ids ≠ ∅ := (jointMoves_wellFormed ha.states set).nonempty _ hm
    rw [Moves.dests, hl] at hstep
    simp [← hstep, hne]

/-! ### The sets reached -/

theorem reachedSets_cons (a : Automaton) : ∃ rest, a.reachedSets = .singleton a.initial.id :: rest :=
  search_singleton _

/-- The set a word leads to is listed, unless it is empty. -/
theorem statesAfter_mem_reachedSets (ha : a.WellFormed) (h : a.statesAfter w ≠ ∅) :
    a.statesAfter w ∈ a.reachedSets := by
  induction w using List.reverseRecOn with
  | nil => exact mem_search_of_start List.mem_cons_self
  | append_singleton w c ih =>
    rw [statesAfter_snoc] at h ⊢
    have hw : a.statesAfter w ≠ ∅ := by
      obtain ⟨q, hq⟩ := IdSet.ne_empty_iff.1 h
      obtain ⟨p, hp, -⟩ := mem_step.1 hq
      exact IdSet.ne_empty_iff.2 ⟨p, hp⟩
    exact mem_search_of_next (ih hw) ((mem_successorSets ha).2 ⟨h, c, rfl⟩)

/-! ### The states made -/

/-- The state of number `i` in `d` stands for the `i`-th set that `a`
reaches. -/
structure Represents (d a : Automaton) : Prop where
  initial_id : d.initial.id = 0
  state : ∀ i set, a.reachedSets[i]? = some set →
    ∃ t, d.state? i = some t ∧ (a.subsetState a.reachedSets set i).Relabelled t

/-- The first set holds the initial state alone … -/
theorem label_subsetState_initial (a : Automaton) (sets : List IdSet) :
    (a.subsetState sets (.singleton a.initial.id) 0).label = a.initial.label := by
  simp [subsetState, statesOf]

/-- … so that its state takes the initial place under the same label. -/
theorem replaceInitial_subsetState (a : Automaton) (sets : List IdSet) :
    replaceInitial (a.subsetState sets (.singleton a.initial.id) 0) (withInitial a.initial.label) =
      .ok () { initial := a.subsetState sets (.singleton a.initial.id) 0, nextId := 1 } := by
  have hl := label_subsetState_initial a sets
  have hid : (a.subsetState sets (.singleton a.initial.id) 0).id =
      (withInitial a.initial.label).initial.id := rfl
  have hroot : (withInitial a.initial.label).initial.label = a.initial.label := rfl
  exact replaceInitial_eq_ok.2 ⟨hid, Or.inl (hl.trans hroot.symm), rfl⟩

/-- The other sets are numbered from 1 on, and their states are adopted. -/
theorem addSubsetStates_run {rest : List IdSet} (hsets : sets = .singleton a.initial.id :: rest) :
    ∃ copies d, addSubsetStates a sets (withInitial a.initial.label) = .ok () d ∧
      d.states = a.subsetState sets (.singleton a.initial.id) 0 :: copies ∧ d.ids.Nodup ∧
      NamedInTurn [a.initial.label] ((rest.zipIdx 1).map fun x => a.subsetState sets x.1 x.2) copies := by
  have hfirst := replaceInitial_subsetState a sets
  generalize hstart : ({ initial := a.subsetState sets (.singleton a.initial.id) 0, nextId := 1 } :
    Automaton) = start at hfirst
  let g (x : IdSet × Nat) : State := a.subsetState sets x.1 x.2
  have hids : ((rest.zipIdx 1).map fun x => (g x).id) = List.range' 1 rest.length := by
    rw [← List.zipIdx_map_snd 1 rest]
    rfl
  have hnodup : (start.ids ++ (rest.zipIdx 1).map fun x => (g x).id).Nodup := by
    have h0 : start.ids = [0] := by
      rw [← hstart]
      rfl
    rw [hids, h0, List.singleton_append, List.nodup_cons]
    exact ⟨by simp, List.nodup_range'⟩
  have hadopt : ∀ x ∈ rest.zipIdx 1, (if x.2 = 0 then replaceInitial (a.subsetState sets x.1 x.2)
      else discard (adopt (a.subsetState sets x.1 x.2))) = discard (adopt (g x)) := by
    intro x hx
    have hle : 1 ≤ x.2 := List.le_snd_of_mem_zipIdx hx
    exact if_neg (Nat.ne_of_gt hle)
  obtain ⟨copies, hrun, hcopies⟩ := forM_adopt hadopt hnodup
  generalize List.foldl _ _ _ = n at hrun
  have hlabels : start.labels = [a.initial.label] := by
    rw [← hstart, ← label_subsetState_initial a sets]
    rfl
  refine ⟨copies, start.extended copies n, ?_, ?_, ?_, hlabels ▸ hcopies⟩
  · have hzip : sets.zipIdx = (.singleton a.initial.id, 0) :: rest.zipIdx 1 := by
      rw [hsets]
      rfl
    rw [addSubsetStates, hzip, Change.forM_cons]
    exact (Change.bind_of_ok hfirst).trans hrun
  · rw [states_extended, ← hstart]
    rfl
  · rw [ids_extended, State.map_id_of_relabelled hcopies.relabelled]
    exact hnodup

theorem zipIdx_reachedSets (a : Automaton) :
    a.reachedSets.zipIdx = (.singleton a.initial.id, 0) :: a.reachedSets.zipIdx.tail := by
  obtain ⟨rest, hsets⟩ := reachedSets_cons a
  rw [hsets]
  rfl

/-- Where no move leads to a missing state, determinizing makes a state for each
set. That of the first set takes the initial place, and the others are named in
turn. -/
theorem determinize_run (hv : a.validate = .ok ()) : ∃ d, a.determinize = .ok d ∧ d.ids.Nodup ∧
    d.initial = a.subsetState a.reachedSets (.singleton a.initial.id) 0 ∧
    NamedInTurn [a.initial.label]
      (a.reachedSets.zipIdx.tail.map fun x => a.subsetState a.reachedSets x.1 x.2) d.others := by
  obtain ⟨rest, hsets⟩ := reachedSets_cons a
  obtain ⟨copies, d, hrun, hstates, hnodup, hnamed⟩ := addSubsetStates_run hsets
  obtain ⟨hinitial, hothers⟩ : d.initial = _ ∧ d.others = copies := List.cons.inj hstates
  have htail : a.reachedSets.zipIdx.tail = rest.zipIdx 1 := by
    rw [hsets]
    rfl
  refine ⟨d, ?_, hnodup, hinitial, ?_⟩
  · rw [determinize, hv]
    exact Change.exec_eq_ok.2 ⟨(), hrun⟩
  · rw [htail, hothers]
    exact hnamed

/-- The states stand for the sets, one by one. -/
theorem relabelled_states (hinitial : d.initial = a.subsetState a.reachedSets (.singleton a.initial.id) 0)
    (hnamed : NamedInTurn [a.initial.label]
      (a.reachedSets.zipIdx.tail.map fun x => a.subsetState a.reachedSets x.1 x.2) d.others) :
    List.Forall₂ (fun x t => (a.subsetState a.reachedSets x.1 x.2).Relabelled t)
      a.reachedSets.zipIdx d.states := by
  rw [zipIdx_reachedSets, states, hinitial]
  exact .cons ⟨rfl, rfl, rfl⟩ hnamed.relabelled

theorem determinize_states (hv : a.validate = .ok ()) :
    ∃ d, a.determinize = .ok d ∧ d.Represents a := by
  obtain ⟨d, hd, hnodup, hinitial, hnamed⟩ := determinize_run hv
  refine ⟨d, hd, ?_, fun i set hi => ?_⟩
  · rw [hinitial]
    rfl
  · obtain ⟨t, ht, hrel⟩ :=
      forall₂_mem_left (relabelled_states hinitial hnamed) (List.mk_mem_zipIdx_iff_getElem?.2 hi)
    exact ⟨t, (state?_eq_some_iff hnodup).2 ⟨ht, hrel.1⟩, hrel⟩

/-! ### Words -/

section Represented

variable (ha : a.WellFormed) (hd : d.Represents a)

include ha hd

theorem Represents.mem_dests {i q : Nat} (hi : a.reachedSets[i]? = some set) :
    q ∈ d.dests i c ↔ a.step set c ≠ ∅ ∧ q = a.reachedSets.idxOf (a.step set c) := by
  obtain ⟨t, ht, hrel⟩ := hd.state i set hi
  rw [dests_of_state? ht, hrel.2.2, mem_dests_subsetState ha]

/-- A word leads to the state of the set it leads to, and nowhere if that set
is empty. -/
theorem Represents.reaches_iff {q : Nat} :
    d.Reaches w q ↔ a.statesAfter w ≠ ∅ ∧ q = a.reachedSets.idxOf (a.statesAfter w) := by
  induction w using List.reverseRecOn generalizing q with
  | nil =>
    obtain ⟨rest, hsets⟩ := reachedSets_cons a
    rw [reaches_nil_iff, hd.initial_id, statesAfter_nil, hsets, List.idxOf_cons_self]
    simp [IdSet.singleton_ne_empty]
  | append_singleton w c ih =>
    rw [reaches_snoc_iff, statesAfter_snoc]
    have hnumber (h : a.statesAfter w ≠ ∅) :
        a.reachedSets[a.reachedSets.idxOf (a.statesAfter w)]? = some (a.statesAfter w) :=
      List.getElem?_idxOf (statesAfter_mem_reachedSets ha h)
    constructor
    · rintro ⟨p, hp, hq⟩
      obtain ⟨hw, rfl⟩ := ih.1 hp
      exact (hd.mem_dests ha (hnumber hw)).1 hq
    · rintro ⟨hne, rfl⟩
      have hw : a.statesAfter w ≠ ∅ := by
        obtain ⟨q, hq⟩ := IdSet.ne_empty_iff.1 hne
        obtain ⟨p, hp, -⟩ := mem_step.1 hq
        exact IdSet.ne_empty_iff.2 ⟨p, hp⟩
      exact ⟨_, ih.2 ⟨hw, rfl⟩, (hd.mem_dests ha (hnumber hw)).2 ⟨hne, rfl⟩⟩

end Represented

/-! ### Following an automaton -/

/-- The lowest state with a marker that `w` can lead to is `p`. -/
def LowestFinal (a : Automaton) (w : List Symbol) (p : Nat) : Prop :=
  a.Reaches w p ∧ (a.markerOf? p).isSome ∧ ∀ q, a.Reaches w q → (a.markerOf? q).isSome → p ≤ q

/-- In an ascending list, what is found first is found at the lowest place. -/
theorem findSome?_ascending {xs : List Nat} (h : xs.Pairwise (· < ·)) {f : Nat → Option String}
    {token : String} : xs.findSome? f = some token ↔
      ∃ x ∈ xs, f x = some token ∧ ∀ y ∈ xs, (f y).isSome → x ≤ y := by
  rw [List.findSome?_eq_some_iff]
  constructor
  · rintro ⟨before, x, rest, rfl, hx, hbefore⟩
    refine ⟨x, by simp, hx, fun y hy hf => ?_⟩
    obtain ⟨-, hrest, -⟩ := List.pairwise_append.1 h
    rcases List.mem_append.1 hy with hy | hy
    · rw [hbefore y hy] at hf
      cases hf
    · rcases List.mem_cons.1 hy with rfl | hy
      · exact Nat.le_refl y
      · exact Nat.le_of_lt ((List.pairwise_cons.1 hrest).1 y hy)
  · rintro ⟨x, hx, hf, hlow⟩
    obtain ⟨before, rest, rfl⟩ := List.append_of_mem hx
    refine ⟨before, x, rest, rfl, hf, fun y hy => ?_⟩
    have hlt := (List.pairwise_append.1 h).2.2 y hy x List.mem_cons_self
    by_contra hsome
    have hle := hlow y (List.mem_append_left _ hy) (Option.isSome_iff_ne_none.2 hsome)
    omega

theorem findSome?_statesOf (a : Automaton) (set : IdSet) :
    (a.statesOf set).findSome? (·.marker) = set.toList.findSome? a.markerOf? := by
  rw [← List.head?_filterMap, statesOf, List.filterMap_filterMap, List.head?_filterMap]
  rfl

section Followed

variable (ha : a.WellFormed) (hd : d.Represents a)

include ha hd

theorem Represents.marker_eq {q : Nat} (h : d.Reaches w q) :
    q ∈ d.ids ∧ d.markerOf? q = (a.statesAfter w).toList.findSome? a.markerOf? := by
  obtain ⟨hne, rfl⟩ := (hd.reaches_iff ha).1 h
  obtain ⟨t, ht, -, hmarker, -⟩ := hd.state _ _ (List.getElem?_idxOf (statesAfter_mem_reachedSets ha hne))
  refine ⟨mem_ids_iff.2 ⟨t, ht⟩, ?_⟩
  rw [markerOf?_of_state? ht, hmarker]
  exact findSome?_statesOf a _

theorem Represents.final_iff {q : Nat} (h : d.Reaches w q) :
    (d.markerOf? q).isSome ↔ ∃ p, a.Reaches w p ∧ (a.markerOf? p).isSome := by
  rw [(hd.marker_eq ha h).2, List.findSome?_isSome_iff]
  simp only [IdSet.mem_toList, mem_statesAfter]

/-- The state that a word leads to has the marker of the lowest state with a
marker among those it leads to in `a`. -/
theorem Represents.marker_iff {q : Nat} {token : String} (h : d.Reaches w q) :
    d.markerOf? q = some token ↔ ∃ p, a.LowestFinal w p ∧ a.markerOf? p = some token := by
  rw [(hd.marker_eq ha h).2, findSome?_ascending (a.statesAfter w).ascending]
  constructor
  · rintro ⟨p, hp, htoken, hlow⟩
    have hf : (a.markerOf? p).isSome := by
      rw [htoken]
      rfl
    exact ⟨p, ⟨mem_statesAfter.1 hp, hf, fun q hq => hlow q (mem_statesAfter.2 hq)⟩, htoken⟩
  · rintro ⟨p, ⟨hp, -, hlow⟩, htoken⟩
    exact ⟨p, mem_statesAfter.2 hp, htoken, fun q hq => hlow q (mem_statesAfter.1 hq)⟩

theorem Represents.exists_reaches_iff : (∃ q, d.Reaches w q) ↔ ∃ p, a.Reaches w p := by
  simp only [hd.reaches_iff ha, ← mem_statesAfter, ← IdSet.ne_empty_iff, exists_and_left, exists_eq,
    and_true]

/-- Words end in the same state just if they lead to the same set. -/
theorem Represents.same_state_iff {u v : List Symbol} {p q : Nat} (hp : d.Reaches u p)
    (hq : d.Reaches v q) : p = q ↔ ∀ r, a.Reaches u r ↔ a.Reaches v r := by
  obtain ⟨hu, rfl⟩ := (hd.reaches_iff ha).1 hp
  obtain ⟨-, rfl⟩ := (hd.reaches_iff ha).1 hq
  rw [List.idxOf_inj (statesAfter_mem_reachedSets ha hu)]
  simp only [← mem_statesAfter]
  constructor
  · intro h r
    rw [h]
  · exact IdSet.ext

/-- From a state that some word leads to, a word has one run at most. -/
theorem Represents.run_unique {p : Nat} {u : List Symbol} {ids ids' : List Nat} (hp : d.Reaches u p)
    (h : d.Run p w ids) (h' : d.Run p w ids') : ids = ids' := by
  induction h generalizing u ids' with
  | nil p =>
    cases h'
    rfl
  | @cons p q c w ids hq _ ih =>
    cases h' with
    | @cons _ q' _ _ ids' hq' hrest' =>
      have hreach : d.Reaches (u ++ [c]) q := reaches_snoc_iff.2 ⟨p, hp, hq⟩
      have hreach' : d.Reaches (u ++ [c]) q' := reaches_snoc_iff.2 ⟨p, hp, hq'⟩
      obtain rfl : q = q' := by
        rw [((hd.reaches_iff ha).1 hreach).2, ((hd.reaches_iff ha).1 hreach').2]
      rw [ih hreach hrest']

theorem Represents.accepts_eq (w : List Symbol) : d.accepts w = a.accepts w := by
  rw [Bool.eq_iff_iff, accepts_iff, accepts_iff]
  constructor
  · rintro ⟨q, hq, hf⟩
    exact (hd.final_iff ha hq).1 hf
  · rintro ⟨p, hp, hf⟩
    obtain ⟨q, hq⟩ := (hd.exists_reaches_iff ha).2 ⟨p, hp⟩
    exact ⟨q, hq, (hd.final_iff ha hq).2 ⟨p, hp, hf⟩⟩

end Followed

/-- `d` does on every word, in one run, what `a` does in all its runs
together. -/
structure Follows (d a : Automaton) : Prop where
  run_iff : ∀ w, (∃ ids, d.Run d.initial.id w ids) ↔ ∃ p, a.Reaches w p
  run_unique : ∀ w ids ids', d.Run d.initial.id w ids → d.Run d.initial.id w ids' → ids = ids'
  mem_ids : ∀ w q, d.Reaches w q → q ∈ d.ids
  final_iff : ∀ w q, d.Reaches w q →
    ((d.markerOf? q).isSome ↔ ∃ p, a.Reaches w p ∧ (a.markerOf? p).isSome)
  marker_iff : ∀ w q token, d.Reaches w q →
    (d.markerOf? q = some token ↔ ∃ p, a.LowestFinal w p ∧ a.markerOf? p = some token)
  same_state_iff : ∀ u v p q, d.Reaches u p → d.Reaches v q →
    (p = q ↔ ∀ r, a.Reaches u r ↔ a.Reaches v r)
  accepts_eq : ∀ w, d.accepts w = a.accepts w

theorem Represents.follows (ha : a.WellFormed) (hd : d.Represents a) : d.Follows a where
  run_iff := fun w => by
    rw [← hd.exists_reaches_iff ha]
    constructor
    · rintro ⟨ids, hrun⟩
      exact hrun.exists_path
    · rintro ⟨q, hq⟩
      obtain ⟨ids, hrun, -⟩ := path_iff_run.1 hq
      exact ⟨ids, hrun⟩
  run_unique := fun w ids ids' h h' => hd.run_unique ha (reaches_nil_iff.2 rfl) h h'
  mem_ids := fun w q h => (hd.marker_eq ha h).1
  final_iff := fun w q h => hd.final_iff ha h
  marker_iff := fun w q token h => hd.marker_iff ha h
  same_state_iff := fun u v p q hp hq => hd.same_state_iff ha hp hq
  accepts_eq := hd.accepts_eq ha

/-- A built automaton without moves to missing states can be determinized,
and the result follows it. -/
theorem determinize_follows (ha : Built a) (hv : a.validate = .ok ()) :
    ∃ d, a.determinize = .ok d ∧ d.Follows a := by
  obtain ⟨d, hrun, hd⟩ := determinize_states hv
  exact ⟨d, hrun, hd.follows ha.wellFormed⟩

/-- Reads `a`s until the last one, and does not know which is the last. -/
def lastOfMany : Automaton :=
  (addTransition 0 'a' 1).after ((addTransition 0 'a' 0).after
    ((addFinalState "A" "A").after (withInitial rootLabel)))

theorem lastOfMany_followed : Built lastOfMany ∧ lastOfMany.validate = .ok () ∧
    ∃ d, lastOfMany.determinize = .ok d ∧ d.Follows lastOfMany :=
  have hb : Built lastOfMany :=
    .addTransition 0 'a' 1 (.addTransition 0 'a' 0 (.addFinalState "A" "A" (.withInitial rootLabel)))
  have hv : lastOfMany.validate = .ok () := by decide
  ⟨hb, hv, determinize_follows hb hv⟩

end Automaton
end TokenAutomata
