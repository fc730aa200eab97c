/-
# What pruning leaves

A state is useful if it is on a path from the initial state to a state with a
marker (`Automaton.Useful`). Pruning leaves the useful states and the initial
one, each as it was but for the moves to the states removed
(`State.Stripped`). It removes states twice, first those that lead to no marker
and then those that cannot be reached any more; together that is one removal
(`Automaton.pruned_eq`), and what goes is what is not useful
(`Automaton.mem_lost_iff`): a path to a marker passes through states that all
lead to it, so the first step breaks none, and the second only looks at paths.

The paths of a useful state are still there afterwards. So it is useful in the
pruned automaton as well, and pruning again removes nothing
(`Automaton.prune_exact`).

The initial state is never removed, so a move into it stays even if it leads to
no marker. These are the only dead moves that the first step leaves
(`Automaton.removeDead_moves`).

Key definitions: `State.Stripped`, `Automaton.CanFinish`, `Automaton.Useful`,
`Automaton.lost`.
Key theorems: `State.stripped_foldl_forget`, `Automaton.mem_ids_of_removal`,
`Automaton.mem_lost_iff`, `Automaton.useful_pruned`, `Automaton.prune_exact`,
`Automaton.mem_dests_withoutDead`, `Automaton.removeDead_moves`.
-/
import TokenAutomata.Proofs.Built
import TokenAutomata.Proofs.Pruning

namespace TokenAutomata

/-! ### States without some moves -/

theorem Moves.dests_forget {m : Moves} (hm : m.WellFormed) (id : Nat) (x : Symbol) :
    (m.forget id).dests x = (m.dests x).erase id := by
  ext q
  rw [mem_dests_forget hm, IdSet.mem_erase]

/-- The symbols left are those that still lead somewhere. -/
theorem Moves.symbols_forget {m : Moves} (hm : m.WellFormed) (id : Nat) :
    (m.forget id).symbols = m.symbols.filter fun x => (m.forget id).dests x ≠ ∅ := by
  have hentries : (m.forget id).entries =
      (m.entries.filter fun e => !(e.2.erase id).isEmpty).map fun e => (e.1, e.2.erase id) := by
    rw [forget, List.filter_map]
    rfl
  rw [symbols, hentries, List.map_map, symbols, List.filter_map]
  refine congrArg _ (List.filter_congr fun e he => ?_)
  have hdests : (m.forget id).dests e.1 = e.2.erase id := by
    rw [dests_forget hm, ((mem_entries_iff hm).1 he).1]
  rw [Function.comp, hdests, Bool.eq_iff_iff, Bool.not_eq_true', decide_eq_true_eq,
    ← Bool.not_eq_true, ne_eq, IdSet.isEmpty_iff]

namespace State

variable {s t u : State} {gone gone' : Nat → Prop}

/-- `t` is `s` without the moves to ids that are gone: a symbol that led to these
only is out of use, and the others stay in their order. -/
structure Stripped (gone : Nat → Prop) (s t : State) : Prop where
  id : t.id = s.id
  label : t.label = s.label
  marker : t.marker = s.marker
  mem_dests : ∀ x q, q ∈ t.moves.dests x ↔ q ∈ s.moves.dests x ∧ ¬ gone q
  symbols : t.moves.symbols = s.moves.symbols.filter fun x => t.moves.dests x ≠ ∅

theorem Stripped.trans (hst : Stripped gone s t) (htu : Stripped gone' t u) :
    Stripped (fun q => gone q ∨ gone' q) s u where
  id := htu.id.trans hst.id
  label := htu.label.trans hst.label
  marker := htu.marker.trans hst.marker
  mem_dests x q := by rw [htu.mem_dests, hst.mem_dests, not_or, and_assoc]
  symbols := by
    rw [htu.symbols, hst.symbols, List.filter_filter]
    refine List.filter_congr fun x _ => ?_
    -- a symbol that leads somewhere in the end did so on the way
    have hon : u.moves.dests x ≠ ∅ → t.moves.dests x ≠ ∅ := fun hne => by
      obtain ⟨q, hq⟩ := IdSet.ne_empty_iff.1 hne
      exact IdSet.ne_empty_iff.2 ⟨q, ((htu.mem_dests x q).1 hq).1⟩
    by_cases hx : u.moves.dests x = ∅
    · simp [hx]
    · simp [hx, hon hx]

theorem stripped_forget (hs : s.WellFormed) (id : Nat) : Stripped (· = id) s (s.forget id) :=
  ⟨rfl, rfl, rfl, fun _ _ => Moves.mem_dests_forget hs.moves, Moves.symbols_forget hs.moves id⟩

theorem stripped_foldl_forget : ∀ {ids : List Nat} {s : State}, s.WellFormed →
    Stripped (· ∈ ids) s (ids.foldl forget s)
  | [], s, hs => by
    refine ⟨rfl, rfl, rfl, fun x q => by simp, ?_⟩
    have hall : ∀ x ∈ s.moves.symbols, decide (s.moves.dests x ≠ ∅) = true := fun x hx =>
      decide_eq_true ((Moves.mem_symbols_iff hs.moves).1 hx)
    exact (List.filter_eq_self.2 hall).symm
  | id :: ids, s, hs => by
    have hrest : Stripped (· ∈ ids) (s.forget id) (ids.foldl forget (s.forget id)) :=
      stripped_foldl_forget (hs.forget id)
    have hstep := (stripped_forget hs id).trans hrest
    have hgone : (fun q => q = id ∨ q ∈ ids) = (· ∈ id :: ids) := by
      funext q
      rw [List.mem_cons]
    rw [hgone] at hstep
    exact hstep

end State

namespace Automaton

variable {a : Automaton} {ids more : List Nat} {p q : Nat} {x : Symbol} {u v w : List Symbol}

/-! ### One removal -/

theorem forgetAll_nil (a : Automaton) : a.forgetAll [] = a := by
  simp [forgetAll]

/-- Removing states in two steps is removing them in one. -/
theorem forgetAll_forgetAll (a : Automaton) (ids more : List Nat) :
    (a.forgetAll ids).forgetAll more = a.forgetAll (ids ++ more) := by
  have hothers : (((a.others.filter (·.id ∉ ids)).map (ids.foldl State.forget)).filter
      (·.id ∉ more)).map (more.foldl State.forget) =
        (a.others.filter (·.id ∉ ids ++ more)).map ((ids ++ more).foldl State.forget) := by
    rw [List.filter_map, List.map_map, List.filter_filter]
    have hkept : (fun s : State => decide (s.id ∉ ids ++ more)) = fun s =>
        ((fun t : State => decide (t.id ∉ more)) ∘ ids.foldl State.forget) s && decide (s.id ∉ ids) := by
      funext s
      simp [Bool.and_comm]
    have hstrip : (ids ++ more).foldl State.forget = more.foldl State.forget ∘ ids.foldl State.forget := by
      funext s
      exact List.foldl_append
    rw [hkept, hstrip]
  unfold forgetAll
  dsimp only
  rw [hothers, ← List.foldl_append]

theorem forgetAll_stripped (ha : a.WellFormed) (hroot : a.initial.id ∉ ids) :
    List.Forall₂ (State.Stripped (· ∈ ids)) (a.states.filter (·.id ∉ ids)) (a.forgetAll ids).states := by
  rw [states_forgetAll hroot, List.forall₂_map_right_iff, List.forall₂_same]
  intro s hs
  exact State.stripped_foldl_forget (ha.states s (List.mem_filter.1 hs).1)

theorem size_forgetAll (ha : a.ids.Nodup) (hids : ids.Nodup) (hsub : ids ⊆ a.ids)
    (hroot : a.initial.id ∉ ids) : (a.forgetAll ids).size + ids.length = a.size := by
  have hgone : (a.ids.filter (· ∈ ids)).length = ids.length := by
    refine List.Perm.length_eq ((List.perm_ext_iff_of_nodup (ha.filter _) hids).2 fun p => ?_)
    rw [List.mem_filter, decide_eq_true_eq]
    exact ⟨And.right, fun hp => ⟨hsub hp, hp⟩⟩
  have hleft : (a.forgetAll ids).size = (a.ids.filter (· ∉ ids)).length := by
    rw [← ids_forgetAll hroot, Automaton.ids, List.length_map]
    rfl
  have hsize : a.size = a.ids.length := (List.length_map _).symm
  have hsplit := List.length_eq_length_filter_add (l := a.ids) (fun p => decide (p ∈ ids))
  simp only [← decide_not] at hsplit
  omega

/-- If the removal spares the initial state and the states that `Kept` tells
apart, these are what is left. -/
theorem mem_ids_of_removal {Kept : Nat → Prop}
    (hgone : ∀ p, p ∈ ids ↔ p ∈ a.ids ∧ p ≠ a.initial.id ∧ ¬ Kept p) (hkept : ∀ p, Kept p → p ∈ a.ids) :
    p ∈ (a.forgetAll ids).ids ↔ p = a.initial.id ∨ Kept p := by
  have hroot : a.initial.id ∉ ids := fun h => ((hgone _).1 h).2.1 rfl
  rw [mem_ids_forgetAll hroot, hgone]
  constructor
  · rintro ⟨hp, hleft⟩
    by_contra hn
    rw [not_or] at hn
    exact hleft ⟨hp, hn⟩
  · rintro (rfl | hp)
    · exact ⟨initial_mem_ids a, fun h => h.2.1 rfl⟩
    · exact ⟨hkept p hp, fun h => h.2.2 hp⟩

/-! ### Useful states -/

/-- Some word leads from `p` to a marker. -/
def CanFinish (a : Automaton) (p : Nat) : Prop := ∃ w q, a.Path p w q ∧ (a.markerOf? q).isSome

/-- `p` is on a path from the initial state to a marker. -/
def Useful (a : Automaton) (p : Nat) : Prop := (∃ u, a.Reaches u p) ∧ a.CanFinish p

/-- What pruning removes, in its two steps. -/
def lost (a : Automaton) : List Nat := a.dead ++ a.withoutDead.unreachable

theorem pruned_eq (a : Automaton) : a.pruned = a.forgetAll a.lost :=
  forgetAll_forgetAll a a.dead a.withoutDead.unreachable

theorem prune_eq (a : Automaton) : prune a = .ok a.lost.length a.pruned := by
  rw [lost, List.length_append]
  rfl

theorem CanFinish.mem_ids (h : a.CanFinish p) : p ∈ a.ids := by
  obtain ⟨w, q, hw, hf⟩ := h
  cases hw with
  | nil p => exact mem_ids_of_markerOf? hf
  | cons hq _ => exact mem_ids_of_mem_dests hq

theorem not_canFinish_of_no_move (hmarker : a.markerOf? p = none) (hmoves : ∀ x, a.dests p x = ∅) :
    ¬ a.CanFinish p := by
  rintro ⟨w, q, hw, hf⟩
  cases hw with
  | nil p =>
    rw [hmarker] at hf
    cases hf
  | cons hq _ =>
    rw [hmoves] at hq
    exact IdSet.not_mem_empty _ hq

section Pruning

variable (ha : a.WellFormed)

include ha

/-! ### The first step -/

theorem mem_dead_iff_canFinish : p ∈ a.dead ↔ p ∈ a.ids ∧ p ≠ a.initial.id ∧ ¬ a.CanFinish p := by
  rw [mem_dead_iff ha, mem_live_iff ha, and_assoc, CanFinish]

theorem mem_ids_withoutDead : p ∈ a.withoutDead.ids ↔ p = a.initial.id ∨ a.CanFinish p :=
  mem_ids_of_removal (fun _ => mem_dead_iff_canFinish ha) fun _ hp => hp.mem_ids

/-- The moves left are those between states that are left. -/
theorem mem_dests_withoutDead (hc : a.Closed) : q ∈ a.withoutDead.dests p x ↔
    q ∈ a.dests p x ∧ p ∈ a.withoutDead.ids ∧ q ∈ a.withoutDead.ids := by
  have hroot := initial_not_mem_dead ha
  have hids : ∀ r, r ∈ a.withoutDead.ids ↔ r ∈ a.ids ∧ r ∉ a.dead := fun r => mem_ids_forgetAll hroot
  rw [withoutDead, mem_dests_forgetAll ha hroot, ← withoutDead, hids, hids]
  constructor
  · rintro ⟨hq, hp, hkept⟩
    exact ⟨hq, ⟨mem_ids_of_mem_dests hq, hp⟩, hc.mem_ids hq, hkept⟩
  · rintro ⟨hq, ⟨-, hp⟩, -, hkept⟩
    exact ⟨hq, hp, hkept⟩

/-- No path to a marker is lost with the dead states. -/
theorem canFinish_withoutDead : a.withoutDead.CanFinish p ↔ a.CanFinish p := by
  have hroot := initial_not_mem_dead ha
  constructor
  · rintro ⟨w, q, hw, hf⟩
    exact ⟨w, q, path_of_forgetAll ha hroot hw, ((final_forgetAll ha hroot).1 hf).1⟩
  · rintro ⟨w, q, hw, hf⟩
    have hlive : q ∈ a.live := mem_live_of_final ha hf
    have hkept : q ∉ a.dead := fun hd => ((mem_dead_iff ha).1 hd).2 hlive
    exact ⟨w, q, path_withoutDead ha hw hlive, (final_forgetAll ha hroot).2 ⟨hf, hkept⟩⟩

/-- Paths to a state that leads on to a marker are not broken by it. -/
theorem reaches_withoutDead (hp : a.CanFinish p) : a.withoutDead.Reaches u p ↔ a.Reaches u p := by
  rw [Reaches, initial_id_withoutDead]
  exact ⟨path_of_forgetAll ha (initial_not_mem_dead ha),
    fun hu => path_withoutDead ha hu ((mem_live_iff ha).2 hp)⟩

/-! ### Both steps -/

/-- What goes is what is not useful, the initial state apart. -/
theorem mem_lost_iff : p ∈ a.lost ↔ p ∈ a.ids ∧ p ≠ a.initial.id ∧ ¬ a.Useful p := by
  have hd := withoutDead_wellFormed ha
  rw [lost, List.mem_append, mem_dead_iff_canFinish ha, mem_unreachable_iff hd, mem_ids_withoutDead ha,
    initial_id_withoutDead, mem_reachable_iff hd, Useful]
  by_cases hfinish : a.CanFinish p
  · have hp := hfinish.mem_ids
    simp only [reaches_withoutDead ha hfinish]
    tauto
  · tauto

theorem initial_not_mem_lost : a.initial.id ∉ a.lost := fun h => ((mem_lost_iff ha).1 h).2.1 rfl

theorem nodup_lost : a.lost.Nodup := by
  have hothers : ∀ {b : Automaton}, b.WellFormed → (b.others.map (·.id)).Nodup := fun hb =>
    (List.nodup_cons.1 (ids_cons _ ▸ hb.nodup_ids)).2
  have hd := withoutDead_wellFormed ha
  refine List.nodup_append.2 ⟨(hothers ha).filter _, (hothers hd).filter _, fun p hp q hq he => ?_⟩
  subst he
  have hleft := ((mem_unreachable_iff hd).1 hq).1.1
  exact ((mem_ids_forgetAll (initial_not_mem_dead ha)).1 hleft).2 hp

/-- What stays is the initial state and what is useful. -/
theorem mem_ids_pruned : p ∈ a.pruned.ids ↔ p = a.initial.id ∨ a.Useful p := by
  rw [pruned_eq]
  exact mem_ids_of_removal (fun _ => mem_lost_iff ha) fun _ hp => hp.2.mem_ids

/-- A useful state keeps its paths. -/
theorem useful_pruned (hp : a.Useful p) : a.pruned.Useful p := by
  obtain ⟨⟨u, hu⟩, hfinish⟩ := hp
  have hd := withoutDead_wellFormed ha
  have hu' : a.withoutDead.Reaches u p := (reaches_withoutDead ha hfinish).2 hu
  obtain ⟨v, q, hv, hf⟩ := hfinish
  have hv' : a.withoutDead.Path p v q := path_withoutDead ha hv (mem_live_of_final ha hf)
  obtain ⟨t, ht⟩ := Option.isSome_iff_exists.1 hf
  refine ⟨⟨u, (reaches_withoutUnreachable hd).2 hu'⟩, v, q, path_withoutUnreachable hd hu' hv', ?_⟩
  rw [markerOf?_pruned ha (hu'.append hv') ht]
  rfl

theorem pruned_wellFormed : a.pruned.WellFormed := (withoutDead_wellFormed ha).forgetAll _

theorem lost_pruned : a.pruned.lost = [] := by
  rw [List.eq_nil_iff_forall_not_mem]
  intro p hp
  obtain ⟨hmem, hne, hnot⟩ := (mem_lost_iff (pruned_wellFormed ha)).1 hp
  rw [initial_id_pruned] at hne
  exact hnot (useful_pruned ha (((mem_ids_pruned ha).1 hmem).resolve_left hne))

theorem accepts_pruned (w : List Symbol) : a.pruned.accepts w = a.accepts w := by
  rw [Bool.eq_iff_iff, accepts_iff, accepts_iff]
  simp only [Option.isSome_iff_exists, ← exists_and_left]
  rw [exists_comm, exists_congr fun t => pruned_word_iff ha, exists_comm]

end Pruning

/-- Pruning leaves the initial state and the states that are on a path from it
to a marker, in their order, each without its moves to the states removed. It
tells how many these are. The same words are accepted as before, and pruning
again changes nothing. -/
theorem prune_exact (ha : Built a) : ∃ n b, prune a = .ok n b ∧
    (∀ p, p ∈ b.ids ↔ p = a.initial.id ∨ a.Useful p) ∧
    List.Forall₂ (State.Stripped fun q => q ∈ a.ids ∧ q ∉ b.ids)
      (a.states.filter (·.id ∈ b.ids)) b.states ∧
    b.size + n = a.size ∧ (∀ w, b.accepts w = a.accepts w) ∧ prune b = .ok 0 b := by
  have hwf := ha.wellFormed
  have hroot := initial_not_mem_lost hwf
  have hsub : a.lost ⊆ a.ids := fun p hp => ((mem_lost_iff hwf).1 hp).1
  have hids : ∀ p, p ∈ a.pruned.ids ↔ p ∈ a.ids ∧ p ∉ a.lost := fun p => by
    rw [pruned_eq, mem_ids_forgetAll hroot]
  have hgone : (fun q => q ∈ a.ids ∧ q ∉ a.pruned.ids) = (· ∈ a.lost) := by
    funext q
    rw [hids, eq_iff_iff]
    exact ⟨fun h => by tauto, fun h => ⟨hsub h, fun hn => hn.2 h⟩⟩
  have hkept : a.states.filter (·.id ∈ a.pruned.ids) = a.states.filter (·.id ∉ a.lost) := by
    refine List.filter_congr fun s hs => ?_
    have hmem : s.id ∈ a.ids := List.mem_map_of_mem hs
    simp [hids, hmem]
  refine ⟨a.lost.length, a.pruned, prune_eq a, fun p => mem_ids_pruned hwf, ?_, ?_,
    accepts_pruned hwf, ?_⟩
  · rw [hgone, hkept, pruned_eq]
    exact forgetAll_stripped hwf hroot
  · rw [pruned_eq]
    exact size_forgetAll hwf.nodup_ids (nodup_lost hwf) hsub hroot
  · rw [prune_eq, lost_pruned hwf, pruned_eq a.pruned, lost_pruned hwf, forgetAll_nil]
    rfl

/-- Of its states 2 leads nowhere and nothing leads to 3. A move of 1 leads to a
missing state. -/
def cluttered : Automaton :=
  (editState 1 (.addMove 'x' 9)).after ((addTransition 0 'd' 2).after ((addTransition 3 'o' 1).after
    ((addTransition 0 'a' 1).after ((addFinalState "B" "B").after ((addState "DEAD").after
      ((addFinalState "A" "A").after (withInitial rootLabel)))))))

theorem cluttered_pruned : ∃ n b, prune cluttered = .ok n b ∧ 1 ∈ b.ids ∧ 2 ∉ b.ids ∧ 3 ∉ b.ids ∧
    b.accepts ['a'] = true ∧ prune b = .ok 0 b := by
  have hbuilt : Built cluttered := .editState 1 (.addMove 'x' 9) (.addTransition 0 'd' 2
    (.addTransition 3 'o' 1 (.addTransition 0 'a' 1 (.addFinalState "B" "B" (.addState "DEAD"
      (.addFinalState "A" "A" (.withInitial rootLabel))))))) (by rintro o (h | h) <;> cases h)
  obtain ⟨n, b, hb, hids, -, -, haccepts, hagain⟩ := prune_exact hbuilt
  have hone : cluttered.Useful 1 := ⟨⟨['a'], path_singleton_iff.2 (by decide)⟩, [], 1, .nil 1, by decide⟩
  have htwo : ¬ cluttered.Useful 2 := fun h => not_canFinish_of_no_move (by decide) (fun _ => rfl) h.2
  have hthree : ¬ cluttered.Useful 3 := by
    rintro ⟨⟨u, hu⟩, -⟩
    rcases u.eq_nil_or_concat with rfl | ⟨v, x, rfl⟩
    · exact absurd (reaches_nil_iff.1 hu) (by decide)
    · rw [List.concat_eq_append] at hu
      obtain ⟨q, -, hq⟩ := reaches_snoc_iff.1 hu
      exact absurd (mem_targets_of_mem_dests hq) (by decide)
  exact ⟨n, b, hb, (hids 1).2 (.inr hone), fun h => ((hids 2).1 h).elim (by decide) htwo,
    fun h => ((hids 3).1 h).elim (by decide) hthree, (haccepts _).trans (by decide), hagain⟩

/-! ### Moves into the initial state -/

/-- Without the dead states every move leads on to a marker, but for the moves
into the initial state: it stays even if no marker can be reached from it, and
the moves into it stay with it. So no move is dead just if the initial state
leads to a marker or no state that is left leads back to it. -/
theorem removeDead_moves (ha : Built a) (hv : a.validate = .ok ()) :
    ∃ n b, removeDead a = .ok n b ∧ b.initial.id = a.initial.id ∧
      (∀ p, p ∈ b.ids ↔ p = a.initial.id ∨ a.CanFinish p) ∧
      (∀ p x q, q ∈ b.dests p x → b.CanFinish q ∨ q = a.initial.id) ∧
      ((∀ p x q, q ∈ b.dests p x → b.CanFinish q) ↔
        a.CanFinish a.initial.id ∨ ∀ p ∈ b.ids, ∀ x, a.initial.id ∉ a.dests p x) := by
  have hwf := ha.wellFormed
  have hids : ∀ p, p ∈ a.withoutDead.ids ↔ p = a.initial.id ∨ a.CanFinish p :=
    fun _ => mem_ids_withoutDead hwf
  have hmoves : ∀ {p x q}, q ∈ a.withoutDead.dests p x ↔
      q ∈ a.dests p x ∧ p ∈ a.withoutDead.ids ∧ q ∈ a.withoutDead.ids :=
    mem_dests_withoutDead hwf (validate_eq_ok_iff.1 hv)
  have hleads : ∀ p x q, q ∈ a.withoutDead.dests p x → a.withoutDead.CanFinish q ∨ q = a.initial.id := by
    intro p x q hq
    rw [canFinish_withoutDead hwf]
    exact ((hids q).1 (hmoves.1 hq).2.2).symm
  refine ⟨a.dead.length, a.withoutDead, rfl, initial_id_withoutDead, hids, hleads, ?_⟩
  constructor
  · intro hall
    by_contra hn
    obtain ⟨hroot, hback⟩ := not_or.1 hn
    push Not at hback
    obtain ⟨p, hp, x, hx⟩ := hback
    have hleft := hmoves.2 ⟨hx, hp, (hids _).2 (.inl rfl)⟩
    exact hroot ((canFinish_withoutDead hwf).1 (hall p x _ hleft))
  · rintro hcases p x q hq
    rcases hleads p x q hq with hfinish | rfl
    · exact hfinish
    · obtain ⟨hmove, hp, -⟩ := hmoves.1 hq
      exact (canFinish_withoutDead hwf).2 (hcases.resolve_right fun hnone => hnone p hp x hmove)

/-- Its state 1 leads nowhere. The initial state leads to a marker and back to
itself. -/
def deadBranch : Automaton :=
  (addTransition 0 'd' 1).after ((addTransition 0 'a' 0).after ((addTransition 0 'b' 2).after
    ((addFinalState "B" "B").after ((addState "DEAD").after (withInitial rootLabel)))))

theorem deadBranch_moves : deadBranch.validate = .ok () ∧ ∃ n b, removeDead deadBranch = .ok n b ∧
    1 ∉ b.ids ∧ ∀ p x q, q ∈ b.dests p x → b.CanFinish q := by
  have hbuilt : Built deadBranch := .addTransition 0 'd' 1 (.addTransition 0 'a' 0 (.addTransition 0 'b' 2
    (.addFinalState "B" "B" (.addState "DEAD" (.withInitial rootLabel)))))
  have hv : deadBranch.validate = .ok () := by decide
  obtain ⟨n, b, hb, -, hids, -, hmoves⟩ := removeDead_moves hbuilt hv
  have hone : ¬ deadBranch.CanFinish 1 := not_canFinish_of_no_move (by decide) fun _ => rfl
  have hfinish : deadBranch.CanFinish deadBranch.initial.id :=
    ⟨['b'], 2, path_singleton_iff.2 (by decide), by decide⟩
  exact ⟨hv, n, b, hb, fun h => ((hids 1).1 h).elim (by decide) hone, hmoves.2 (.inl hfinish)⟩

/-- The initial state alone, which leads back to itself and to no marker. -/
def loopAtRoot : Automaton := (addTransition 0 'a' 0).after (withInitial rootLabel)

/-- The only move is dead, and it stays. -/
theorem loopAtRoot_moves : Built loopAtRoot ∧ loopAtRoot.validate = .ok () ∧
    ∃ b, removeDead loopAtRoot = .ok 0 b ∧ 0 ∈ b.dests 0 'a' ∧ ¬ b.CanFinish 0 := by
  refine ⟨.addTransition 0 'a' 0 (.withInitial rootLabel), by decide, loopAtRoot, rfl, by decide, ?_⟩
  rintro ⟨w, q, -, hq⟩
  obtain rfl : q = 0 := List.mem_singleton.1 (mem_ids_of_markerOf? hq)
  exact absurd hq (by decide)

end Automaton
end TokenAutomata
