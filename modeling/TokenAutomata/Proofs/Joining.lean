/-
# An automaton joined from two

Joining `b` to `a` puts the states of `b` under new ids behind those of `a`
and makes the two initial states one. So there is a map from the ids of `b`
that meets the ids of `a` in the initial state only, and a move of the result
is a move of `a` or the image of a move of `b` (`Automaton.Joined`). The
labels of the two, which may be the same, play no part.

Key definitions: `Automaton.Joined`.
Key theorems: `Automaton.joinedId_injective`, `Automaton.concat_copies`,
`Automaton.concat_joined`.
-/
import TokenAutomata.Proofs.Adopting
import TokenAutomata.Proofs.Path

namespace TokenAutomata
namespace Automaton

/-- `c` is joined from `a` and `b`, where `f` takes the ids of `b` to `c`. -/
structure Joined (a b : Automaton) (f : Nat → Nat) (c : Automaton) : Prop where
  wellFormed : c.WellFormed
  initial_id : c.initial.id = a.initial.id
  map_initial : f b.initial.id = a.initial.id
  injective : ∀ p ∈ b.ids, ∀ q ∈ b.ids, f p = f q → p = q
  shared : ∀ p ∈ b.ids, f p ∈ a.ids → p = b.initial.id
  mem_ids : ∀ p, p ∈ c.ids ↔ p ∈ a.ids ∨ ∃ p' ∈ b.ids, f p' = p
  mem_dests : ∀ p x q, q ∈ c.dests p x ↔
    q ∈ a.dests p x ∨ ∃ p' q', f p' = p ∧ q' ∈ b.dests p' x ∧ f q' = q
  marker_initial : c.markerOf? a.initial.id =
    (a.markerOf? a.initial.id <|> b.markerOf? b.initial.id)
  marker_left : ∀ p ∈ a.ids, p ≠ a.initial.id → c.markerOf? p = a.markerOf? p
  marker_right : ∀ p ∈ b.ids, p ≠ b.initial.id → c.markerOf? (f p) = b.markerOf? p

variable {a b c : Automaton}

/-! ### The new ids -/

theorem joinedId_initial (a b : Automaton) : a.joinedId b b.initial.id = a.initial.id := by
  rw [joinedId, if_pos rfl]

/-- The states behind the initial one are numbered on from `nextId`. -/
theorem joinedId_others (hb : b.ids.Nodup) {k : Nat} {s : State} (h : b.others[k]? = some s) :
    a.joinedId b s.id = a.nextId + k := by
  obtain ⟨hk, hs⟩ := List.getElem?_eq_some_iff.1 h
  rw [ids_cons, List.nodup_cons] at hb
  have hne : s.id ≠ b.initial.id := fun he => hb.1 (he ▸ List.mem_map_of_mem (hs ▸ List.getElem_mem hk))
  have hfind : b.others.findIdx? (·.id == s.id) = some k := by
    rw [List.findIdx?_eq_some_iff_getElem]
    refine ⟨hk, by simp [hs], fun j hj he => Nat.ne_of_lt hj ?_⟩
    have hlt : j < b.others.length := Nat.lt_trans hj hk
    have hsame : (b.others.map (·.id))[j]? = (b.others.map (·.id))[k]? := by
      rw [List.getElem?_map, List.getElem?_map, h, List.getElem?_eq_getElem hlt]
      simpa using he
    exact (List.getElem?_inj (by rw [List.length_map]; exact hlt) hb.2).1 hsame
  rw [joinedId, if_neg hne, hfind]

/-- An id of `b` is that of the initial state or of a state behind it. -/
theorem mem_ids_cases {p : Nat} (h : p ∈ b.ids) :
    p = b.initial.id ∨ ∃ (k : Nat) (s : State), b.others[k]? = some s ∧ s.id = p := by
  rcases List.mem_cons.1 (ids_cons b ▸ h) with h | h
  · exact Or.inl h
  · obtain ⟨s, hs, hid⟩ := List.mem_map.1 h
    obtain ⟨k, hk⟩ := List.getElem?_of_mem hs
    exact Or.inr ⟨k, s, hk, hid⟩

theorem joinedId_injective (ha : a.WellFormed) (hb : b.WellFormed) {p q : Nat} (hp : p ∈ b.ids)
    (hq : q ∈ b.ids) (h : a.joinedId b p = a.joinedId b q) : p = q := by
  have hroot : a.initial.id < a.nextId := ha.lt_nextId _ (initial_mem_ids a)
  rcases mem_ids_cases hp with rfl | ⟨j, s, hs, rfl⟩
  · rcases mem_ids_cases hq with rfl | ⟨k, t, ht, rfl⟩
    · rfl
    · rw [joinedId_initial, joinedId_others hb.nodup_ids ht] at h
      omega
  · rcases mem_ids_cases hq with rfl | ⟨k, t, ht, rfl⟩
    · rw [joinedId_initial, joinedId_others hb.nodup_ids hs] at h
      omega
    · rw [joinedId_others hb.nodup_ids hs, joinedId_others hb.nodup_ids ht] at h
      obtain rfl : j = k := by omega
      rw [Option.some.inj (hs.symm.trans ht)]

/-- Only the initial state of `b` takes a place that `a` has. -/
theorem joinedId_shared (ha : a.WellFormed) (hb : b.WellFormed) {p : Nat} (hp : p ∈ b.ids)
    (h : a.joinedId b p ∈ a.ids) : p = b.initial.id := by
  rcases mem_ids_cases hp with rfl | ⟨k, s, hs, rfl⟩
  · rfl
  · have hlt := ha.lt_nextId _ h
    rw [joinedId_others hb.nodup_ids hs] at hlt
    omega

theorem nodup_joinedIds (ha : a.WellFormed) (hb : b.WellFormed) :
    (a.ids ++ b.others.map fun s => a.joinedId b s.id).Nodup := by
  have hids := List.nodup_cons.1 (ids_cons b ▸ hb.nodup_ids)
  have hmem : ∀ s ∈ b.others, s.id ∈ b.ids := fun s hs => List.mem_map_of_mem (List.mem_cons_of_mem _ hs)
  rw [List.nodup_append]
  refine ⟨ha.nodup_ids, ?_, ?_⟩
  · have hmap : (b.others.map fun s => a.joinedId b s.id) = (b.others.map (·.id)).map (a.joinedId b) := by
      rw [List.map_map]
      rfl
    rw [hmap]
    refine List.Nodup.map_on (fun p hp q hq he => ?_) hids.2
    exact joinedId_injective ha hb (List.mem_cons_of_mem _ hp) (List.mem_cons_of_mem _ hq) he
  · rintro p hp _ hq rfl
    obtain ⟨s, hs, rfl⟩ := List.mem_map.1 hq
    have he := joinedId_shared ha hb (hmem s hs) hp
    exact hids.1 (he ▸ List.mem_map_of_mem hs)

/-! ### The states of the result -/

theorem concat_eq {n : Nat} {copies : List State} (hl : a.initial.label = b.initial.label)
    (hrun : b.others.forM (fun s => discard (adopt (s.rename (a.joinedId b)))) a =
      .ok () (a.extended copies n)) :
    concat b a = .ok () { a with
      initial := (a.initial.mergeMarker (b.initial.rename (a.joinedId b))).mergeMoves
        (b.initial.rename (a.joinedId b))
      others := a.others ++ copies
      nextId := n } := by
  unfold concat
  refine (Change.bind_of_ok (show (get : Edit Automaton) a = .ok a a from rfl)).trans ?_
  dsimp only
  rw [if_neg (not_not.2 hl)]
  exact (Change.bind_of_ok hrun).trans rfl

section Copies

variable {f : Nat → Nat} {copies : List State}
  (hcopies : List.Forall₂ (fun (s t : State) => (s.rename f).Relabelled t) b.others copies)

include hcopies

theorem mem_dests_copies {p q : Nat} {x : Symbol} :
    (∃ t ∈ copies, t.id = p ∧ q ∈ t.moves.dests x) ↔
      ∃ s ∈ b.others, f s.id = p ∧ q ∈ (s.moves.dests x).map f := by
  constructor
  · rintro ⟨t, ht, rfl, hq⟩
    obtain ⟨s, hs, hid, -, hmoves⟩ := forall₂_mem_right hcopies ht
    rw [hmoves] at hq
    exact ⟨s, hs, hid.symm, Moves.dests_rename s.moves f x ▸ hq⟩
  · rintro ⟨s, hs, rfl, hq⟩
    obtain ⟨t, ht, hid, -, hmoves⟩ := forall₂_mem_left hcopies hs
    refine ⟨t, ht, hid, ?_⟩
    rw [hmoves]
    exact (Moves.dests_rename s.moves f x).symm ▸ hq

variable (hstates : c.states = (a.initial.mergeMarker (b.initial.rename f)).mergeMoves
  (b.initial.rename f) :: (a.others ++ copies))

include hstates

theorem ids_joined : c.ids = a.ids ++ b.others.map fun s => f s.id := by
  have hids : copies.map (·.id) = b.others.map fun s => f s.id :=
    State.map_id_of_relabelled (g := fun (s : State) => s.rename f) hcopies
  rw [ids, hstates, List.map_cons, List.map_append, hids]
  rfl

theorem mem_ids_joined (hroot : f b.initial.id = a.initial.id) (p : Nat) :
    p ∈ c.ids ↔ p ∈ a.ids ∨ ∃ p' ∈ b.ids, f p' = p := by
  rw [ids_joined hcopies hstates, List.mem_append, List.mem_map]
  constructor
  · rintro (hp | ⟨s, hs, rfl⟩)
    · exact Or.inl hp
    · exact Or.inr ⟨s.id, List.mem_map_of_mem (List.mem_cons_of_mem _ hs), rfl⟩
  · rintro (hp | ⟨p', hp', rfl⟩)
    · exact Or.inl hp
    · rcases mem_ids_cases hp' with rfl | ⟨k, s, hs, rfl⟩
      · exact Or.inl (hroot ▸ initial_mem_ids a)
      · exact Or.inr ⟨s, List.mem_of_getElem? hs, rfl⟩

theorem mem_dests_joined (ha : a.WellFormed) (hb : b.WellFormed) (hc : c.ids.Nodup)
    (hroot : f b.initial.id = a.initial.id) (p : Nat) (x : Symbol) (q : Nat) :
    q ∈ c.dests p x ↔ q ∈ a.dests p x ∨ ∃ p' q', f p' = p ∧ q' ∈ b.dests p' x ∧ f q' = q := by
  have hmerged : q ∈ ((a.initial.mergeMarker (b.initial.rename f)).mergeMoves
      (b.initial.rename f)).moves.dests x ↔
      q ∈ a.initial.moves.dests x ∨ q ∈ (b.initial.moves.dests x).map f := by
    have hmoves : (b.initial.moves.rename f).WellFormed := (hb.states _ List.mem_cons_self).moves.rename f
    rw [← IdSet.mem_union, ← Moves.dests_rename, ← Moves.dests_union _ hmoves]
    rfl
  have hright : (∃ p' q', f p' = p ∧ q' ∈ b.dests p' x ∧ f q' = q) ↔
      ∃ s ∈ b.states, f s.id = p ∧ q ∈ (s.moves.dests x).map f := by
    constructor
    · rintro ⟨p', q', hp, hq, hf⟩
      obtain ⟨s, hs, rfl, hmove⟩ := (mem_dests_iff_states hb.nodup_ids).1 hq
      exact ⟨s, hs, hp, IdSet.mem_map.2 ⟨q', hmove, hf⟩⟩
    · rintro ⟨s, hs, hp, hq⟩
      obtain ⟨q', hq, hf⟩ := IdSet.mem_map.1 hq
      exact ⟨s.id, q', hp, (mem_dests_iff_states hb.nodup_ids).2 ⟨s, hs, rfl, hq⟩, hf⟩
  have hcopy := @mem_dests_copies b f copies hcopies p q x
  rw [hright, mem_dests_iff_states ha.nodup_ids, mem_dests_iff_states hc, hstates]
  simp only [states, List.mem_cons, List.mem_append, or_and_right, exists_or, exists_eq_left, hcopy,
    hmerged, hroot]
  show a.initial.id = p ∧ _ ∨ _ ↔ _
  constructor
  · rintro (⟨hp, hq | hq⟩ | hq | hq)
    · exact Or.inl (Or.inl ⟨hp, hq⟩)
    · exact Or.inr (Or.inl ⟨hp, hq⟩)
    · exact Or.inl (Or.inr hq)
    · exact Or.inr (Or.inr hq)
  · rintro ((⟨hp, hq⟩ | hq) | ⟨hp, hq⟩ | hq)
    · exact Or.inl ⟨hp, Or.inl hq⟩
    · exact Or.inr (Or.inl hq)
    · exact Or.inl ⟨hp, Or.inr hq⟩
    · exact Or.inr (Or.inr hq)

end Copies

/-- Ids handed out one after the other put the counter behind the last one. -/
theorem foldl_counter : ∀ {xs : List State} {f : Nat → Nat} {n : Nat},
    (∀ (k : Nat) (s : State), xs[k]? = some s → f s.id = n + k) →
      xs.foldl (fun n s => max n (f s.id + 1)) n = n + xs.length
  | [], _, _, _ => rfl
  | x :: xs, f, n, h => by
    have hx : f x.id = n := h 0 x rfl
    have hrest : ∀ (k : Nat) (s : State), xs[k]? = some s → f s.id = n + 1 + k := by
      intro k s hs
      have hs' : f s.id = n + (k + 1) := h (k + 1) s hs
      omega
    rw [List.foldl_cons, hx, Nat.max_eq_right (Nat.le_succ n), foldl_counter hrest, List.length_cons]
    omega

/-- Joining two automata whose initial states agree in label succeeds, and it
copies the states of the second, in order, with nothing but ids and labels
changed; each copy gets a label that is free in its turn. -/
theorem concat_copies (ha : a.WellFormed) (hb : b.WellFormed)
    (hl : a.initial.label = b.initial.label) :
    ∃ copies, NamedInTurn a.labels (b.others.map (·.rename (a.joinedId b))) copies ∧
      concat b a = .ok () { a with
        initial := (a.initial.mergeMarker (b.initial.rename (a.joinedId b))).mergeMoves
          (b.initial.rename (a.joinedId b))
        others := a.others ++ copies
        nextId := a.nextId + b.others.length } := by
  obtain ⟨copies, hrun, hcopies⟩ := forM_adopt
    (f := fun (s : State) => discard (adopt (s.rename (a.joinedId b))))
    (g := fun s => s.rename (a.joinedId b)) (fun _ _ => rfl) (nodup_joinedIds ha hb)
  have hcounter : b.others.foldl (fun n s => max n (a.joinedId b s.id + 1)) a.nextId =
      a.nextId + b.others.length := foldl_counter fun k s hs => joinedId_others hb.nodup_ids hs
  refine ⟨copies, hcopies, ?_⟩
  rw [concat_eq hl hrun]
  exact congrArg (fun n => EStateM.Result.ok () (Automaton.mk _ (a.others ++ copies) n)) hcounter

/-- The result is joined from the two. -/
theorem concat_joined (ha : a.WellFormed) (hb : b.WellFormed)
    (hl : a.initial.label = b.initial.label) :
    ∃ c, concat b a = .ok () c ∧ Joined a b (a.joinedId b) c := by
  obtain ⟨copies, hnamed, hconcat⟩ := concat_copies ha hb hl
  have hcopies := hnamed.relabelled
  have hwf := (keeps_concat hb).ok ha hconcat
  generalize hc : Automaton.mk _ _ _ = c at hconcat hwf
  have hstates : c.states = (a.initial.mergeMarker (b.initial.rename (a.joinedId b))).mergeMoves
      (b.initial.rename (a.joinedId b)) :: (a.others ++ copies) := by
    rw [← hc]
    rfl
  have hinitial : c.initial.id = a.initial.id := by
    rw [← hc]
    rfl
  have hroot := joinedId_initial a b
  refine ⟨c, hconcat, hwf, hinitial, hroot, fun p hp q hq => joinedId_injective ha hb hp hq,
    fun p hp => joinedId_shared ha hb hp, mem_ids_joined hcopies hstates hroot,
    mem_dests_joined hcopies hstates ha hb hwf.nodup_ids hroot, ?_, fun p hp hne => ?_,
    fun p hp hne => ?_⟩
  · rw [markerOf?_of_state? (state?_initial a), markerOf?_of_state? (state?_initial b), ← hinitial,
      markerOf?_of_state? (state?_initial c), ← hc]
    rfl
  · obtain ⟨s, hs, rfl⟩ := List.mem_map.1 hp
    have hs' : s ∈ c.states := by
      rw [hstates]
      rcases List.mem_cons.1 hs with rfl | hs
      · exact absurd rfl hne
      · exact List.mem_cons_of_mem _ (List.mem_append_left _ hs)
    rw [markerOf?_of_mem_states ha.nodup_ids hs, markerOf?_of_mem_states hwf.nodup_ids hs']
  · rcases mem_ids_cases hp with rfl | ⟨k, s, hs, rfl⟩
    · exact absurd rfl hne
    · have hmem := List.mem_of_getElem? hs
      obtain ⟨t, ht, hid, hmarker, -⟩ := forall₂_mem_left hcopies hmem
      have ht' : t ∈ c.states := hstates ▸ List.mem_cons_of_mem _ (List.mem_append_right _ ht)
      have hid : t.id = a.joinedId b s.id := hid
      rw [← hid, markerOf?_of_mem_states hwf.nodup_ids ht', hmarker,
        markerOf?_of_mem_states hb.nodup_ids (List.mem_cons_of_mem _ hmem)]
      rfl

/-- Where the labels of the initial states differ, nothing is joined. -/
theorem concat_of_ne (hl : a.initial.label ≠ b.initial.label) :
    concat b a = .error (.mismatchedRoots a.initial.label b.initial.label) a := by
  unfold concat
  refine (Change.bind_of_ok (show (get : Edit Automaton) a = .ok a a from rfl)).trans ?_
  dsimp only
  rw [if_pos hl]
  rfl

/-- Joining leaves the joined automaton or, if the labels differ, the old one. -/
theorem concat_after (ha : a.WellFormed) (hb : b.WellFormed) :
    (concat b).after a = a ∨ Joined a b (a.joinedId b) ((concat b).after a) := by
  by_cases hl : a.initial.label = b.initial.label
  · obtain ⟨c, hrun, hjoined⟩ := concat_joined ha hb hl
    rw [Change.after_of_ok hrun]
    exact Or.inr hjoined
  · exact Or.inl (Change.after_of_error (concat_of_ne hl))

end Automaton
end TokenAutomata
