/-
# Adopting states one after the other

States under ids that are free can all be adopted, whatever their labels:
each gets a label that is free at its turn (`Automaton.NamedInTurn`). They come
behind the states that are there, in their order, with nothing but the labels
changed (`Automaton.forM_adopt`).

Key definitions: `State.Relabelled`, `Automaton.extended`,
`Automaton.NamedInTurn`.
Key theorems: `Automaton.adopt_eq`, `Automaton.forM_adopt`,
`Automaton.NamedInTurn.relabelled`, `Automaton.NamedInTurn.nodup`,
`Automaton.state?_extended`, `Automaton.state?_extended_new`.
-/
import TokenAutomata.Proofs.FreeLabel
import TokenAutomata.Proofs.WellFormed

namespace TokenAutomata

/-- `t` is `s` under another label. -/
def State.Relabelled (s t : State) : Prop := t.id = s.id ∧ t.marker = s.marker ∧ t.moves = s.moves

/-- Copies have the ids of what they copy. -/
theorem State.map_id_of_relabelled {β : Type} {g : β → State} {xs : List β} {copies : List State}
    (h : List.Forall₂ (fun x t => (g x).Relabelled t) xs copies) :
    copies.map (·.id) = xs.map fun x => (g x).id := by
  induction h with
  | nil => rfl
  | cons hxt _ ih => rw [List.map_cons, List.map_cons, hxt.1, ih]

namespace Automaton

/-- The automaton with more states behind those that are there. -/
def extended (a : Automaton) (more : List State) (nextId : Nat) : Automaton :=
  { a with others := a.others ++ more, nextId }

theorem adopt_eq {a : Automaton} {s : State} (hid : s.id ∉ a.ids) : adopt s a = .ok s.id
    (a.extended [{ s with label := a.uniqueLabel s.label s.id }] (max a.nextId (s.id + 1))) := by
  have hl := uniqueLabel_not_mem a s.label s.id
  exact insert_eq_ok.2 ⟨hl, hid, rfl, rfl⟩

/-- The copies are the states in their order, each under the label that is free
in its turn, when the labels in `used` and those of the copies before it are
taken. -/
inductive NamedInTurn : List String → List State → List State → Prop
  | nil {used : List String} : NamedInTurn used [] []
  | cons {used : List String} {s : State} {label : String} {states copies : List State} :
      FirstFree used s.label s.id label → NamedInTurn (used ++ [label]) states copies →
      NamedInTurn used (s :: states) ({ s with label } :: copies)

/-- Nothing but the labels changes. -/
theorem NamedInTurn.relabelled {β : Type} {g : β → State} {copies : List State} : ∀ {xs : List β}
    {used : List String}, NamedInTurn used (xs.map g) copies →
      List.Forall₂ (fun x t => (g x).Relabelled t) xs copies
  | [], _, .nil => .nil
  | _ :: _, _, .cons _ h => .cons ⟨rfl, rfl, rfl⟩ h.relabelled

/-- No two copies have the same label, and none has one that was taken before. -/
theorem NamedInTurn.nodup {used : List String} {states copies : List State}
    (h : NamedInTurn used states copies) (hused : used.Nodup) :
    (used ++ copies.map (·.label)).Nodup := by
  induction h with
  | nil => simpa using hused
  | @cons used s label states copies hlabel _ ih =>
    rw [List.map_cons, List.append_cons]
    refine ih (List.nodup_append.2 ⟨hused, List.nodup_singleton label, fun l hl m hm he => ?_⟩)
    exact hlabel.free (List.mem_singleton.1 hm ▸ he ▸ hl)

/-- Edits that adopt the states `g x` adopt them all, if their ids are free
and different. -/
theorem forM_adopt {β : Type} {f : β → Edit Unit} {g : β → State} : ∀ {xs : List β} {a : Automaton},
    (∀ x ∈ xs, f x = discard (adopt (g x))) → (a.ids ++ xs.map fun x => (g x).id).Nodup →
    ∃ copies, xs.forM f a =
        .ok () (a.extended copies (xs.foldl (fun n x => max n ((g x).id + 1)) a.nextId)) ∧
      NamedInTurn a.labels (xs.map g) copies
  | [], a, _, _ => ⟨[], by rw [Change.forM_nil, extended, List.append_nil]; rfl, .nil⟩
  | x :: xs, a, hf, hids => by
    have hfresh : (g x).id ∉ a.ids := fun hm =>
      (List.nodup_append.1 hids).2.2 _ hm (g x).id List.mem_cons_self rfl
    let copy : State := { g x with label := a.uniqueLabel (g x).label (g x).id }
    let b : Automaton := a.extended [copy] (max a.nextId ((g x).id + 1))
    have hids' : (b.ids ++ xs.map fun x => (g x).id).Nodup := by
      have hb : b.ids = a.ids ++ [(g x).id] := by
        show (a.states ++ [copy]).map (·.id) = _
        rw [List.map_append]
        rfl
      rw [hb, List.append_assoc]
      exact hids
    have hlabels : b.labels = a.labels ++ [copy.label] := by
      show (a.states ++ [copy]).map (·.label) = _
      rw [List.map_append]
      rfl
    obtain ⟨copies, hrun, hcopies⟩ := forM_adopt (fun y hy => hf y (List.mem_cons_of_mem _ hy)) hids'
    refine ⟨copy :: copies, ?_, .cons (firstFree_uniqueLabel a _ _) (hlabels ▸ hcopies)⟩
    have hstep : f x a = .ok () b := by
      rw [hf x List.mem_cons_self, Change.discard_eq_ok]
      exact ⟨_, adopt_eq hfresh⟩
    rw [Change.forM_cons, Change.bind_of_ok hstep, hrun]
    simp [extended, b]

/-! ### Finding the states afterwards -/

variable {a : Automaton} {more : List State} {n : Nat}

theorem states_extended : (a.extended more n).states = a.states ++ more := rfl

theorem ids_extended : (a.extended more n).ids = a.ids ++ more.map (·.id) := by
  rw [ids, states_extended, List.map_append]
  rfl

theorem state?_extended {id : Nat} (h : id ∈ a.ids) :
    (a.extended more n).state? id = a.state? id := by
  obtain ⟨s, hs⟩ := mem_ids_iff.1 h
  have hfind : a.states.find? (·.id == id) = some s := hs
  rw [hs, state?, states_extended, List.find?_append, hfind]
  rfl

theorem state?_extended_new (h : (a.extended more n).ids.Nodup) {s : State} (hs : s ∈ more) :
    (a.extended more n).state? s.id = some s :=
  (state?_eq_some_iff h).2 ⟨List.mem_append_right a.states hs, rfl⟩

end Automaton
end TokenAutomata
