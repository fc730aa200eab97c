/-
# Labels stay unique

A label made unique is free: it is the given one if that is free, and otherwise
the first free candidate, and the search for it ends after no more candidates
than there are labels in use (`FreeLabel`). No property of the automaton is
needed for this, so labels that look like candidates themselves, such as
`L#7.1`, may be in use.

Joining and determinizing give a state such a label when they add it, and the
labels of the states added before are in use by then
(`Automaton.NamedInTurn`). So after each step the labels differ, and in the end
no two states have the same label (`Automaton.labels_stay_unique`).

Key theorems: `Automaton.labels_stay_unique`.
-/
import TokenAutomata.Proofs.BreadthFirst
import TokenAutomata.Proofs.Joining
import TokenAutomata.Proofs.SubsetConstruction

namespace TokenAutomata
namespace Automaton

/-- A label made unique is the label itself or its first free candidate, found
after no more candidates than there are labels in use. Joining names the copies
in this way, one after the other, and determinizing the states it finds, so
that no two states have the same label in the end. -/
theorem labels_stay_unique (a : Automaton) :
    (∀ label id, FirstFree a.labels label id (a.uniqueLabel label id)) ∧
    (∀ b, Built a → Built b → a.initial.label = b.initial.label →
      ∃ copies c, concat b a = .ok () c ∧ c.initial.label = a.initial.label ∧
        c.others = a.others ++ copies ∧
        NamedInTurn a.labels (b.others.map (·.rename (a.joinedId b))) copies ∧ c.labels.Nodup) ∧
    (a.validate = .ok () → ∃ d, a.determinize = .ok d ∧ d.initial.label = a.initial.label ∧
      NamedInTurn [a.initial.label]
        (a.reachedSets.zipIdx.tail.map fun x => a.subsetState a.reachedSets x.1 x.2) d.others ∧
      d.labels.Nodup) := by
  refine ⟨firstFree_uniqueLabel a, fun b ha hb hl => ?_, fun hv => ?_⟩
  · obtain ⟨copies, hnamed, hrun⟩ := concat_copies ha.wellFormed hb.wellFormed hl
    -- the initial state keeps its label, so those of the copies come behind the old ones
    refine ⟨copies, _, hrun, rfl, rfl, hnamed, ?_⟩
    have hnodup := hnamed.nodup ha.wellFormed.nodup_labels
    rwa [labels, ← List.map_append] at hnodup
  · obtain ⟨d, hd, -, hfirst, hnamed⟩ := determinize_run hv
    have hinitial : d.initial.label = a.initial.label := by rw [hfirst, label_subsetState_initial]
    have hlabels : d.labels = [a.initial.label] ++ d.others.map (·.label) := by
      rw [← hinitial]
      rfl
    exact ⟨d, hd, hinitial, hnamed, hlabels ▸ hnamed.nodup (List.nodup_singleton _)⟩

/-- Its labels look like candidates for `q1`. -/
def crowded : Automaton :=
  (addTransition 0 'c' 1).after <| (addTransition 0 'b' 2).after <| (addTransition 0 'a' 4).after <|
    (addTransition 0 'a' 3).after <| (addState "q1#5.1").after <| (addState "q1#5").after <|
      (addState "q1#3").after <| (addState "q1").after (withInitial rootLabel)

theorem reachedSets_crowded :
    crowded.reachedSets = [.ofList [0], .ofList [3, 4], .ofList [2], .ofList [1]] := by
  have hturns : Worklist.Turns crowded.successorSets 4
      (Worklist.empty.addAll [IdSet.singleton crowded.initial.id])
      ⟨[.ofList [0], .ofList [3, 4], .ofList [2], .ofList [1]], [], [3, 2, 1, 0]⟩ :=
    .turn rfl <| .turn rfl <| .turn rfl <| .turn rfl <| .none _
  unfold reachedSets search
  rw [Worklist.run_of_turns _ hturns rfl]

/-- A state `q1` joined to it gets the third candidate. Determinized, it has the
label `q1` for the set of 3 and 4, so that its own `q1` gets the second one. -/
theorem crowded_labels : ∃ other, Built crowded ∧ Built other ∧
    crowded.initial.label = other.initial.label ∧ crowded.validate = .ok () ∧
    (∃ c, concat other crowded = .ok () c ∧ c.labels.Nodup ∧
      c.labels = [rootLabel, "q1", "q1#3", "q1#5", "q1#5.1", "q1#5.2"]) ∧
    ∃ d, crowded.determinize = .ok d ∧ d.labels.Nodup ∧ d.labels = [rootLabel, "q1", "q1#3", "q1#3.1"] := by
  have hbuilt : Built crowded := .addTransition 0 'c' 1 <| .addTransition 0 'b' 2 <|
    .addTransition 0 'a' 4 <| .addTransition 0 'a' 3 <| .addState "q1#5.1" <| .addState "q1#5" <|
      .addState "q1#3" <| .addState "q1" (.withInitial rootLabel)
  have hother : Built ((addState "q1").after (withInitial rootLabel)) :=
    .addState "q1" (.withInitial rootLabel)
  have hvalid : crowded.validate = .ok () := by decide
  obtain ⟨-, hconcat, hdeterminize⟩ := labels_stay_unique crowded
  obtain ⟨-, c, hc, -, -, -, hcnodup⟩ := hconcat _ hbuilt hother rfl
  obtain ⟨d, hd, -, -, hdnodup⟩ := hdeterminize hvalid
  refine ⟨_, hbuilt, hother, rfl, hvalid, ⟨c, hc, hcnodup, ?_⟩, d, hd, hdnodup, ?_⟩
  · rw [← Change.after_of_ok hc]
    decide +kernel
  · have hlabels : crowded.determinize.map (·.labels) = .ok [rootLabel, "q1", "q1#3", "q1#3.1"] := by
      rw [determinize, reachedSets_crowded]
      decide +kernel
    rw [hd] at hlabels
    exact Except.ok.inj hlabels

end Automaton
end TokenAutomata
