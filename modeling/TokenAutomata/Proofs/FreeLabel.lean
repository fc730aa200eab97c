/-
# A label made unique is free

The candidates for a free label, `L#7`, `L#7.1`, `L#7.2`, …, are different
texts, since a number can be read off its digits. The search strikes each
candidate in use from the labels in use, so what it strikes it does not meet
again, and the label it stops at is none of those it started with. It is the
first candidate of which that is so, and before it the search meets no more
candidates than there are labels in use (`Automaton.firstFree_eq`).

Key definitions: `Automaton.FirstFree`.
Key theorems: `Automaton.labelCandidate_injective`,
`Automaton.firstFree_not_mem`, `Automaton.uniqueLabel_not_mem`,
`Automaton.firstFree_uniqueLabel`.
-/
import TokenAutomata.Automaton.Basic

namespace TokenAutomata
namespace Automaton

theorem toDigits_injective {m n : Nat} (h : Nat.toDigits 10 m = Nat.toDigits 10 n) : m = n := by
  rw [← Nat.ofDigitChars_ten_toDigits (n := m), h, Nat.ofDigitChars_ten_toDigits]

theorem toList_labelCandidate (label : String) (id : Nat) : ∀ k,
    (labelCandidate label id k).toList = label.toList ++ '#' :: Nat.toDigits 10 id ++
      match k with
      | 0 => []
      | k + 1 => '.' :: Nat.toDigits 10 (k + 1)
  | 0 => by simp [labelCandidate, toString]
  | k + 1 => by simp [labelCandidate, toString]

/-- No two candidates are the same text. -/
theorem labelCandidate_injective {label : String} {id i j : Nat}
    (h : labelCandidate label id i = labelCandidate label id j) : i = j := by
  have hl := congrArg String.toList h
  rw [toList_labelCandidate, toList_labelCandidate, List.append_cancel_left_eq] at hl
  cases i with
  | zero =>
    cases j with
    | zero => rfl
    | succ j => cases hl
  | succ i =>
    cases j with
    | zero => cases hl
    | succ j => exact toDigits_injective (List.cons.inj hl).2

/-- What the search gives is none of the labels `all` in use, if each of them
is still to be looked at or is a candidate before the present one. -/
theorem firstFree_not_mem {candidate : Nat → String} (hinj : ∀ i j, candidate i = candidate j → i = j)
    {all : List String} (used : List String) (k : Nat)
    (hall : ∀ l ∈ all, l ∈ used ∨ ∃ i < k, l = candidate i) : firstFree candidate used k ∉ all := by
  fun_induction firstFree candidate used k with
  | case1 used k h ih =>
    refine ih fun l hl => ?_
    by_cases hk : l = candidate k
    · exact Or.inr ⟨k, Nat.lt_succ_self k, hk⟩
    · rcases hall l hl with hu | ⟨i, hi, he⟩
      · exact Or.inl ((List.mem_erase_of_ne hk).2 hu)
      · exact Or.inr ⟨i, Nat.lt_succ_of_lt hi, he⟩
  | case2 used k h =>
    intro hk
    rcases hall _ hk with hu | ⟨i, hi, he⟩
    · exact h hu
    · exact Nat.ne_of_lt hi (hinj _ _ he).symm

theorem uniqueLabel_not_mem (a : Automaton) (label : String) (id : Nat) :
    a.uniqueLabel label id ∉ a.labels := by
  unfold uniqueLabel
  split
  · exact firstFree_not_mem (fun _ _ => labelCandidate_injective) a.labels 0 fun l hl => Or.inl hl
  · assumption

/-- The search refuses `n` candidates that are in use, which are no more than
there are labels in use, and takes the next one. -/
theorem firstFree_eq (candidate : Nat → String) (used : List String) (k : Nat) : ∃ n ≤ used.length,
    firstFree candidate used k = candidate (k + n) ∧ ∀ i < n, candidate (k + i) ∈ used := by
  fun_induction firstFree candidate used k with
  | case1 used k h ih =>
    obtain ⟨n, hn, hnew, hrefused⟩ := ih
    have hpos : 0 < used.length := List.length_pos_of_mem h
    rw [List.length_erase_of_mem h] at hn
    refine ⟨n + 1, by omega, hnew.trans (congrArg candidate (by omega)), fun i hi => ?_⟩
    cases i with
    | zero => exact h
    | succ i =>
      have hmem : candidate (k + 1 + i) ∈ used := List.mem_of_mem_erase (hrefused i (by omega))
      rwa [Nat.add_right_comm] at hmem
  | case2 used k h => exact ⟨0, Nat.zero_le _, rfl, fun i hi => absurd hi (Nat.not_lt_zero i)⟩

/-- The order of the labels in use does not matter. -/
theorem firstFree_perm {candidate : Nat → String} {used used' : List String} (h : used.Perm used') (k : Nat) :
    firstFree candidate used k = firstFree candidate used' k := by
  fun_induction firstFree candidate used k generalizing used' with
  | case1 used k hused ih =>
    rw [ih (h.erase _), firstFree.eq_def candidate used' k, dif_pos (h.mem_iff.1 hused)]
  | case2 used k hused => rw [firstFree, dif_neg (mt h.mem_iff.2 hused)]

/-- `new` is free. It is the label itself if that was free, and otherwise the
first free candidate, which is found after no more candidates than there are
labels in use. -/
structure FirstFree (used : List String) (label : String) (id : Nat) (new : String) : Prop where
  free : new ∉ used
  kept : label ∉ used → new = label
  numbered : label ∈ used → ∃ n ≤ used.length, new = labelCandidate label id n ∧
    ∀ k < n, labelCandidate label id k ∈ used

theorem firstFree_uniqueLabel (a : Automaton) (label : String) (id : Nat) :
    FirstFree a.labels label id (a.uniqueLabel label id) where
  free := a.uniqueLabel_not_mem label id
  kept hl := if_neg hl
  numbered hl := by
    obtain ⟨n, hn, hnew, hrefused⟩ := firstFree_eq (labelCandidate label id) a.labels 0
    rw [Nat.zero_add] at hnew
    exact ⟨n, hn, (if_pos hl).trans hnew, fun k hk => Nat.zero_add k ▸ hrefused k hk⟩

end Automaton
end TokenAutomata
