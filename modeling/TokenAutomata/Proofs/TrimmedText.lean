/-
# Trimmed and cut texts

A text is trimmed to what is left between the blanks at its ends: some text
without a blank at either end (`Text.Tight`), before and after which there is
nothing but blanks (`Text.TrimsTo`). There is only one such text, so trimming
finds it (`Text.trim_eq_iff`). The pieces that a text is cut into are those
of `List.splitOn` (`Text.split_eq_splitOn`).

Key definitions: `Text.Blank`, `Text.Tight`, `Text.TrimsTo`.
Key theorems: `Text.trim_eq_iff`, `Text.split_eq_splitOn`.
-/
import Mathlib.Data.List.DropRight
import TokenAutomata.Text.Blank
import TokenAutomata.Text.Split

namespace TokenAutomata
namespace Text

/-- Nothing but blanks. -/
def Blank (s : List Char) : Prop := ∀ c ∈ s, isBlank c = true

/-- No blank stands at either end. -/
structure Tight (s : List Char) : Prop where
  first : ∀ c rest, s = c :: rest → isBlank c = false
  last : ∀ front c, s = front ++ [c] → isBlank c = false

/-- Without the blanks around it, `s` reads `core`. -/
def TrimsTo (s core : List Char) : Prop :=
  Tight core ∧ ∃ before after, Blank before ∧ Blank after ∧ s = before ++ core ++ after

variable {s core : List Char}

theorem blank_nil : Blank [] := fun _ hc => absurd hc List.not_mem_nil

theorem blank_space : Blank [' '] := fun c hc => by
  rw [List.mem_singleton.1 hc]
  rfl

/-- A text without any blank. -/
theorem tight_of_solid (h : ∀ c ∈ s, isBlank c = false) : Tight s := by
  refine ⟨fun c rest hs => h c ?_, fun front c hs => h c ?_⟩
  · rw [hs]
    exact List.mem_cons_self
  · rw [hs]
    exact List.mem_append_right front List.mem_cons_self

/-- Between two tight texts anything may stand. -/
theorem Tight.append {t mid : List Char} (hs : Tight s) (ht : Tight t) (hsne : s ≠ []) (htne : t ≠ []) :
    Tight (s ++ mid ++ t) := by
  refine ⟨fun c rest h => ?_, fun front c h => ?_⟩
  · obtain ⟨d, rest', rfl⟩ := List.exists_cons_of_ne_nil hsne
    rw [← (List.cons.inj h).1]
    exact hs.first d rest' rfl
  · rcases List.eq_nil_or_concat t with rfl | ⟨front', d, rfl⟩
    · exact absurd rfl htne
    · rw [List.concat_eq_append, ← List.append_assoc] at h
      rw [← (List.cons.inj (List.append_inj' h rfl).2).1]
      exact ht.last front' d (List.concat_eq_append)

/-- What follows last in a tight text is not all blank. -/
theorem Tight.eq_nil_of_append {front : List Char} (h : Tight (front ++ s)) (hs : Blank s) : s = [] := by
  rcases List.eq_nil_or_concat s with rfl | ⟨rest, c, rfl⟩
  · rfl
  · have hc := hs c (by simp)
    rw [h.last (front ++ rest) c (by simp)] at hc
    cases hc

/-! ### Trimming at one end -/

theorem trimStart_append {before : List Char} (h : Blank before) :
    trimStart (before ++ s) = trimStart s :=
  List.dropWhile_append_of_pos h

theorem trimStart_cons {c : Char} (h : isBlank c = false) : trimStart (c :: s) = c :: s := by
  simp [trimStart, h]

theorem exists_blank_trimStart (s : List Char) : ∃ before, Blank before ∧ s = before ++ trimStart s :=
  ⟨s.takeWhile isBlank, fun _ hc => List.mem_takeWhile_imp hc, List.takeWhile_append_dropWhile.symm⟩

theorem isBlank_first_trimStart {c : Char} {rest : List Char} (h : trimStart s = c :: rest) :
    isBlank c = false := by
  have hne : s.dropWhile isBlank ≠ [] := by
    rw [show s.dropWhile isBlank = c :: rest from h]
    exact List.cons_ne_nil c rest
  have hfirst := List.head_dropWhile_not isBlank hne
  simpa [show s.dropWhile isBlank = c :: rest from h] using hfirst

/-- Blanks at the end are those in front of the text read backwards. -/
theorem trimEnd_eq (s : List Char) : trimEnd s = (trimStart s.reverse).reverse := rfl

theorem trimEnd_append {after : List Char} (h : Blank after) : trimEnd (s ++ after) = trimEnd s := by
  have hreverse : Blank after.reverse := fun c hc => h c (List.mem_reverse.1 hc)
  rw [trimEnd_eq, List.reverse_append, trimStart_append hreverse, trimEnd_eq]

theorem exists_blank_trimEnd (s : List Char) : ∃ after, Blank after ∧ s = trimEnd s ++ after := by
  obtain ⟨before, hbefore, hs⟩ := exists_blank_trimStart s.reverse
  refine ⟨before.reverse, fun c hc => hbefore c (List.mem_reverse.1 hc), ?_⟩
  rw [trimEnd_eq, ← List.reverse_append, ← hs, List.reverse_reverse]

/-! ### Trimming at both ends -/

theorem trim_of_tight (h : Tight core) : trim core = core := by
  have hstart : trimStart core = core := by
    cases core with
    | nil => rfl
    | cons c rest => exact trimStart_cons (h.first c rest rfl)
  rw [trim, hstart]
  rcases List.eq_nil_or_concat core with rfl | ⟨front, c, rfl⟩
  · rfl
  · rw [trimEnd_eq, List.concat_eq_append, List.reverse_append, List.reverse_singleton,
      List.singleton_append, trimStart_cons (h.last front c (by simp))]
    simp

theorem trim_of_trimsTo (h : TrimsTo s core) : trim s = core := by
  obtain ⟨htight, before, after, hbefore, hafter, rfl⟩ := h
  rw [List.append_assoc, trim, trimStart_append hbefore]
  cases core with
  | nil =>
    have hnil : trimStart after = [] := List.dropWhile_eq_nil_iff.2 hafter
    rw [List.nil_append, hnil]
    rfl
  | cons c rest =>
    have hc := htight.first c rest rfl
    have htrim := trim_of_tight htight
    rw [trim, trimStart_cons hc] at htrim
    rw [List.cons_append, trimStart_cons hc, ← List.cons_append, trimEnd_append hafter, htrim]

theorem trimsTo_trim (s : List Char) : TrimsTo s (trim s) := by
  obtain ⟨before, hbefore, hs⟩ := exists_blank_trimStart s
  obtain ⟨after, hafter, hrest⟩ := exists_blank_trimEnd (trimStart s)
  refine ⟨⟨fun c rest hc => ?_, fun front c hc => ?_⟩, before, after, hbefore, hafter, ?_⟩
  · -- what trimming at the end leaves starts as before
    rw [show trimEnd (trimStart s) = c :: rest from hc] at hrest
    exact isBlank_first_trimStart hrest
  · have hreverse : trimStart (trimStart s).reverse = c :: front.reverse := by
      have hc := congrArg List.reverse hc
      rwa [trim, trimEnd_eq, List.reverse_reverse, List.reverse_append] at hc
    exact isBlank_first_trimStart hreverse
  · rw [List.append_assoc, trim, ← hrest, ← hs]

/-- Trimming finds the text between the blanks. -/
theorem trim_eq_iff : trim s = core ↔ TrimsTo s core := by
  constructor
  · rintro rfl
    exact trimsTo_trim s
  · exact trim_of_trimsTo

/-! ### Cutting into pieces -/

theorem cut_eq_none_iff {mark : Char} : ∀ {s : List Char}, cut mark s = none ↔ mark ∉ s
  | [] => by simp [cut]
  | c :: rest => by
    have ih : cut mark rest = none ↔ mark ∉ rest := cut_eq_none_iff
    unfold cut
    by_cases hc : c = mark
    · simp [hc]
    · rw [if_neg hc, Option.map_eq_none_iff, ih]
      simp [Ne.symm hc]

/-- The pieces are those of the library's function. -/
theorem split_eq_splitOn (mark : Char) : ∀ s : List Char, split mark s = s.splitOn mark
  | [] => by rw [List.splitOn_nil, split]
  | c :: rest => by
    have ih := split_eq_splitOn mark rest
    rw [List.splitOn_eq_splitOnP] at ih ⊢
    rw [split, List.splitOnP_cons_eq_if_modifyHead]
    by_cases hc : c = mark
    · rw [if_pos hc, if_pos (beq_iff_eq.2 hc), ih]
    · rw [if_neg hc, if_neg (mt beq_iff_eq.1 hc), ← ih]
      cases hpieces : split mark rest with
      | nil => exact absurd hpieces (split_ne_nil mark rest)
      | cons piece pieces => rfl

theorem splitOn_of_not_mem {mark : Char} (h : mark ∉ s) : s.splitOn mark = [s] := by
  rw [List.splitOn_eq_splitOnP]
  exact List.splitOnP_eq_singleton fun c hc => beq_false_of_ne fun he => h (he ▸ hc)

theorem splitOn_append_cons {mark : Char} (h : mark ∉ s) (rest : List Char) :
    (s ++ mark :: rest).splitOn mark = s :: rest.splitOn mark := by
  have hfirst : ∀ c ∈ s, (c == mark) = false := fun c hc => beq_false_of_ne fun he => h (he ▸ hc)
  rw [List.splitOn_eq_splitOnP, List.splitOn_eq_splitOnP]
  exact List.splitOnP_append_cons_of_forall_mem hfirst mark (beq_self_eq_true mark) rest

end Text
end TokenAutomata
