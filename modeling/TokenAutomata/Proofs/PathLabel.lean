/-
# Labels along a path

The states on a path are labelled `IF_1`, `IF_2`, …: a stem, then `_` and a
number. Digits follow the last `_` of such a label, so it tells its stem and
its number (`pathLabel_injective`), and it is not the name of a nonterminal.

A run of edits that adds such labels alone (`Automaton.Lengthened`) uses up
numbers of one stem and leaves all others free (`Automaton.FreeAfter`). So the
label of the next state on a path is free whatever paths of other stems there
are. A path always gets to its last move (`Automaton.addPath_last`), so it can
be added just if its end can (`Automaton.addPath_ok`, `Automaton.addPath_error`).

Key definitions: `pathLabel`, `Automaton.FreeAfter`, `Automaton.Lengthened`.
Key theorems: `pathLabel_injective`, `Automaton.Lengthened.freeAfter`,
`Automaton.addPath_last`, `Automaton.addPath_ok`, `Automaton.addPath_error`.
-/
import TokenAutomata.Grammar.Compile
import TokenAutomata.Proofs.EditEffects

namespace TokenAutomata

/-- The label of the state of number `k` on the paths of a stem. -/
def pathLabel (stem : String) (k : Nat) : String := s!"{stem}_{k}"

theorem toList_pathLabel (stem : String) (k : Nat) :
    (pathLabel stem k).toList = stem.toList ++ '_' :: Nat.toDigits 10 k := by
  simp [pathLabel, toString]

theorem isDigit_of_mem_toDigits {c : Char} {k : Nat} (h : c ∈ Nat.toDigits 10 k) :
    c.isDigit = true :=
  Nat.isDigit_of_mem_toDigits (by decide) (by decide) h

/-- Two texts are cut at their last `_` in the same place. -/
theorem cut_at_last {xs ys ds es : List Char} (hd : '_' ∉ ds) (he : '_' ∉ es)
    (h : xs ++ '_' :: ds = ys ++ '_' :: es) : xs = ys ∧ ds = es := by
  rcases List.append_eq_append_iff.1 h with ⟨mid, hys, hrest⟩ | ⟨mid, hxs, hrest⟩
  · cases mid with
    | nil => simpa [hys] using hrest
    | cons c mid =>
      have hds : ds = mid ++ '_' :: es := (List.cons.inj hrest).2
      exact absurd (by simp [hds]) hd
  · cases mid with
    | nil => simpa [hxs, eq_comm] using hrest
    | cons c mid =>
      have hes : es = mid ++ '_' :: ds := (List.cons.inj hrest).2
      exact absurd (by simp [hes]) he

theorem pathLabel_injective {stem stem' : String} {j k : Nat}
    (h : pathLabel stem j = pathLabel stem' k) : stem = stem' ∧ j = k := by
  have hno : ∀ n, '_' ∉ Nat.toDigits 10 n := fun n hm => by
    have hdigit := isDigit_of_mem_toDigits hm
    simp at hdigit
  have hlist := congrArg String.toList h
  rw [toList_pathLabel, toList_pathLabel] at hlist
  have hparts := cut_at_last (hno j) (hno k) hlist
  have hnumber : j = k := by
    rw [← Nat.ofDigitChars_ten_toDigits (n := j), hparts.2, Nat.ofDigitChars_ten_toDigits]
  exact ⟨String.toList_inj.1 hparts.1, hnumber⟩

/-- A digit is in no name of a nonterminal. -/
theorem not_isNonterminalName_pathLabel (stem : String) (k : Nat) :
    isNonterminalName (pathLabel stem k).toList = false := by
  obtain ⟨c, hc⟩ := List.exists_mem_of_ne_nil (Nat.toDigits 10 k) Nat.toDigits_ne_nil
  have hdigit : 48 ≤ c.val ∧ c.val ≤ 57 := by simpa [Char.isDigit] using isDigit_of_mem_toDigits hc
  have hupper : c.isUpper = false := by
    refine decide_eq_false fun h => ?_
    have hlow : 65 ≤ c.val := h.1
    grind
  have hbar : (c == '_') = false := by
    simp
    rintro rfl
    simp at hdigit
  have hmem : c ∈ (pathLabel stem k).toList := by simp [toList_pathLabel, hc]
  by_contra hname
  unfold isNonterminalName at hname
  simp only [Bool.not_eq_false, Bool.and_eq_true] at hname
  have hc' := List.all_eq_true.1 hname.2 c hmem
  simp [hupper, hbar] at hc'

namespace Automaton

variable {a b c : Automaton} {stem stem' : String} {i j k : Nat}

/-! ### Labels in use -/

theorem labels_update {id : Nat} {f : State → State} (hf : ∀ s, (f s).label = s.label) :
    (a.update id f).labels = a.labels := by
  rw [labels, states_update, List.map_map]
  refine List.map_congr_left fun s _ => ?_
  show (if s.id = id then f s else s).label = s.label
  split
  · exact hf s
  · rfl

/-- No label of the stem with a number above `k` is in use. -/
def FreeAfter (stem : String) (k : Nat) (a : Automaton) : Prop :=
  ∀ j, k < j → pathLabel stem j ∉ a.labels

/-- `b` has the states of `a`, and new labels of the stem with numbers above
`k` and up to `k'`. -/
structure Lengthened (stem : String) (k k' : Nat) (a b : Automaton) : Prop where
  wellFormed : b.WellFormed
  ids : ∀ p ∈ a.ids, p ∈ b.ids
  le : k ≤ k'
  labels : ∀ l ∈ b.labels, l ∈ a.labels ∨ ∃ j, k < j ∧ j ≤ k' ∧ l = pathLabel stem j

namespace Lengthened

theorem refl (ha : a.WellFormed) (stem : String) (k : Nat) : Lengthened stem k k a a :=
  ⟨ha, fun _ hp => hp, Nat.le_refl k, fun _ hl => Or.inl hl⟩

theorem trans (h : Lengthened stem i j a b) (h' : Lengthened stem j k b c) :
    Lengthened stem i k a c := by
  have hij := h.le
  have hjk := h'.le
  refine ⟨h'.wellFormed, fun p hp => h'.ids p (h.ids p hp), by omega, fun l hl => ?_⟩
  rcases h'.labels l hl with hb | ⟨n, hn, hnk, he⟩
  · rcases h.labels l hb with ha | ⟨n, hn, hnj, he⟩
    · exact Or.inl ha
    · exact Or.inr ⟨n, hn, by omega, he⟩
  · exact Or.inr ⟨n, by omega, hnk, he⟩

/-- The numbers that were not used are free still … -/
theorem freeAfter (h : Lengthened stem j k a b) (ha : FreeAfter stem j a) : FreeAfter stem k b := by
  intro n hn hl
  have hjk := h.le
  rcases h.labels _ hl with ha' | ⟨m, -, hmk, he⟩
  · exact ha n (by omega) ha'
  · have hnm := (pathLabel_injective he).2
    omega

/-- … and so are those of other stems. -/
theorem freeAfter_of_ne (h : Lengthened stem j k a b) (hne : stem' ≠ stem)
    (ha : FreeAfter stem' i a) : FreeAfter stem' i b := by
  intro n hn hl
  rcases h.labels _ hl with ha' | ⟨m, -, -, he⟩
  · exact ha n hn ha'
  · exact hne (pathLabel_injective he).1

end Lengthened

/-! ### Edits that succeed -/

theorem addState_ok (ha : a.WellFormed) {label : String} (hl : label ∉ a.labels) :
    ∃ id b, addState label a = .ok id b ∧ b.labels = a.labels ++ [label] := by
  have hid : a.nextId ∉ a.ids := fun hm => Nat.lt_irrefl _ (ha.lt_nextId _ hm)
  have hrun : insert (.new a.nextId label) a = .ok a.nextId _ := insert_eq_ok.2 ⟨hl, hid, rfl, rfl⟩
  exact ⟨_, _, hrun, by simp [labels, states, State.new]⟩

theorem addTransition_ok {p q : Nat} (x : Symbol) (hp : p ∈ a.ids) (hq : q ∈ a.ids) :
    ∃ b, addTransition p x q a = .ok () b ∧ b.labels = a.labels :=
  ⟨_, addTransition_eq_ok.2 ⟨hq, hp, rfl⟩, labels_update fun _ => rfl⟩

theorem setMarker_ok {id : Nat} (marker : Option String) (hid : id ∈ a.ids) :
    ∃ b, setMarker id marker a = .ok () b ∧ b.labels = a.labels :=
  ⟨_, setMarker_eq_ok.2 ⟨hid, rfl⟩, labels_update fun _ => rfl⟩

theorem addFinalState_ok (ha : a.WellFormed) {label : String} (token : String)
    (hl : label ∉ a.labels) : ∃ id b, addFinalState label token a = .ok id b ∧
      b.WellFormed ∧ b.ids = a.ids ++ [id] ∧ b.labels = a.labels ++ [label] := by
  obtain ⟨id, a', hadd, hlabels⟩ := addState_ok ha hl
  obtain ⟨-, -, hids, -⟩ := addState_effect ha hadd
  have hid : id ∈ a'.ids := by simp [hids]
  obtain ⟨b, hset, hsame⟩ := setMarker_ok (some token) hid
  obtain ⟨-, hids', -⟩ := setMarker_effect hset
  have hrun : addFinalState label token a = .ok id b :=
    Change.bind_eq_ok.2 ⟨id, a', hadd, Change.bind_eq_ok.2 ⟨(), b, hset, Change.pure_eq_ok.2 ⟨rfl, rfl⟩⟩⟩
  have hwf := (keeps_addFinalState label token).ok ha hrun
  exact ⟨id, b, hrun, hwf, hids'.trans hids, hsame.trans hlabels⟩

namespace Lengthened

/-- The next label of the stem is used up. -/
theorem of_addState (ha : a.WellFormed) {id : Nat} (hadd : addState (pathLabel stem (k + 1)) a = .ok id b)
    (hlabels : b.labels = a.labels ++ [pathLabel stem (k + 1)]) : Lengthened stem k (k + 1) a b := by
  obtain ⟨-, -, hids, -⟩ := addState_effect ha hadd
  refine ⟨(keeps_addState _).ok ha hadd, fun p hp => by simp [hids, hp], by omega, fun l hl => ?_⟩
  rw [hlabels, List.mem_append, List.mem_singleton] at hl
  exact hl.imp_right fun he => ⟨k + 1, by omega, by omega, he⟩

theorem addTransition {p q : Nat} {x : Symbol} {u : Unit} (h : Lengthened stem j k a b)
    (hadd : Automaton.addTransition p x q b = .ok u c) : Lengthened stem j k a c := by
  obtain ⟨-, -, hids, -⟩ := addTransition_effect hadd
  have hlabels : c.labels = b.labels := by
    obtain ⟨-, -, rfl⟩ := addTransition_eq_ok.1 hadd
    exact labels_update fun _ => rfl
  refine ⟨(keeps_addTransition p x q).ok h.wellFormed hadd, fun p hp => ?_, h.le, fun l hl => ?_⟩
  · exact hids ▸ h.ids p hp
  · exact h.labels l (hlabels ▸ hl)

end Lengthened

/-! ### Paths -/

/-- However far a path of the stem has been added to `a`, `finish` gives a state
that is there, and `post` holds then. -/
def Finishes (stem : String) (k : Nat) (a : Automaton) (finish : Nat → Edit (Nat × Nat))
    (post : Nat → Automaton → Prop) : Prop :=
  ∀ k' b, Lengthened stem k k' a b → ∃ target k'' c, finish k' b = .ok (target, k'') c ∧
    (∀ p ∈ b.ids, p ∈ c.ids) ∧ target ∈ c.ids ∧ post k'' c

/-- Where the numbers of its stem are free, nothing stops a path before its last
move. What is there by then was there before or has a label of the stem. -/
theorem addPath_last {finish : Nat → Edit (Nat × Nat)} :
    ∀ {symbols : List Symbol} {a : Automaton} {source k : Nat}, symbols ≠ [] → a.WellFormed →
      FreeAfter stem k a → source ∈ a.ids → ∃ k' b last x, Lengthened stem k k' a b ∧
        (∀ l ∈ a.labels, l ∈ b.labels) ∧ last ∈ b.ids ∧
        addPath stem finish source symbols k a = addPath stem finish last [x] k' b
  | [], _, _, _, hne, _, _, _ => absurd rfl hne
  | [x], a, source, k, _, ha, _, hsource => ⟨k, a, source, x, .refl ha stem k, fun _ hl => hl, hsource, rfl⟩
  | x :: y :: rest, a, source, k, _, ha, hfree, hsource => by
    have hl : pathLabel stem (k + 1) ∉ a.labels := hfree (k + 1) (Nat.lt_succ_self k)
    obtain ⟨target, a', hadd, hlabels⟩ := addState_ok ha hl
    have hstep : Lengthened stem k (k + 1) a a' := .of_addState ha hadd hlabels
    obtain ⟨-, -, hids, -⟩ := addState_effect ha hadd
    have htarget : target ∈ a'.ids := by simp [hids]
    obtain ⟨b, hmove, hsame⟩ := addTransition_ok x (hstep.ids source hsource) htarget
    have hlong := hstep.addTransition hmove
    have hsource' : target ∈ b.ids := by
      rw [(addTransition_effect hmove).2.2.1]
      exact htarget
    obtain ⟨k', c, last, z, hlong', hkept, hlast, hrest⟩ := addPath_last (List.cons_ne_nil y rest)
      hlong.wellFormed (hlong.freeAfter hfree) hsource'
    refine ⟨k', c, last, z, hlong.trans hlong', fun l hl => hkept l ?_, hlast, ?_⟩
    · rw [hsame, hlabels]
      exact List.mem_append_left _ hl
    · exact (Change.bind_of_ok hadd).trans ((Change.bind_of_ok hmove).trans hrest)

/-- A path can be added where the numbers of its stem are free. -/
theorem addPath_ok {finish : Nat → Edit (Nat × Nat)} {post : Nat → Automaton → Prop}
    (hpost : ∀ k b c p x q, post k b → addTransition p x q b = .ok () c → post k c)
    {symbols : List Symbol} {source : Nat} (hne : symbols ≠ []) (ha : a.WellFormed)
    (hfree : FreeAfter stem k a) (hsource : source ∈ a.ids) (hfinish : Finishes stem k a finish post) :
    ∃ k' b, addPath stem finish source symbols k a = .ok k' b ∧ post k' b := by
  obtain ⟨i, b, last, x, hlong, -, hlast, heq⟩ := addPath_last hne ha hfree hsource
  obtain ⟨target, k', c, hf, hids, htarget, hp⟩ := hfinish i b hlong
  obtain ⟨d, hmove, -⟩ := addTransition_ok x (hids last hlast) htarget
  have hrun : addPath stem finish last [x] i b = .ok k' d :=
    Change.bind_eq_ok.2 ⟨_, c, hf, Change.bind_eq_ok.2 ⟨(), d, hmove, Change.pure_eq_ok.2 ⟨rfl, rfl⟩⟩⟩
  exact ⟨k', d, heq.trans hrun, hpost _ _ _ _ _ _ hp hmove⟩

/-- A path cannot be added if `finish` fails wherever it may get to. -/
theorem addPath_error {finish : Nat → Edit (Nat × Nat)} {e : AutomatonError} {symbols : List Symbol}
    {source : Nat} (hne : symbols ≠ []) (ha : a.WellFormed) (hfree : FreeAfter stem k a)
    (hsource : source ∈ a.ids)
    (hfinish : ∀ k' b, Lengthened stem k k' a b → (∀ l ∈ a.labels, l ∈ b.labels) →
      ∃ c, finish k' b = .error e c) :
    ∃ b, addPath stem finish source symbols k a = .error e b := by
  obtain ⟨i, b, last, x, hlong, hkept, -, heq⟩ := addPath_last hne ha hfree hsource
  obtain ⟨c, hf⟩ := hfinish i b hlong hkept
  exact ⟨c, heq.trans (Change.bind_of_error hf)⟩

end Automaton
end TokenAutomata
