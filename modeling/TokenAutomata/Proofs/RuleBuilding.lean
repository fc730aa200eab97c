/-
# When a block of rules has an automaton

A block of rules has an automaton if its rules have different names and none
but the first is named like the initial state. Nothing else can go wrong: the
states of nonterminals are there before any path is added, and the labels on a
path are names of no nonterminal and belong to one rule alone
(`Automaton.forM_addAlternatives_ok`).

The words of the automaton are then those that are derived from the first rule,
each with the nonterminal of its last step as its marker
(`Automaton.ofRules_words`).

Key theorems: `Automaton.declareRules_ok`, `Automaton.addAlternative_ok`,
`Automaton.forM_addAlternatives_ok`, `Automaton.exists_ofRules`,
`Automaton.ofRules_words`.
-/
import TokenAutomata.Proofs.PathLabel
import TokenAutomata.Proofs.Pruning
import TokenAutomata.Proofs.RuleAutomaton

namespace TokenAutomata
namespace Automaton

variable {a : Automaton} {declared : List (Rule × Nat)} {name : String} {source k : Nat}

/-! ### Nonterminals -/

/-- A rule of a new name gets a state, and the rules that follow are new still. -/
theorem declareRules_cons {rule : Rule} {rest : List Rule} (ha : a.WellFormed)
    (hnodup : ((rule :: rest).map (·.name)).Nodup)
    (hnew : ∀ r ∈ rule :: rest, r.name ∉ declared.map (·.1.name) ∧ r.name ∉ a.labels) :
    ∃ id b, b.WellFormed ∧ b.ids = a.ids ++ [id] ∧ b.labels = a.labels ++ [rule.name] ∧
      (∀ r ∈ rest, r.name ∉ (declared ++ [(rule, id)]).map (·.1.name) ∧ r.name ∉ b.labels) ∧
      ∀ rules, declareRules declared (rule :: rules) a = declareRules (declared ++ [(rule, id)]) rules b := by
  obtain ⟨hname, hlabel⟩ := hnew rule List.mem_cons_self
  rw [List.map_cons, List.nodup_cons] at hnodup
  have hcheck : ¬ declared.any (·.1.name == rule.name) = true := fun hany => by
    obtain ⟨e, he, hsame⟩ := List.any_eq_true.1 hany
    exact hname (List.mem_map.2 ⟨e, he, by simpa using hsame⟩)
  obtain ⟨id, b, hadd, hlabels⟩ := addState_ok ha hlabel
  obtain ⟨-, -, hids, -⟩ := addState_effect ha hadd
  refine ⟨id, b, (keeps_addState rule.name).ok ha hadd, hids, hlabels, fun r hr => ?_, fun rules => ?_⟩
  · have hne : r.name ≠ rule.name := fun he => hnodup.1 (he ▸ List.mem_map_of_mem hr)
    have hold := hnew r (List.mem_cons_of_mem rule hr)
    rw [hlabels, List.map_append]
    simp only [List.mem_append, List.map_cons, List.map_nil, List.mem_singleton, hne, hold.1, hold.2,
      or_self, not_false_eq_true, and_self]
  · rw [declareRules, if_neg hcheck]
    exact Change.bind_of_ok hadd

/-- Rules of new names can be declared, and only their names are new labels. -/
theorem declareRules_ok : ∀ {rest : List Rule} {declared : List (Rule × Nat)} {a : Automaton},
    a.WellFormed → (∀ e ∈ declared, e.2 ∈ a.ids) → (rest.map (·.name)).Nodup →
    (∀ rule ∈ rest, rule.name ∉ declared.map (·.1.name) ∧ rule.name ∉ a.labels) →
    ∃ declared' b, declareRules declared rest a = .ok declared' b ∧ b.WellFormed ∧
      (∀ e ∈ declared', e.2 ∈ b.ids) ∧ declared'.map Prod.fst = declared.map Prod.fst ++ rest ∧
      b.labels = a.labels ++ rest.map (·.name)
  | [], declared, a, ha, hids, _, _ =>
    ⟨declared, a, Change.pure_eq_ok.2 ⟨rfl, rfl⟩, ha, hids, by simp, by simp⟩
  | rule :: rest, declared, a, ha, hids, hnodup, hnew => by
    obtain ⟨id, a', ha', hids', hlabels, hrest, hstep⟩ := declareRules_cons ha hnodup hnew
    have hdeclared : ∀ e ∈ declared ++ [(rule, id)], e.2 ∈ a'.ids := fun e he => by
      rw [hids', List.mem_append]
      rcases List.mem_append.1 he with he | he
      · exact Or.inl (hids e he)
      · exact Or.inr (by simp [List.mem_singleton.1 he])
    obtain ⟨declared', b, hrun, hb, hmem, hrules, hall⟩ :=
      declareRules_ok ha' hdeclared (List.nodup_cons.1 hnodup).2 hrest
    exact ⟨declared', b, (hstep rest).trans hrun, hb, hmem, by simp [hrules], by simp [hall, hlabels]⟩

/-! ### Alternatives -/

/-- An alternative with terminals can be added where the numbers of its rule
are free. -/
theorem addAlternative_ok (ha : a.WellFormed) (hids : ∀ e ∈ declared, e.2 ∈ a.ids)
    (hsource : source ∈ a.ids) (hfree : FreeAfter name k a) {alt : Alternative}
    (hterminals : ∀ u next, alt = .production u next → u ≠ []) :
    ∃ k' b, addAlternative declared name source k alt a = .ok k' b ∧ Lengthened name k k' a b := by
  have hpost : ∀ k' b c p x q, Lengthened name k k' a b → addTransition p x q b = .ok () c →
      Lengthened name k k' a c := fun _ _ _ _ _ _ h hadd => h.addTransition hadd
  cases alt with
  | epsilon =>
    obtain ⟨b, hset, hlabels⟩ := setMarker_ok (some name) hsource
    have hrun : addAlternative declared name source k .epsilon a = .ok k b :=
      Change.bind_eq_ok.2 ⟨(), b, hset, Change.pure_eq_ok.2 ⟨rfl, rfl⟩⟩
    obtain ⟨-, hsame, -⟩ := setMarker_effect hset
    refine ⟨k, b, hrun, (keeps_setMarker _ _).ok ha hset, fun p hp => by simp [hsame, hp], Nat.le_refl k,
      fun l hl => Or.inl (hlabels ▸ hl)⟩
  | production u next =>
    have hne := hterminals u next rfl
    cases next with
    | none =>
      refine addPath_ok hpost hne ha hfree hsource fun k' b h => ?_
      have hl : pathLabel name (k' + 1) ∉ b.labels := h.freeAfter hfree (k' + 1) (Nat.lt_succ_self k')
      obtain ⟨id, c, hadd, hc, hids', hlabels⟩ := addFinalState_ok h.wellFormed name hl
      have hlast : Lengthened name k' (k' + 1) b c := by
        refine ⟨hc, fun p hp => by simp [hids', hp], by omega, fun l hl => ?_⟩
        rw [hlabels, List.mem_append, List.mem_singleton] at hl
        exact hl.imp_right fun he => ⟨k' + 1, by omega, by omega, he⟩
      refine ⟨id, k' + 1, c, ?_, hlast.ids, by simp [hids'], h.trans hlast⟩
      exact Change.bind_eq_ok.2 ⟨id, c, hadd, Change.pure_eq_ok.2 ⟨rfl, rfl⟩⟩
    | some next =>
      cases hq : stateOf? declared next with
      | none =>
        refine ⟨k, a, ?_, .refl ha name k⟩
        simp only [addAlternative, hq]
        rfl
      | some q =>
        simp only [addAlternative, hq]
        have htarget : q ∈ a.ids := by
          obtain ⟨e, he, rfl⟩ := Option.map_eq_some_iff.1 hq
          exact hids e (List.mem_of_find?_eq_some he)
        refine addPath_ok hpost hne ha hfree hsource fun k' b h => ?_
        exact ⟨q, k', b, Change.pure_eq_ok.2 ⟨rfl, rfl⟩, fun _ hp => hp, h.ids q htarget, h⟩

theorem foldlM_addAlternative_ok : ∀ {alts : List Alternative} {a : Automaton} {k : Nat},
    a.WellFormed → (∀ e ∈ declared, e.2 ∈ a.ids) → source ∈ a.ids → FreeAfter name k a →
    (∀ u next, .production u next ∈ alts → u ≠ []) →
    ∃ k' b, alts.foldlM (fun k => addAlternative declared name source k) k a = .ok k' b ∧
      Lengthened name k k' a b
  | [], a, k, ha, _, _, _, _ => ⟨k, a, Change.pure_eq_ok.2 ⟨rfl, rfl⟩, .refl ha name k⟩
  | alt :: alts, a, k, ha, hids, hsource, hfree, hterminals => by
    obtain ⟨i, b, halt, hlong⟩ := addAlternative_ok ha hids hsource hfree fun u next he =>
      hterminals u next (he ▸ List.mem_cons_self)
    obtain ⟨k', c, halts, hlong'⟩ := foldlM_addAlternative_ok hlong.wellFormed
      (fun e he => hlong.ids _ (hids e he)) (hlong.ids _ hsource) (hlong.freeAfter hfree)
      fun u next hmem => hterminals u next (List.mem_cons_of_mem alt hmem)
    refine ⟨k', c, ?_, hlong.trans hlong'⟩
    rw [List.foldlM_cons]
    exact Change.bind_eq_ok.2 ⟨i, b, halt, halts⟩

/-- The alternatives of rules of different names can be added one rule after
the other. -/
theorem forM_addAlternatives_ok : ∀ {es : List (Rule × Nat)} {a : Automaton}, a.WellFormed →
    (∀ e ∈ declared, e.2 ∈ a.ids) → (∀ e ∈ es, e.2 ∈ a.ids) → (es.map (·.1.name)).Nodup →
    (∀ e ∈ es, FreeAfter e.1.name 0 a) →
    (∀ e ∈ es, ∀ u next, .production u next ∈ e.1.alternatives → u ≠ []) →
    ∃ b, es.forM (fun e => addAlternatives declared e.1 e.2) a = .ok () b
  | [], a, _, _, _, _, _, _ => ⟨a, Change.pure_eq_ok.2 ⟨rfl, rfl⟩⟩
  | e :: es, a, ha, hids, hsources, hnodup, hfree, hterminals => by
    rw [List.map_cons, List.nodup_cons] at hnodup
    obtain ⟨k, b, halts, hlong⟩ := foldlM_addAlternative_ok ha hids
      (hsources e List.mem_cons_self) (hfree e List.mem_cons_self) (hterminals e List.mem_cons_self)
    have hrest : ∀ e' ∈ es, FreeAfter e'.1.name 0 b := fun e' he' => by
      have hne : e'.1.name ≠ e.1.name := fun he => hnodup.1 (he ▸ List.mem_map_of_mem he')
      exact hlong.freeAfter_of_ne hne (hfree e' (List.mem_cons_of_mem e he'))
    obtain ⟨c, hrun⟩ := forM_addAlternatives_ok hlong.wellFormed (fun e' he' => hlong.ids _ (hids e' he'))
      (fun e' he' => hlong.ids _ (hsources e' (List.mem_cons_of_mem e he'))) hnodup.2 hrest
      fun e' he' => hterminals e' (List.mem_cons_of_mem e he')
    have hfirst : addAlternatives declared e.1 e.2 a = .ok () b := Change.discard_eq_ok.2 ⟨k, halts⟩
    exact ⟨c, Change.bind_eq_ok.2 ⟨(), b, hfirst, hrun⟩⟩

/-! ### Blocks -/

/-- The rules of a block can be declared. All labels are then names. -/
theorem declareRules_new {first : Rule} {rest : List Rule} (hnodup : ((first :: rest).map (·.name)).Nodup)
    (hroot : ∀ rule ∈ rest, rule.name ≠ rootLabel) :
    ∃ declared a, declareRules [(first, new.initial.id)] rest new = .ok declared a ∧ a.WellFormed ∧
      (∀ e ∈ declared, e.2 ∈ a.ids) ∧ declared.map Prod.fst = first :: rest ∧
      a.labels = rootLabel :: rest.map (·.name) := by
  have hnew : new.WellFormed := withInitial_wellFormed rootLabel
  have hdeclared : ∀ e ∈ [(first, new.initial.id)], e.2 ∈ new.ids := by simp [initial_mem_ids]
  have hnodup' := List.nodup_cons.1 hnodup
  have hfresh : ∀ rule ∈ rest, rule.name ∉ [(first, new.initial.id)].map (·.1.name) ∧
      rule.name ∉ new.labels := fun rule hrule => by
    have hne : rule.name ≠ first.name := fun he =>
      hnodup'.1 (List.mem_map.2 ⟨rule, hrule, he⟩)
    simpa [hne, new, withInitial, labels, states, State.new] using hroot rule hrule
  exact declareRules_ok hnew hdeclared hnodup'.2 hfresh

/-- Rules of different names, none of them but the first named like the
initial state, have an automaton. -/
theorem exists_ofRules {first : Rule} {rest : List Rule}
    (hnames : ∀ rule ∈ first :: rest, isNonterminalName rule.name.toList = true)
    (hterminals : ∀ rule ∈ first :: rest, ∀ u next, .production u next ∈ rule.alternatives → u ≠ [])
    (hnodup : ((first :: rest).map (·.name)).Nodup) (hroot : ∀ rule ∈ rest, rule.name ≠ rootLabel) :
    ∃ a : Automaton, ofRules (first :: rest) = .ok a := by
  obtain ⟨declared, a, hdeclare, ha, hids, hrules, hlabels⟩ := declareRules_new hnodup hroot
  have hmem : ∀ e ∈ declared, e.1 ∈ first :: rest := fun e he => hrules ▸ List.mem_map_of_mem he
  have hdeclared : (declared.map (·.1.name)).Nodup := by
    have hmap : declared.map (·.1.name) = (declared.map Prod.fst).map (·.name) := by simp
    rw [hmap, hrules]
    exact hnodup
  -- so far all labels are names of nonterminals
  have hlabel : ∀ l ∈ a.labels, isNonterminalName l.toList = true := by
    rw [hlabels]
    intro l hl
    rcases List.mem_cons.1 hl with rfl | hl
    · decide
    · obtain ⟨rule, hrule, rfl⟩ := List.mem_map.1 hl
      exact hnames rule (List.mem_cons_of_mem first hrule)
  have hfree : ∀ stem, FreeAfter stem 0 a := fun stem j _ hl => by
    have hname := hlabel _ hl
    simp [not_isNonterminalName_pathLabel] at hname
  obtain ⟨b, halts⟩ := forM_addAlternatives_ok ha hids hids hdeclared (fun e _ => hfree e.1.name)
    fun e he => hterminals e.1 (hmem e he)
  have hrun : addRules first rest new = .ok () b.pruned :=
    Change.bind_eq_ok.2 ⟨new, new, rfl, Change.bind_eq_ok.2 ⟨declared, a, hdeclare,
      Change.bind_eq_ok.2 ⟨(), b, halts, rfl⟩⟩⟩
  exact ⟨b.pruned, mapError_eq_ok.2 (Change.exec_eq_ok.2 ⟨(), hrun⟩)⟩

/-- A word leads to the marker `m` in the automaton of a block if it is derived
from the first rule with a last step from `m`, and it is accepted if it is
derived at all. -/
theorem ofRules_words {first : Rule} {rest : List Rule}
    (hnames : ∀ rule ∈ first :: rest, isNonterminalName rule.name.toList = true)
    (hterminals : ∀ rule ∈ first :: rest, ∀ u next, .production u next ∈ rule.alternatives → u ≠ [])
    (hnodup : ((first :: rest).map (·.name)).Nodup) (hroot : ∀ rule ∈ rest, rule.name ≠ rootLabel) :
    ∃ a : Automaton, ofRules (first :: rest) = .ok a ∧ ∀ w,
      (∀ m, (∃ q, a.Reaches w q ∧ a.markerOf? q = some m) ↔
        DerivesWord (first :: rest) first.name w m) ∧
      (a.accepts w = true ↔ ∃ m, DerivesWord (first :: rest) first.name w m) := by
  obtain ⟨a, hrun⟩ := exists_ofRules hnames hterminals hnodup hroot
  have hproper : ∀ rule ∈ first :: rest, rule.Proper := fun rule hrule => by
    refine ⟨fun he => ?_, hterminals rule hrule⟩
    have hname := hnames rule hrule
    simp [he, isNonterminalName] at hname
  obtain ⟨declared, role, b, hb, hfirst, rfl⟩ := ofRules_compiled hproper hrun
  have hmarker : ∀ w m, (∃ q, b.pruned.Reaches w q ∧ b.pruned.markerOf? q = some m) ↔
      DerivesWord (first :: rest) first.name w m := fun w m =>
    (pruned_word_iff hb.spells.wellFormed).trans (hb.word_iff hfirst)
  refine ⟨b.pruned, hrun, fun w => ⟨hmarker w, ?_⟩⟩
  have hexists : (∃ q, b.pruned.Reaches w q ∧ (b.pruned.markerOf? q).isSome) ↔
      ∃ m q, b.pruned.Reaches w q ∧ b.pruned.markerOf? q = some m := by
    simp only [Option.isSome_iff_exists]
    grind
  rw [accepts_iff, hexists]
  exact exists_congr (hmarker w)

/-- The rules refer to each other, to themselves and to a nonterminal that has
no rule, and two alternatives start alike. -/
def mutualRules : Rule × List Rule :=
  ({ name := "S", alternatives := [.production ['a', 'b'] (some "A"), .production ['a', 'b'] none,
      .production ['c'] (some "X")] },
    [{ name := "A", alternatives := [.epsilon, .production ['a'] (some "S"),
      .production ['b'] (some "A")] }])

theorem mutualRules_words :
    (∀ rule ∈ mutualRules.1 :: mutualRules.2, isNonterminalName rule.name.toList = true) ∧
    (∀ rule ∈ mutualRules.1 :: mutualRules.2,
      ∀ u next, .production u next ∈ rule.alternatives → u ≠ []) ∧
    ((mutualRules.1 :: mutualRules.2).map (·.name)).Nodup ∧
    (∀ rule ∈ mutualRules.2, rule.name ≠ rootLabel) ∧
    ∃ a : Automaton, ofRules (mutualRules.1 :: mutualRules.2) = .ok a ∧
      (∃ q, a.Reaches ['a', 'b', 'b'] q ∧ a.markerOf? q = some "A") ∧
      a.accepts ['a', 'b', 'b'] = true := by
  have hnames : ∀ rule ∈ mutualRules.1 :: mutualRules.2,
      isNonterminalName rule.name.toList = true := by decide
  have hterminals : ∀ rule ∈ mutualRules.1 :: mutualRules.2,
      ∀ u next, .production u next ∈ rule.alternatives → u ≠ [] := by
    simp [mutualRules]
    grind
  have hnodup : ((mutualRules.1 :: mutualRules.2).map (·.name)).Nodup := by decide
  have hroot : ∀ rule ∈ mutualRules.2, rule.name ≠ rootLabel := by decide
  obtain ⟨a, hrun, hwords⟩ := ofRules_words hnames hterminals hnodup hroot
  have hends : Ends (mutualRules.1 :: mutualRules.2) "A" [] :=
    @Ends.epsilon _ mutualRules.2[0] (by simp [mutualRules]) (by simp [mutualRules])
  have hloop : Derives (mutualRules.1 :: mutualRules.2) "A" ['b'] "A" :=
    @Derives.step _ mutualRules.2[0] ['b'] [] "A" "A" (by simp [mutualRules]) (by simp [mutualRules])
      (.refl "A")
  have hstart : Derives (mutualRules.1 :: mutualRules.2) "S" ['a', 'b', 'b'] "A" :=
    @Derives.step _ mutualRules.1 ['a', 'b'] ['b'] "A" "A" (by simp) (by simp [mutualRules]) hloop
  have hword : DerivesWord (mutualRules.1 :: mutualRules.2) "S" ['a', 'b', 'b'] "A" :=
    ⟨_, [], List.append_nil _, hstart, hends⟩
  have hmarked := ((hwords ['a', 'b', 'b']).1 "A").2 hword
  exact ⟨hnames, hterminals, hnodup, hroot, a, hrun, hmarked, (hwords _).2.2 ⟨"A", hword⟩⟩

end Automaton
end TokenAutomata
