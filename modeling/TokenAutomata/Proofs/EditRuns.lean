/-
# Runs of edits

An edit ends well or badly, and in both cases it leaves an automaton behind
(`Change.after`). A property of automata that an edit keeps however it ends is
kept by all edits made of such edits (`Change.Keeps`), so that for a long edit
only the short ones it consists of have to be looked at. What a long edit
did is taken apart at each bind (`Change.bind_eq_ok`, `Change.bind_eq_error`).

Key definitions: `Change.after`, `Change.Keeps`.
Key theorems: `Change.bind_eq_ok`, `Change.bind_eq_error`, `Change.Keeps.bind`,
`Change.Keeps.forM`, `Change.Keeps.exec`.
-/
import Mathlib.Data.List.Forall2
import TokenAutomata.Automaton.Edit

namespace TokenAutomata

/-- What ended well did so in both its parts. -/
theorem except_bind_eq_ok {ε α β : Type} {x : Except ε α} {f : α → Except ε β} {w : β} :
    (x >>= f) = .ok w ↔ ∃ v, x = .ok v ∧ f v = .ok w := by
  cases x <;> simp [bind, Except.bind]

theorem except_map_eq_ok {ε α β : Type} {x : Except ε α} {f : α → β} {w : β} :
    x.map f = .ok w ↔ ∃ v, x = .ok v ∧ f v = w := by
  cases x <;> simp [Except.map]

/-- A check that throws has been passed. -/
theorem check_eq_ok {ε α : Type} {p : Prop} [Decidable p] {e : ε} {f : Unit → Except ε α}
    {x : Except ε α} {v : α} : (if p then throw e >>= f else x) = .ok v ↔ ¬ p ∧ x = .ok v := by
  by_cases hp : p
  · rw [if_pos hp]
    constructor
    · intro h
      cases h
    · exact fun h => absurd hp h.1
  · rw [if_neg hp]
    exact ⟨fun h => ⟨hp, h⟩, fun h => h.2⟩

/-- What is read item by item. -/
theorem mapM_eq_ok_iff {ε α β : Type} {f : α → Except ε β} : ∀ {xs : List α} {ys : List β},
    xs.mapM f = .ok ys ↔ List.Forall₂ (fun x y => f x = .ok y) xs ys
  | [], ys => by
    rw [List.mapM_nil, List.forall₂_nil_left_iff]
    exact ⟨fun h => (Except.ok.inj h).symm, fun h => congrArg Except.ok h.symm⟩
  | x :: xs, ys => by
    rw [List.mapM_cons, except_bind_eq_ok]
    constructor
    · rintro ⟨y, hy, hrest⟩
      obtain ⟨zs, hzs, hlast⟩ := except_bind_eq_ok.1 hrest
      cases hlast
      exact .cons hy (mapM_eq_ok_iff.1 hzs)
    · intro h
      cases h with
      | cons hy hrest => exact ⟨_, hy, except_bind_eq_ok.2 ⟨_, mapM_eq_ok_iff.2 hrest, rfl⟩⟩

theorem forall₂_mem_right {α β : Type} {R : α → β → Prop} {xs : List α} {ys : List β}
    (h : List.Forall₂ R xs ys) {y : β} (hy : y ∈ ys) : ∃ x ∈ xs, R x y := by
  induction h with
  | nil => cases hy
  | cons hxy _ ih =>
    rcases List.mem_cons.1 hy with rfl | hy
    · exact ⟨_, List.mem_cons_self, hxy⟩
    · obtain ⟨x, hx, hR⟩ := ih hy
      exact ⟨x, List.mem_cons_of_mem _ hx, hR⟩

theorem forall₂_mem_left {α β : Type} {R : α → β → Prop} {xs : List α} {ys : List β}
    (h : List.Forall₂ R xs ys) {x : α} (hx : x ∈ xs) : ∃ y ∈ ys, R x y :=
  forall₂_mem_right (R := fun y x => R x y) h.flip hx

theorem mapError_eq_ok {ε ε' α : Type} {f : ε → ε'} {x : Except ε α} {v : α} :
    x.mapError f = .ok v ↔ x = .ok v := by
  cases x with
  | ok u =>
    constructor
    · intro h
      cases h
      rfl
    · intro h
      cases h
      rfl
  | error e =>
    constructor
    · intro h
      cases h
    · intro h
      cases h

theorem mapError_eq_error {ε ε' α : Type} {f : ε → ε'} {x : Except ε α} {e' : ε'} :
    x.mapError f = .error e' ↔ ∃ e, x = .error e ∧ f e = e' := by
  cases x with
  | ok v =>
    constructor
    · intro h
      cases h
    · rintro ⟨e, h, -⟩
      cases h
  | error e =>
    constructor
    · intro h
      cases h
      exact ⟨e, rfl, rfl⟩
    · rintro ⟨_, h, rfl⟩
      cases h
      rfl

namespace Change

open EStateM (Result)

variable {σ α β : Type} {a b : σ}

/-- The automaton that an edit leaves behind. -/
def after (x : Change σ α) (a : σ) : σ :=
  match x a with
  | .ok _ b => b
  | .error _ b => b

theorem after_of_ok {x : Change σ α} {v : α} (h : x a = .ok v b) : x.after a = b := by
  simp [after, h]

theorem after_of_error {x : Change σ α} {e : AutomatonError} (h : x a = .error e b) : x.after a = b := by
  simp [after, h]

theorem exec_eq_ok {x : Change σ α} : x.exec a = .ok b ↔ ∃ v, x a = .ok v b := by
  unfold exec
  cases x a <;> simp

theorem exec_eq_error {x : Change σ α} {e : AutomatonError} :
    x.exec a = .error e ↔ ∃ b, x a = .error e b := by
  unfold exec
  cases x a <;> simp

/-! ### Edits one after the other -/

theorem bind_of_ok {x : Change σ α} {f : α → Change σ β} {v : α} (h : x a = .ok v b) :
    (x >>= f) a = f v b := by
  show EStateM.bind x f a = f v b
  simp [EStateM.bind, h]

theorem bind_of_error {x : Change σ α} {f : α → Change σ β} {e : AutomatonError} (h : x a = .error e b) :
    (x >>= f) a = .error e b := by
  show EStateM.bind x f a = .error e b
  simp [EStateM.bind, h]

/-- What ended well did so in both its parts. -/
theorem bind_eq_ok {x : Change σ α} {f : α → Change σ β} {w : β} :
    (x >>= f) a = .ok w b ↔ ∃ v c, x a = .ok v c ∧ f v c = .ok w b := by
  cases h : x a with
  | ok v c =>
    rw [bind_of_ok h]
    constructor
    · intro hw
      exact ⟨v, c, rfl, hw⟩
    · rintro ⟨v', c', he, hw⟩
      cases he
      exact hw
  | error e c =>
    rw [bind_of_error h]
    constructor
    · intro hw
      cases hw
    · rintro ⟨v', c', he, -⟩
      cases he

/-- What failed did so in its first part, or in the second after the first
ended well. -/
theorem bind_eq_error {x : Change σ α} {f : α → Change σ β} {e : AutomatonError} :
    (x >>= f) a = .error e b ↔ x a = .error e b ∨ ∃ v c, x a = .ok v c ∧ f v c = .error e b := by
  cases h : x a with
  | ok v c =>
    rw [bind_of_ok h]
    constructor
    · intro he
      exact Or.inr ⟨v, c, rfl, he⟩
    · rintro (he | ⟨v', c', hok, he⟩)
      · cases he
      · cases hok
        exact he
  | error e' c =>
    rw [bind_of_error h]
    constructor
    · intro he
      cases he
      exact Or.inl rfl
    · rintro (he | ⟨v', c', hok, -⟩)
      · cases he
        rfl
      · cases hok

@[simp] theorem pure_eq_ok {v w : α} : (pure v : Change σ α) a = .ok w b ↔ v = w ∧ a = b := by
  show Result.ok v a = .ok w b ↔ _
  rw [Result.ok.injEq]

@[simp] theorem discard_eq_ok {x : Change σ α} {u : Unit} :
    (discard x : Change σ Unit) a = .ok u b ↔ ∃ v, x a = .ok v b := by
  show EStateM.map _ x a = .ok u b ↔ _
  unfold EStateM.map
  cases x a with
  | ok v c => simp
  | error e c => simp

@[simp] theorem discard_eq_error {x : Change σ α} {e : AutomatonError} :
    (discard x : Change σ Unit) a = .error e b ↔ x a = .error e b := by
  show EStateM.map _ x a = .error e b ↔ _
  unfold EStateM.map
  cases x a with
  | ok v c => simp
  | error e' c => simp

theorem forM_nil {f : α → Change σ Unit} : ([] : List α).forM f = pure () := rfl

theorem forM_cons {f : α → Change σ Unit} (x : α) (xs : List α) :
    (x :: xs).forM f = (f x >>= fun _ => xs.forM f) := rfl

theorem forM_congr {f g : α → Change σ Unit} : ∀ {xs : List α}, (∀ x ∈ xs, f x = g x) → xs.forM f = xs.forM g
  | [], _ => rfl
  | x :: xs, h => by
    rw [forM_cons, forM_cons, h x List.mem_cons_self, forM_congr fun y hy => h y (List.mem_cons_of_mem _ hy)]

theorem after_discard (x : Change σ α) (a : σ) : (discard x : Change σ Unit).after a = x.after a := by
  have h : (discard x : Change σ Unit) a = EStateM.map (Function.const α ()) x a := rfl
  unfold after
  rw [h, EStateM.map]
  cases x a <;> rfl

/-! ### Properties that edits keep -/

/-- If `P` holds before the edit, then also after it, however it ends. -/
def Keeps (P : σ → Prop) (x : Change σ α) : Prop := ∀ a, P a → P (x.after a)

namespace Keeps

variable {P : σ → Prop}

theorem ok {x : Change σ α} {v : α} (hx : Keeps P x) (ha : P a) (h : x a = .ok v b) : P b :=
  after_of_ok h ▸ hx a ha

theorem exec {x : Change σ α} (hx : Keeps P x) (ha : P a) (h : x.exec a = .ok b) : P b := by
  obtain ⟨v, hv⟩ := exec_eq_ok.1 h
  exact hx.ok ha hv

theorem pure (v : α) : Keeps P (pure v : Change σ α) := fun _ ha => ha

theorem get : Keeps P (get : Change σ σ) := fun _ ha => ha

theorem throw (e : AutomatonError) : Keeps P (throw e : Change σ α) := fun _ ha => ha

theorem bind {x : Change σ α} {f : α → Change σ β} (hx : Keeps P x) (hf : ∀ v, Keeps P (f v)) :
    Keeps P (x >>= f) := by
  intro a ha
  have h := hx a ha
  unfold after at h ⊢
  cases hxa : x a with
  | ok v b =>
    rw [hxa] at h
    rw [bind_of_ok hxa]
    exact hf v b h
  | error e b =>
    rw [hxa] at h
    rw [bind_of_error hxa]
    exact h

theorem discard {x : Change σ α} (hx : Keeps P x) : Keeps P (discard x : Change σ Unit) := by
  intro a ha
  rw [after_discard]
  exact hx a ha

theorem forM {f : α → Change σ Unit} : ∀ {xs : List α}, (∀ x ∈ xs, Keeps P (f x)) → Keeps P (xs.forM f)
  | [], _ => pure ()
  | x :: xs, h => by
    rw [forM_cons]
    exact (h x List.mem_cons_self).bind fun _ => forM fun y hy => h y (List.mem_cons_of_mem _ hy)

theorem foldlM {f : β → α → Change σ β} : ∀ {xs : List α} {v : β},
    (∀ v, ∀ x ∈ xs, Keeps P (f v x)) → Keeps P (xs.foldlM f v)
  | [], v, _ => pure v
  | x :: xs, v, h => by
    rw [List.foldlM_cons]
    exact (h v x List.mem_cons_self).bind fun _ =>
      foldlM fun w y hy => h w y (List.mem_cons_of_mem _ hy)

end Keeps
end Change
end TokenAutomata
