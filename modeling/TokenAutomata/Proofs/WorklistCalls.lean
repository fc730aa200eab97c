/-
# What a worklist answers

A worklist is asked to number an item, to queue a number, to take the next
number or to close one, in any order and with any arguments: numbers may be
queued again after they were taken, and closed while they wait or before they
are in use.

A call takes the first waiting number, or lets numbers join the queue at its
end that are in use, not closed and not waiting (`Worklist.after_cases`). So no
number waits twice (`Worklist.Orderly`), the numbers leave the queue in the
order they joined it (`Worklist.taken_append_pending`), and one that is closed
and does not wait stays away (`Worklist.away_afterAll`). Items are never lost,
so an item keeps its number (`Worklist.number_called`).

Key definitions: `Worklist.Call`, `Worklist.after`, `Worklist.called`,
`Worklist.Joined`, `Worklist.Orderly`, `Worklist.eachCall`.
Key theorems: `Worklist.after_cases`, `Worklist.taken_append_pending`,
`Worklist.range_size_afterAll`, `Worklist.away_afterAll`, `Worklist.number_called`,
`Worklist.item?_called_iff`, `Worklist.new_waits`, `Worklist.closed_away`.
-/
import Mathlib.Data.List.Nodup
import TokenAutomata.Proofs.Search

namespace TokenAutomata
namespace Worklist

/-- What a worklist is asked to do. -/
inductive Call (α : Type) where
  | mint (x : α)
  | enqueue (n : Nat)
  | pop
  | close (n : Nat)

variable {α : Type} [DecidableEq α] {w w' : Worklist α} {n : Nat} {x : α} {c : Call α}
  {calls : List (Call α)}

def after (w : Worklist α) : Call α → Worklist α
  | .mint x => (w.mint x).2
  | .enqueue n => w.enqueue n
  | .pop => (w.pop?.map Prod.snd).getD w
  | .close n => w.close n

def afterAll (w : Worklist α) (calls : List (Call α)) : Worklist α := calls.foldl after w

/-- The worklist after some calls on a new one. -/
def called (calls : List (Call α)) : Worklist α := afterAll empty calls

theorem afterAll_cons (w : Worklist α) (c : Call α) (calls : List (Call α)) :
    w.afterAll (c :: calls) = (w.after c).afterAll calls := rfl

theorem afterAll_append (w : Worklist α) (calls later : List (Call α)) :
    w.afterAll (calls ++ later) = (w.afterAll calls).afterAll later := List.foldl_append

theorem called_append (calls : List (Call α)) (c : Call α) (later : List (Call α)) :
    called (calls ++ c :: later) = ((called calls).after c).afterAll later := afterAll_append _ _ _

/-! ### Items -/

/-- The numbers a call gives to new items. -/
def given (w : Worklist α) : Call α → List Nat
  | .mint x => if (w.mint x).1.2 then [(w.mint x).1.1] else []
  | _ => []

theorem number_of_new (hx : x ∉ w.items) : (w.mint x).1.1 = w.size := by
  simp [mint, items_add, hx, List.idxOf_append_of_notMem, size]

/-- A call leaves the items as they are or gives a new one the next number. -/
theorem items_after (w : Worklist α) (c : Call α) :
    (w.given c = [] ∧ (w.after c).items = w.items) ∨ ∃ x, c = .mint x ∧ x ∉ w.items ∧
      w.given c = [w.size] ∧ (w.after c).items = w.items ++ [x] := by
  cases c with
  | mint x =>
    have hadd : (w.after (.mint x)).items = _ := items_add w x
    by_cases hx : x ∈ w.items
    · exact Or.inl ⟨by simp [given, mint, hx], by rw [hadd, if_pos hx]⟩
    · have hnew : (w.mint x).1.2 = true := by simp [mint, hx]
      exact Or.inr ⟨x, rfl, hx, by rw [given, if_pos hnew, number_of_new hx], by rw [hadd, if_neg hx]⟩
  | enqueue n => exact Or.inl ⟨rfl, items_enqueue w n⟩
  | pop =>
    refine Or.inl ⟨rfl, ?_⟩
    cases hpop : w.pop? with
    | none => simp [after, hpop]
    | some next => simp [after, hpop, (pop?_eq_some hpop).2.2]
  | close n => exact Or.inl ⟨rfl, rfl⟩

theorem prefix_items_after (w : Worklist α) (c : Call α) : w.items <+: (w.after c).items := by
  rcases items_after w c with ⟨-, h⟩ | ⟨x, -, -, -, h⟩
  · exact h ▸ List.prefix_rfl
  · exact h ▸ List.prefix_append _ _

theorem prefix_items_afterAll (calls : List (Call α)) (w : Worklist α) :
    w.items <+: (w.afterAll calls).items := by
  induction calls generalizing w with
  | nil => exact List.prefix_rfl
  | cons c calls ih => exact (prefix_items_after w c).trans (ih (w.after c))

theorem mem_items_after : x ∈ (w.after c).items ↔ x ∈ w.items ∨ c = .mint x := by
  cases c with
  | mint y =>
    rw [Call.mint.injEq, eq_comm]
    exact mem_items_add
  | _ =>
    rcases items_after w _ with ⟨-, h⟩ | ⟨y, hy, -, -, -⟩
    · rw [h]
      simp
    · cases hy

theorem mem_items_afterAll : x ∈ (w.afterAll calls).items ↔ x ∈ w.items ∨ .mint x ∈ calls := by
  induction calls generalizing w with
  | nil => simp [afterAll]
  | cons c calls ih => rw [afterAll_cons, ih, mem_items_after, List.mem_cons, or_assoc, @eq_comm _ c]

theorem mem_items_called : x ∈ (called calls).items ↔ .mint x ∈ calls := by
  rw [called, mem_items_afterAll]
  simp [empty]

/-! ### Closed numbers -/

theorem mem_closed_after : n ∈ (w.after c).closed ↔ n ∈ w.closed ∨ c = .close n := by
  cases c with
  | mint x => simp [after, mint, closed_add]
  | enqueue k => simp [after, closed_enqueue]
  | pop =>
    cases hpop : w.pop? with
    | none => simp [after, hpop]
    | some taken => simp [after, hpop, closed_of_pop? hpop]
  | close k => simp [after, close, or_comm, eq_comm]

theorem mem_closed_afterAll : n ∈ (w.afterAll calls).closed ↔ n ∈ w.closed ∨ .close n ∈ calls := by
  induction calls generalizing w with
  | nil => simp [afterAll]
  | cons c calls ih => rw [afterAll_cons, ih, mem_closed_after, List.mem_cons, or_assoc, @eq_comm _ c]

theorem mem_closed_called : n ∈ (called calls).closed ↔ .close n ∈ calls := by
  rw [called, mem_closed_afterAll]
  simp [empty]

/-! ### The queue -/

/-- Numbers join the queue at its end, each one in use, not closed and not yet
waiting. -/
structure Joined (w w' : Worklist α) (joining : List Nat) : Prop where
  pending : w'.pending = w.pending ++ joining
  nodup : joining.Nodup
  joining : ∀ n ∈ joining, n ∉ w.pending ∧ n ∉ w.closed ∧ n < w'.size

omit [DecidableEq α] in
theorem joined_nil (h : w'.pending = w.pending) : Joined w w' [] :=
  ⟨by rw [h, List.append_nil], List.nodup_nil, fun _ hn => absurd hn List.not_mem_nil⟩

omit [DecidableEq α] in
theorem joined_enqueue (w : Worklist α) (n : Nat) : ∃ joining, Joined w (w.enqueue n) joining := by
  unfold enqueue
  split
  · exact ⟨[], joined_nil rfl⟩
  · rename_i h
    refine ⟨[n], rfl, List.nodup_singleton n, fun k hk => ?_⟩
    rw [List.mem_singleton.1 hk]
    simp only [not_or, Nat.not_le] at h
    exact ⟨h.2.1, h.1, h.2.2⟩

theorem joined_add (w : Worklist α) (x : α) : ∃ joining, Joined w (w.add x) joining := by
  unfold add
  split
  · exact ⟨[], joined_nil rfl⟩
  · obtain ⟨joining, h⟩ := joined_enqueue { w with items := w.items ++ [x] } w.size
    exact ⟨joining, h.pending, h.nodup, h.joining⟩

/-- The numbers a call takes. -/
def taken (w : Worklist α) : Call α → List Nat
  | .pop => (w.pop?.map (·.1.1)).toList
  | _ => []

/-- A call lets numbers join the queue or takes the first one. -/
theorem after_cases (w : Worklist α) (c : Call α) :
    (w.taken c = [] ∧ ∃ joining, Joined w (w.after c) joining) ∨
      ∃ n x, w.taken c = [n] ∧ w.pop? = some ((n, x), w.after c) := by
  cases c with
  | mint x => exact Or.inl ⟨rfl, joined_add w x⟩
  | enqueue n => exact Or.inl ⟨rfl, joined_enqueue w n⟩
  | pop =>
    cases hpop : w.pop? with
    | none => exact Or.inl ⟨by simp [taken, hpop], [], joined_nil (by simp [after, hpop])⟩
    | some next =>
      obtain ⟨⟨n, x⟩, rest⟩ := next
      exact Or.inr ⟨n, x, by simp [taken, hpop], by simp [after, hpop]⟩
  | close n => exact Or.inl ⟨rfl, [], joined_nil rfl⟩

/-- No item has two numbers, and no number waits twice or without an item. -/
structure Orderly (w : Worklist α) : Prop where
  items : w.items.Nodup
  pending : w.pending.Nodup
  in_use : ∀ n ∈ w.pending, n < w.size

omit [DecidableEq α] in
theorem orderly_empty : (empty : Worklist α).Orderly :=
  ⟨List.nodup_nil, List.nodup_nil, fun _ hn => absurd hn List.not_mem_nil⟩

theorem Orderly.after (hw : w.Orderly) (c : Call α) : (w.after c).Orderly := by
  have hsize : w.size ≤ (w.after c).size := (prefix_items_after w c).length_le
  have hitems : (w.after c).items.Nodup := by
    rcases items_after w c with ⟨-, h⟩ | ⟨x, -, hx, -, h⟩
    · rw [h]
      exact hw.items
    · rw [h, List.nodup_append]
      refine ⟨hw.items, List.nodup_singleton x, fun y hy z hz hyz => hx ?_⟩
      rw [← List.mem_singleton.1 hz, ← hyz]
      exact hy
  rcases after_cases w c with ⟨-, joining, h⟩ | ⟨n, x, -, hpop⟩
  · refine ⟨hitems, ?_, fun n hn => ?_⟩
    · rw [h.pending, List.nodup_append]
      refine ⟨hw.pending, h.nodup, fun n hn k hk hnk => (h.joining k hk).1 ?_⟩
      rw [← hnk]
      exact hn
    · rw [h.pending, List.mem_append] at hn
      rcases hn with hn | hn
      · exact Nat.lt_of_lt_of_le (hw.in_use n hn) hsize
      · exact (h.joining n hn).2.2
  · obtain ⟨hpending, -, -⟩ := pop?_eq_some hpop
    have hnodup := hw.pending
    rw [hpending, List.nodup_cons] at hnodup
    refine ⟨hitems, hnodup.2, fun k hk => Nat.lt_of_lt_of_le (hw.in_use k ?_) hsize⟩
    rw [hpending]
    exact List.mem_cons_of_mem n hk

theorem Orderly.afterAll (hw : w.Orderly) (calls : List (Call α)) : (w.afterAll calls).Orderly := by
  induction calls generalizing w with
  | nil => exact hw
  | cons c calls ih => exact ih (hw.after c)

theorem orderly_called (calls : List (Call α)) : (called calls).Orderly := orderly_empty.afterAll calls

/-! ### What a sequence of calls gives -/

/-- What `f` gives for each call and what the call finds, in order. -/
def eachCall {σ β : Type} (after : σ → Call α → σ) (f : σ → Call α → List β) : σ → List (Call α) → List β
  | _, [] => []
  | w, c :: calls => f w c ++ eachCall after f (after w c) calls

/-- The numbers that wait after a call and did not before. -/
def joining (w : Worklist α) (c : Call α) : List Nat := (w.after c).pending.filter (· ∉ w.pending)

theorem taken_append_pending_after (w : Worklist α) (c : Call α) :
    w.taken c ++ (w.after c).pending = w.pending ++ w.joining c := by
  unfold joining
  rcases after_cases w c with ⟨htaken, joining, h⟩ | ⟨n, x, htaken, hpop⟩
  · have hnew : joining.filter (· ∉ w.pending) = joining := by
      rw [List.filter_eq_self]
      exact fun n hn => decide_eq_true (h.joining n hn).1
    have hold : w.pending.filter (· ∉ w.pending) = [] := by
      rw [List.filter_eq_nil_iff]
      exact fun n hn => by simp [hn]
    rw [htaken, h.pending, List.filter_append, hnew, hold, List.nil_append, List.nil_append]
  · obtain ⟨hpending, -, -⟩ := pop?_eq_some hpop
    have hold : (w.after c).pending.filter (· ∉ w.pending) = [] := by
      rw [List.filter_eq_nil_iff, hpending]
      exact fun k hk => by simp [hk]
    rw [htaken, hold, List.append_nil, hpending]
    rfl

/-- What leaves the queue and what still waits is what joined it, in this
order. -/
theorem taken_append_pending (w : Worklist α) (calls : List (Call α)) :
    eachCall after taken w calls ++ (w.afterAll calls).pending = w.pending ++ eachCall after joining w calls := by
  induction calls generalizing w with
  | nil => simp [eachCall, afterAll]
  | cons c calls ih =>
    calc w.taken c ++ eachCall after taken (w.after c) calls ++ ((w.after c).afterAll calls).pending
        = w.taken c ++ ((w.after c).pending ++ eachCall after joining (w.after c) calls) := by
          rw [List.append_assoc, ih]
      _ = w.pending ++ (w.joining c ++ eachCall after joining (w.after c) calls) := by
          rw [← List.append_assoc, taken_append_pending_after, List.append_assoc]

theorem range_size_after (w : Worklist α) (c : Call α) :
    List.range w.size ++ w.given c = List.range (w.after c).size := by
  rcases items_after w c with ⟨hgiven, hitems⟩ | ⟨x, -, -, hgiven, hitems⟩
  · rw [hgiven, List.append_nil, size, size, hitems]
  · rw [hgiven, ← List.range_succ, size, size, hitems, List.length_append, List.length_singleton]

/-- New items get the numbers that are next. -/
theorem range_size_afterAll (w : Worklist α) (calls : List (Call α)) :
    List.range w.size ++ eachCall after given w calls = List.range (w.afterAll calls).size := by
  induction calls generalizing w with
  | nil => simp [eachCall, afterAll]
  | cons c calls ih => rw [eachCall, ← List.append_assoc, range_size_after, ih, afterAll_cons]

/-! ### Numbers of items -/

/-- An item keeps the number it has got. -/
theorem number_called (before : List (Call α)) (x : α) (later : List (Call α)) :
    ((called before).mint x).1.1 = (called (before ++ .mint x :: later)).items.idxOf x := by
  have hmem : x ∈ ((called before).add x).items := mem_items_add.2 (Or.inr rfl)
  obtain ⟨rest, hrest⟩ := prefix_items_afterAll later ((called before).add x)
  have hitems : (called (before ++ .mint x :: later)).items = ((called before).add x).items ++ rest := by
    rw [called_append, hrest]
    rfl
  rw [hitems, List.idxOf_append_of_mem hmem]
  rfl

theorem item?_eq_some_iff {before later : List (Call α)} {n : Nat} (x : α) :
    (called (before ++ .mint x :: later)).item? n = some x ↔ ((called before).mint x).1.1 = n := by
  have hmem : x ∈ (called (before ++ .mint x :: later)).items := mem_items_called.2 (by simp)
  rw [number_called before x later]
  constructor
  · intro h
    obtain ⟨hn, hx⟩ := List.getElem?_eq_some_iff.1 h
    have hidx := (orderly_called (before ++ .mint x :: later)).items.idxOf_getElem n hn
    rwa [hx] at hidx
  · rintro rfl
    exact List.getElem?_idxOf hmem

/-- A number has the item that it was given to, however long ago. -/
theorem item?_called_iff : (called calls).item? n = some x ↔
    ∃ before later, calls = before ++ .mint x :: later ∧ ((called before).mint x).1.1 = n := by
  constructor
  · intro h
    have hcalls : .mint x ∈ calls := mem_items_called.1 (List.mem_of_getElem? h)
    obtain ⟨before, later, rfl⟩ := List.append_of_mem hcalls
    exact ⟨before, later, rfl, (item?_eq_some_iff x).1 h⟩
  · rintro ⟨before, later, rfl, hn⟩
    exact (item?_eq_some_iff x).2 hn

/-- Two calls get the same number just for the same item. -/
theorem number_eq_iff (calls : List (Call α)) (x y : α) (between : List (Call α)) :
    ((called calls).mint x).1.1 = ((called (calls ++ .mint x :: between)).mint y).1.1 ↔ x = y := by
  have hcalls : calls ++ .mint x :: (between ++ [.mint y]) = (calls ++ .mint x :: between) ++ [.mint y] := by
    simp
  have hmem : x ∈ (called (calls ++ .mint x :: (between ++ [.mint y]))).items :=
    mem_items_called.2 (by simp)
  rw [number_called calls x (between ++ [.mint y]), number_called (calls ++ .mint x :: between) y [],
    ← hcalls]
  exact List.idxOf_inj hmem

/-- The first call with an item is told so. -/
theorem isNew_iff (calls : List (Call α)) (x : α) :
    ((called calls).mint x).1.2 = true ↔ .mint x ∉ calls := by
  rw [← mem_items_called]
  simp [mint]

/-! ### Closed numbers stay away -/

theorem away_after (hc : n ∈ w.closed) (hp : n ∉ w.pending) (c : Call α) : n ∉ (w.after c).pending := by
  rcases after_cases w c with ⟨-, joining, h⟩ | ⟨k, x, -, hpop⟩
  · rw [h.pending, List.mem_append]
    rintro (hmem | hmem)
    · exact hp hmem
    · exact (h.joining n hmem).2.1 hc
  · intro hmem
    apply hp
    rw [(pop?_eq_some hpop).1]
    exact List.mem_cons_of_mem k hmem

theorem away_afterAll (hc : n ∈ w.closed) (hp : n ∉ w.pending) (calls : List (Call α)) :
    n ∉ (w.afterAll calls).pending := by
  induction calls generalizing w with
  | nil => exact hp
  | cons c calls ih => exact ih (mem_closed_after.2 (Or.inl hc)) (away_after hc hp c)

/-! ### New items wait -/

theorem mem_pending_mint (hw : w.Orderly) (hx : x ∉ w.items) (hc : w.size ∉ w.closed) :
    w.size ∈ (w.mint x).2.pending := by
  have hp : w.size ∉ w.pending := fun h => Nat.lt_irrefl _ (hw.in_use _ h)
  have hadd : (w.mint x).2 = _ := add_of_not_mem hc hp hx
  rw [hadd]
  exact List.mem_append_right _ List.mem_cons_self

/-- A new number waits, unless it has been closed before it was in use. -/
theorem new_waits (h : ((called calls).mint x).1 = (n, true)) (hclose : .close n ∉ calls) :
    n ∈ ((called calls).mint x).2.pending := by
  obtain ⟨hn, hnew⟩ := Prod.mk.inj h
  have hx : x ∉ (called calls).items := of_decide_eq_true hnew
  obtain rfl : (called calls).size = n := (number_of_new hx).symm.trans hn
  exact mem_pending_mint (orderly_called calls) hx (mt mem_closed_called.1 hclose)

/-- A number that is closed while it does not wait is never taken again. -/
theorem closed_away (hp : n ∉ (called calls).pending) (later : List (Call α)) {rest : Worklist α} :
    (called (calls ++ .close n :: later)).pop? ≠ some ((n, x), rest) := by
  intro h
  rw [called_append] at h
  change (((called calls).close n).afterAll later).pop? = _ at h
  have hc : n ∈ ((called calls).close n).closed := List.mem_cons_self
  have hmem : n ∈ (((called calls).close n).afterAll later).pending := by
    rw [(pop?_eq_some h).1]
    exact List.mem_cons_self
  exact away_afterAll hc hp later hmem

end Worklist
end TokenAutomata
