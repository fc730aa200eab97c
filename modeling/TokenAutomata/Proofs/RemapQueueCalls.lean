/-
# The queue of the subset construction is a worklist of sets

The six fields of the queue are what a worklist of sets says they are
(`RemapQueue.Tracks`): the sets by id and the ids by set are its items, the
ids that wait, in order and as a set, are its numbers that wait, and what goes
with a waiting id is its item. Each of the four calls keeps that and answers
what the worklist answers, whatever it is asked: an id may be closed before it
is handed out, or wait again after it was taken.

So what is known of every sequence of calls on a worklist holds of the queue
(`RemapQueue.called_protocol`).

Key definitions: `RemapQueue.Tracks`, `RemapQueue.after`, `RemapQueue.called`,
`RemapQueue.Protocol`.
Key theorems: `RemapQueue.Tracks.mint`, `RemapQueue.Tracks.enqueue`,
`RemapQueue.Tracks.pop?_cases`, `RemapQueue.Tracks.close`,
`RemapQueue.tracks_called`, `RemapQueue.called_protocol`.
-/
import TokenAutomata.Proofs.WorklistCalls
import TokenAutomata.RemapQueue

namespace TokenAutomata
namespace RemapQueue

open Worklist (Call eachCall)

/-- The fields of the queue, each by what it has to be in a worklist. -/
structure Tracks (q : RemapQueue) (w : Worklist IdSet) : Prop where
  orderly : w.Orderly
  closed : ∀ n, n ∈ q.closed ↔ n ∈ w.closed
  pending : q.pending.map Prod.fst = w.pending
  stored : ∀ e ∈ q.pending, w.item? e.1 = some e.2
  waiting : ∀ n, n ∈ q.waiting ↔ n ∈ w.pending
  sets : ∀ n, q.sets.get? n = w.item? n
  size : q.sets.size = w.size
  ids : ∀ set n, q.ids.get? set = some n ↔ w.item? n = some set
  nextId : q.nextId = w.size

variable {q : RemapQueue} {w : Worklist IdSet} {set : IdSet} {n : Nat}

theorem tracks_empty : Tracks empty .empty where
  orderly := Worklist.orderly_empty
  closed _ := by simp [empty, Worklist.empty]
  pending := rfl
  stored _ he := absurd he List.not_mem_nil
  waiting _ := by simp [empty, Worklist.empty]
  sets _ := rfl
  size := rfl
  ids set n := by simp [empty, Worklist.empty, Worklist.item?]
  nextId := rfl

namespace Tracks

variable (h : Tracks q w)

include h

theorem close (n : Nat) : Tracks (q.close n) (w.close n) where
  orderly := h.orderly.after (.close n)
  closed k := by
    rw [RemapQueue.close, Worklist.close, IdSet.mem_insert, List.mem_cons, h.closed]
  pending := h.pending
  stored := h.stored
  waiting := h.waiting
  sets := h.sets
  size := h.size
  ids := h.ids
  nextId := h.nextId

theorem enqueue (n : Nat) : Tracks (q.enqueue n) (w.enqueue n) := by
  have horderly : (w.enqueue n).Orderly := h.orderly.after (.enqueue n)
  unfold Worklist.enqueue at horderly ⊢
  unfold RemapQueue.enqueue
  by_cases hbusy : n ∈ w.closed ∨ n ∈ w.pending
  · have hq : n ∈ q.closed ∨ n ∈ q.waiting := by rwa [h.closed, h.waiting]
    have hw : n ∈ w.closed ∨ n ∈ w.pending ∨ w.size ≤ n := hbusy.imp_right Or.inl
    rw [if_pos hq, if_pos hw]
    exact h
  · have hq : ¬ (n ∈ q.closed ∨ n ∈ q.waiting) := by rwa [h.closed, h.waiting]
    rw [if_neg hq, h.sets]
    cases hitem : w.item? n with
    | none =>
      have hw : n ∈ w.closed ∨ n ∈ w.pending ∨ w.size ≤ n :=
        Or.inr (Or.inr (List.getElem?_eq_none_iff.1 hitem))
      rw [if_pos hw]
      exact h
    | some set =>
      have hlt : n < w.size := (List.getElem?_eq_some_iff.1 hitem).1
      have hw : ¬ (n ∈ w.closed ∨ n ∈ w.pending ∨ w.size ≤ n) := by
        rw [not_or] at hbusy
        exact not_or.2 ⟨hbusy.1, not_or.2 ⟨hbusy.2, Nat.not_le.2 hlt⟩⟩
      rw [if_neg hw] at horderly ⊢
      refine ⟨horderly, h.closed, ?_, fun e he => ?_, fun k => ?_, h.sets, h.size, h.ids, h.nextId⟩
      · rw [List.map_append, h.pending]
        rfl
      · rcases List.mem_append.1 he with he | he
        · exact h.stored e he
        · obtain rfl := List.mem_singleton.1 he
          exact hitem
      · rw [IdSet.mem_insert, List.mem_append, List.mem_singleton, h.waiting, or_comm]

/-- A set that has an id. -/
theorem item?_idxOf (hset : set ∈ w.items) : q.ids.get? set = some (w.items.idxOf set) :=
  (h.ids set _).2 (List.getElem?_idxOf hset)

theorem get?_ids_eq_none (hset : set ∉ w.items) : q.ids.get? set = none := by
  cases hid : q.ids.get? set with
  | none => rfl
  | some n => exact absurd (List.mem_of_getElem? ((h.ids set n).1 hid)) hset

/-- A new set gets the next id in all fields. -/
theorem number (hset : set ∉ w.items) :
    Tracks { q with
        nextId := q.nextId + 1, ids := q.ids.insert set q.nextId, sets := q.sets.insert q.nextId set }
      { w with items := w.items ++ [set] } := by
  have hlength : (w.items ++ [set]).length = w.size + 1 := by
    rw [List.length_append, List.length_singleton, Worklist.size]
  have hitem : ∀ n, (w.items ++ [set])[n]? = if n = w.size then some set else w.item? n := by
    intro n
    rw [List.getElem?_append]
    split
    · rw [if_neg (Nat.ne_of_lt ‹_›)]
      rfl
    · have hnone : w.item? n = none := List.getElem?_eq_none_iff.2 (Nat.not_lt.1 ‹_›)
      rw [List.getElem?_singleton, hnone]
      have hle : w.items.length ≤ n := Nat.not_lt.1 ‹_›
      have hiff : n - w.items.length = 0 ↔ n = w.size := by
        rw [Worklist.size]
        omega
      simp only [hiff]
  have hfresh : q.nextId ∉ q.sets.keys := by
    rw [← OrderedMap.get?_eq_none_iff, h.sets, h.nextId]
    exact List.getElem?_eq_none_iff.2 (Nat.le_refl _)
  refine ⟨⟨?_, h.orderly.pending, fun n hn => ?_⟩, h.closed, h.pending, fun e he => ?_, h.waiting, ?_,
    ?_, ?_, ?_⟩
  · rw [List.nodup_append]
    refine ⟨h.orderly.items, List.nodup_singleton set, fun s hs t ht hst => hset ?_⟩
    rw [← List.mem_singleton.1 ht, ← hst]
    exact hs
  · show n < (w.items ++ [set]).length
    rw [hlength]
    exact Nat.lt_succ_of_lt (h.orderly.in_use n hn)
  · have hlt : e.1 < w.size := (List.getElem?_eq_some_iff.1 (h.stored e he)).1
    show (w.items ++ [set])[e.1]? = some e.2
    rw [hitem, if_neg (Nat.ne_of_lt hlt)]
    exact h.stored e he
  · intro n
    show (q.sets.insert q.nextId set).get? n = (w.items ++ [set])[n]?
    rw [OrderedMap.get?_insert, hitem, h.nextId, h.sets]
  · show (q.sets.insert q.nextId set).size = (w.items ++ [set]).length
    rw [OrderedMap.size, OrderedMap.entries_insert_of_not_mem hfresh, List.length_append, hlength]
    exact congrArg (· + 1) h.size
  · intro s n
    show (q.ids.insert set q.nextId).get? s = some n ↔ (w.items ++ [set])[n]? = some s
    rw [OrderedMap.get?_insert, hitem, h.nextId]
    by_cases hs : s = set
    · subst hs
      have hnone : w.item? n ≠ some s := fun he => hset (List.mem_of_getElem? he)
      by_cases hn : n = w.size
      · simp [hn]
      · simp [hn, hnone, Ne.symm hn]
    · by_cases hn : n = w.size
      · have hnone : q.ids.get? s ≠ some w.size := fun he =>
          Nat.lt_irrefl _ (List.getElem?_eq_some_iff.1 ((h.ids s w.size).1 he)).1
        simp [hn, hs, hnone, Ne.symm hs]
      · rw [if_neg hs, if_neg hn]
        exact h.ids s n
  · show q.nextId + 1 = (w.items ++ [set]).length
    rw [hlength, h.nextId]

/-- Both give a set the same id, and say the same about whether it is new. -/
theorem mint (set : IdSet) : (q.mint set).1 = (w.mint set).1 ∧ Tracks (q.mint set).2 (w.mint set).2 := by
  unfold RemapQueue.mint Worklist.mint Worklist.add
  by_cases hset : set ∈ w.items
  · rw [h.item?_idxOf hset]
    simp only [hset, if_true, not_true_eq_false, decide_false, true_and]
    exact h
  · rw [h.get?_ids_eq_none hset]
    simp only [hset, if_false, not_false_eq_true, decide_true, Worklist.items_enqueue]
    refine ⟨?_, ?_⟩
    · rw [List.idxOf_append_of_notMem hset, h.nextId]
      simp [Worklist.size]
    · rw [h.nextId]
      have hnumber := (h.number hset).enqueue w.size
      rwa [h.nextId] at hnumber

/-- Both have nothing to take, or both take the same id with the same set. -/
theorem pop?_cases : (q.pop? = none ∧ w.pop? = none) ∨ ∃ next q' w',
    q.pop? = some (next, q') ∧ w.pop? = some (next, w') ∧ Tracks q' w' := by
  cases hp : q.pending with
  | nil =>
    have hw : w.pending = [] := by rw [← h.pending, hp]; rfl
    exact Or.inl ⟨by rw [RemapQueue.pop?, hp], by rw [Worklist.pop?, hw]⟩
  | cons next rest =>
    have hw : w.pending = next.1 :: rest.map Prod.fst := by rw [← h.pending, hp]; rfl
    have hitem : w.item? next.1 = some next.2 := h.stored next (hp ▸ List.mem_cons_self)
    have hpop : w.pop? = some (next, { w with pending := rest.map Prod.fst }) := by
      rw [Worklist.pop?, hw]
      simp only [hitem, Option.map_some]
    have hnodup : (next.1 :: rest.map Prod.fst).Nodup := hw ▸ h.orderly.pending
    have horderly : ({ w with pending := rest.map Prod.fst } : Worklist IdSet).Orderly := by
      have hafter := h.orderly.after .pop
      rwa [Worklist.after, hpop] at hafter
    have hq : q.pop? = some (next, { q with pending := rest, waiting := q.waiting.erase next.1 }) := by
      rw [RemapQueue.pop?, hp]
    refine Or.inr ⟨next, _, _, hq, hpop, horderly, h.closed, rfl,
      fun e he => h.stored e (hp ▸ List.mem_cons_of_mem _ he), fun n => ?_, h.sets, h.size, h.ids, h.nextId⟩
    rw [IdSet.mem_erase, h.waiting, hw, List.mem_cons]
    constructor
    · rintro ⟨hn, hne⟩
      exact hn.resolve_left hne
    · intro hn
      exact ⟨Or.inr hn, fun he => (List.nodup_cons.1 hnodup).1 (he ▸ hn)⟩

end Tracks

/-! ### Calls -/

/-- What a call leaves of the queue. -/
def after (q : RemapQueue) : Call IdSet → RemapQueue
  | .mint set => (q.mint set).2
  | .enqueue n => q.enqueue n
  | .pop => (q.pop?.map Prod.snd).getD q
  | .close n => q.close n

/-- The queue after some calls on a new one. -/
def called (calls : List (Call IdSet)) : RemapQueue := calls.foldl after empty

/-- The ids a call gives to new sets. -/
def given (q : RemapQueue) : Call IdSet → List Nat
  | .mint set => if (q.mint set).1.2 then [(q.mint set).1.1] else []
  | _ => []

/-- The ids a call takes. -/
def taken (q : RemapQueue) : Call IdSet → List Nat
  | .pop => (q.pop?.map (·.1.1)).toList
  | _ => []

/-- The ids that wait, in order. -/
def pendingIds (q : RemapQueue) : List Nat := q.pending.map Prod.fst

/-- The ids that wait after a call and did not before. -/
def joining (q : RemapQueue) (c : Call IdSet) : List Nat := (q.after c).pendingIds.filter (· ∉ q.pendingIds)

namespace Tracks

variable (h : Tracks q w)

include h

theorem after (c : Call IdSet) : Tracks (q.after c) (w.after c) := by
  cases c with
  | mint set => exact (h.mint set).2
  | enqueue n => exact h.enqueue n
  | pop =>
    rcases h.pop?_cases with ⟨hq, hw⟩ | ⟨next, q', w', hq, hw, hnext⟩
    · rw [RemapQueue.after, Worklist.after, hq, hw]
      exact h
    · rw [RemapQueue.after, Worklist.after, hq, hw]
      exact hnext
  | close n => exact h.close n

theorem given_eq (c : Call IdSet) : q.given c = w.given c := by
  cases c with
  | mint set => rw [given, Worklist.given, (h.mint set).1]
  | _ => rfl

theorem taken_eq (c : Call IdSet) : q.taken c = w.taken c := by
  cases c with
  | pop =>
    rcases h.pop?_cases with ⟨hq, hw⟩ | ⟨next, q', w', hq, hw, -⟩
    · rw [taken, Worklist.taken, hq, hw]
      rfl
    · rw [taken, Worklist.taken, hq, hw]
      rfl
  | _ => rfl

theorem joining_eq (c : Call IdSet) : q.joining c = w.joining c := by
  rw [joining, Worklist.joining, pendingIds, pendingIds, (h.after c).pending, h.pending]

end Tracks

/-- However it was called, the queue tracks a worklist called the same way. -/
theorem tracks_called (calls : List (Call IdSet)) : Tracks (called calls) (Worklist.called calls) := by
  have hrun : ∀ (calls : List (Call IdSet)) {q : RemapQueue} {w : Worklist IdSet}, Tracks q w →
      Tracks (calls.foldl after q) (w.afterAll calls) := by
    intro calls
    induction calls with
    | nil => exact fun h => h
    | cons c calls ih => exact fun h => ih (h.after c)
  exact hrun calls tracks_empty

/-- What both give call by call is the same. -/
theorem eachCall_eq_of_tracks {f : RemapQueue → Call IdSet → List Nat}
    {g : Worklist IdSet → Call IdSet → List Nat} (hfg : ∀ {q w}, Tracks q w → ∀ c, f q c = g w c) :
    ∀ {calls : List (Call IdSet)} {q : RemapQueue} {w : Worklist IdSet}, Tracks q w →
      eachCall after f q calls = eachCall Worklist.after g w calls
  | [], _, _, _ => rfl
  | c :: calls, q, w, h => by
    rw [eachCall, eachCall, hfg h c, eachCall_eq_of_tracks hfg (h.after c)]

/-- What every sequence of calls on a new queue is answered, and how its
fields agree. -/
structure Protocol (calls : List (Call IdSet)) : Prop where
  /-- Two calls get the same id just for the same set. -/
  id_eq_iff : ∀ s t between,
    ((called calls).mint s).1.1 = ((called (calls ++ .mint s :: between)).mint t).1.1 ↔ s = t
  /-- The first call with a set is told so. -/
  isNew_iff : ∀ s, ((called calls).mint s).1.2 = true ↔ .mint s ∉ calls
  /-- New sets get `0, 1, 2, …` in this order. -/
  given_eq_range : eachCall after given empty calls = List.range (called calls).size
  /-- An id has the set that it was given to, however long ago. -/
  set?_iff : ∀ n s, (called calls).set? n = some s ↔
    ∃ before later, calls = before ++ .mint s :: later ∧ ((called before).mint s).1.1 = n
  /-- What is taken is an id with its set. -/
  pop?_set : ∀ n s rest, (called calls).pop? = some ((n, s), rest) → (called calls).set? n = some s
  pending_nodup : (called calls).pendingIds.Nodup
  /-- Ids are taken in the order in which they joined the queue, and those that
  are not yet taken wait. -/
  fifo : eachCall after taken empty calls ++ (called calls).pendingIds = eachCall after joining empty calls
  /-- A new id waits, unless it has been closed before it was handed out. -/
  new_waits : ∀ n s, ((called calls).mint s).1 = (n, true) → .close n ∉ calls →
    n ∈ ((called calls).mint s).2.pendingIds
  /-- An id that is closed while it does not wait is never taken again. -/
  closed_away : ∀ n, n ∉ (called calls).pendingIds → ∀ later s rest,
    (called (calls ++ .close n :: later)).pop? ≠ some ((n, s), rest)
  isClosed_iff : ∀ n, (called calls).isClosed n = true ↔ .close n ∈ calls
  waiting_iff : ∀ n, n ∈ (called calls).waiting ↔ n ∈ (called calls).pendingIds
  ids_iff : ∀ s n, (called calls).ids.get? s = some n ↔ (called calls).set? n = some s
  stored : ∀ e ∈ (called calls).pending, (called calls).set? e.1 = some e.2
  nextId_eq : (called calls).nextId = (called calls).size

end RemapQueue
end TokenAutomata
