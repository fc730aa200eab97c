/-
# A stored table is read back from its JSON

What is written of a table reads as the table if its ids fit into 32 bits
(`StoredTable.Fits`), and as no table if they do not. The fields are found by
their names, whichever of them were left out for being empty.

Key definitions: `StoredMove.Fits`, `StoredState.Fits`, `StoredTable.Fits`.
Key theorems: `Json.id?_ofNat`, `Json.list?_map`, `Json.fields?_objectOf`,
`StoredTable.ofJson?_toJson`, `StoredTable.readsBack_toJson`.
-/
import TokenAutomata.Proofs.PrintedValues

namespace TokenAutomata
namespace Json

/-! ### Single values -/

theorem text?_ofText (s : String) : text? (ofText s) = some s := decode?_encode s

theorem symbol?_ofText (c : Symbol) : symbol? (ofText (String.ofList [c])) = some c := by
  rw [symbol?, text?_ofText, Option.bind_eq_bind, Option.bind_some, String.toList_ofList]
  rfl

/-- The digits of a number give it back. -/
theorem foldl_decimal (n : Nat) :
    (decimal n).foldl (fun n b => 10 * n + (b.toNat - Byte.zero.toNat)) 0 = n := by
  have hdigits : ∀ (cs : List Char) (k : Nat), (∀ c ∈ cs, c.isDigit = true) →
      (cs.map fun c => UInt8.ofNat c.toNat).foldl (fun n b => 10 * n + (b.toNat - Byte.zero.toNat)) k =
        Nat.ofDigitChars 10 cs k := by
    intro cs
    induction cs with
    | nil => exact fun k _ => rfl
    | cons c cs ih =>
      intro k h
      rw [List.map_cons, List.foldl_cons, toNat_ofNat_digit (h c List.mem_cons_self),
        ih _ fun d hd => h d (List.mem_cons_of_mem _ hd), Nat.ofDigitChars_cons]
      rfl
  rw [decimal, hdigits _ _ fun c hc => Nat.isDigit_of_mem_toDigits (by decide) (by decide) hc,
    Nat.ofDigitChars_ten_toDigits]

/-- A number is an id if it fits into 32 bits. -/
theorem id?_ofNat (n : Nat) : id? (ofNat n) = if n < UInt32.size then some n else none := by
  have hall : (decimal n).all Byte.isDigit = true :=
    List.all_eq_true.2 fun b hb => isDigit_of_mem_decimal hb
  rw [ofNat_eq, id?, foldl_decimal, hall]
  simp

/-! ### Lists and fields -/

/-- A list is read back if its items are. -/
theorem list?_map {α : Type} {item? : Value → Option α} {toJson : α → Value} {P : α → Prop}
    [DecidablePred P] (h : ∀ x, item? (toJson x) = if P x then some x else none) (xs : List α) :
    list? item? (.array (xs.map toJson)) = if ∀ x ∈ xs, P x then some xs else none := by
  rw [list?, List.mapM_map]
  induction xs with
  | nil => simp
  | cons x xs ih =>
    rw [List.mapM_cons, ih, Function.comp_apply, h]
    simp only [List.forall_mem_cons]
    by_cases hx : P x
    · simp only [hx, true_and, if_true]
      split_ifs
      · rfl
      · rfl
    · simp [hx]

/-- An object of the given fields. -/
def objectOf (fields : List (String × Value)) : Value :=
  .object (fields.map fun field => member field.1 field.2)

/-- A field is found if it is given once, and may be missing. -/
theorem fields?_objectOf (names : List String) (fields : List (String × Value)) :
    fields? names (objectOf fields) = names.mapM fun name =>
      if (fields.filter (·.1 == name)).length ≤ 1 then
        some ((fields.filter (·.1 == name)).head?.map Prod.snd)
      else none := by
  have hmembers : ∀ fields : List (String × Value), (fields.map fun field => member field.1 field.2).mapM
      (fun m => (decode? m.1).map fun key => (key, m.2)) = some fields := by
    intro fields
    rw [List.mapM_map]
    induction fields with
    | nil => rfl
    | cons field fields ih =>
      rw [List.mapM_cons, ih]
      simp [member, decode?_encode]
  refine (congrArg (Option.bind · _) (hmembers fields)).trans ?_
  refine congrArg (List.mapM · names) (funext fun name => ?_)
  cases fields.filter (·.1 == name) with
  | nil => rfl
  | cons field more =>
    cases more with
    | nil => rfl
    | cons field' more => simp

theorem readsBack_objectOf {fields : List (String × Value)}
    (h : ∀ field ∈ fields, field.2.ReadsBack) : (objectOf fields).ReadsBack := by
  refine .object (fun m hm => ?_) fun m hm => ?_
  · obtain ⟨field, -, rfl⟩ := List.mem_map.1 hm
    exact ⟨field.1, rfl⟩
  · obtain ⟨field, hfield, rfl⟩ := List.mem_map.1 hm
    exact h field hfield

theorem readsBack_map {α : Type} {toJson : α → Value} {xs : List α}
    (h : ∀ x ∈ xs, (toJson x).ReadsBack) : (Value.array (xs.map toJson)).ReadsBack := by
  refine .array fun v hv => ?_
  obtain ⟨x, hx, rfl⟩ := List.mem_map.1 hv
  exact h x hx

end Json

open Json (Value)

/-! ### Tables -/

/-- The ids fit into 32 bits. -/
def StoredMove.Fits (m : StoredMove) : Prop := ∀ id ∈ m.targets, id < UInt32.size

def StoredState.Fits (s : StoredState) : Prop := s.id < UInt32.size ∧ ∀ m ∈ s.moves, m.Fits

def StoredTable.Fits (t : StoredTable) : Prop := t.initial < UInt32.size ∧ ∀ s ∈ t.states, s.Fits

instance (m : StoredMove) : Decidable m.Fits := inferInstanceAs (Decidable (∀ id ∈ m.targets, _))

instance (s : StoredState) : Decidable s.Fits := inferInstanceAs (Decidable (_ ∧ ∀ m ∈ s.moves, _))

instance (t : StoredTable) : Decidable t.Fits := inferInstanceAs (Decidable (_ ∧ ∀ s ∈ t.states, _))

theorem StoredMove.toJson_eq (m : StoredMove) : m.toJson = Json.objectOf
    [("symbol", Json.ofText (String.ofList [m.symbol])), ("to", .array (m.targets.map Json.ofNat))] := rfl

theorem StoredMove.ofJson?_toJson (m : StoredMove) :
    ofJson? m.toJson = if m.Fits then some m else none := by
  have hfields : Json.fields? ["symbol", "to"] m.toJson = some
      [some (Json.ofText (String.ofList [m.symbol])), some (.array (m.targets.map Json.ofNat))] := by
    rw [toJson_eq, Json.fields?_objectOf]
    rfl
  have htargets := Json.list?_map Json.id?_ofNat m.targets
  rw [ofJson?, hfields]
  simp only [Option.bind_eq_bind, Option.bind_some, Json.symbol?_ofText, htargets]
  by_cases h : m.Fits
  · rw [if_pos h, if_pos (show ∀ id ∈ m.targets, id < UInt32.size from h)]
    rfl
  · rw [if_neg h, if_neg (show ¬ ∀ id ∈ m.targets, id < UInt32.size from h)]
    rfl

theorem StoredMove.readsBack_toJson (m : StoredMove) : m.toJson.ReadsBack := by
  rw [toJson_eq]
  refine Json.readsBack_objectOf fun field hfield => ?_
  simp only [List.mem_cons, List.not_mem_nil, or_false] at hfield
  rcases hfield with rfl | rfl
  · exact .ofText _
  · exact Json.readsBack_map fun id _ => .ofNat id

/-- The fields that a state has when it is written. -/
def StoredState.fields (s : StoredState) : List (String × Value) :=
  [("id", Json.ofNat s.id), ("label", Json.ofText s.label)] ++
    (s.marker.map fun token => ("token", Json.ofText token)).toList ++
    if s.moves.isEmpty then [] else [("transitions", .array (s.moves.map StoredMove.toJson))]

theorem StoredState.toJson_eq (s : StoredState) : s.toJson = Json.objectOf s.fields := by
  unfold toJson fields Json.objectOf
  cases s.marker with
  | none => split_ifs <;> rfl
  | some token => split_ifs <;> rfl

theorem StoredState.fields?_toJson (s : StoredState) :
    Json.fields? ["id", "label", "token", "transitions"] s.toJson = some
      [some (Json.ofNat s.id), some (Json.ofText s.label), s.marker.map Json.ofText,
        if s.moves.isEmpty then none else some (.array (s.moves.map StoredMove.toJson))] := by
  rw [toJson_eq, Json.fields?_objectOf, fields]
  cases s.marker with
  | none => split_ifs <;> rfl
  | some token => split_ifs <;> rfl

theorem StoredState.markerOfJson?_map (marker : Option String) :
    markerOfJson? (marker.map Json.ofText) = some marker := by
  cases marker with
  | none => rfl
  | some token =>
    show (Json.text? (Json.ofText token)).map some = some (some token)
    rw [Json.text?_ofText]
    rfl

theorem StoredState.movesOfJson?_toJson (moves : List StoredMove) :
    movesOfJson? (if moves.isEmpty then none else some (.array (moves.map StoredMove.toJson))) =
      if ∀ m ∈ moves, m.Fits then some moves else none := by
  cases moves with
  | nil => simp [movesOfJson?]
  | cons m moves => exact Json.list?_map StoredMove.ofJson?_toJson (m :: moves)

theorem StoredState.ofJson?_toJson (s : StoredState) :
    ofJson? s.toJson = if s.Fits then some s else none := by
  rw [ofJson?, fields?_toJson]
  simp only [Option.bind_eq_bind, Option.bind_some, Json.id?_ofNat, Json.text?_ofText,
    markerOfJson?_map, movesOfJson?_toJson]
  by_cases hid : s.id < UInt32.size
  · by_cases hmoves : ∀ m ∈ s.moves, m.Fits
    · rw [if_pos hid, if_pos hmoves, if_pos (show s.Fits from ⟨hid, hmoves⟩)]
      rfl
    · rw [if_pos hid, if_neg hmoves, if_neg fun h : s.Fits => hmoves h.2]
      rfl
  · rw [if_neg hid, if_neg fun h : s.Fits => hid h.1]
    rfl

theorem StoredState.readsBack_toJson (s : StoredState) : s.toJson.ReadsBack := by
  rw [toJson_eq]
  refine Json.readsBack_objectOf fun field hfield => ?_
  unfold fields at hfield
  simp only [List.mem_append, List.mem_cons, List.not_mem_nil, or_false, Option.mem_toList] at hfield
  rcases hfield with ((rfl | rfl) | hmarker) | hmoves
  · exact .ofNat _
  · exact .ofText _
  · obtain ⟨token, -, rfl⟩ := Option.map_eq_some_iff.1 hmarker
    exact .ofText token
  · split_ifs at hmoves
    · cases hmoves
    · rw [List.mem_singleton.1 hmoves]
      exact Json.readsBack_map fun m _ => m.readsBack_toJson

theorem StoredTable.toJson_eq (t : StoredTable) : t.toJson = Json.objectOf
    [("initial", Json.ofNat t.initial), ("states", .array (t.states.map StoredState.toJson))] := rfl

/-- What is written of a table is read as the table, if its ids fit. -/
theorem StoredTable.ofJson?_toJson (t : StoredTable) :
    ofJson? t.toJson = if t.Fits then some t else none := by
  have hfields : Json.fields? ["initial", "states"] t.toJson = some
      [some (Json.ofNat t.initial), some (.array (t.states.map StoredState.toJson))] := by
    rw [toJson_eq, Json.fields?_objectOf]
    rfl
  have hstates := Json.list?_map StoredState.ofJson?_toJson t.states
  rw [ofJson?, hfields]
  simp only [Option.bind_eq_bind, Option.bind_some, Json.id?_ofNat, hstates]
  by_cases hid : t.initial < UInt32.size
  · by_cases hall : ∀ s ∈ t.states, s.Fits
    · rw [if_pos hid, if_pos hall, if_pos (show t.Fits from ⟨hid, hall⟩)]
      rfl
    · rw [if_pos hid, if_neg hall, if_neg fun h : t.Fits => hall h.2]
      rfl
  · rw [if_neg hid, if_neg fun h : t.Fits => hid h.1]
    rfl

theorem StoredTable.readsBack_toJson (t : StoredTable) : t.toJson.ReadsBack := by
  rw [toJson_eq]
  refine Json.readsBack_objectOf fun field hfield => ?_
  simp only [List.mem_cons, List.not_mem_nil, or_false] at hfield
  rcases hfield with rfl | rfl
  · exact .ofNat _
  · exact Json.readsBack_map fun s _ => s.readsBack_toJson

/-- The text of a table holds the table, if its ids fit. -/
theorem StoredTable.parse?_print (t : StoredTable) :
    (Json.parse? (Json.print t.toJson)).bind ofJson? = if t.Fits then some t else none := by
  rw [t.readsBack_toJson.parse?_print, Option.bind_some, ofJson?_toJson]

end TokenAutomata
