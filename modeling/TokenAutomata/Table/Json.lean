/-
# Stored tables as JSON

A stored table is written as an object

    {"initial": 0, "states": [{"id": 0, "label": "START", "token": "IF",
      "transitions": [{"symbol": "i", "to": [1]}]}]}

where a state without a marker has no `token` and one without moves has no
`transitions`. In reading, an object may also be given as the array of its
fields in order, a `token` may be `null`, and fields of other names are
passed over; a field given twice is wrong. Ids are plain numbers below 2³²,
and a symbol is a string of one character.

Key definitions: `StoredTable.toJson`, `StoredTable.ofJson?`,
`Automaton.save`, `Automaton.load`.
-/
import TokenAutomata.Json.Parser
import TokenAutomata.Json.Printer
import TokenAutomata.Table.Stored

namespace TokenAutomata

open Json (Bytes Value)

/-! ### Writing -/

namespace Json

/-- A number in decimal digits. -/
def ofNat (n : Nat) : Value := .number ((Nat.toDigits 10 n).map fun c => UInt8.ofNat c.toNat)

def ofText (s : String) : Value := .string (encode s)

/-- A member of an object. -/
def member (key : String) (value : Value) : Bytes × Value := (encode key, value)

end Json

def StoredMove.toJson (m : StoredMove) : Value :=
  .object [Json.member "symbol" (Json.ofText (String.ofList [m.symbol])),
    Json.member "to" (.array (m.targets.map Json.ofNat))]

def StoredState.toJson (s : StoredState) : Value :=
  .object <|
    [Json.member "id" (Json.ofNat s.id), Json.member "label" (Json.ofText s.label)] ++
    (s.marker.map fun token => Json.member "token" (Json.ofText token)).toList ++
    if s.moves.isEmpty then []
    else [Json.member "transitions" (.array (s.moves.map StoredMove.toJson))]

def StoredTable.toJson (t : StoredTable) : Value :=
  .object [Json.member "initial" (Json.ofNat t.initial),
    Json.member "states" (.array (t.states.map StoredState.toJson))]

/-! ### Reading -/

namespace Json

/-- A number written in digits only, below 2³². -/
def id? : Value → Option Nat
  | .number written =>
    let n := written.foldl (fun n b => 10 * n + (b.toNat - Byte.zero.toNat)) 0
    if written.all Byte.isDigit && n < UInt32.size then some n else none
  | _ => none

def text? : Value → Option String
  | .string written => decode? written
  | _ => none

/-- A string of one character. -/
def symbol? (v : Value) : Option Symbol := do
  let [c] := (← text? v).toList | none
  return c

/-- An array whose items can all be read. -/
def list? {α : Type} (item? : Value → Option α) : Value → Option (List α)
  | .array items => items.mapM item?
  | _ => none

/-- The values of the fields of the given names, as far as they are given:
from an object, or from an array in the order of the names. -/
def fields? (names : List String) : Value → Option (List (Option Value))
  | .object members => do
    let members ← members.mapM fun (key, value) => (decode? key).map fun key => (key, value)
    names.mapM fun name =>
      match members.filter (·.1 == name) with
      | [] => some none
      | [(_, value)] => some (some value)
      | _ => none
  | .array items =>
    if items.length ≤ names.length then
      some (items.map some ++ List.replicate (names.length - items.length) none)
    else none
  | _ => none

end Json

def StoredMove.ofJson? (v : Value) : Option StoredMove := do
  let [some symbol, some targets] ← Json.fields? ["symbol", "to"] v | none
  return { symbol := ← Json.symbol? symbol, targets := ← Json.list? Json.id? targets }

/-- A marker that may be missing or `null`. -/
def StoredState.markerOfJson? : Option Value → Option (Option String)
  | none | some .null => some none
  | some v => (Json.text? v).map some

/-- Moves that may be missing. -/
def StoredState.movesOfJson? : Option Value → Option (List StoredMove)
  | none => some []
  | some v => Json.list? StoredMove.ofJson? v

def StoredState.ofJson? (v : Value) : Option StoredState := do
  let [some id, some label, token, transitions] ←
    Json.fields? ["id", "label", "token", "transitions"] v | none
  return { id := ← Json.id? id, label := ← Json.text? label, marker := ← markerOfJson? token,
           moves := ← movesOfJson? transitions }

def StoredTable.ofJson? (v : Value) : Option StoredTable := do
  let [some initial, some states] ← Json.fields? ["initial", "states"] v | none
  return { initial := ← Json.id? initial, states := ← Json.list? StoredState.ofJson? states }

/-! ### Automata as files -/

/-- The bytes of the file that an automaton is saved to. -/
def Automaton.save (a : Automaton) : Bytes := Json.print (StoredTable.ofAutomaton a).toJson

/-- The automaton saved in a file of these bytes. -/
def Automaton.load {σ : Type} [Builder σ] (file : Bytes) : Except LoadError σ :=
  match (Json.parse? file).bind StoredTable.ofJson? with
  | none => .error .malformed
  | some table => table.automaton

end TokenAutomata
