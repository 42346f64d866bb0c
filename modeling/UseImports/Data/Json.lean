/-!
# JSON values

Settings, command arguments and everything that is exchanged with an editor are JSON values. Numbers
are kept as decimals, so that integers of any size stay exact.

Main definitions:
* `Json`: a value.
* `Json.get?`: the value of a member.
* `Json.record?`: the fields of a record, given by name or by place.
* `Json.ofFields`: an object without the members that have no value.
-/

namespace UseImports

/-- A JSON value. -/
inductive Json where
  | null
  | bool (value : Bool)
  /-- The decimal `mantissa * 10 ^ -exponent`; an integer has exponent zero. -/
  | number (mantissa : Int) (exponent : Nat)
  | string (value : String)
  | array (items : List Json)
  | object (members : List (String × Json))
deriving Inhabited, Repr

namespace Json

/-! ## Reading -/

/-- The value of the member of that name; only objects have members. -/
def get? : Json → String → Option Json
  | object members, name => members.lookup name
  | _, _ => none

/-- The value as a truth value. -/
def bool? : Json → Option Bool
  | bool b => some b
  | _ => none

/-- The value as a text. -/
def string? : Json → Option String
  | string s => some s
  | _ => none

/-- The value as a list of values. -/
def array? : Json → Option (List Json)
  | array items => some items
  | _ => none

/-- The value as an integer. -/
def int? : Json → Option Int
  | number m 0 => some m
  | _ => none

/-- The value as an integer that fits an unsigned word of 32 bits. -/
def unsigned? (j : Json) : Option Nat := do
  let n ← j.int?
  if 0 ≤ n ∧ n < 0x100000000 then some n.toNat else none

/-- The value as an integer that fits a signed word of 32 bits. -/
def signed? (j : Json) : Option Int := do
  let n ← j.int?
  if -0x80000000 ≤ n ∧ n < 0x80000000 then some n else none

/-- The value as a list of texts. -/
def strings? (j : Json) : Option (List String) := do
  (← j.array?).mapM string?

/-- The fields of a record with these names. An object gives them by name and may hold more; an
array gives them by place and may leave out only as many at its end as `spare` says. -/
def record? (names : List String) (spare : Nat) : Json → Option (List (Option Json))
  | object members => some (names.map fun name => members.lookup name)
  | array items =>
    if items.length ≤ names.length ∧ names.length ≤ items.length + spare then
      some ((items.map some) ++ List.replicate (names.length - items.length) none)
    else none
  | _ => none

/-- Reads an optional field: a missing field and `null` are both no value. -/
def optional? {α : Type} (read : Json → Option α) : Option Json → Option (Option α)
  | none => some none
  | some null => some none
  | some j => (read j).map some

/-! ## Writing -/

/-- A natural number. -/
def ofNat (n : Nat) : Json :=
  number n 0

/-- An integer. -/
def ofInt (n : Int) : Json :=
  number n 0

/-- An object of the fields that have a value. -/
def ofFields (fields : List (String × Option Json)) : Json :=
  object (fields.filterMap fun (name, value) => value.map fun v => (name, v))

/-- A list of texts. -/
def ofStrings (items : List String) : Json :=
  array (items.map string)

end Json

end UseImports
