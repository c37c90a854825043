import HdWallet.Json.Value

/-!
# JSON forms

A type with a JSON form has a writer and a reader. A record is an object with its
fields by name; members that are no fields are ignored, and a field may not occur
twice. It may also be read from a list of all its fields in order. A choice is the
name of its case, or an object whose only member has that name.
-/

namespace HdWallet

/-- A type whose values are written as JSON. -/
class JsonForm (α : Type) where
  write : α → Json
  read? : Json → Option α

namespace JsonForm

def natBelow? (bound : Nat) : Json → Option Nat
  | .number (some n) => if n < bound then some n else none
  | _ => none

instance : JsonForm UInt8 where
  write n := .ofNat n.toNat
  read? j := (natBelow? UInt8.size j).map UInt8.ofNat

instance : JsonForm UInt32 where
  write n := .ofNat n.toNat
  read? j := (natBelow? UInt32.size j).map UInt32.ofNat

instance : JsonForm UInt64 where
  write n := .ofNat n.toNat
  read? j := (natBelow? UInt64.size j).map UInt64.ofNat

instance : JsonForm Bool where
  write b := .bool b
  read?
    | .bool b => some b
    | _ => none

instance : JsonForm String where
  write s := .ofString s
  read?
    | .text (some s) => some s
    | _ => none

instance {α : Type} [JsonForm α] : JsonForm (List α) where
  write values := .list (values.map write)
  read?
    | .list items => items.mapM read?
    | _ => none

instance {α : Type} [JsonForm α] : JsonForm (Option α) where
  write
    | some a => write a
    | none => .null
  read?
    | .null => some none
    | j => (read? j).map some

/-- The value of a member, if exactly one has the name; no value if none has it. -/
def member? (members : List (String × Json)) (name : String) : Option (Option Json) :=
  match members.filter (·.1 == name) with
  | [] => some none
  | [(_, v)] => some (some v)
  | _ => none

/-- The fields of a record, in the order of their names, as far as they are there. -/
def fields? (names : List String) : Json → Option (List (Option Json))
  | .object members => do
    let members ← members.mapM fun (name, v) => name.map (·, v)
    names.mapM (member? members)
  | .list items => if items.length = names.length then some (items.map some) else none
  | _ => none

def required {α : Type} [JsonForm α] (field : Option Json) : Option α := field.bind read?

def ifPresent {α : Type} [JsonForm α] : Option Json → Option (Option α)
  | none => some none
  | some j => read? j

/-- The name of a case, and what comes with it. -/
def case? : Json → Option (String × Option Json)
  | .text (some name) => some (name, none)
  | .object [(some name, v)] => some (name, some v)
  | _ => none

/-- The case of a choice among names alone. Nothing, or `null`, comes with it. -/
def nameAmong? {α : Type} (cases : List (String × α)) (j : Json) : Option α := do
  match ← case? j with
  | (name, none) | (name, some .null) => cases.lookup name
  | _ => none

end JsonForm

end HdWallet
