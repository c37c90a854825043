/-!
# JSON values

What a JSON text stands for, as far as the wallet's records care. Of numbers only
natural numbers written with digits alone have a value. A text whose escapes name
half of a surrogate pair is well-formed, but stands for no string. An object keeps
its members in order, repeated names included.
-/

namespace HdWallet

inductive Json where
  | null
  | bool (value : Bool)
  /-- A number, with its value if digits alone write a natural number. -/
  | number (natural : Option Nat)
  /-- A text, unless its escapes stand for no string. -/
  | text (value : Option String)
  | list (items : List Json)
  | object (members : List (Option String × Json))
deriving Inhabited

namespace Json

def ofNat (n : Nat) : Json := number (some n)

def ofString (s : String) : Json := text (some s)

def record (members : List (String × Json)) : Json :=
  object (members.map fun (name, value) => (some name, value))

end Json

end HdWallet
