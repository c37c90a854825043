import HdWallet.Binary.Varint

/-!
# Binary forms

A type with a binary form has a writer and a reader that takes a value off the
front of a byte string. Lists and byte strings are preceded by their length, and
the fields of a record and the case of a choice are written without names.
-/

namespace HdWallet

/-- A type whose values are written as byte strings. -/
class BinaryForm (α : Type) where
  /-- The bytes of a value. -/
  write : α → Bytes
  /-- The value at the front of a byte string, and what follows it. -/
  read? : Bytes → Option (α × Bytes)

namespace BinaryForm

instance : BinaryForm UInt8 where
  write b := [b]
  read?
    | [] => none
    | b :: rest => some (b, rest)

instance : BinaryForm UInt32 where
  write n := Varint.write n.toNat
  read? bytes := (Varint.read? 4 bytes).map fun (n, rest) => (UInt32.ofNat n, rest)

instance : BinaryForm UInt64 where
  write n := Varint.write n.toNat
  read? bytes := (Varint.read? 8 bytes).map fun (n, rest) => (UInt64.ofNat n, rest)

instance : BinaryForm Bool where
  write b := [if b then 1 else 0]
  read?
    | 0 :: rest => some (false, rest)
    | 1 :: rest => some (true, rest)
    | _ => none

/-- So many values, one after another. -/
def readMany? {α : Type} [BinaryForm α] : Nat → Bytes → Option (List α × Bytes)
  | 0, bytes => some ([], bytes)
  | n + 1, bytes => do
    let (a, bytes) ← read? bytes
    let (rest, bytes) ← readMany? n bytes
    pure (a :: rest, bytes)

instance {α : Type} [BinaryForm α] : BinaryForm (List α) where
  write values := Varint.write values.length ++ values.flatMap write
  read? bytes := do
    let (n, bytes) ← Varint.read? 8 bytes
    readMany? n bytes

instance : BinaryForm String where
  write text := write text.toUTF8.toList
  read? bytes := do
    let (utf8, bytes) ← read? (α := List UInt8) bytes
    let text ← String.fromUTF8? ⟨utf8.toArray⟩
    pure (text, bytes)

end BinaryForm

end HdWallet
