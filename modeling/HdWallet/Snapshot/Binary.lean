import HdWallet.Binary.Form
import HdWallet.Snapshot

/-!
# The binary form of snapshots

A snapshot is written as its version, the saved slots of both branches and the
coins. The version comes first, so a reader can refuse a layout that it does not
know without looking at the rest.
-/

namespace HdWallet

open BinaryForm

instance : BinaryForm Address where
  write a := write a.text
  read? bytes := (read? bytes).map fun (text, rest) => (⟨text⟩, rest)

instance : BinaryForm Script where
  write s := write s.bytes
  read? bytes := (read? bytes).map fun (bytes, rest) => (⟨bytes⟩, rest)

instance : BinaryForm Txid where
  write txid := txid.bytes
  read? bytes :=
    let head := bytes.take 32
    if head.length = 32 then some (Txid.ofBytes head, bytes.drop 32) else none

instance : BinaryForm OutPoint where
  write o := write o.txid ++ write o.index
  read? bytes := do
    let (txid, bytes) ← read? bytes
    let (index, bytes) ← read? bytes
    pure (⟨txid, index⟩, bytes)

instance : BinaryForm Output where
  write o := write o.value ++ write o.script
  read? bytes := do
    let (value, bytes) ← read? bytes
    let (script, bytes) ← read? bytes
    pure (⟨value, script⟩, bytes)

instance : BinaryForm Coin where
  write c := write c.outpoint ++ write c.output
  read? bytes := do
    let (outpoint, bytes) ← read? bytes
    let (output, bytes) ← read? bytes
    pure (⟨outpoint, output⟩, bytes)

instance : BinaryForm FeeRate where
  write r := write r.perKilobyte
  read? bytes := (read? bytes).map fun (perKilobyte, rest) => (⟨perKilobyte⟩, rest)

instance : BinaryForm Branch where
  write b := Varint.write b.number.toNat
  read? bytes := do
    match ← Varint.read? 4 bytes with
    | (0, bytes) => pure (.receiving, bytes)
    | (1, bytes) => pure (.change, bytes)
    | _ => none

instance : BinaryForm Reading where
  write
    | .unknown => Varint.write 0
    | .fresh balance updatedAt => Varint.write 1 ++ write balance ++ write updatedAt
    | .stale balance updatedAt => Varint.write 2 ++ write balance ++ write updatedAt
  read? bytes := do
    let (kind, bytes) ← Varint.read? 4 bytes
    if kind = 0 then pure (.unknown, bytes)
    else if kind = 1 ∨ kind = 2 then
      let (balance, bytes) ← read? bytes
      let (updatedAt, bytes) ← read? bytes
      pure (if kind = 1 then .fresh balance updatedAt else .stale balance updatedAt, bytes)
    else none

instance : BinaryForm SavedSlot where
  write s := write s.index ++ write s.used ++ write s.reading
  read? bytes := do
    let (index, bytes) ← read? bytes
    let (used, bytes) ← read? bytes
    let (reading, bytes) ← read? bytes
    pure (⟨index, used, reading⟩, bytes)

instance : BinaryForm Snapshot where
  write s := write s.version ++ write s.receiving ++ write s.change ++ write s.coins
  read? bytes := do
    let (version, bytes) ← read? bytes
    let (receiving, bytes) ← read? bytes
    let (change, bytes) ← read? bytes
    let (coins, bytes) ← read? bytes
    pure (⟨version, receiving, change, coins⟩, bytes)

namespace Snapshot

def encode (s : Snapshot) : Bytes := write s

/-- The snapshot at the front of some bytes. Its version is checked before the
rest is read. -/
def decode (bytes : Bytes) : Except Failure Snapshot :=
  match (read? bytes : Option (UInt32 × Bytes)) with
  | none => .error (.serialization "no version")
  | some (version, _) =>
    if version ≠ snapshotVersion then .error (.unsupportedVersion version.toNat)
    else
      match (read? bytes : Option (Snapshot × Bytes)) with
      | none => .error (.serialization "incomplete")
      | some (s, _) => .ok s

end Snapshot

end HdWallet
