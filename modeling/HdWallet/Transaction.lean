import HdWallet.Bytes
import HdWallet.Amount
import HdWallet.Text.Hex

/-!
# Transactions as a wallet observes them

Transactions are built and signed elsewhere. What is kept here is the view
needed to see which outputs were received and which were spent: identifiers,
outpoints, scripts and values. A coin is an unspent output together with the
outpoint that names it, and coins are told apart and ordered by outpoint alone.
-/

namespace HdWallet

/-- The order pulled back along a function that tells values apart decides equality. -/
theorem lawfulEqCmp_compareOn {α β : Type} [Ord β] [Std.LawfulEqOrd β] {f : α → β}
    (inj : ∀ a b, f a = f b → a = b) : Std.LawfulEqCmp (compareOn f) where
  eq_of_compare {a b} h := inj a b (Std.LawfulEqCmp.eq_of_compare h)

structure Address where
  text : String
deriving DecidableEq, Inhabited

namespace Address

instance : Ord Address := ⟨compareOn text⟩

instance : Std.TransOrd Address := inferInstanceAs (Std.TransCmp (compareOn text))

instance : Std.LawfulEqOrd Address := lawfulEqCmp_compareOn fun ⟨_⟩ ⟨_⟩ h => congrArg mk h

end Address

structure Script where
  bytes : Bytes
deriving DecidableEq, Inhabited

namespace Script

instance : Ord Script := ⟨compareOn bytes⟩

instance : Std.TransOrd Script := inferInstanceAs (Std.TransCmp (compareOn bytes))

instance : Std.LawfulEqOrd Script := lawfulEqCmp_compareOn fun ⟨_⟩ ⟨_⟩ h => congrArg mk h

/-- The script that locks an output to a public key hash: duplicate, hash, compare, check. -/
def payToKeyHash (hash : Bytes) : Script := ⟨[0x76, 0xa9, 0x14] ++ hash ++ [0x88, 0xac]⟩

/-- Whether a script locks an output to a public key hash of twenty bytes. -/
def isPayToKeyHash (script : Script) : Bool :=
  script.bytes.length == 25
    && script.bytes.take 3 == [0x76, 0xa9, 0x14]
    && script.bytes.drop 23 == [0x88, 0xac]

def text (script : Script) : String := Hex.encode script.bytes

end Script

/-- A transaction identifier: thirty-two bytes, kept as the number they write
most significant byte first. Its order is the order of the bytes. -/
structure Txid where
  word : BitVec 256
deriving DecidableEq, Inhabited

namespace Txid

/-- The identifier with the given bytes. Thirty-two are meant. -/
def ofBytes (bytes : Bytes) : Txid := ⟨BitVec.ofNat 256 (Bytes.toNatBE bytes)⟩

def bytes (txid : Txid) : Bytes := Bytes.ofNatBE 32 txid.word.toNat

/-- The identifier that sixty-four hexadecimal digits stand for. -/
def ofText? (text : String) : Option Txid :=
  (Hex.decode? text).bind fun bytes => if bytes.length = 32 then some (ofBytes bytes) else none

def text (txid : Txid) : String := Hex.encode txid.bytes

theorem ofBytes_bytes (txid : Txid) : ofBytes txid.bytes = txid := by
  obtain ⟨word⟩ := txid
  have h : word.toNat % Bytes.count 32 = word.toNat :=
    Nat.mod_eq_of_lt (Nat.lt_of_lt_of_le word.isLt (by decide))
  show Txid.mk (BitVec.ofNat 256 (Bytes.toNatBE (Bytes.ofNatBE 32 word.toNat))) = Txid.mk word
  rw [Bytes.toNatBE_ofNatBE, h, BitVec.ofNat_toNat, BitVec.setWidth_eq]

theorem bytes_ofBytes {bytes : Bytes} (h : bytes.length = 32) : (ofBytes bytes).bytes = bytes := by
  have hlt : Bytes.toNatBE bytes < Bytes.count 32 := by
    have := Bytes.toNatLE_lt bytes.reverse
    rwa [List.length_reverse, h] at this
  have hword : (BitVec.ofNat 256 (Bytes.toNatBE bytes)).toNat = Bytes.toNatBE bytes := by
    rw [BitVec.toNat_ofNat]
    exact Nat.mod_eq_of_lt (Nat.lt_of_lt_of_le hlt (by decide))
  have := Bytes.ofNatBE_toNatBE bytes
  rw [h] at this
  show Bytes.ofNatBE 32 (BitVec.ofNat 256 (Bytes.toNatBE bytes)).toNat = bytes
  rw [hword, this]

end Txid

/-- An outpoint names one output of one transaction. -/
structure OutPoint where
  txid : Txid
  index : UInt32
deriving DecidableEq, Inhabited

namespace OutPoint

/-- The position of an outpoint in the order by transaction, then by output. -/
def rank (o : OutPoint) : Nat := o.txid.word.toNat * UInt32.size + o.index.toNat

theorem rank_injective (a b : OutPoint) (h : a.rank = b.rank) : a = b := by
  obtain ⟨⟨s⟩, i⟩ := a
  obtain ⟨⟨t⟩, j⟩ := b
  have hi := i.toNat_lt
  have hj := j.toNat_lt
  simp only [rank, UInt32.size] at h
  have hword : s = t := BitVec.eq_of_toNat_eq (by omega)
  have hindex : i = j := UInt32.toNat_inj.mp (by omega)
  rw [hword, hindex]

instance : Ord OutPoint := ⟨compareOn rank⟩

instance : Std.TransOrd OutPoint := inferInstanceAs (Std.TransCmp (compareOn rank))

instance : Std.LawfulEqOrd OutPoint := lawfulEqCmp_compareOn rank_injective

def text (o : OutPoint) : String := o.txid.text ++ ":" ++ toString o.index.toNat

end OutPoint

structure Output where
  value : Amount
  script : Script
deriving DecidableEq, Inhabited

/-- An unspent output and the outpoint that names it. -/
structure Coin where
  outpoint : OutPoint
  output : Output
deriving DecidableEq, Inhabited

namespace Coin

/-- Coins are told apart and ordered by their outpoints. -/
instance : Ord Coin := ⟨compareOn outpoint⟩

instance : Std.TransOrd Coin := inferInstanceAs (Std.TransCmp (compareOn outpoint))

def value (coin : Coin) : Amount := coin.output.value

def script (coin : Coin) : Script := coin.output.script

def total (coins : List Coin) : Nat := Amount.sum (coins.map (·.value))

end Coin

/-- What is observed of a transaction: the outpoints it spends and the outputs it makes. -/
structure Transaction where
  txid : Txid
  inputs : List OutPoint
  outputs : List Output
deriving DecidableEq, Inhabited

/-- The coins that a transaction makes, in output order. -/
def Transaction.coins (tx : Transaction) : List Coin :=
  tx.outputs.mapIdx fun i output => ⟨⟨tx.txid, UInt32.ofNat i⟩, output⟩

/-- One transaction in the history of an address, with its height once it is confirmed. -/
structure HistoryItem where
  txid : Txid
  height : Option UInt32
deriving DecidableEq, Inhabited

end HdWallet
