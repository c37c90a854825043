import Std.Data.ExtTreeMap
import Std.Data.ExtTreeSet
import HdWallet.CachedBalance
import HdWallet.KeySource

/-!
# The addresses of one branch

A chain holds slots at consecutive indices from zero, each with an address, its
script, whether it was used, and its cached balance. Two maps lead back from an
address and from a script to the index. An address occurs once; of slots that
share a script the latest one is found.

The gap rule asks for a number of unused slots after the last used one. Growing
a chain to what the rule requires may fail at any slot, and the slots derived
until then stay.
-/

namespace HdWallet

/-- One address of a chain. -/
structure Slot where
  path : Path
  address : Address
  script : Script
  used : Bool
  cache : CachedBalance
deriving DecidableEq, Inhabited

def Slot.index (slot : Slot) : Nat := slot.path.index.toNat

/-- The addresses of one branch. -/
structure Chain where
  account : AccountPath
  branch : Branch
  gapLimit : Nat
  /-- The seconds for which every slot's balance stays valid. -/
  cacheLifetime : UInt64
  /-- The slots in index order. -/
  slots : Array Slot := #[]
  byAddress : Std.ExtTreeMap Address Nat := ∅
  byScript : Std.ExtTreeMap Script Nat := ∅
  highestUsed : Option Nat := none

namespace Chain

def size (chain : Chain) : Nat := chain.slots.size

def slot? (chain : Chain) (index : Nat) : Option Slot := chain.slots[index]?

def indexOf? (chain : Chain) (address : Address) : Option Nat := chain.byAddress[address]?

def indexOfScript? (chain : Chain) (script : Script) : Option Nat := chain.byScript[script]?

def contains (chain : Chain) (address : Address) : Bool := chain.byAddress.contains address

def find? (chain : Chain) (address : Address) : Option Slot :=
  (chain.indexOf? address).bind chain.slot?

def ofScript? (chain : Chain) (script : Script) : Option Slot :=
  (chain.indexOfScript? script).bind chain.slot?

def addresses (chain : Chain) : List Address := chain.slots.toList.map (·.address)

/-- The number of slots that the gap rule asks for. There are no more than there
are indices that are not hardened. -/
def requiredSize (chain : Chain) : Nat :=
  min (chain.highestUsed.getD 0 + chain.gapLimit) (lastNormalIndex + 1)

def needsMore (chain : Chain) : Bool := chain.size < chain.requiredSize

def firstUnused? (chain : Chain) (excluded : Std.ExtTreeSet Nat) : Option Slot :=
  chain.slots.find? fun slot => !slot.used && !excluded.contains slot.index

def next (chain : Chain) (source : KeySource) : Except Failure Slot :=
  if lastNormalIndex < chain.size then .error (.branchExhausted chain.branch)
  else
    let path := chain.account.child chain.branch (UInt32.ofNat chain.size)
    match source.derive path with
    | .error e => .error e
    | .ok derived => .ok {
        path
        address := derived.address
        script := derived.script
        used := false
        cache := .unfilled chain.cacheLifetime }

/-- Why a slot may not be put at the end: its index is not the next one, or its
address is not new. -/
def refusal? (chain : Chain) (slot : Slot) : Option Failure :=
  if slot.index ≠ chain.size ∨ slot.path.branch ≠ chain.branch then
    some (.inconsistent ("entry " ++ slot.path.text ++ " does not extend the "
      ++ chain.branch.text ++ " pool of " ++ toString chain.size ++ " entries"))
  else if chain.contains slot.address then some (.duplicateAddress slot.address)
  else none

def push (chain : Chain) (slot : Slot) : Chain :=
  { chain with
    slots := chain.slots.push slot
    byAddress := chain.byAddress.insert slot.address slot.index
    byScript := chain.byScript.insert slot.script slot.index }

/-- Put so many derived slots at the end, as far as none fails and none has an
address that is taken. -/
def grow (source : KeySource) (taken : Address → Bool) : Nat → Step Chain Unit
  | 0, chain => .ok () chain
  | count + 1, chain =>
    match chain.next source with
    | .error e => .error e chain
    | .ok slot =>
      if taken slot.address then .error (.duplicateAddress slot.address) chain
      else
        match chain.refusal? slot with
        | some e => .error e chain
        | none => grow source taken count (chain.push slot)

def missing (chain : Chain) (index : Nat) : Failure :=
  .noSlot (chain.account.child chain.branch (UInt32.ofNat index)).text

/-- Mark a slot used. The answer says whether it was unused before. -/
def markUsed (chain : Chain) (index : Nat) : Except Failure (Chain × Bool) :=
  match chain.slot? index with
  | none => .error (chain.missing index)
  | some slot =>
    if slot.used then .ok (chain, false)
    else .ok ({ chain with
      slots := chain.slots.modify index ({ · with used := true })
      highestUsed := some (max (chain.highestUsed.getD 0) index) }, true)

def lastUsedBelow (slots : Array Slot) : Nat → Option Nat
  | 0 => none
  | n + 1 => if slots[n]?.any (·.used) then some n else lastUsedBelow slots n

def setUsed (chain : Chain) (index : Nat) (used : Bool) : Except Failure Chain :=
  if used then (chain.markUsed index).map (·.1)
  else
    match chain.slot? index with
    | none => .error (chain.missing index)
    | some _ =>
      let slots := chain.slots.modify index ({ · with used := false })
      .ok { chain with slots, highestUsed := lastUsedBelow slots slots.size }

def modifyCache (chain : Chain) (index : Nat) (f : CachedBalance → CachedBalance) : Chain :=
  { chain with slots := chain.slots.modify index fun slot => { slot with cache := f slot.cache } }

/-- Let balances stay valid for so many seconds, in present and future slots. -/
def setCacheLifetime (chain : Chain) (lifetime : UInt64) : Chain :=
  { chain with
    cacheLifetime := lifetime
    slots := chain.slots.map fun slot => { slot with cache := { slot.cache with lifetime } } }

end Chain

structure ChainStats where
  branch : Branch
  generated : UInt32
  used : UInt32
  unused : UInt32
  highestUsed : Option UInt32
  highestGenerated : Option UInt32
  gapLimit : UInt32
deriving DecidableEq, Inhabited

namespace ChainStats

def ofChain (chain : Chain) : ChainStats :=
  let used := chain.slots.countP (·.used)
  { branch := chain.branch
    generated := UInt32.ofNat chain.size
    used := UInt32.ofNat used
    unused := UInt32.ofNat (chain.size - used)
    highestUsed := chain.highestUsed.map UInt32.ofNat
    highestGenerated := if chain.size = 0 then none else some (UInt32.ofNat (chain.size - 1))
    gapLimit := UInt32.ofNat chain.gapLimit }

def text (s : ChainStats) : String :=
  s.branch.text ++ " pool: " ++ toString s.generated.toNat ++ " addresses ("
    ++ toString s.used.toNat ++ " used, " ++ toString s.unused.toNat
    ++ " unused), gap limit: " ++ toString s.gapLimit.toNat

end ChainStats

end HdWallet
