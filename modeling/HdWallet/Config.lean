import HdWallet.Path

/-!
# Settings of an account

The settings name the account and bound what it may do: how many unused
addresses it keeps ahead, how long a balance stays valid, how many queries run
at a time. `Config.validate` reports the first setting that is out of bounds.
-/

namespace HdWallet

def largestGapLimit : Nat := 1000

structure Config where
  purpose : UInt32 := 44
  coinType : UInt32 := 5
  account : UInt32 := 0
  /-- Unused receiving addresses kept ahead of the last used one. -/
  receivingGapLimit : UInt32 := 20
  /-- Unused change addresses kept ahead of the last used one. -/
  changeGapLimit : UInt32 := 20
  /-- Seconds for which a fetched balance stays valid. -/
  cacheLifetime : UInt64 := 600
  /-- Queries that may run at a time. -/
  concurrentQueries : UInt64 := 8
  /-- Seconds after which a query is given up. -/
  queryTimeout : UInt64 := 30
  /-- Seconds after which an unresolved reservation is cancelled. -/
  reservationLifetime : UInt64 := 300
  /-- Nodes that branch and bound may visit. -/
  nodeBudget : UInt64 := standardNodeBudget
  /-- Attempts after which a query is no longer retried. -/
  retryAttempts : UInt32 := 5
  /-- The least change that is worth an output. -/
  dust : Amount := standardDust
  /-- The highest index that a restored snapshot may refer to. -/
  maxRestoredIndex : UInt32 := 100000
deriving DecidableEq, Inhabited

namespace Config

def gapLimit (config : Config) : Branch → UInt32
  | .receiving => config.receivingGapLimit
  | .change => config.changeGapLimit

def accountPath (config : Config) : AccountPath :=
  ⟨config.purpose, config.coinType, config.account⟩

def checkGapLimit (config : Config) (branch : Branch) : Except Failure Unit :=
  let limit := (config.gapLimit branch).toNat
  if limit = 0 ∨ largestGapLimit < limit then
    .error (.invalidParameter (branch.text ++ " gap limit must be between 1 and "
      ++ toString largestGapLimit ++ ", got " ++ toString limit))
  else .ok ()

/-- The first setting that is out of bounds, if any is. -/
def validate (config : Config) : Except Failure Unit := do
  config.checkGapLimit .receiving
  config.checkGapLimit .change
  if config.concurrentQueries = 0 then
    throw (.invalidParameter "Concurrent query limit must be at least 1")
  if lastNormalIndex < config.maxRestoredIndex.toNat then
    throw (.invalidParameter ("Restored index bound must not exceed " ++ toString lastNormalIndex))
  if config.nodeBudget = 0 then
    throw (.invalidParameter "Node budget must be at least 1")

end Config

end HdWallet
