import HdWallet.Json.Form
import HdWallet.Snapshot

/-!
# JSON forms of the wallet's records

Names of fields and cases are those that stored and exchanged documents use.
Identifiers, scripts and addresses are their content alone: lists of bytes, and
text.
-/

namespace HdWallet

open JsonForm

instance : JsonForm Address where
  write a := write a.text
  read? j := (read? j).map Address.mk

instance : JsonForm Script where
  write s := write s.bytes
  read? j := (read? j).map Script.mk

instance : JsonForm Txid where
  write txid := write txid.bytes
  read? j := do
    let bytes : Bytes ← read? j
    if bytes.length = 32 then some (Txid.ofBytes bytes) else none

instance : JsonForm OutPoint where
  write o := .record [("txid", write o.txid), ("vout", write o.index)]
  read? j := do
    let [txid, index] ← fields? ["txid", "vout"] j | none
    pure ⟨← required txid, ← required index⟩

instance : JsonForm Output where
  write o := .record [("value", write o.value), ("script_pubkey", write o.script)]
  read? j := do
    let [value, script] ← fields? ["value", "script_pubkey"] j | none
    pure ⟨← required value, ← required script⟩

/-- An input of a transaction as documents hold it: a record around its outpoint. -/
structure InputRecord where
  outpoint : OutPoint

instance : JsonForm InputRecord where
  write i := .record [("previous_output", write i.outpoint)]
  read? j := do
    let [outpoint] ← fields? ["previous_output"] j | none
    pure ⟨← required outpoint⟩

instance : JsonForm Transaction where
  write tx := .record [("txid", write tx.txid), ("input", write (tx.inputs.map InputRecord.mk)),
    ("output", write tx.outputs)]
  read? j := do
    let [txid, inputs, outputs] ← fields? ["txid", "input", "output"] j | none
    let inputs : List InputRecord ← required inputs
    pure ⟨← required txid, inputs.map (·.outpoint), ← required outputs⟩

instance : JsonForm HistoryItem where
  write i := .record [("txid", write i.txid), ("height", write i.height)]
  read? j := do
    let [txid, height] ← fields? ["txid", "height"] j | none
    pure ⟨← required txid, ← ifPresent height⟩

instance : JsonForm Coin where
  write c := .record [("outpoint", write c.outpoint), ("txout", write c.output)]
  read? j := do
    let [outpoint, output] ← fields? ["outpoint", "txout"] j | none
    pure ⟨← required outpoint, ← required output⟩

instance : JsonForm FeeRate where
  write r := .record [("sat_per_kb", write r.perKilobyte)]
  read? j := do
    let [perKilobyte] ← fields? ["sat_per_kb"] j | none
    pure ⟨← required perKilobyte⟩

instance : JsonForm Branch where
  write
    | .receiving => .ofString "Receiving"
    | .change => .ofString "Change"
  read? := nameAmong? [("Receiving", .receiving), ("Change", .change)]

instance : JsonForm Strategy where
  write
    | .largestFirst => .ofString "LargestFirst"
    | .smallestFirst => .ofString "SmallestFirst"
    | .branchAndBound => .ofString "BranchAndBound"
    | .sweepAll => .ofString "SweepAll"
  read? := nameAmong? [("LargestFirst", .largestFirst), ("SmallestFirst", .smallestFirst),
    ("BranchAndBound", .branchAndBound), ("SweepAll", .sweepAll)]

instance : JsonForm Reservation.Outcome where
  write
    | .completed => .ofString "Completed"
    | .cancelled => .ofString "Cancelled"
  read? := nameAmong? [("Completed", .completed), ("Cancelled", .cancelled)]

instance : JsonForm ChildNumber where
  write
    | .normal index => .record [("Normal", .record [("index", write index)])]
    | .hardened index => .record [("Hardened", .record [("index", write index)])]
  read? j := do
    let (name, some body) ← case? j | none
    let [index] ← fields? ["index"] body | none
    let index ← required index
    [("Normal", ChildNumber.normal index), ("Hardened", .hardened index)].lookup name

instance : JsonForm AccountPath where
  write p := .record [("purpose", write p.purpose), ("coin_type", write p.coinType),
    ("account", write p.account)]
  read? j := do
    let [purpose, coinType, account] ← fields? ["purpose", "coin_type", "account"] j | none
    pure ⟨← required purpose, ← required coinType, ← required account⟩

instance : JsonForm Path where
  write p := .record [("purpose", write p.purpose), ("coin_type", write p.coinType),
    ("account", write p.account), ("usage", write p.branch), ("index", write p.index)]
  read? j := do
    let [purpose, coinType, account, branch, index] ←
      fields? ["purpose", "coin_type", "account", "usage", "index"] j | none
    pure ⟨← required purpose, ← required coinType, ← required account, ← required branch,
      ← required index⟩

instance : JsonForm Reading where
  write
    | .unknown => .ofString "Empty"
    | .fresh balance updatedAt => .record [("Fresh",
        .record [("balance", write balance), ("updated_at", write updatedAt)])]
    | .stale balance updatedAt => .record [("Stale",
        .record [("balance", write balance), ("updated_at", write updatedAt)])]
  read? j := do
    match ← case? j with
    | ("Empty", none) | ("Empty", some .null) => pure .unknown
    | (name, some body) =>
      let [balance, updatedAt] ← fields? ["balance", "updated_at"] body | none
      let balance ← required balance
      let updatedAt ← required updatedAt
      [("Fresh", Reading.fresh balance updatedAt), ("Stale", .stale balance updatedAt)].lookup name
    | _ => none

instance : JsonForm CachedBalance where
  write c := .record [("state", write c.reading), ("ttl", write c.lifetime)]
  read? j := do
    let [reading, lifetime] ← fields? ["state", "ttl"] j | none
    pure ⟨← required reading, ← required lifetime⟩

instance : JsonForm Slot where
  write s := .record [("path", write s.path), ("address", write s.address),
    ("script_pubkey", write s.script), ("used", write s.used), ("cache", write s.cache)]
  read? j := do
    let [path, address, script, used, cache] ←
      fields? ["path", "address", "script_pubkey", "used", "cache"] j | none
    pure ⟨← required path, ← required address, ← required script, ← required used,
      ← required cache⟩

instance : JsonForm ChainStats where
  write s := .record [("usage", write s.branch), ("total_generated", write s.generated),
    ("used_count", write s.used), ("unused_count", write s.unused),
    ("highest_used", write s.highestUsed), ("highest_generated", write s.highestGenerated),
    ("gap_limit", write s.gapLimit)]
  read? j := do
    let [branch, generated, used, unused, highestUsed, highestGenerated, gapLimit] ←
      fields? ["usage", "total_generated", "used_count", "unused_count", "highest_used",
        "highest_generated", "gap_limit"] j | none
    pure ⟨← required branch, ← required generated, ← required used, ← required unused,
      ← ifPresent highestUsed, ← ifPresent highestGenerated, ← required gapLimit⟩

instance : JsonForm ChangeClaim where
  write c := .record [("index", write c.index), ("address", write c.address),
    ("script_pubkey", write c.script)]
  read? j := do
    let [index, address, script] ← fields? ["index", "address", "script_pubkey"] j | none
    pure ⟨← required index, ← required address, ← required script⟩

instance : JsonForm SavedSlot where
  write s := .record [("index", write s.index), ("used", write s.used),
    ("cache", write s.reading)]
  read? j := do
    let [index, used, reading] ← fields? ["index", "used", "cache"] j | none
    pure ⟨← required index, ← required used, ← required reading⟩

instance : JsonForm Snapshot where
  write s := .record [("version", write s.version), ("receiving", write s.receiving),
    ("change", write s.change), ("utxos", write s.coins)]
  read? j := do
    let [version, receiving, change, coins] ←
      fields? ["version", "receiving", "change", "utxos"] j | none
    pure ⟨← required version, ← required receiving, ← required change, ← required coins⟩

instance : JsonForm Config where
  write c := .record [("purpose", write c.purpose), ("coin_type", write c.coinType),
    ("account", write c.account), ("receiving_gap_limit", write c.receivingGapLimit),
    ("change_gap_limit", write c.changeGapLimit), ("cache_ttl_secs", write c.cacheLifetime),
    ("max_concurrent_queries", write c.concurrentQueries),
    ("query_timeout_secs", write c.queryTimeout),
    ("reservation_lifetime_secs", write c.reservationLifetime),
    ("bnb_node_budget", write c.nodeBudget), ("max_retry_attempts", write c.retryAttempts),
    ("dust_threshold", write c.dust), ("max_restored_index", write c.maxRestoredIndex)]
  read? j := do
    let [purpose, coinType, account, receivingGapLimit, changeGapLimit, cacheLifetime,
        concurrentQueries, queryTimeout, reservationLifetime, nodeBudget, retryAttempts, dust,
        maxRestoredIndex] ←
      fields? ["purpose", "coin_type", "account", "receiving_gap_limit", "change_gap_limit",
        "cache_ttl_secs", "max_concurrent_queries", "query_timeout_secs",
        "reservation_lifetime_secs", "bnb_node_budget", "max_retry_attempts", "dust_threshold",
        "max_restored_index"] j | none
    pure {
      purpose := ← required purpose
      coinType := ← required coinType
      account := ← required account
      receivingGapLimit := ← required receivingGapLimit
      changeGapLimit := ← required changeGapLimit
      cacheLifetime := ← required cacheLifetime
      concurrentQueries := ← required concurrentQueries
      queryTimeout := ← required queryTimeout
      reservationLifetime := ← required reservationLifetime
      nodeBudget := ← required nodeBudget
      retryAttempts := ← required retryAttempts
      dust := ← required dust
      maxRestoredIndex := ← required maxRestoredIndex }

end HdWallet
