/-!
# The two branches of an account

Addresses handed out to payers and addresses for change are derived on separate
branches below the account key.
-/

namespace HdWallet

inductive Branch where
  /-- Addresses handed out to payers. -/
  | receiving
  /-- Addresses for the change of one's own payments. -/
  | change
deriving DecidableEq, Inhabited

namespace Branch

def all : List Branch := [receiving, change]

def number : Branch → UInt32
  | receiving => 0
  | change => 1

def other : Branch → Branch
  | receiving => change
  | change => receiving

def text : Branch → String
  | receiving => "receiving"
  | change => "change"

end Branch

end HdWallet
