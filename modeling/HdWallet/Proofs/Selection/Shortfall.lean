import HdWallet.Failure
import HdWallet.Proofs.Selection.Greedy

/-!
# What a refusal reports

When a strategy finds no coins to pay with, the refusal names what all candidates are worth and
the target with the fee for all of them. The strategies ask for more or less than that: a sweep
and the search for just that, the largest coins for the fee once more, the smallest coins for the
fee of a change output. A refusal therefore proves that the candidates fall short of what its
strategy asks for, and of what it reports only where the strategy has no margin. Within the
margin the funds suffice for what is reported, and the shortfall is zero.
-/

namespace HdWallet

namespace Greedy

variable {payment : Payment}

end Greedy

namespace Search

end Search

namespace Selector

variable {selector : Selector} {candidates : List Coin} {payment : Payment}

end Selector

end HdWallet
