import CPretty.Proofs.Format.Tokens
import Mathlib.Data.List.Flatten

namespace CPretty

open Node (attachParams headerDoc)

variable {xs ys ts : List Token} {n d : Node} {ns : List Node}

end CPretty
