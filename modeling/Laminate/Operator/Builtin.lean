import Laminate.Operator.References
import Laminate.Operator.StaticAddresses
import Laminate.Operator.Texts

/-!
# The built-in operators

The registry that documents are evaluated with.
-/

namespace Laminate

/-- The built-in operators under their names. -/
def Registry.builtin : Registry :=
  [ ("grab", Operator.grab),
    ("concat", Operator.concat),
    ("string", Operator.concat),
    ("join", Operator.join),
    ("param", Operator.param),
    ("static_ips", Operator.staticAddresses),
    ("vault", Operator.vault),
    ("inject", Operator.inject),
    ("prune", Operator.prune) ]

end Laminate
