import Mathlib.Data.List.TakeWhile
import Make24.Proofs.Dealing
import Make24.Proofs.Grammar

namespace Make24

namespace Deal

section parse
variable {text : String}

end parse

end Deal

end Make24
