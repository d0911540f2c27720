/-!
Powers and sums of numbers are those of the core library throughout, also where algebraic structures
with a power and a zero of their own are in scope.
-/

namespace ShardQuery

@[default_instance high]
instance (priority := high) powOfNatPow {α : Type} [NatPow α] : Pow α Nat := instPowNat

instance (priority := high) zeroNat : Zero Nat := Zero.ofOfNat0

instance (priority := high) zeroInt : Zero Int := Zero.ofOfNat0

end ShardQuery
