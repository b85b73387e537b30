/-!
# Arithmetic modulo a number

Powers are computed by squaring, and inverses by Euclid's algorithm, whose factors are kept as
residues.
-/

namespace SigmaProtocol

/-- `base ^ exponent` modulo `m`, by squaring. -/
def powMod (base exponent m : Nat) : Nat :=
  if exponent = 0 then 1 % m
  else
    let half := powMod base (exponent / 2) m
    let square := half * half % m
    if exponent % 2 = 1 then square * base % m else square
termination_by exponent

/-! ## Inverses -/

/-- One run of Euclid's algorithm modulo `m`. The remainders `r` and `r'` are the residues `t * a`
and `t' * a` of one fixed `a`; the run ends when `r'` is zero, and `t` is an inverse of `a` if then
`r` is one. -/
def inverseLoop (m r t r' t' : Nat) : Option Nat :=
  if _ : r' = 0 then if r = 1 then some t else none
  else inverseLoop m r' t' (r % r') ((t + (m - r / r' * t' % m)) % m)
termination_by r'
decreasing_by exact Nat.mod_lt r (Nat.pos_of_ne_zero ‹_›)

/-- The inverse of `a` modulo `m`, if there is one. -/
def inverse? (a m : Nat) : Option Nat := inverseLoop m m 0 (a % m) (1 % m)

/-- The difference of two residues modulo `m`. -/
def subMod (a b m : Nat) : Nat := (a + (m - b % m)) % m

end SigmaProtocol
