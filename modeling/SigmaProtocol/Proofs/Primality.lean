import SigmaProtocol.Proofs.Modular

/-!
# Chains of primality tests

A number `p` is prime if some residue has the order `p - 1`, which is decided by the powers of the
residue to the quotients of `p - 1` by its prime factors. The factors are small, or are tested in
turn.

* `PrimeTest.prime_of_chain`: what a chain of tests passes is prime.
-/

namespace SigmaProtocol

/-- The test of one number. -/
structure PrimeTest where
  number : Nat
  /-- A number whose order modulo `number` is `number - 1`. -/
  residue : Nat
  /-- The factors of `number - 1`, as often as they divide it. -/
  factors : List Nat

namespace PrimeTest

/-- Whether the residue has the order that a prime number allows. -/
def passes (t : PrimeTest) : Bool :=
  1 < t.number && t.factors.prod == t.number - 1 &&
    powMod t.residue (t.number - 1) t.number == 1 &&
    t.factors.all fun q => powMod t.residue ((t.number - 1) / q) t.number != 1

/-- Whether trial division finds a number of at most 16 binary digits prime. -/
def smallPrime (q : Nat) : Bool :=
  2 ≤ q && q < 2 ^ 16 && (List.range 256).all fun d => d < 2 || q ≤ d || q % d != 0

/-- Whether a factor is tested in `ts`, or small and prime. -/
def settled (ts : List PrimeTest) (q : Nat) : Bool :=
  ts.any (fun t => t.number == q) || smallPrime q

/-- Whether all tests pass, with factors that later tests settle. -/
def chain : List PrimeTest → Bool
  | [] => true
  | t :: ts => t.passes && t.factors.all (settled ts) && chain ts

/-- A composite number of at most 16 binary digits has a divisor of at most eight. -/
theorem prime_of_smallPrime {q : Nat} (h : smallPrime q = true) : q.Prime := by
  simp only [smallPrime, Bool.and_eq_true, decide_eq_true_eq, List.all_eq_true, List.mem_range,
    Bool.or_eq_true, bne_iff_ne] at h
  obtain ⟨⟨hle, hlt⟩, hdivisors⟩ := h
  rw [Nat.prime_def_le_sqrt]
  refine ⟨hle, fun d hd hsqrt hdvd => ?_⟩
  have hsmall : d < 256 := lt_of_le_of_lt hsqrt (Nat.sqrt_lt'.mpr (by omega))
  have hself : d < q := lt_of_le_of_lt hsqrt (Nat.sqrt_lt_self (by omega))
  have hmod : q % d = 0 := Nat.mod_eq_zero_of_dvd hdvd
  have := hdivisors d hsmall
  omega

/-- **Lucas's test.** The powers of one residue show that a number is prime. -/
theorem prime_of_passes {t : PrimeTest} (hprime : ∀ q ∈ t.factors, q.Prime)
    (h : t.passes = true) : t.number.Prime := by
  simp only [passes, Bool.and_eq_true, decide_eq_true_eq, beq_iff_eq, List.all_eq_true,
    bne_iff_ne] at h
  obtain ⟨⟨⟨hlt, hprod⟩, hone⟩, hne⟩ := h
  refine lucas_primality t.number t.residue ((natCast_pow_eq_one_iff hlt).mpr hone)
    fun q hq hdvd => ?_
  rw [← hprod, hq.prime.dvd_prod_iff] at hdvd
  obtain ⟨r, hr, hqr⟩ := hdvd
  rw [Nat.prime_dvd_prime_iff_eq hq (hprime r hr)] at hqr
  subst hqr
  rw [Ne, natCast_pow_eq_one_iff hlt]
  exact hne q hr

/-- The last tests of a chain have small factors; going back, each test has factors that are prime
by then. -/
theorem prime_of_chain {ts : List PrimeTest} (h : chain ts = true) :
    ∀ t ∈ ts, t.number.Prime := by
  induction ts with
  | nil => exact fun t ht => absurd ht List.not_mem_nil
  | cons t ts ih =>
    simp only [chain, Bool.and_eq_true, List.all_eq_true] at h
    obtain ⟨⟨hpasses, hsettled⟩, hchain⟩ := h
    rw [List.forall_mem_cons]
    refine ⟨prime_of_passes (fun q hq => ?_) hpasses, ih hchain⟩
    have hq := hsettled q hq
    simp only [settled, Bool.or_eq_true, List.any_eq_true, beq_iff_eq] at hq
    rcases hq with ⟨t', ht', rfl⟩ | hq
    · exact ih hchain t' ht'
    · exact prime_of_smallPrime hq

end PrimeTest

end SigmaProtocol
