import Mathlib.Algebra.Order.Ring.Int

namespace OperatingSystemLabs.Rounding

-- The gap between neighbouring floating-point numbers with p significant bits around n.
def spacing (p n : Nat) : Nat := 2 ^ (n.log2 + 1 - p)

-- To nearest, ties to even.
def roundNat (p n : Nat) : Nat :=
  let q := n / spacing p n
  let r := n % spacing p n
  if 2 * r < spacing p n ∨ 2 * r = spacing p n ∧ q % 2 = 0 then q * spacing p n else (q + 1) * spacing p n

def roundInt (p : Nat) (k : Int) : Int := k.sign * roundNat p k.natAbs

-- x += k for a float x and an int k, which is converted first.
def addInt (p : Nat) (x k : Int) : Int := roundInt p (x + roundInt p k)

variable {p n : Nat} {x k : Int}

theorem spacing_of_lt (hp : 1 ≤ p) (h : n < 2 ^ p) : spacing p n = 1 := by
  have hlog : n.log2 + 1 ≤ p := by
    rcases Nat.eq_zero_or_pos n with rfl | hpos
    · exact hp
    · exact (Nat.log2_lt hpos.ne').mpr h
  rw [spacing,Nat.sub_eq_zero_of_le hlog,Nat.pow_zero]

theorem roundNat_of_lt (hp : 1 ≤ p) (h : n < 2 ^ p) : roundNat p n = n := by
  simp [roundNat,spacing_of_lt hp h,Nat.mod_one]

theorem roundNat_two_pow (hp : 1 ≤ p) : roundNat p (2 ^ p) = 2 ^ p := by
  have hspacing : spacing p (2 ^ p) = 2 := by
    rw [spacing,Nat.log2_two_pow,Nat.add_sub_cancel_left,Nat.pow_one]
  have heven : 2 ∣ 2 ^ p := Nat.pow_dvd_pow 2 hp
  simp [roundNat,hspacing,Nat.mod_eq_zero_of_dvd heven,Nat.div_mul_cancel heven]

theorem roundInt_exact (hp : 1 ≤ p) (h : k.natAbs ≤ 2 ^ p) : roundInt p k = k := by
  have hnat : roundNat p k.natAbs = k.natAbs := by
    rcases h.lt_or_eq with hlt | heq
    · exact roundNat_of_lt hp hlt
    · rw [heq,roundNat_two_pow hp]
  rw [roundInt,hnat,Int.sign_mul_natAbs]

theorem addInt_exact (hp : 1 ≤ p) (hk : k.natAbs ≤ 2 ^ p) (hsum : (x + k).natAbs ≤ 2 ^ p) :
    addInt p x k = x + k := by
  rw [addInt,roundInt_exact hp hk,roundInt_exact hp hsum]

end OperatingSystemLabs.Rounding
