/-!
# Rounding a quotient

The whole number nearest to a quotient, a tie going to the even neighbour. The lemmas say that the
result is within half a unit and that a quotient without remainder is kept.
-/

namespace Phrasebook

/-- The whole number nearest to `n / d`; a tie goes to the even neighbour. -/
def roundHalfEven (n d : Nat) : Nat :=
  if 2 * (n % d) < d ∨ (2 * (n % d) = d ∧ n / d % 2 = 0) then n / d else n / d + 1

/-- Rounding goes up by at most a half. -/
theorem two_mul_roundHalfEven_le (n : Nat) {d : Nat} (hd : 0 < d) :
    2 * (roundHalfEven n d * d) ≤ 2 * n + d := by
  have h := Nat.div_add_mod n d
  have hm := Nat.mod_lt n hd
  have hc : n / d * d = d * (n / d) := Nat.mul_comm ..
  rw [roundHalfEven]
  split
  · omega
  · rw [Nat.add_mul, Nat.one_mul]
    omega

/-- Rounding goes down by at most a half. -/
theorem two_mul_le_roundHalfEven (n : Nat) {d : Nat} (hd : 0 < d) :
    2 * n ≤ 2 * (roundHalfEven n d * d) + d := by
  have h := Nat.div_add_mod n d
  have hm := Nat.mod_lt n hd
  have hc : n / d * d = d * (n / d) := Nat.mul_comm ..
  rw [roundHalfEven]
  split
  · omega
  · rw [Nat.add_mul, Nat.one_mul]
    omega

/-- A quotient that is whole is not changed. -/
theorem roundHalfEven_mul_right (n : Nat) {d : Nat} (hd : 0 < d) : roundHalfEven (n * d) d = n := by
  simp [roundHalfEven, hd]

end Phrasebook
