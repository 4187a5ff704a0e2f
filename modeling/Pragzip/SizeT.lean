import Mathlib

/-!
# `size_t` arithmetic

Sizes, offsets and indexes are natural numbers in the model. Where the code adds, multiplies or
subtracts them as `size_t`, the result wraps modulo `2 ^ 64`, and `sizeT` says so.
-/

namespace Pragzip

/-- Arithmetic on `size_t` wraps modulo `2 ^ 64`. -/
def sizeT (n : Nat) : Nat := n % 2 ^ 64

theorem sizeT_of_lt {n : Nat} (h : n < 2 ^ 64) : sizeT n = n := Nat.mod_eq_of_lt h

theorem sizeT_add_two_pow (n : Nat) : sizeT (n + 2 ^ 64) = sizeT n := Nat.add_mod_right n _

end Pragzip
