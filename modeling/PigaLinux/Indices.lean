import Mathlib.Algebra.Ring.Nat

namespace PigaLinux.Indices

variable {w : Nat}

theorem toNat_index {i : Nat} (hi : i < 2 ^ w) : (BitVec.ofNat w i).toNat = i := by
  rw [BitVec.toNat_ofNat, Nat.mod_eq_of_lt hi]

theorem ofNat_ne {i j : Nat} (hi : i < 2 ^ w) (hj : j < 2 ^ w) (h : i ≠ j) :
    BitVec.ofNat w i ≠ BitVec.ofNat w j := by
  intro e
  apply h
  rw [← toNat_index hi, e, toNat_index hj]

theorem ofNat_succ (i : Nat) : BitVec.ofNat w i + 1 = BitVec.ofNat w (i + 1) := by
  rw [BitVec.ofNat_add]
  rfl

theorem zero_add_ofNat (m : Nat) : 0 + BitVec.ofNat w m = BitVec.ofNat w m := BitVec.zero_add _

theorem add_one_ofNat (x : BitVec w) (m : Nat) : x + 1 + BitVec.ofNat w m = x + BitVec.ofNat w (m + 1) := by
  rw [Nat.add_comm m 1, BitVec.ofNat_add, BitVec.add_assoc]
  rfl

theorem toNat_add_ofNat {x : BitVec w} {n : Nat} (h : x.toNat + n < 2 ^ w) :
    (x + BitVec.ofNat w n).toNat = x.toNat + n := by
  have hn : (BitVec.ofNat w n).toNat = n := toNat_index (Nat.lt_of_le_of_lt (Nat.le_add_left n _) h)
  rw [BitVec.toNat_add_of_lt (by rw [hn]; exact h), hn]

theorem toNat_succ_of_lt {x : BitVec w} {m : Nat} (hx : x.toNat = m) (hm : m + 1 < 2 ^ w) :
    (x + 1).toNat = m + 1 := by
  rw [← hx] at hm ⊢
  exact toNat_add_ofNat hm

end PigaLinux.Indices
