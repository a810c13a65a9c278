import PigaLinux.Kernel
import Mathlib.Algebra.Ring.Nat

namespace PigaLinux.Bytes

open Kernel

abbrev Byte := BitVec 8

/-- The lowest bytes of a number, the lowest of them first. -/
def leBytes : Nat → Nat → List Byte
  | 0, _ => []
  | k + 1, n => BitVec.ofNat 8 n :: leBytes k (n / 256)

def leValue : List Byte → Nat
  | [] => 0
  | b :: bs => b.toNat + 256 * leValue bs

def nextEntry (bytes : Nat) (fp : List Byte) : Except Int (List Byte × List Byte) :=
  if bytes > fp.length then .error (-einval) else .ok (fp.take bytes, fp.drop bytes)

theorem length_leBytes (k n : Nat) : (leBytes k n).length = k := by
  induction k generalizing n with
  | zero => rfl
  | succ k ih => rw [leBytes, List.length_cons, ih]

theorem leValue_leBytes (k n : Nat) : leValue (leBytes k n) = n % 256 ^ k := by
  induction k generalizing n with
  | zero => rw [leBytes, leValue, pow_zero, Nat.mod_one]
  | succ k ih => rw [leBytes, leValue, ih, BitVec.toNat_ofNat, pow_succ' 256 k, Nat.mod_mul]

theorem leValue_leBytes_of_lt {k n : Nat} (h : n < 256 ^ k) : leValue (leBytes k n) = n := by
  rw [leValue_leBytes, Nat.mod_eq_of_lt h]

theorem leValue_lt (bs : List Byte) : leValue bs < 256 ^ bs.length := by
  induction bs with
  | nil => exact Nat.one_pos
  | cons b bs ih =>
      have hb := b.isLt
      rw [leValue, List.length_cons, pow_succ']
      omega

theorem nextEntry_append {bytes : Nat} {xs : List Byte} (h : xs.length = bytes) (ys : List Byte) :
    nextEntry bytes (xs ++ ys) = .ok (xs, ys) := by
  have hle : bytes ≤ (xs ++ ys).length := by rw [List.length_append, h]; exact Nat.le_add_right _ _
  rw [nextEntry, if_neg (Nat.not_lt.mpr hle), ← h, List.take_left, List.drop_left]

theorem bind_eq_ok {ε α β : Type} {x : Except ε α} {f : α → Except ε β} {b : β} (h : x.bind f = .ok b) :
    ∃ a, x = .ok a ∧ f a = .ok b := by
  cases x with
  | error err => cases h
  | ok a => exact ⟨a, rfl, h⟩

end PigaLinux.Bytes
