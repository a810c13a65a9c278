import Mathlib.Algebra.Ring.Nat

namespace PigaLinux.Kernel

abbrev U16 := BitVec 16

abbrev U32 := BitVec 32

def echild : Int := 10

def enomem : Int := 12

def eacces : Int := 13

def efault : Int := 14

def eexist : Int := 17

def einval : Int := 22

/-- The decision that the security server or the access vector cache gives
for a source, a target and a class. -/
structure AvDecision where
  allowed : U32
  auditallow : U32
  auditdeny : U32
  seqno : U32
  flags : U32
deriving DecidableEq, Repr

structure Access where
  ssid : U32
  tsid : U32
  tclass : U16
  requested : U32
deriving DecidableEq, Repr

/-- The number of bytes that copy_from_user copies: its parameter has 32 bits, and it is refused as a
negative int from the half on. -/
def copySize (n : Nat) : Option Nat :=
  if n % 2 ^ 32 < 2 ^ 31 then some (n % 2 ^ 32) else none

/-- A user pointer is given by the entries that can be read behind it; the
copy fails when it would leave them. -/
def copyFromUser {α : Type} (mem : List α) (n : Nat) : Option (List α) :=
  (copySize n).bind fun n => if n ≤ mem.length then some (mem.take n) else none

/-- The copy of n entries into an array that held `old`. Entries behind the copied bytes stay as they
were, and `overlay` says what becomes of one of which only so many bytes are new. -/
def copyArray {α : Type} (size : Nat) (overlay : α → α → Nat → α) (old : Nat → α) (mem : List α) (n : Nat) :
    Option (List α) :=
  (copySize (size * n)).bind fun b =>
    if b ≤ size * mem.length then
      some ((List.range n).map fun i => overlay (old i) (mem.getD i (old i)) (b - size * i))
    else none

theorem copySize_eq_some {n b : Nat} : copySize n = some b ↔ n % 2 ^ 32 < 2 ^ 31 ∧ n % 2 ^ 32 = b := by
  simp [copySize]

theorem copySize_of_lt {n : Nat} (h : n < 2 ^ 31) : copySize n = some n := by
  have hmod : n % 2 ^ 32 = n := Nat.mod_eq_of_lt (by omega)
  rw [copySize, hmod, if_pos h]

theorem copyFromUser_of_lt {α : Type} {n : Nat} (mem : List α) (h : n < 2 ^ 31) :
    copyFromUser mem n = if n ≤ mem.length then some (mem.take n) else none := by
  rw [copyFromUser, copySize_of_lt h, Option.bind_some]

theorem copyFromUser_length {α : Type} {mem xs : List α} {n : Nat} (h : n < 2 ^ 31)
    (hcopy : copyFromUser mem n = some xs) : xs.length = n := by
  rw [copyFromUser_of_lt mem h] at hcopy
  split at hcopy
  · next hle =>
    obtain rfl := Option.some.inj hcopy
    exact List.length_take_of_le hle
  · cases hcopy

section arrays

variable {α : Type} {size : Nat} {overlay : α → α → Nat → α} {old : Nat → α} {mem xs : List α} {n : Nat}

theorem copyArray_eq_some : copyArray size overlay old mem n = some xs ↔
    ∃ b, copySize (size * n) = some b ∧ b ≤ size * mem.length ∧
      xs = (List.range n).map fun i => overlay (old i) (mem.getD i (old i)) (b - size * i) := by
  rw [copyArray, Option.bind_eq_some_iff]
  constructor
  · rintro ⟨b, hb, h⟩
    split at h
    · next hle => exact ⟨b, hb, hle, (Option.some.inj h).symm⟩
    · cases h
  · rintro ⟨b, hb, hle, rfl⟩
    exact ⟨b, hb, if_pos hle⟩

theorem copyArray_ne_none {b : Nat} (hb : copySize (size * n) = some b) (hle : b ≤ size * mem.length) :
    copyArray size overlay old mem n ≠ none := by
  rw [copyArray, hb, Option.bind_some, if_pos hle]
  exact Option.some_ne_none _

theorem copyArray_length (h : copyArray size overlay old mem n = some xs) : xs.length = n := by
  obtain ⟨b, -, -, rfl⟩ := copyArray_eq_some.mp h
  rw [List.length_map, List.length_range]

theorem copyArray_whole (hpos : 0 < size) (hover : ∀ x y b, size ≤ b → overlay x y b = y) (hfit : size * n < 2 ^ 32)
    (h : copyArray size overlay old mem n = some xs) : n ≤ mem.length ∧ xs = mem.take n := by
  obtain ⟨b, hb, hle, rfl⟩ := copyArray_eq_some.mp h
  obtain ⟨-, hmod⟩ := copySize_eq_some.mp hb
  rw [Nat.mod_eq_of_lt hfit] at hmod
  subst hmod
  have hn : n ≤ mem.length := Nat.le_of_mul_le_mul_left hle hpos
  refine ⟨hn, List.ext_getElem ?_ ?_⟩
  · rw [List.length_map, List.length_range, List.length_take_of_le hn]
  · intro i hi hi'
    rw [List.length_map, List.length_range] at hi
    have hbytes : size ≤ size * n - size * i := by
      rw [← Nat.mul_sub]
      exact Nat.le_mul_of_pos_right size (Nat.sub_pos_of_lt hi)
    rw [List.getElem_map, List.getElem_range, hover _ _ _ hbytes, List.getElem_take, List.getD_eq_getElem?_getD,
      List.getElem?_eq_getElem (Nat.lt_of_lt_of_le hi hn), Option.getD_some]

theorem copyArray_last (hsize : size ≤ 2 ^ 31) (hover : ∀ x y, overlay x y 0 = x) (hwrap : 2 ^ 32 ≤ size * n)
    (h : copyArray size overlay old mem n = some xs) : xs[n - 1]? = some (old (n - 1)) := by
  obtain ⟨b, hb, -, rfl⟩ := copyArray_eq_some.mp h
  obtain ⟨hlt, hmod⟩ := copySize_eq_some.mp hb
  have hn : n - 1 < n := by
    rcases Nat.eq_zero_or_pos n with rfl | hpos
    · simp at hwrap
    · omega
  have hlast : size * (n - 1) = size * n - size := by rw [Nat.mul_sub, Nat.mul_one]
  have hbytes : b - size * (n - 1) = 0 := by omega
  rw [List.getElem?_map, List.getElem?_range hn, Option.map_some, hbytes, hover]

end arrays

end PigaLinux.Kernel
