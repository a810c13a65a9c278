import PigaLinux.Indices
import PigaLinux.Trace
import Mathlib.Logic.Function.Basic

namespace PigaLinux.CStrings

open Trace Indices

abbrev Memory := BitVec 64 → Char

def store (i : BitVec 64) (c : Char) (m : Memory) : Traced (BitVec 64) Memory := visit i (Function.update m i c)

def storeAll : List Char → Nat → Memory → Traced (BitVec 64) Memory
  | [], _, m => pure m
  | c :: cs, i, m => do
      let m ← store (BitVec.ofNat 64 i) c m
      storeAll cs (i + 1) m

/-- The length of the string at index i, if it ends within fuel bytes. -/
def strlen (m : Memory) : Nat → Nat → Traced (BitVec 64) Nat
  | 0, i => pure i
  | fuel + 1, i => do
      let c ← visit (BitVec.ofNat 64 i) (m (BitVec.ofNat 64 i))
      if c = '\x00' then return i else strlen m fuel (i + 1)

def load (m : Memory) : Nat → Nat → Traced (BitVec 64) (List Char)
  | 0, _ => pure []
  | n + 1, i => do
      let c ← visit (BitVec.ofNat 64 i) (m (BitVec.ofNat 64 i))
      let cs ← load m n (i + 1)
      return c :: cs

variable {m : Memory}

theorem value_storeAll {xs : List Char} {i : Nat} (h : i + xs.length < 2 ^ 64) (a : BitVec 64) :
    (storeAll xs i m).value a = if i ≤ a.toNat then (xs[a.toNat - i]?).getD (m a) else m a := by
  induction xs generalizing i m with
  | nil => simp [storeAll]
  | cons c cs ih =>
      rw [List.length_cons] at h
      rw [storeAll, value_bind, ih (by omega)]
      change (if i + 1 ≤ a.toNat then (cs[a.toNat - (i + 1)]?).getD (Function.update m (BitVec.ofNat 64 i) c a)
        else Function.update m (BitVec.ofNat 64 i) c a) = _
      by_cases ha : a = BitVec.ofNat 64 i
      · subst ha
        rw [Function.update_self, toNat_index (by omega), if_neg (by omega), if_pos (Nat.le_refl i), Nat.sub_self]
        rfl
      · have hne : a.toNat ≠ i := fun heq => ha (by rw [← heq, BitVec.ofNat_toNat, BitVec.setWidth_eq])
        rw [Function.update_of_ne ha]
        by_cases hle : i ≤ a.toNat
        · obtain ⟨d, hd⟩ : ∃ d, a.toNat - i = d + 1 := ⟨a.toNat - i - 1, by omega⟩
          rw [if_pos (by omega), if_pos hle, hd, List.getElem?_cons_succ, show a.toNat - (i + 1) = d by omega]
        · rw [if_neg (by omega), if_neg hle]

theorem within_storeAll {P : BitVec 64 → Prop} {xs : List Char} {i : Nat}
    (h : ∀ j < xs.length, P (BitVec.ofNat 64 (i + j))) : Within P (storeAll xs i m) := by
  induction xs generalizing i m with
  | nil => exact within_pure P m
  | cons c cs ih =>
      refine within_bind (within_visit (h 0 (Nat.succ_pos _)) _) (ih fun j hj => ?_)
      have hnext := h (j + 1) (by rw [List.length_cons]; omega)
      rwa [show i + (j + 1) = i + 1 + j by omega] at hnext

def Holds (m : Memory) (i : Nat) (ys : List Char) : Prop :=
  (∀ j c, ys[j]? = some c → c ≠ '\x00' ∧ m (BitVec.ofNat 64 (i + j)) = c) ∧
    m (BitVec.ofNat 64 (i + ys.length)) = '\x00'

theorem holds_cons {i : Nat} {y : Char} {ys : List Char} (h : Holds m i (y :: ys)) :
    (y ≠ '\x00' ∧ m (BitVec.ofNat 64 i) = y) ∧ Holds m (i + 1) ys := by
  refine ⟨h.1 0 y rfl, fun j c hj => ?_, ?_⟩
  · have hnext := h.1 (j + 1) c hj
    rwa [show i + (j + 1) = i + 1 + j by omega] at hnext
  · have hend := h.2
    rwa [List.length_cons, show i + (ys.length + 1) = i + 1 + ys.length by omega] at hend

theorem bounds_cons {P : BitVec 64 → Prop} {i n : Nat} (h : ∀ j ≤ n + 1, P (BitVec.ofNat 64 (i + j))) :
    P (BitVec.ofNat 64 i) ∧ ∀ j ≤ n, P (BitVec.ofNat 64 (i + 1 + j)) := by
  refine ⟨h 0 (Nat.zero_le _), fun j hj => ?_⟩
  have hnext := h (j + 1) (by omega)
  rwa [show i + (j + 1) = i + 1 + j by omega] at hnext

theorem strlen_holds {P : BitVec 64 → Prop} {ys : List Char} {i fuel : Nat} (h : Holds m i ys) (hfuel : ys.length < fuel)
    (hP : ∀ j ≤ ys.length, P (BitVec.ofNat 64 (i + j))) :
    (strlen m fuel i).value = i + ys.length ∧ Within P (strlen m fuel i) := by
  obtain ⟨fuel, rfl⟩ : ∃ n, fuel = n + 1 := ⟨fuel - 1, by omega⟩
  induction ys generalizing i fuel with
  | nil =>
      have hend : m (BitVec.ofNat 64 i) = '\x00' := h.2
      refine ⟨?_, within_bind (within_visit (hP 0 (Nat.le_refl 0)) _) ?_⟩
      · rw [strlen, value_bind, value_visit, if_pos hend]
        rfl
      · rw [value_visit, if_pos hend]
        exact within_pure P i
  | cons y ys ih =>
      obtain ⟨⟨hne, hy⟩, hys⟩ := holds_cons h
      obtain ⟨hfirst, hrest⟩ := bounds_cons hP
      rw [List.length_cons] at hfuel
      obtain ⟨fuel, rfl⟩ : ∃ n, fuel = n + 1 := ⟨fuel - 1, by omega⟩
      obtain ⟨hvalue, hwithin⟩ := ih hys hrest fuel (by omega)
      refine ⟨?_, within_bind (within_visit hfirst _) ?_⟩
      · rw [strlen, value_bind, value_visit, if_neg (by rwa [hy]), hvalue, List.length_cons]
        omega
      · rw [value_visit, if_neg (by rwa [hy])]
        exact hwithin

theorem load_holds {P : BitVec 64 → Prop} {ys : List Char} {i : Nat} (h : Holds m i ys)
    (hP : ∀ j ≤ ys.length, P (BitVec.ofNat 64 (i + j))) :
    (load m ys.length i).value = ys ∧ Within P (load m ys.length i) := by
  induction ys generalizing i with
  | nil => exact ⟨rfl, within_pure P _⟩
  | cons y ys ih =>
      obtain ⟨⟨-, hy⟩, hys⟩ := holds_cons h
      obtain ⟨hfirst, hrest⟩ := bounds_cons hP
      obtain ⟨hvalue, hwithin⟩ := ih hys hrest
      refine ⟨?_, within_bind (within_visit hfirst _) (within_bind hwithin (within_pure P _))⟩
      rw [List.length_cons, load, value_bind, value_bind, value_visit, hvalue, hy]
      rfl

end PigaLinux.CStrings
