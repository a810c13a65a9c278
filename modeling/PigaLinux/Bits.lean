import Mathlib.Data.List.Basic

namespace PigaLinux.Bits

variable {w : Nat} {α : Type} {x y z : BitVec w}

theorem and_ne_zero_iff : x &&& y ≠ 0 ↔ ∃ b, x.getLsbD b = true ∧ y.getLsbD b = true := by
  constructor
  · intro h
    by_contra hno
    apply h
    apply BitVec.eq_of_getLsbD_eq
    intro b _
    have hzero : (0 : BitVec w).getLsbD b = false := by simp
    rw [hzero, BitVec.getLsbD_and, ← Bool.not_eq_true, Bool.and_eq_true]
    exact fun hb => hno ⟨b, hb⟩
  · rintro ⟨b, hx, hy⟩ h
    have hbit := congrArg (fun z => BitVec.getLsbD z b) h
    simp [hx, hy] at hbit

theorem and_ne_zero_left (h : x &&& y ≠ 0) : x ≠ 0 := by
  rintro rfl
  exact h BitVec.zero_and

theorem and_ne_zero_of_subset (hsub : x &&& ~~~z = 0) (h : x &&& y ≠ 0) : y &&& z ≠ 0 := by
  obtain ⟨b, hx, hy⟩ := and_ne_zero_iff.mp h
  refine and_ne_zero_iff.mpr ⟨b, hy, ?_⟩
  by_contra hz
  refine and_ne_zero_iff.mpr ⟨b, hx, ?_⟩ hsub
  rw [BitVec.getLsbD_not, eq_false_of_ne_true hz, decide_eq_true (BitVec.lt_of_getLsbD hx)]
  rfl

theorem twoPow_and_ne_zero {i : Nat} (hi : i < w) : BitVec.twoPow w i &&& x ≠ 0 ↔ x.getLsbD i = true := by
  rw [and_ne_zero_iff]
  constructor
  · rintro ⟨b, hb, hx⟩
    rw [BitVec.getLsbD_twoPow, Bool.and_eq_true, decide_eq_true_eq, decide_eq_true_eq] at hb
    exact hb.2 ▸ hx
  · intro hx
    refine ⟨i, ?_, hx⟩
    rw [BitVec.getLsbD_twoPow, decide_eq_true hi, decide_eq_true rfl]
    rfl

theorem getLsbD_foldl_or (f : α → BitVec w) (as : List α) (x : BitVec w) (b : Nat) :
    (as.foldl (fun x a => x ||| f a) x).getLsbD b = (x.getLsbD b || as.any fun a => (f a).getLsbD b) := by
  induction as generalizing x with
  | nil => simp
  | cons a as ih => rw [List.foldl_cons, ih, BitVec.getLsbD_or, List.any_cons, Bool.or_assoc]

theorem exists_getLsbD {w : Nat} {v : BitVec w} (h : v ≠ 0#w) : ∃ i < w, v.getLsbD i = true := by
  by_contra hno
  apply h
  apply BitVec.eq_of_getLsbD_eq
  intro i hi
  rw [BitVec.getLsbD_zero]
  exact Bool.eq_false_iff.mpr fun hbit => hno ⟨i, hi, hbit⟩

theorem or_ne_zero {w : Nat} {u : BitVec w} (h : u ≠ 0#w) (v : BitVec w) : u ||| v ≠ 0#w :=
  fun hor => h (BitVec.or_eq_zero_iff.mp hor).1

end PigaLinux.Bits
