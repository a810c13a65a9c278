import Mathlib.Data.List.Perm.Basic
import Mathlib.Order.Lattice

namespace PigaLinux.SortedLists

variable {ν κ : Type} [LinearOrder κ] (key : ν → κ)

def Sorted (ns : List ν) : Prop := ns.Pairwise fun a b => key a ≤ key b

/-- The rest of a list from the first entry at k that p accepts. The walk gives
up at the first larger key. -/
def seek (k : κ) (p : ν → Bool) : List ν → List ν
  | [] => []
  | n :: ns => if key n = k ∧ p n = true then n :: ns else if k < key n then [] else seek k p ns

/-- A new entry in front of the first one with its key that p accepts, or else
of the first larger one. -/
def place (p : ν → Bool) (a : ν) : List ν → List ν
  | [] => [a]
  | n :: ns => if (key n = key a ∧ p n = true) ∨ key a < key n then a :: n :: ns else n :: place p a ns

def wanted (k : κ) (p : ν → Bool) (n : ν) : Bool := decide (key n = k) && p n

variable {key} {k : κ} {p : ν → Bool} {n a : ν} {ns : List ν}

theorem wanted_iff : wanted key k p n = true ↔ key n = k ∧ p n = true := by
  rw [wanted, Bool.and_eq_true, decide_eq_true_iff]

theorem Sorted.tail (h : Sorted key (n :: ns)) : Sorted key ns := (List.pairwise_cons.mp h).2

theorem filter_eq_nil_of_lt (h : Sorted key (n :: ns)) (hlt : k < key n) :
    (n :: ns).filter (wanted key k p) = [] := by
  rw [List.filter_eq_nil_iff]
  intro m hm hwanted
  have hle : key n ≤ key m := by
    rcases List.mem_cons.mp hm with rfl | hm
    · exact le_refl _
    · exact (List.pairwise_cons.mp h).1 m hm
  exact absurd (wanted_iff.mp hwanted).1 (ne_of_gt (lt_of_lt_of_le hlt hle))

theorem seek_suffix (k : κ) (p : ν → Bool) (ns : List ν) : seek key k p ns <:+ ns := by
  induction ns with
  | nil => exact List.suffix_refl _
  | cons n ns ih =>
      rw [seek]
      split
      · exact List.suffix_refl _
      · split
        · exact List.nil_suffix
        · exact ih.trans (List.suffix_cons n ns)

theorem seek_cases (k : κ) (p : ν → Bool) (h : Sorted key ns) :
    (seek key k p ns = [] ∧ ns.filter (wanted key k p) = []) ∨
    ∃ n rest, seek key k p ns = n :: rest ∧ key n = k ∧ Sorted key rest ∧
      ns.filter (wanted key k p) = n :: rest.filter (wanted key k p) := by
  induction ns with
  | nil => exact Or.inl ⟨rfl, rfl⟩
  | cons n ns ih =>
      rw [seek]
      split
      next hn =>
        refine Or.inr ⟨n, ns, rfl, hn.1, h.tail, ?_⟩
        exact List.filter_cons_of_pos (wanted_iff.mpr hn)
      next hn =>
        split
        next hlt => exact Or.inl ⟨rfl, filter_eq_nil_of_lt h hlt⟩
        next =>
          rw [List.filter_cons_of_neg (mt wanted_iff.mp hn)]
          rcases ih h.tail with hnil | hsome
          · exact Or.inl hnil
          · exact Or.inr hsome

theorem place_perm (p : ν → Bool) (a : ν) (ns : List ν) : (place key p a ns).Perm (a :: ns) := by
  induction ns with
  | nil => exact .refl _
  | cons n ns ih =>
      rw [place]
      split
      · exact .refl _
      · exact (ih.cons n).trans (List.Perm.swap a n ns)

theorem place_sorted (h : Sorted key ns) (p : ν → Bool) (a : ν) : Sorted key (place key p a ns) := by
  induction ns with
  | nil => exact List.pairwise_singleton _ a
  | cons n ns ih =>
      obtain ⟨hn, -⟩ := List.pairwise_cons.mp h
      rw [place]
      split
      next hfirst =>
        have hle : key a ≤ key n := hfirst.elim (fun heq => le_of_eq heq.1.symm) le_of_lt
        refine List.pairwise_cons.mpr ⟨List.forall_mem_cons.mpr ⟨hle, ?_⟩, h⟩
        exact fun m hm => le_trans hle (hn m hm)
      next hfirst =>
        refine List.pairwise_cons.mpr ⟨?_, ih h.tail⟩
        intro m hm
        rcases List.mem_cons.mp ((place_perm p a ns).subset hm) with rfl | hm
        · exact not_lt.mp fun hlt => hfirst (Or.inr hlt)
        · exact hn m hm

theorem flatMap_filter_perm (g : ν → Nat) (m : Nat) (ns : List ν) :
    ((List.range m).flatMap fun i => ns.filter fun n => g n = i).Perm (ns.filter fun n => g n < m) := by
  induction m with
  | zero =>
      rw [List.filter_eq_nil_iff.mpr fun n _ => by simp]
      exact .refl _
  | succ m ih =>
      have hless : (ns.filter fun n => g n < m + 1).filter (fun n => g n < m) = ns.filter fun n => g n < m := by
        rw [List.filter_filter]
        apply List.filter_congr
        intro n _
        rw [Bool.eq_iff_iff]
        simp only [Bool.and_eq_true, decide_eq_true_eq]
        omega
      have hequal : (ns.filter fun n => g n < m + 1).filter (fun n => !decide (g n < m)) = ns.filter fun n => g n = m := by
        rw [List.filter_filter]
        apply List.filter_congr
        intro n _
        rw [Bool.eq_iff_iff]
        simp only [Bool.and_eq_true, Bool.not_eq_true', decide_eq_true_eq, decide_eq_false_iff_not]
        omega
      rw [List.range_succ, List.flatMap_append, List.flatMap_singleton]
      refine (ih.append_right _).trans ?_
      have hsplit := List.filter_append_perm (fun n => decide (g n < m)) (ns.filter fun n => g n < m + 1)
      rwa [hless, hequal] at hsplit

theorem filter_flatMap_range {g : ν → Nat} {f : Nat → List ν} (h : ∀ j, ∀ n ∈ f j, g n = j) (m i : Nat) :
    ((List.range m).flatMap f).filter (fun n => g n = i) = if i < m then f i else [] := by
  induction m with
  | zero => rfl
  | succ m ih =>
      rw [List.range_succ, List.flatMap_append, List.flatMap_singleton, List.filter_append, ih]
      by_cases him : i = m
      · subst him
        rw [if_neg (Nat.lt_irrefl i), if_pos (Nat.lt_succ_self i), List.nil_append, List.filter_eq_self]
        intro n hn
        rw [h i n hn, decide_eq_true_iff]
      · have hnone : (f m).filter (fun n => decide (g n = i)) = [] := by
          rw [List.filter_eq_nil_iff]
          intro n hn
          rw [h m n hn, decide_eq_true_iff]
          exact Ne.symm him
        rw [hnone, List.append_nil]
        by_cases hlt : i < m
        · rw [if_pos hlt, if_pos (Nat.lt_succ_of_lt hlt)]
        · rw [if_neg hlt, if_neg (by omega)]

end PigaLinux.SortedLists
