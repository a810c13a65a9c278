import Mathlib.Data.List.Basic
import Mathlib.Order.Lattice

namespace PigaLinux.Sparse

variable {ν κ α : Type} [LinearOrder κ] (key : ν → κ) (val : ν → α) (z : α)

/-- What a list of entries holds at a place; z where there is no entry. -/
def valueAt (ns : List ν) (k : κ) : α := ((ns.find? fun n => decide (key n = k)).map val).getD z

structure Proper (ns : List ν) : Prop where
  ascending : ns.Pairwise fun n m => key n < key m
  nonzero : ∀ n ∈ ns, val n ≠ z

variable {key val z} {n : ν} {ns ms : List ν} {k : κ}

theorem valueAt_nil : valueAt key val z [] k = z := rfl

theorem valueAt_cons_self : valueAt key val z (n :: ns) (key n) = val n := by
  simp [valueAt]

theorem valueAt_cons_of_ne (h : key n ≠ k) : valueAt key val z (n :: ns) k = valueAt key val z ns k := by
  simp [valueAt, h]

theorem valueAt_eq_of_forall_ne (h : ∀ n ∈ ns, key n ≠ k) : valueAt key val z ns k = z := by
  induction ns with
  | nil => rfl
  | cons n ns ih =>
      rw [valueAt_cons_of_ne (h n List.mem_cons_self)]
      exact ih fun m hm => h m (List.mem_cons_of_mem _ hm)

theorem valueAt_of_below (h : ∀ n ∈ ns, k < key n) : valueAt key val z ns k = z :=
  valueAt_eq_of_forall_ne fun n hn => ne_of_gt (h n hn)

theorem exists_of_valueAt_ne (h : valueAt key val z ns k ≠ z) : ∃ n ∈ ns, key n = k := by
  by_contra hno
  apply h
  apply valueAt_eq_of_forall_ne
  intro n hn hk
  exact hno ⟨n, hn, hk⟩

theorem Proper.head_below (h : Proper key val z (n :: ns)) : ∀ m ∈ ns, key n < key m :=
  (List.pairwise_cons.mp h.ascending).1

theorem Proper.tail (h : Proper key val z (n :: ns)) : Proper key val z ns where
  ascending := (List.pairwise_cons.mp h.ascending).2
  nonzero m hm := h.nonzero m (List.mem_cons_of_mem _ hm)

theorem proper_nil : Proper key val z [] := ⟨.nil, fun _ h => absurd h List.not_mem_nil⟩

theorem Proper.valueAt_head (h : Proper key val z (n :: ns)) : valueAt key val z ns (key n) = z :=
  valueAt_of_below h.head_below

theorem Proper.valueAt_of_mem (h : Proper key val z ns) (hn : n ∈ ns) : valueAt key val z ns (key n) = val n := by
  induction ns with
  | nil => exact absurd hn List.not_mem_nil
  | cons m ns ih =>
      rcases List.mem_cons.mp hn with rfl | hn
      · exact valueAt_cons_self
      · rw [valueAt_cons_of_ne (ne_of_lt (h.head_below n hn))]
        exact ih h.tail hn

theorem valueAt_snoc (h : ∀ m ∈ ns, key m < key n) :
    valueAt key val z (ns ++ [n]) k = if k = key n then val n else valueAt key val z ns k := by
  induction ns with
  | nil =>
      split
      next hk => rw [hk]; exact valueAt_cons_self
      next hk => exact valueAt_cons_of_ne (Ne.symm hk)
  | cons m ns ih =>
      have hm := h m List.mem_cons_self
      rw [List.cons_append]
      by_cases hk : key m = k
      · rw [← hk, valueAt_cons_self, valueAt_cons_self, if_neg (ne_of_lt hm)]
      · rw [valueAt_cons_of_ne hk, valueAt_cons_of_ne hk]
        exact ih fun x hx => h x (List.mem_cons_of_mem _ hx)

theorem Proper.snoc (h : Proper key val z ns) (hbelow : ∀ m ∈ ns, key m < key n) (hn : val n ≠ z) :
    Proper key val z (ns ++ [n]) where
  ascending := List.pairwise_append.mpr ⟨h.ascending, List.pairwise_singleton _ _,
    fun m hm _ hx => List.mem_singleton.mp hx ▸ hbelow m hm⟩
  nonzero := List.forall_mem_append.mpr ⟨h.nonzero, fun _ hx => List.mem_singleton.mp hx ▸ hn⟩

theorem Proper.of_snoc (h : Proper key val z (ns ++ [n])) :
    Proper key val z ns ∧ (∀ m ∈ ns, key m < key n) ∧ val n ≠ z := by
  obtain ⟨hns, -, hbelow⟩ := List.pairwise_append.mp h.ascending
  obtain ⟨hnonzero, hn⟩ := List.forall_mem_append.mp h.nonzero
  exact ⟨⟨hns, hnonzero⟩, fun m hm => hbelow m hm n (List.mem_singleton_self _), hn n (List.mem_singleton_self _)⟩

theorem Proper.head_le {m : ν} (hn : Proper key val z (n :: ns)) (hm : Proper key val z (m :: ms))
    (h : valueAt key val z (n :: ns) (key m) = valueAt key val z (m :: ms) (key m)) : key n ≤ key m := by
  rw [valueAt_cons_self] at h
  by_contra hlt
  rw [not_le] at hlt
  have hbelow : ∀ x ∈ n :: ns, key m < key x :=
    List.forall_mem_cons.mpr ⟨hlt, fun x hx => lt_trans hlt (hn.head_below x hx)⟩
  rw [valueAt_of_below hbelow] at h
  exact hm.nonzero m List.mem_cons_self h.symm

theorem Proper.ext (hinj : ∀ n m : ν, key n = key m → val n = val m → n = m) (hn : Proper key val z ns)
    (hm : Proper key val z ms) (h : ∀ k, valueAt key val z ns k = valueAt key val z ms k) : ns = ms := by
  induction ns generalizing ms with
  | nil =>
      cases ms with
      | nil => rfl
      | cons m ms =>
          have hself := h (key m)
          rw [valueAt_cons_self] at hself
          exact absurd hself.symm (hm.nonzero m List.mem_cons_self)
  | cons n ns ih =>
      cases ms with
      | nil =>
          have hself := h (key n)
          rw [valueAt_cons_self] at hself
          exact absurd hself (hn.nonzero n List.mem_cons_self)
      | cons m ms =>
          have hkey : key n = key m := le_antisymm (hn.head_le hm (h _)) (hm.head_le hn (h _).symm)
          have hval : val n = val m := by
            have hself := h (key n)
            rw [valueAt_cons_self, hkey, valueAt_cons_self] at hself
            exact hself
          obtain rfl := hinj n m hkey hval
          congr 1
          apply ih hn.tail hm.tail
          intro k
          by_cases hk : key n = k
          · rw [← hk, hn.valueAt_head, hm.valueAt_head]
          · have hrest := h k
            rwa [valueAt_cons_of_ne hk, valueAt_cons_of_ne hk] at hrest

end PigaLinux.Sparse
