import PigaLinux.Kernel
import Mathlib.Data.List.Nodup
import Mathlib.Data.Nat.Bitwise

namespace PigaLinux.Selinuxfs

open Kernel

/-- Names numbered from one, no name and no number twice, up to a largest number. -/
structure Numbering (es : List (String × Nat)) (nprim : Nat) : Prop where
  names : (es.map Prod.fst).Nodup
  values : (es.map Prod.snd).Nodup
  range : ∀ e ∈ es, 1 ≤ e.2 ∧ e.2 ≤ nprim

instance (es : List (String × Nat)) (nprim : Nat) : Decidable (Numbering es nprim) :=
  decidable_of_iff ((es.map Prod.fst).Nodup ∧ (es.map Prod.snd).Nodup ∧ ∀ e ∈ es, 1 ≤ e.2 ∧ e.2 ≤ nprim)
    ⟨fun h => ⟨h.1, h.2.1, h.2.2⟩, fun h => ⟨h.names, h.values, h.range⟩⟩

/-- A class of a policy: the permissions of its common, its own ones, and how many numbers they use. -/
structure ClassDatum where
  value : Nat
  common : List (String × Nat)
  permissions : List (String × Nat)
  nprim : Nat
  numbered : Numbering (common ++ permissions) nprim
  nprim_le : nprim ≤ 32

structure PolicyDb where
  classes : List (String × ClassDatum)
  nprim : Nat
  numbered : Numbering (classes.map fun e => (e.1, e.2.value)) nprim
  nprim_lt : nprim < 2 ^ 16

/-- What policydb_read asks of the classes: one called process, with a permission for transitions. -/
def loadable (p : PolicyDb) : Bool :=
  p.classes.any fun e =>
    e.1 == "process" && (e.2.common ++ e.2.permissions).any fun q => q.1 == "transition" || q.1 == "dyntransition"

/-- The callbacks put each name at its number minus one. -/
def place (es : List (String × Nat)) (a : List (Option String)) : List (Option String) :=
  es.foldl (fun a e => a.set (e.2 - 1) (some e.1)) a

def securityGetClasses (p : PolicyDb) : List (Option String) :=
  place (p.classes.map fun e => (e.1, e.2.value)) (List.replicate p.nprim none)

def securityGetPermissions (p : PolicyDb) (objclass : String) : Option (List (Option String)) :=
  (p.classes.find? fun e => e.1 = objclass).map fun e =>
    place e.2.permissions (place e.2.common (List.replicate e.2.nprim none))

def selVecMax : Nat := 32

def selClassInoOffset : Nat := 0x04000000

def selInoMask : Nat := 0x00ffffff

def selClassToIno (c : U16) : Nat := (c.toNat * (selVecMax + 1)) ||| selClassInoOffset

def selInoToClass (ino : Nat) : U16 := BitVec.ofNat 16 ((ino &&& selInoMask) / (selVecMax + 1))

def selPermToIno (c : U16) (perm : Nat) : Nat := (c.toNat * (selVecMax + 1) + perm) ||| selClassInoOffset

def selInoToPerm (ino : Nat) : Nat := (ino &&& selInoMask) % (selVecMax + 1)

/-- The files of a class directory: the inode of its index, and those of its permissions. -/
structure ClassDir where
  name : Option String
  index : Nat
  perms : List (Option String × Nat)

def selMakePermFiles (p : PolicyDb) (objclass : Option String) (classvalue : U16) :
    List (Option String × Nat) :=
  match objclass.bind (securityGetPermissions p) with
  | some perms => perms.zipIdx.map fun e => (e.1, selPermToIno classvalue (e.2 + 1))
  | none => []

def selMakeClasses (p : PolicyDb) : List ClassDir :=
  (securityGetClasses p).zipIdx.map fun e =>
    ⟨e.1, selClassToIno (BitVec.ofNat 16 (e.2 + 1)), selMakePermFiles p e.1 (BitVec.ofNat 16 (e.2 + 1))⟩

def readClass (p : PolicyDb) (c : String) : Option U16 :=
  ((selMakeClasses p).find? fun d => d.name = some c).map fun d => selInoToClass d.index

def readPerm (p : PolicyDb) (c q : String) : Option Nat :=
  ((selMakeClasses p).find? fun d => d.name = some c).bind fun d =>
    (d.perms.find? fun f => f.1 = some q).map fun f => selInoToPerm f.2

theorem ino_mask {x : Nat} (h : x < 2 ^ 24) : (x ||| selClassInoOffset) &&& selInoMask = x := by
  have hm : selInoMask = 2 ^ 24 - 1 := rfl
  rw [hm, Nat.and_two_pow_sub_one_eq_mod, Nat.or_mod_two_pow]
  have ho : selClassInoOffset % 2 ^ 24 = 0 := rfl
  rw [ho, Nat.or_zero, Nat.mod_eq_of_lt h]

theorem selInoToClass_toIno (c : U16) : selInoToClass (selClassToIno c) = c := by
  have hc := c.isLt
  rw [selInoToClass, selClassToIno, ino_mask (by unfold selVecMax; omega), Nat.mul_div_cancel _ (by decide)]
  simp

theorem selInoToPerm_toIno (c : U16) {k : Nat} (hk : k ≤ selVecMax) : selInoToPerm (selPermToIno c k) = k := by
  have hc := c.isLt
  unfold selVecMax at hk
  rw [selInoToPerm, selPermToIno, ino_mask (by unfold selVecMax; omega), Nat.mul_add_mod_of_lt]
  unfold selVecMax
  omega

theorem place_getElem? {es : List (String × Nat)} {a : List (Option String)}
    (hv : (es.map Prod.snd).Nodup) (hr : ∀ e ∈ es, 1 ≤ e.2 ∧ e.2 ≤ a.length) (i : Nat) (x : String)
    (ha : ∀ y, a[i]? ≠ some (some y)) :
    (place es a)[i]? = some (some x) ↔ (x, i + 1) ∈ es := by
  suffices h : ∀ (es : List (String × Nat)) (a : List (Option String)), (es.map Prod.snd).Nodup →
      (∀ e ∈ es, 1 ≤ e.2 ∧ e.2 ≤ a.length) →
      ((place es a)[i]? = some (some x) ↔
        (x, i + 1) ∈ es ∨ (a[i]? = some (some x) ∧ i + 1 ∉ es.map Prod.snd)) by
    rw [h es a hv hr]
    simp [ha]
  clear hv hr ha es a
  intro es
  induction es with
  | nil => simp [place]
  | cons e es ih =>
      intro a hv hr
      rw [List.map_cons, List.nodup_cons] at hv
      obtain ⟨h1, hle⟩ := hr e List.mem_cons_self
      have hstep : place (e :: es) a = place es (a.set (e.2 - 1) (some e.1)) := rfl
      rw [hstep, ih _ hv.2 (fun f hf => by simpa using hr f (List.mem_cons_of_mem _ hf))]
      by_cases hi : e.2 - 1 = i
      · have hei : e.2 = i + 1 := by omega
        have hlt : i < a.length := by omega
        have hnot : i + 1 ∉ es.map Prod.snd := hei ▸ hv.1
        have hmem : (x, i + 1) ∉ es := fun hm => hnot (List.mem_map.mpr ⟨_, hm, rfl⟩)
        rw [hi, List.getElem?_set_self hlt]
        have he : (x, i + 1) = e ↔ e.1 = x := by
          rw [← hei]
          exact ⟨fun h => h ▸ rfl, fun h => h ▸ rfl⟩
        simp [hnot, hmem, he, hei]
      · have hei : ¬i + 1 = e.2 := by omega
        have he : (x, i + 1) ≠ e := fun h => hei (h ▸ rfl)
        rw [List.getElem?_set_ne hi]
        simp [hei, he]

theorem Numbering.eq_of_name {es : List (String × Nat)} {nprim : Nat} (h : Numbering es nprim) {x : String}
    {i j : Nat} (hi : (x, i) ∈ es) (hj : (x, j) ∈ es) : i = j :=
  congrArg Prod.snd (List.inj_on_of_nodup_map h.names hi hj rfl)

theorem find?_zipIdx {xs : List (Option String)} {c : String} {i : Nat} (h : xs[i]? = some (some c))
    (hu : ∀ j, xs[j]? = some (some c) → j = i) :
    (xs.zipIdx.find? fun e => e.1 = some c) = some (some c, i) := by
  have hmem : (some c, i) ∈ xs.zipIdx := List.mem_zipIdx_iff_getElem?.mpr h
  cases hf : xs.zipIdx.find? fun e => e.1 = some c with
  | none => simpa using List.find?_eq_none.mp hf _ hmem
  | some e =>
      obtain ⟨x, j⟩ := e
      have hx : x = some c := by simpa using List.find?_some hf
      have hj : xs[j]? = some x := List.mem_zipIdx_iff_getElem?.mp (List.mem_of_find?_eq_some hf)
      rw [hx] at hj ⊢
      rw [hu j hj]

theorem find?_place {es : List (String × Nat)} {nprim : Nat} (h : Numbering es nprim) {x : String} {v : Nat}
    (hx : (x, v) ∈ es) :
    ((place es (List.replicate nprim none)).zipIdx.find? fun e => e.1 = some x) = some (some x, v - 1) := by
  have hv := h.range _ hx
  have hat (i : Nat) : (place es (List.replicate nprim none))[i]? = some (some x) ↔ (x, i + 1) ∈ es := by
    apply place_getElem? h.values
    · simpa using h.range
    · intro y hy
      simp [List.getElem?_replicate] at hy
  apply find?_zipIdx
  · rw [hat, Nat.sub_add_cancel hv.1]
    exact hx
  · intro j hj
    have := h.eq_of_name ((hat j).mp hj) hx
    omega

variable {p : PolicyDb} {c q : String} {d : ClassDatum}

theorem place_length (es : List (String × Nat)) (a : List (Option String)) : (place es a).length = a.length := by
  rw [place]
  induction es generalizing a with
  | nil => rfl
  | cons e es ih => rw [List.foldl_cons, ih, List.length_set]

theorem eq_of_index {x y : ClassDir} (hx : x ∈ selMakeClasses p) (hy : y ∈ selMakeClasses p)
    (h : selInoToClass x.index = selInoToClass y.index) : x = y := by
  have hlt : ∀ e ∈ (securityGetClasses p).zipIdx, e.2 + 1 < 2 ^ 16 := by
    intro e he
    have hi := (List.getElem?_eq_some_iff.mp (List.mem_zipIdx_iff_getElem?.mp he)).1
    rw [securityGetClasses, place_length, List.length_replicate] at hi
    have hp := p.nprim_lt
    omega
  obtain ⟨⟨x, i⟩, hi, rfl⟩ := List.mem_map.mp hx
  obtain ⟨⟨y, j⟩, hj, rfl⟩ := List.mem_map.mp hy
  have hij : i = j := by
    have hnat := congrArg BitVec.toNat h
    rw [selInoToClass_toIno, selInoToClass_toIno, BitVec.toNat_ofNat, BitVec.toNat_ofNat,
      Nat.mod_eq_of_lt (hlt _ hi), Nat.mod_eq_of_lt (hlt _ hj)] at hnat
    exact Nat.succ.inj hnat
  subst hij
  have hget (z : Option String) (hz : (z, i) ∈ (securityGetClasses p).zipIdx) : (securityGetClasses p)[i]? = some z :=
    List.mem_zipIdx_iff_getElem?.mp hz
  obtain rfl := Option.some.inj ((hget x hi).symm.trans (hget y hj))
  rfl

theorem find?_selMakeClasses (hc : (c, d) ∈ p.classes) :
    ((selMakeClasses p).find? fun e => e.name = some c) = some
      ⟨some c, selClassToIno (BitVec.ofNat 16 d.value), selMakePermFiles p (some c) (BitVec.ofNat 16 d.value)⟩ := by
  have hmem : (c, d.value) ∈ p.classes.map fun e => (e.1, e.2.value) := List.mem_map.mpr ⟨_, hc, rfl⟩
  have hv := p.numbered.range _ hmem
  have hf := find?_place p.numbered hmem
  rw [selMakeClasses, List.find?_map]
  change Option.map _ ((securityGetClasses p).zipIdx.find? fun e => e.1 = some c) = _
  rw [securityGetClasses, hf, Option.map_some, Nat.sub_add_cancel hv.1]

theorem readClass_eq (hc : (c, d) ∈ p.classes) : readClass p c = some (BitVec.ofNat 16 d.value) := by
  rw [readClass, find?_selMakeClasses hc, Option.map_some, selInoToClass_toIno]

theorem securityGetPermissions_eq (hc : (c, d) ∈ p.classes) :
    securityGetPermissions p c = some (place (d.common ++ d.permissions) (List.replicate d.nprim none)) := by
  have hfind : (p.classes.find? fun e => e.1 = c) = some (c, d) := by
    cases hf : p.classes.find? fun e => e.1 = c with
    | none => simpa using List.find?_eq_none.mp hf _ hc
    | some e =>
        have he : e.1 = c := by simpa using List.find?_some hf
        have hnames : (p.classes.map Prod.fst).Nodup := by
          have h := p.numbered.names
          rwa [List.map_map] at h
        rw [List.inj_on_of_nodup_map hnames (List.mem_of_find?_eq_some hf) hc he]
  rw [securityGetPermissions, hfind, Option.map_some, place, place, place, List.foldl_append]

theorem readPerm_eq (hc : (c, d) ∈ p.classes) {k : Nat} (hq : (q, k) ∈ d.common ++ d.permissions) :
    readPerm p c q = some k := by
  have hk := d.numbered.range _ hq
  have hle : k ≤ selVecMax := Nat.le_trans hk.2 d.nprim_le
  rw [readPerm, find?_selMakeClasses hc, Option.bind_some, selMakePermFiles, Option.bind_some,
    securityGetPermissions_eq hc, List.find?_map]
  change Option.map _ (Option.map _ (List.find? (fun e : Option String × Nat => e.1 = some q) _)) = _
  rw [find?_place d.numbered hq, Option.map_some, Option.map_some, Nat.sub_add_cancel hk.1,
    selInoToPerm_toIno _ hle]

end PigaLinux.Selinuxfs
