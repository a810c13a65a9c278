import PigaLinux.Bits
import PigaLinux.ClassMap
import PigaLinux.Indices
import PigaLinux.PppActions
import PigaLinux.Selinuxfs

namespace PigaLinux.ClassNumbers

open Kernel Trace Bits Indices PppSyntax Ppp PppActions ClassMap Selinuxfs
open Piga (Sequence Link)

/-- What is assumed of libselinux: it returns the numbers that selinuxfs shows for the loaded policy. -/
structure Libselinux (env : Env) (p : PolicyDb) : Prop where
  tclass : ∀ c v, readClass p c = some v → env.stringToSecurityClass c = v
  perm : ∀ c v q n, readClass p c = some v → readPerm p c q = some n →
    env.stringToAvPerm v q = (1 : U32) <<< (n - 1)

def compiled (env : Env) (c q : Word) (k : Loader) : Link :=
  (parseVector env ⟨c, .word q⟩ k).value.l k.currLink

/-- The kernel's test of an access whose two SIDs are those of the link. -/
def Tested (x : Link) (tclass : U16) (requested : U32) : Prop := x.Matches ⟨x.cs, x.cc, tclass, requested⟩

instance (x : Link) (tclass : U16) : DecidablePred (Tested x tclass) := fun _ =>
  inferInstanceAs (Decidable (Piga.Link.Matches _ _))

theorem tested_iff (x : Link) (tclass : U16) (requested : U32) :
    Tested x tclass requested ↔ x.tclass = tclass ∧ x.requested &&& requested ≠ 0 := by
  simp [Tested, Piga.Link.Matches]

theorem getLsbD_bit (i j : Nat) (hi : i < 32) : ((1 : U32) <<< i).getLsbD j = decide (i = j) := by
  have h : (1 : U32) <<< i = BitVec.twoPow 32 i := rfl
  rw [h, BitVec.getLsbD_twoPow, decide_eq_true hi, Bool.true_and]

theorem bit_and_ne_zero {i : Nat} (hi : i < 32) (r : U32) : (1 : U32) <<< i &&& r ≠ 0 ↔ r.getLsbD i = true :=
  twoPow_and_ne_zero hi

variable {env : Env} {p : PolicyDb}

theorem compiled_eq (env : Env) (c q : Word) (k : Loader) (hk : k.requestList = []) :
    (compiled env c q k).tclass = env.stringToSecurityClass c.text ∧
      (compiled env c q k).requested = env.stringToAvPerm (env.stringToSecurityClass c.text) q.text := by
  have h := parseVector_done env ⟨c, .word q⟩ k hk
  rw [compiled, h.l, Function.update_self]
  exact ⟨rfl, by simp [mask, pushed, Request.words, Request.first]⟩

theorem compiled_tested (hl : Libselinux env p) {c q : Word} {d : ClassDatum} {n : Nat}
    (hc : (c.text, d) ∈ p.classes) (hq : (q.text, n) ∈ d.common ++ d.permissions)
    (k : Loader) (hk : k.requestList = []) (tclass : U16) (requested : U32) :
    Tested (compiled env c q k) tclass requested ↔
      BitVec.ofNat 16 d.value = tclass ∧ requested.getLsbD (n - 1) = true := by
  obtain ⟨ht, hr⟩ := compiled_eq env c q k hk
  have hrange := d.numbered.range _ hq
  have hn : n - 1 < 32 := by
    have h1 : 1 ≤ n := hrange.1
    have h2 : n ≤ d.nprim := hrange.2
    have := d.nprim_le
    omega
  have hclass := hl.tclass _ _ (readClass_eq hc)
  rw [tested_iff, ht, hr, hclass, hl.perm _ _ _ _ (readClass_eq hc) (readPerm_eq hc hq), bit_and_ne_zero hn]

/-- The loader's numbers mean to the kernel what the policy's author wrote
exactly when the policy gives the class and the permission the kernel's own
numbers. -/
theorem numbersAgree_iff (env : Env) (p : PolicyDb) (hl : Libselinux env p) (c q : Word) (d : ClassDatum)
    (n : Nat) (hc : (c.text, d) ∈ p.classes) (hq : (q.text, n) ∈ d.common ++ d.permissions)
    (kc : U16) (b : Nat) (hkc : kernelClass c.text = some kc) (hb : kernelBit c.text q.text = some b)
    (k : Loader) (hk : k.requestList = []) :
    (∀ tclass requested, Tested (compiled env c q k) tclass requested ↔
        kernelClass c.text = some tclass ∧ requested.getLsbD b = true) ↔
      d.value = kc.toNat ∧ n = b + 1 := by
  have hb32 := kernelBit_lt hb
  have hn := (d.numbered.range _ hq).1
  have hv : d.value < 2 ^ 16 := by
    have h := (p.numbered.range _ (List.mem_map.mpr ⟨_, hc, rfl⟩)).2
    exact Nat.lt_of_le_of_lt h p.nprim_lt
  have hval : BitVec.ofNat 16 d.value = kc ↔ d.value = kc.toNat := by
    constructor
    · intro h
      rw [← h, toNat_index hv]
    · intro h
      rw [h, BitVec.ofNat_toNat, BitVec.setWidth_eq]
  constructor
  · intro h
    obtain ⟨hclass, hbit⟩ := (compiled_tested hl hc hq k hk kc ((1 : U32) <<< b)).mp
      ((h kc ((1 : U32) <<< b)).mpr ⟨hkc, by rw [getLsbD_bit b b hb32, decide_eq_true rfl]⟩)
    refine ⟨hval.mp hclass, ?_⟩
    rw [getLsbD_bit b _ hb32, decide_eq_true_eq] at hbit
    change 1 ≤ n at hn
    omega
  · rintro ⟨hclass, rfl⟩ tclass requested
    rw [compiled_tested hl hc hq k hk, hval.mpr hclass, hkc, Option.some.injEq, Nat.add_sub_cancel]

def envOf (p : PolicyDb) : Env where
  stringToSecurityClass c := (readClass p c).getD 0
  stringToAvPerm v q :=
    (((selMakeClasses p).find? fun d => selInoToClass d.index == v).bind fun d =>
      (d.perms.find? fun f => f.1 = some q).map fun f => (1 : U32) <<< (selInoToPerm f.2 - 1)).getD 0
  getsid _ _ := .answer "1"

theorem libselinux_envOf (p : PolicyDb) : Libselinux (envOf p) p where
  tclass c v h := by
    change (readClass p c).getD 0 = v
    rw [h, Option.getD_some]
  perm c v q n hv hn := by
    obtain ⟨d, hfind, rfl⟩ := Option.map_eq_some_iff.mp hv
    have hd := List.mem_of_find?_eq_some hfind
    have hindex : ((selMakeClasses p).find? fun e => selInoToClass e.index == selInoToClass d.index) = some d := by
      cases hfound : (selMakeClasses p).find? fun e => selInoToClass e.index == selInoToClass d.index with
      | none => exact absurd (beq_self_eq_true _) (List.find?_eq_none.mp hfound d hd)
      | some e =>
          have he := List.find?_some hfound
          rw [eq_of_index (List.mem_of_find?_eq_some hfound) hd (beq_iff_eq.mp he)]
    rw [readPerm, hfind, Option.bind_some] at hn
    obtain ⟨f, hf, rfl⟩ := Option.map_eq_some_iff.mp hn
    change (((selMakeClasses p).find? _).bind _).getD 0 = _
    rw [hindex, Option.bind_some, hf, Option.map_some, Option.getD_some]

/-- A policy that loads, and whose numbers are not the kernel's. -/
def filePolicy : PolicyDb where
  classes :=
    [("file", ⟨1, [("read", 1), ("write", 2)], [("entrypoint", 3)], 3, by decide, by decide⟩),
      ("process", ⟨2, [], [("transition", 1), ("dyntransition", 2)], 2, by decide, by decide⟩)]
  nprim := 2
  numbered := by decide
  nprim_lt := by decide

/-- The link compiled for reading a file misses the kernel's file reads, and
matches the kernel's security class and its first permission instead. -/
theorem file_read_misnumbered :
    loadable filePolicy = true ∧ Libselinux (envOf filePolicy) filePolicy ∧
      kernelClass "file" = some 6 ∧ kernelBit "file" "read" = some 1 ∧
      ¬Tested (compiled (envOf filePolicy) ⟨"file", by decide⟩ ⟨"read", by decide⟩ zeroed) 6 2 ∧
      Tested (compiled (envOf filePolicy) ⟨"file", by decide⟩ ⟨"read", by decide⟩ zeroed) 1 1 ∧
      kernelClass "security" = some 1 ∧ kernelBit "security" "compute_av" = some 0 ∧
      ¬∀ tclass requested, Tested (compiled (envOf filePolicy) ⟨"file", by decide⟩ ⟨"read", by decide⟩ zeroed) tclass requested ↔
        kernelClass "file" = some tclass ∧ requested.getLsbD 1 = true := by
  have hsecurity : Tested (compiled (envOf filePolicy) ⟨"file", by decide⟩ ⟨"read", by decide⟩ zeroed) 1 1 := by decide
  refine ⟨by decide, libselinux_envOf filePolicy, by decide, by decide, by decide, hsecurity, by decide, by decide, fun h => ?_⟩
  exact absurd ((h 1 1).mp hsecurity).1 (by decide)

theorem numbersAgree_iff_file :
    (∀ tclass requested,
        Tested (compiled (envOf filePolicy) ⟨"file", by decide⟩ ⟨"write", by decide⟩ zeroed) tclass requested ↔
          kernelClass "file" = some tclass ∧ requested.getLsbD 2 = true) ↔
      1 = (6 : U16).toNat ∧ 2 = 2 + 1 :=
  numbersAgree_iff (envOf filePolicy) filePolicy (libselinux_envOf filePolicy) ⟨"file", by decide⟩ ⟨"write", by decide⟩ _ 2
    List.mem_cons_self (by decide) 6 2 (by decide) (by decide) zeroed rfl

end PigaLinux.ClassNumbers
