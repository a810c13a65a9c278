import PigaLinux.Constraints
import PigaLinux.RuleTable

namespace PigaLinux.PolicyDatabase

open Kernel ExtensibleBitmap Contexts Constraints RuleTable

/-- The symbols of one kind: the table by name, and the names by number. A
number may be left without a name, and the number of an alias is checked by nobody. -/
structure Symtab (δ : Type) where
  nprim : Nat
  valToName : Nat → Option Text
  search : Text → Option δ

section symbols

variable {δ : Type}

-- where there is no name the kernel follows a NULL pointer
def Symtab.symName (t : Symtab δ) (i : Nat) : Text := (t.valToName i).getD []

/-- The arrays of the data by number are filled together with the names. -/
def Symtab.valToStruct (t : Symtab δ) (i : Nat) : Option δ := (t.valToName i).bind t.search

/-- A table without gaps, in which aliases have numbers of the table too. -/
structure Symtab.Complete (t : Symtab δ) (value : δ → U32) : Prop where
  indexed : ∀ i < t.nprim, ∃ name d, t.valToName i = some name ∧ t.search name = some d ∧ (value d).toNat = i + 1
  bounded : ∀ nm d, t.search nm = some d → 0 < (value d).toNat ∧ (value d).toNat ≤ t.nprim
  small : t.nprim < 2 ^ 31

variable {t : Symtab δ} {value : δ → U32}

theorem Symtab.Complete.datum (h : t.Complete value) {i : Nat} (hi : i < t.nprim) :
    ∃ d, t.search (t.symName i) = some d ∧ t.valToStruct i = some d ∧ (value d).toNat = i + 1 := by
  obtain ⟨name, d, hname, hd, hvalue⟩ := h.indexed i hi
  refine ⟨d, ?_, ?_, hvalue⟩
  · rw [Symtab.symName, hname]
    exact hd
  · rw [Symtab.valToStruct, hname]
    exact hd

def listed (names : List Text) (datum : Nat → δ) : Symtab δ where
  nprim := names.length
  valToName i := names[i]?
  search nm := if nm ∈ names then some (datum (names.idxOf nm)) else none

theorem listed_complete {names : List Text} {datum : Nat → δ} (hnodup : names.Nodup)
    (hvalue : ∀ i < names.length, (value (datum i)).toNat = i + 1) (hsmall : names.length < 2 ^ 31) :
    (listed names datum).Complete value where
  indexed i hi := by
    refine ⟨names[i], datum i, List.getElem?_eq_getElem hi, ?_, hvalue i hi⟩
    exact (if_pos (List.getElem_mem hi)).trans (by rw [hnodup.idxOf_getElem i hi])
  bounded nm d h := by
    simp only [listed] at h
    split at h
    next hmem =>
      have hlt := List.idxOf_lt_length_iff.mpr hmem
      obtain rfl := Option.some.inj h
      rw [hvalue _ hlt]
      exact ⟨Nat.succ_pos _, hlt⟩
    next => exact absurd h.symm (Option.some_ne_none _)
  small := hsmall

end symbols

structure UserDatum where
  value : U32
  roles : Ebitmap
  low : MlsLevel
  high : MlsLevel

structure RoleDatum where
  value : U32
  dominates : Ebitmap
  types : Ebitmap

structure TypeDatum where
  value : U32
  bounds : U32
  isAttribute : Bool

structure LevelDatum where
  level : MlsLevel

def LevelDatum.sens (d : LevelDatum) : U32 := d.level.sens

structure CatDatum where
  value : U32

/-- A class, with the permissions of its common before its own. -/
structure ClassDatum where
  permissions : List (Text × U32)
  constraints : List ConstraintNode

/-- The parts of a policy that decisions are made with and contexts are written with. Values count from 1. -/
structure Policydb where
  mlsEnabled : Bool
  classes : Symtab ClassDatum
  roles : Symtab RoleDatum
  types : Symtab TypeDatum
  users : Symtab UserDatum
  levels : Symtab LevelDatum
  cats : Symtab CatDatum
  typeAttrMap : List Ebitmap
  teAvtab : Avtab
  teCondAvtab : Avtab
  roleAllow : List (U32 × U32)
  processClass : U16
  processTransPerms : U32

structure Complete (p : Policydb) : Prop where
  users : p.users.Complete UserDatum.value
  roles : p.roles.Complete RoleDatum.value
  types : p.types.Complete TypeDatum.value
  levels : p.levels.Complete LevelDatum.sens
  cats : p.cats.Complete CatDatum.value

end PigaLinux.PolicyDatabase
