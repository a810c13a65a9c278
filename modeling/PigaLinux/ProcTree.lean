import PigaLinux.Kernel
import Mathlib.Logic.Function.Basic

namespace PigaLinux.ProcTree

open Kernel

abbrev Ptr := Nat

def sIfmt : U32 := 0o170000

def sIflnk : U32 := 0o120000

def sIfreg : U32 := 0o100000

def sIfdir : U32 := 0o040000

def sIallugo : U32 := 0o7777

def sIrugo : U32 := 0o444

def sIxugo : U32 := 0o111

inductive Operations
  | dir
  | link
  | file
deriving DecidableEq, Repr

/-- An entry of /proc. Its siblings are the list of the parent's children. -/
structure ProcDirEntry (η : Type) where
  lowIno : U32
  name : List Char
  mode : U32
  nlink : BitVec 64
  uid : U32
  gid : U32
  size : Nat
  procIops : Option Operations
  procFops : Option Operations
  parent : Option Ptr
  subdir : List Ptr
  readProc : Option η
  writeProc : Option η

/-- The entries that are allocated, and which of them is proc_root. -/
@[ext] structure ProcFs (η : Type) where
  root : Ptr
  entries : Ptr → Option (ProcDirEntry η)

/-- What the allocators give to one creation: kmalloc a place or none, and
get_inode_number a number, or 0 when it fails. -/
structure Attempt where
  memory : Option Ptr
  inode : U32

variable {η : Type}

def ProcFs.set (t : ProcFs η) (p : Ptr) (e : Option (ProcDirEntry η)) : ProcFs η :=
  { t with entries := Function.update t.entries p e }

def ProcFs.modify (t : ProcFs η) (p : Ptr) (f : ProcDirEntry η → ProcDirEntry η) : ProcFs η := t.set p ((t.entries p).map f)

def procMatch (name : List Char) (e : ProcDirEntry η) : Bool := e.name == name

def ProcFs.children (t : ProcFs η) (p : Ptr) : List Ptr := ((t.entries p).map ProcDirEntry.subdir).getD []

def ProcFs.isNamed (t : ProcFs η) (name : List Char) (p : Ptr) : Bool := (t.entries p).any (procMatch name)

/-- The walk down a path, with the characters of the component at hand. -/
def walk (t : ProcFs η) : Ptr → List Char → List Char → Option (Ptr × List Char)
  | de, component, [] => some (de, component)
  | de, component, c :: cs =>
      if c = '/' then
        match (t.children de).find? (t.isNamed component) with
        | none => none
        | some de => walk t de [] cs
      else walk t de (component ++ [c]) cs

def xlateProcName (t : ProcFs η) (name : List Char) (parent : Option Ptr) : Option (Ptr × List Char) :=
  walk t (parent.getD t.root) [] name

def procRegister (t : ProcFs η) (dir dp : Ptr) (inode : U32) : Option (ProcFs η) :=
  if inode = 0 then none
  else
    let t := t.modify dp fun e => { e with lowIno := inode }
    let mode := ((t.entries dp).map ProcDirEntry.mode).getD 0
    let t :=
      if mode &&& sIfmt = sIfdir then
        let t := t.modify dp fun e =>
          if e.procIops = none then { e with procFops := some .dir, procIops := some .dir } else e
        t.modify dir fun e => { e with nlink := e.nlink + 1 }
      else if mode &&& sIfmt = sIflnk then
        t.modify dp fun e => { e with procIops := e.procIops.or (some .link) }
      else if mode &&& sIfmt = sIfreg then
        t.modify dp fun e => { e with procFops := e.procFops.or (some .file), procIops := e.procIops.or (some .file) }
      else t
    let t := t.modify dp fun e => { e with parent := some dir }
    some (t.modify dir fun e => { e with subdir := dp :: e.subdir })

def procCreate (t : ProcFs η) (memory : Option Ptr) (parent : Option Ptr) (name : List Char) (mode : U32) (nlink : BitVec 64) :
    Option (Ptr × Ptr × ProcFs η) :=
  if name = [] then none
  else
    match xlateProcName t name parent with
    | none => none
    | some (dir, fn) =>
        if '/' ∈ fn then none
        else
          match memory with
          | none => none
          | some p => some (dir, p, t.set p (some ⟨0, fn, mode, nlink, 0, 0, 0, none, none, none, [], none, none⟩))

/-- The body that proc_mkdir_mode and create_proc_entry share. -/
def createEntry (t : ProcFs η) (a : Attempt) (parent : Option Ptr) (name : List Char) (mode : U32) (nlink : BitVec 64) :
    Option Ptr × ProcFs η :=
  match procCreate t a.memory parent name mode nlink with
  | none => (none, t)
  | some (dir, ent, t) =>
      match procRegister t dir ent a.inode with
      | none => (none, t.set ent none)
      | some t => (some ent, t)

def procMkdir (t : ProcFs η) (a : Attempt) (name : List Char) (parent : Option Ptr) : Option Ptr × ProcFs η :=
  createEntry t a parent name (sIfdir ||| (sIrugo ||| sIxugo)) 2

def createProcEntry (t : ProcFs η) (a : Attempt) (name : List Char) (mode : U32) (parent : Option Ptr) :
    Option Ptr × ProcFs η :=
  if mode &&& sIfmt = sIfdir then
    createEntry t a parent name (if mode &&& sIallugo = 0 then mode ||| (sIrugo ||| sIxugo) else mode) 2
  else
    let mode := if mode &&& sIfmt = 0 then mode ||| sIfreg else mode
    createEntry t a parent name (if mode &&& sIallugo = 0 then mode ||| sIrugo else mode) 1

/-- The first child of that name goes, and is given back: nobody has it open. -/
def removeProcEntry (t : ProcFs η) (name : List Char) (parent : Option Ptr) : ProcFs η :=
  match xlateProcName t name parent with
  | none => t
  | some (dir, fn) =>
      match (t.children dir).find? (t.isNamed fn) with
      | none => t
      | some de =>
          let mode := ((t.entries de).map ProcDirEntry.mode).getD 0
          let named := t.isNamed fn
          let t := t.modify dir fun e => { e with subdir := e.subdir.eraseP named }
          let t := if mode &&& sIfmt = sIfdir then t.modify dir fun e => { e with nlink := e.nlink - 1 } else t
          t.set de none

section names

variable {t : ProcFs η}

theorem walk_eq {de : Ptr} {component cs : List Char} (h : '/' ∉ cs) :
    walk t de component cs = some (de, component ++ cs) := by
  induction cs generalizing component with
  | nil => rw [walk, List.append_nil]
  | cons c cs ih =>
      rw [List.mem_cons, not_or] at h
      rw [walk, if_neg (Ne.symm h.1), ih h.2, List.append_assoc]
      rfl

theorem xlateProcName_eq {name : List Char} (h : '/' ∉ name) (parent : Option Ptr) :
    xlateProcName t name parent = some (parent.getD t.root, name) := walk_eq h

theorem removeProcEntry_of_forall {name : List Char} (h : '/' ∉ name) {dir : Ptr}
    (hnone : ∀ p ∈ t.children dir, t.isNamed name p = false) : removeProcEntry t name (some dir) = t := by
  have hfind : (t.children dir).find? (t.isNamed name) = none := by
    rw [List.find?_eq_none]
    intro p hp
    rw [hnone p hp]
    exact Bool.false_ne_true
  rw [removeProcEntry, xlateProcName_eq h]
  dsimp only [Option.getD_some]
  rw [hfind]

end names

section creation

variable {t : ProcFs η} {a : Attempt} {p dir : Ptr} {name : List Char} {mode : U32} {nlink : BitVec 64}

def Attempt.fails (a : Attempt) : Prop := a.memory = none ∨ a.inode = 0

instance (a : Attempt) : Decidable a.fails := inferInstanceAs (Decidable (_ ∨ _))

theorem set_set (t : ProcFs η) (p : Ptr) (e e' : Option (ProcDirEntry η)) : (t.set p e).set p e' = t.set p e' := by
  rw [ProcFs.set, ProcFs.set, Function.update_idem]
  rfl

theorem set_self {e : Option (ProcDirEntry η)} (h : t.entries p = e) : t.set p e = t := by
  rw [ProcFs.set, ← h, Function.update_eq_self]

theorem entries_set (t : ProcFs η) (p : Ptr) (e : Option (ProcDirEntry η)) : (t.set p e).entries p = e := by
  simp only [ProcFs.set, Function.update_self]

theorem entries_set_of_ne {q : Ptr} (h : q ≠ p) (e : Option (ProcDirEntry η)) : (t.set p e).entries q = t.entries q := by
  simp only [ProcFs.set, Function.update_of_ne h]

theorem entries_modify (t : ProcFs η) (p : Ptr) (f : ProcDirEntry η → ProcDirEntry η) :
    (t.modify p f).entries p = (t.entries p).map f := entries_set t p _

theorem entries_modify_of_ne {q : Ptr} (h : q ≠ p) (f : ProcDirEntry η → ProcDirEntry η) :
    (t.modify p f).entries q = t.entries q := entries_set_of_ne h _

theorem modify_set (t : ProcFs η) (p : Ptr) (e : ProcDirEntry η) (f : ProcDirEntry η → ProcDirEntry η) :
    (t.set p (some e)).modify p f = t.set p (some (f e)) := by
  rw [ProcFs.modify, entries_set, set_set]
  rfl

theorem set_comm {q : Ptr} (h : p ≠ q) (e e' : Option (ProcDirEntry η)) : (t.set p e).set q e' = (t.set q e').set p e := by
  simp only [ProcFs.set, Function.update_comm h]

theorem modify_set_comm {q : Ptr} (h : p ≠ q) (e : Option (ProcDirEntry η)) (f : ProcDirEntry η → ProcDirEntry η) :
    (t.set p e).modify q f = (t.modify q f).set p e := by
  rw [ProcFs.modify, ProcFs.modify, entries_set_of_ne h.symm, set_comm h]

theorem modify_modify (t : ProcFs η) (p : Ptr) (f g : ProcDirEntry η → ProcDirEntry η) :
    (t.modify p f).modify p g = t.modify p fun e => g (f e) := by
  rw [ProcFs.modify, ProcFs.modify, entries_set, set_set, Option.map_map]
  rfl

theorem createEntry_fails (hfails : a.fails) (hfresh : ∀ p, a.memory = some p → t.entries p = none)
    (parent : Option Ptr) (name : List Char) (mode : U32) (nlink : BitVec 64) :
    createEntry t a parent name mode nlink = (none, t) := by
  rw [createEntry]
  split
  · rfl
  · next dir ent t' hcreate =>
    have hent : a.memory = some ent ∧ t'.set ent none = t.set ent none := by
      rw [procCreate] at hcreate
      split at hcreate
      · cases hcreate
      · split at hcreate
        · cases hcreate
        · split at hcreate
          · cases hcreate
          · split at hcreate
            · cases hcreate
            · next hmemory =>
              cases hcreate
              exact ⟨hmemory, set_set t ent _ _⟩
    have hinode : a.inode = 0 := hfails.resolve_left (by rw [hent.1]; exact Option.some_ne_none ent)
    rw [procRegister, if_pos hinode]
    dsimp only
    rw [hent.2, set_self (hfresh ent hent.1)]

def newEntry (a : Attempt) (name : List Char) (mode : U32) (nlink : BitVec 64) (ops : Operations) (dir : Ptr) : ProcDirEntry η :=
  ⟨a.inode, name, mode, nlink, 0, 0, 0, some ops, some ops, some dir, [], none, none⟩

theorem procCreate_eq (hname : name ≠ []) (hslash : '/' ∉ name) (hmemory : a.memory = some p) (parent : Option Ptr) :
    procCreate t a.memory parent name mode nlink =
      some (parent.getD t.root, p, t.set p (some ⟨0, name, mode, nlink, 0, 0, 0, none, none, none, [], none, none⟩)) := by
  rw [procCreate, if_neg hname, xlateProcName_eq hslash, hmemory]
  dsimp only
  rw [if_neg hslash]

theorem createEntry_file (hname : name ≠ []) (hslash : '/' ∉ name) (hmemory : a.memory = some p) (hinode : a.inode ≠ 0)
    (hmode : mode &&& sIfmt = sIfreg) (parent : Option Ptr) :
    createEntry t a parent name mode nlink =
      (some p, (t.set p (some (newEntry a name mode nlink .file (parent.getD t.root)))).modify (parent.getD t.root)
        fun e => { e with subdir := p :: e.subdir }) := by
  rw [createEntry, procCreate_eq hname hslash hmemory]
  dsimp only
  rw [procRegister, if_neg hinode]
  simp only [modify_set, entries_set, Option.map_some, Option.getD_some, hmode]
  rw [if_neg (by decide), if_neg (by decide), if_pos trivial, modify_set]
  rfl

theorem createEntry_dir (hname : name ≠ []) (hslash : '/' ∉ name) (hmemory : a.memory = some p) (hinode : a.inode ≠ 0)
    (hmode : mode &&& sIfmt = sIfdir) (parent : Option Ptr) (hne : p ≠ parent.getD t.root) :
    createEntry t a parent name mode nlink =
      (some p, (t.set p (some (newEntry a name mode nlink .dir (parent.getD t.root)))).modify (parent.getD t.root)
        fun e => { e with nlink := e.nlink + 1, subdir := p :: e.subdir }) := by
  rw [createEntry, procCreate_eq hname hslash hmemory]
  dsimp only
  rw [procRegister, if_neg hinode]
  simp only [modify_set, entries_set, Option.map_some, Option.getD_some, hmode, if_true]
  rw [modify_set_comm hne, modify_set, ← modify_set_comm hne, modify_modify]
  rfl

end creation

end PigaLinux.ProcTree
