import PigaLinux.ProcTree
import Mathlib.Tactic.IntervalCases

namespace PigaLinux.ProcInit

open Kernel ProcTree

inductive File
  | status
  | mode
  | getsid
  | loadSequence
  | loadLink
  | policy
deriving DecidableEq, Repr

inductive Handler
  | read (f : File)
  | write (f : File)
deriving DecidableEq, Repr

def procPigaDir : String := "piga"

def File.name : File → String
  | .status => "status"
  | .mode => "mode"
  | .getsid => "getsid"
  | .loadSequence => "load_sequence"
  | .loadLink => "load_link"
  | .policy => "policy"

def File.createMode : File → U32
  | .status => 0o600
  | .mode => 0o600
  | .getsid => 0o600
  | .loadSequence => 0o200
  | .loadLink => 0o200
  | .policy => 0o400

def File.all : List File := [.status, .mode, .getsid, .loadSequence, .loadLink, .policy]

/-- The files that are taken back when this one cannot be created, in the
order of the calls. -/
def File.undo : File → List File
  | .status => []
  | .mode => [.status]
  | .getsid => [.status, .mode]
  | .loadSequence => [.getsid, .status, .mode]
  | .loadLink => [.loadSequence, .getsid, .status, .mode]
  | .policy => [.loadLink, .loadSequence, .getsid, .status, .mode]

def failedText : Option File → String
  | none => "PIGA: Failed to create /proc/" ++ procPigaDir ++ "/"
  | some f => "PIGA: Failed to create /proc/" ++ procPigaDir ++ "/" ++ f.name ++ " file"

structure Outcome where
  result : Int
  tree : ProcFs Handler
  log : List String

def connect (f : File) (e : ProcDirEntry Handler) : ProcDirEntry Handler :=
  { e with readProc := some (.read f), writeProc := some (.write f), mode := sIfreg ||| sIrugo, uid := 0, gid := 0,
           size := 0 }

def takeBack (dir : Ptr) (made : List (File × Ptr)) (fs : List File) (t : ProcFs Handler) : ProcFs Handler :=
  -- the parent that is given for a file is the file itself
  let t := fs.foldl (fun t f => removeProcEntry t f.name.toList (made.lookup f)) t
  removeProcEntry t procPigaDir.toList (some dir)

def createFiles (attempt : Option File → Attempt) (dir : Ptr) :
    List File → List (File × Ptr) → ProcFs Handler → Outcome
  | [], _, t => ⟨0, t, ["PIGA: Successfully created /proc entries.\n"]⟩
  | f :: fs, made, t =>
      match createProcEntry t (attempt (some f)) f.name.toList f.createMode (some dir) with
      | (none, t) => ⟨-enomem, takeBack dir made f.undo t, [failedText (some f)]⟩
      | (some p, t) => createFiles attempt dir fs ((f, p) :: made) (t.modify p (connect f))

def initPigaProcfs (attempt : Option File → Attempt) (t : ProcFs Handler) : Outcome :=
  let o : Outcome :=
    match procMkdir t (attempt none) procPigaDir.toList none with
    | (none, t) => ⟨-enomem, t, [failedText none]⟩
    | (some dir, t) => createFiles attempt dir File.all [] t
  { o with log := "PIGA: Creating /proc entries.\n" :: o.log }

/-- What the allocators give to the seven creations: memory that is not in
use, and never the same to two of them. -/
structure Attempts (t : ProcFs Handler) where
  attempt : Option File → Attempt
  fresh : ∀ i p, (attempt i).memory = some p → t.entries p = none
  distinct : ∀ i j p, (attempt i).memory = some p → (attempt j).memory = some p → i = j

variable {t t' : ProcFs Handler} {a : Attempts t} {dir p : Ptr} {made : List (File × Ptr)} {f : File}

def dirEntry (a : Attempts t) (made : List (File × Ptr)) : ProcDirEntry Handler :=
  { newEntry (a.attempt none) procPigaDir.toList (sIfdir ||| (sIrugo ||| sIxugo)) 2 .dir t.root with
      subdir := made.map Prod.snd }

def fileEntry (a : Attempts t) (dir : Ptr) (f : File) : ProcDirEntry Handler :=
  connect f (newEntry (a.attempt (some f)) f.name.toList (f.createMode ||| sIfreg) 1 .file dir)

/-- The directory is in the root with exactly the files that are made, each
connected to its handlers, and all else is as it was in `t`. -/
structure Built (a : Attempts t) (dir : Ptr) (made : List (File × Ptr)) (t' : ProcFs Handler) : Prop where
  root : t'.root = t.root
  place : (a.attempt none).memory = some dir
  places : ∀ f p, (f, p) ∈ made → (a.attempt (some f)).memory = some p
  inRoot : ∃ r, t.entries t.root = some r ∧
    t'.entries t.root = some { r with nlink := r.nlink + 1, subdir := dir :: r.subdir }
  directory : t'.entries dir = some (dirEntry a made)
  files : ∀ f p, (f, p) ∈ made → t'.entries p = some (fileEntry a dir f)
  rest : ∀ p, p ≠ t.root → p ≠ dir → (∀ f, (f, p) ∉ made) → t'.entries p = t.entries p

def AllOrNothing (a : Attempts t) (o : Outcome) : Prop :=
  (o.result = 0 ∧ ∃ dir made, made.map Prod.fst = File.all.reverse ∧ Built a dir made o.tree) ∨
    (o.result = -enomem ∧ o.tree = t)

theorem mem_all (f : File) : f ∈ File.all := by
  cases f <;> decide

theorem name_ne_nil (f : File) : f.name.toList ≠ [] := by
  cases f <;> decide

theorem slash_notMem_name (f : File) : '/' ∉ f.name.toList := by
  cases f <;> decide

theorem name_ne_procPigaDir (f : File) : f.name.toList ≠ procPigaDir.toList := by
  cases f <;> decide

theorem createProcEntry_file (f : File) (b : Attempt) (t : ProcFs Handler) (parent : Option Ptr) :
    createProcEntry t b f.name.toList f.createMode parent =
      createEntry t b parent f.name.toList (f.createMode ||| sIfreg) 1 := by
  cases f <;> rfl

theorem isFile_createMode (f : File) : (f.createMode ||| sIfreg) &&& sIfmt = sIfreg := by
  cases f <;> decide

theorem Attempts.ne_root (a : Attempts t) {r : ProcDirEntry Handler} (hroot : t.entries t.root = some r) {i : Option File}
    (hp : (a.attempt i).memory = some p) : p ≠ t.root := by
  rintro rfl
  rw [a.fresh i _ hp] at hroot
  cases hroot

theorem Built.ne_dir (h : Built a dir made t') (hp : (a.attempt (some f)).memory = some p) : dir ≠ p := by
  rintro rfl
  cases a.distinct _ _ _ h.place hp

theorem Built.fresh (h : Built a dir made t') (hnew : ∀ p, (f, p) ∉ made)
    (hp : (a.attempt (some f)).memory = some p) : t'.entries p = none := by
  have hnone := a.fresh _ _ hp
  rw [← hnone]
  apply h.rest
  · obtain ⟨r, hr, _⟩ := h.inRoot
    exact a.ne_root hr hp
  · exact (h.ne_dir hp).symm
  · intro g hg
    cases a.distinct _ _ _ hp (h.places g p hg)
    exact hnew p hg

theorem built_nil {r : ProcDirEntry Handler} (hroot : t.entries t.root = some r)
    (hdir : (a.attempt none).memory = some dir) :
    Built a dir [] ((t.set dir (some (dirEntry a []))).modify t.root
      fun e => { e with nlink := e.nlink + 1, subdir := dir :: e.subdir }) := by
  have hne : t.root ≠ dir := (a.ne_root hroot hdir).symm
  refine { root := rfl, place := hdir, places := ?places, inRoot := ⟨r, hroot, ?inRoot⟩, directory := ?directory,
           files := ?files, rest := ?rest }
  case places =>
    intro f p hp
    cases hp
  case inRoot =>
    rw [entries_modify, entries_set_of_ne hne, hroot]
    rfl
  case directory => rw [entries_modify_of_ne hne.symm, entries_set]
  case files =>
    intro f p hp
    cases hp
  case rest =>
    intro p hp hpdir _
    rw [entries_modify_of_ne hp, entries_set_of_ne hpdir]

theorem Built.cons (h : Built a dir made t') (hnew : ∀ p, (f, p) ∉ made) (hp : (a.attempt (some f)).memory = some p) :
    Built a dir ((f, p) :: made) ((t'.set p (some (fileEntry a dir f))).modify dir
      fun e => { e with subdir := p :: e.subdir }) := by
  have hfresh := h.fresh hnew hp
  have hne := h.ne_dir hp
  obtain ⟨r, hr, hr'⟩ := h.inRoot
  -- the file, the directory and the root are at three places
  refine { root := h.root, place := h.place, places := ?places, inRoot := ⟨r, hr, ?inRoot⟩, directory := ?directory,
           files := ?files, rest := ?rest }
  case places =>
    intro g q hg
    rcases List.mem_cons.mp hg with heq | hg
    · cases heq
      exact hp
    · exact h.places g q hg
  case inRoot => rw [entries_modify_of_ne (a.ne_root hr h.place).symm, entries_set_of_ne (a.ne_root hr hp).symm, hr']
  case directory =>
    rw [entries_modify, entries_set_of_ne hne, h.directory]
    rfl
  case files =>
    intro g q hg
    rcases List.mem_cons.mp hg with heq | hg
    · cases heq
      rw [entries_modify_of_ne hne.symm, entries_set]
    · have hq := h.files g q hg
      have hqp : q ≠ p := by
        rintro rfl
        rw [hq] at hfresh
        cases hfresh
      rw [entries_modify_of_ne (h.ne_dir (h.places g q hg)).symm, entries_set_of_ne hqp, hq]
  case rest =>
    intro q hq hqdir hqmade
    have hqp : q ≠ p := by
      rintro rfl
      exact hqmade f List.mem_cons_self
    rw [entries_modify_of_ne hqdir, entries_set_of_ne hqp]
    exact h.rest q hq hqdir fun g hg => hqmade g (List.mem_cons_of_mem _ hg)

theorem Built.ne (h : Built a dir made t') : t' ≠ t := by
  rintro rfl
  have hdir := h.directory
  rw [a.fresh _ _ h.place] at hdir
  cases hdir

theorem Built.isNamed (h : Built a dir made t') {p : Ptr} (hp : (f, p) ∈ made) {name : List Char}
    (hname : f.name.toList ≠ name) : t'.isNamed name p = false := by
  rw [ProcFs.isNamed, h.files f p hp]
  exact beq_false_of_ne hname

theorem exists_lookup (h : f ∈ made.map Prod.fst) : ∃ p, made.lookup f = some p ∧ (f, p) ∈ made := by
  obtain ⟨⟨g, q⟩, hg, rfl⟩ := List.mem_map.mp h
  cases hlookup : made.lookup g with
  | none =>
      have hne := List.lookup_eq_none_iff.mp hlookup _ hg
      rw [bne_self_eq_false] at hne
      cases hne
  | some p =>
      obtain ⟨before, after, rfl, _⟩ := List.lookup_eq_some_iff.mp hlookup
      exact ⟨p, rfl, List.mem_append_right _ List.mem_cons_self⟩

theorem Built.takeBack_eq (h : Built a dir made t') {fs : List File} (hfs : ∀ f ∈ fs, f ∈ made.map Prod.fst) :
    takeBack dir made fs t' = t' := by
  have hfiles : fs.foldl (fun t f => removeProcEntry t f.name.toList (made.lookup f)) t' = t' := by
    -- were a file not made yet, its parent would be NULL and the name looked for in the root
    induction fs with
    | nil => rfl
    | cons f fs ih =>
        obtain ⟨p, hlookup, hp⟩ := exists_lookup (hfs f List.mem_cons_self)
        have hchildren : t'.children p = [] := by
          rw [ProcFs.children, h.files f p hp]
          rfl
        rw [List.foldl_cons, hlookup, removeProcEntry_of_forall (slash_notMem_name f)]
        · exact ih fun g hg => hfs g (List.mem_cons_of_mem _ hg)
        · intro q hq
          rw [hchildren] at hq
          cases hq
  rw [takeBack, hfiles]
  apply removeProcEntry_of_forall (by decide)
  intro p hp
  rw [ProcFs.children, h.directory] at hp
  obtain ⟨⟨g, q⟩, hg, rfl⟩ := List.mem_map.mp hp
  exact h.isNamed hg (name_ne_procPigaDir g)

theorem mem_of_mem_undo {before fs : List File} {f g : File} (h : before ++ f :: fs = File.all) (hg : g ∈ f.undo) :
    g ∈ before := by
  have hget : File.all[before.length]? = some f := by
    rw [← h, List.getElem?_append_right (Nat.le_refl _), Nat.sub_self, List.getElem?_cons_zero]
  have htake : File.all.take before.length = before := by
    rw [← h, List.take_left]
  have hlength : before.length < 6 := by
    have := congrArg List.length h
    rw [List.length_append, List.length_cons] at this
    change _ = 6 at this
    omega
  -- what is left is a look at the six lists of the source
  rw [← htake]
  generalize before.length = n at hget hlength
  interval_cases n <;> cases hget <;> revert g <;> simp [File.undo, File.all]

/-- How the creation of the files ends, by the first of them that fails. -/
def Ends (a : Attempts t) (dir : Ptr) (o : Outcome) : Option File → Prop
  | none =>
      o.result = 0 ∧ o.log = ["PIGA: Successfully created /proc entries.\n"] ∧
        ∃ made, made.map Prod.fst = File.all.reverse ∧ Built a dir made o.tree
  | some f =>
      o.result = -enomem ∧ o.log = [failedText (some f)] ∧
        ∃ before after made, before ++ f :: after = File.all ∧ made.map Prod.fst = before.reverse ∧
          Built a dir made o.tree

theorem Built.create (h : Built a dir made t') (hnew : ∀ p, (f, p) ∉ made) (hfails : ¬(a.attempt (some f)).fails) :
    ∃ p t'', createProcEntry t' (a.attempt (some f)) f.name.toList f.createMode (some dir) = (some p, t'') ∧
      Built a dir ((f, p) :: made) (t''.modify p (connect f)) := by
  rw [Attempt.fails, not_or] at hfails
  obtain ⟨p, hp⟩ := Option.ne_none_iff_exists'.mp hfails.1
  have hne := h.ne_dir hp
  rw [createProcEntry_file, createEntry_file (name_ne_nil f) (slash_notMem_name f) hp hfails.2 (isFile_createMode f)]
  refine ⟨p, _, rfl, ?_⟩
  dsimp only [Option.getD_some]
  rw [modify_set_comm hne.symm, modify_set, ← modify_set_comm hne.symm]
  exact h.cons hnew hp

theorem createFiles_ends {fs before : List File} (hall : before ++ fs = File.all)
    (hmade : made.map Prod.fst = before.reverse) (h : Built a dir made t') :
    Ends a dir (createFiles a.attempt dir fs made t') (fs.find? fun f => (a.attempt (some f)).fails) := by
  induction fs generalizing before made t' with
  | nil =>
      rw [List.append_nil] at hall
      exact ⟨rfl, rfl, made, hall ▸ hmade, h⟩
  | cons f fs ih =>
      have hnew : ∀ p, (f, p) ∉ made := by
        intro p hp
        have hmem : f ∈ before := by
          rw [← List.mem_reverse, ← hmade]
          exact List.mem_map_of_mem hp
        have hnodup : (before ++ f :: fs).Nodup := by
          rw [hall]
          decide
        exact (List.nodup_append.mp hnodup).2.2 f hmem f List.mem_cons_self rfl
      by_cases hfails : (a.attempt (some f)).fails
      · have htakeBack : takeBack dir made f.undo t' = t' := by
          apply h.takeBack_eq
          intro g hg
          rw [hmade, List.mem_reverse]
          exact mem_of_mem_undo hall hg
        rw [createFiles, createProcEntry_file, createEntry_fails hfails fun p => h.fresh hnew,
          List.find?_cons_of_pos (by exact decide_eq_true hfails)]
        dsimp only
        rw [htakeBack]
        exact ⟨rfl, rfl, before, fs, made, hall, hmade, h⟩
      · obtain ⟨p, t'', hcreate, hbuilt⟩ := h.create hnew hfails
        rw [createFiles, hcreate, List.find?_cons_of_neg (by rwa [decide_eq_true_eq])]
        have hall' : (before ++ [f]) ++ fs = File.all := by
          rw [List.append_assoc]
          exact hall
        refine ih hall' ?_ hbuilt
        rw [List.map_cons, hmade, List.reverse_append]
        rfl

theorem initPigaProcfs_of_fails (hfails : (a.attempt none).fails) :
    initPigaProcfs a.attempt t = ⟨-enomem, t, ["PIGA: Creating /proc entries.\n", failedText none]⟩ := by
  rw [initPigaProcfs, procMkdir, createEntry_fails hfails (a.fresh none)]

theorem initPigaProcfs_ends {r : ProcDirEntry Handler} (hroot : t.entries t.root = some r)
    (hfails : ¬(a.attempt none).fails) :
    ∃ dir o, Ends a dir o (File.all.find? fun f => (a.attempt (some f)).fails) ∧
      initPigaProcfs a.attempt t = { o with log := "PIGA: Creating /proc entries.\n" :: o.log } := by
  rw [Attempt.fails, not_or] at hfails
  obtain ⟨dir, hdir⟩ := Option.ne_none_iff_exists'.mp hfails.1
  refine ⟨dir, _, createFiles_ends (List.nil_append File.all) rfl (built_nil hroot hdir), ?_⟩
  rw [initPigaProcfs, procMkdir,
    createEntry_dir (by decide) (by decide) hdir hfails.2 (by decide) none (a.ne_root hroot hdir)]
  rfl

/-- Whatever else fails than the directory leaves the directory behind, with
the files that came before: every remove_proc_entry looks for the name in the
entry that has it. -/
theorem allOrNothing_iff (a : Attempts t) {r : ProcDirEntry Handler} (hroot : t.entries t.root = some r) :
    AllOrNothing a (initPigaProcfs a.attempt t) ↔
      (a.attempt none).fails ∨ ∀ f, ¬(a.attempt (some f)).fails := by
  by_cases hdir : (a.attempt none).fails
  · rw [initPigaProcfs_of_fails hdir]
    exact iff_of_true (Or.inr ⟨rfl, rfl⟩) (Or.inl hdir)
  · obtain ⟨dir, o, hends, ho⟩ := initPigaProcfs_ends hroot hdir
    rw [ho, or_iff_right hdir]
    cases hfind : File.all.find? fun f => (a.attempt (some f)).fails with
    | none =>
        rw [hfind] at hends
        obtain ⟨hresult, -, made, hmade, hbuilt⟩ := hends
        refine iff_of_true (Or.inl ⟨hresult, dir, made, hmade, hbuilt⟩) fun f => ?_
        exact of_decide_eq_false (Bool.eq_false_of_not_eq_true (List.find?_eq_none.mp hfind f (mem_all f)))
    | some f =>
        rw [hfind] at hends
        obtain ⟨hresult, -, before, after, made, -, -, hbuilt⟩ := hends
        have hfails := List.find?_some hfind
        refine iff_of_false ?_ fun hnone => hnone f (of_decide_eq_true hfails)
        rintro (⟨hzero, -⟩ | ⟨-, htree⟩)
        · rw [hresult] at hzero
          revert hzero
          decide
        · exact hbuilt.ne htree

def bareProc : ProcFs Handler :=
  ⟨0, fun p => if p = 0 then some ⟨1, "/proc".toList, sIfdir ||| (sIrugo ||| sIxugo), 2, 0, 0, 0, some .dir, some .dir, none,
    [], none, none⟩ else none⟩

def place : Option File → Ptr
  | none => 1
  | some .status => 2
  | some .mode => 3
  | some .getsid => 4
  | some .loadSequence => 5
  | some .loadLink => 6
  | some .policy => 7

theorem place_injective : Function.Injective place := by
  rintro (_ | (_ | _ | _ | _ | _ | _)) (_ | (_ | _ | _ | _ | _ | _)) h <;> first | rfl | cases h

def bareAttempts (without : List File) : Attempts bareProc where
  attempt i := ⟨some (place i), if i ∈ without.map some then 0 else 0xf0000000⟩
  fresh i p h := by
    cases h
    rcases i with _ | (_ | _ | _ | _ | _ | _) <;> rfl
  distinct i j p hi hj := place_injective (Option.some.inj (hi.trans hj.symm))

theorem allOrNothing_bareProc :
    bareProc.entries bareProc.root ≠ none ∧
      AllOrNothing (bareAttempts []) (initPigaProcfs (bareAttempts []).attempt bareProc) := by
  refine ⟨by decide, (allOrNothing_iff (bareAttempts []) rfl).mpr (Or.inr ?_)⟩
  intro f
  cases f <;> decide

/-- The file mode gets no inode number: the directory and the file status
stay in /proc. -/
theorem bareProc_leftBehind :
    let o := initPigaProcfs (bareAttempts [.mode]).attempt bareProc
    o.result = -enomem ∧ o.log = ["PIGA: Creating /proc entries.\n", "PIGA: Failed to create /proc/piga/mode file"] ∧
      bareProc.children 0 = [] ∧ o.tree.children 0 = [1] ∧ o.tree.isNamed "piga".toList 1 = true ∧
        o.tree.children 1 = [2] ∧ o.tree.isNamed "status".toList 2 = true ∧ ¬AllOrNothing (bareAttempts [.mode]) o := by
  intro o
  have hresult : o.result = -enomem := by decide
  have hchildren : o.tree.children 0 = [1] := by decide
  refine ⟨hresult, by decide, by decide, hchildren, by decide, by decide, by decide, ?_⟩
  rintro (⟨hzero, -⟩ | ⟨-, htree⟩)
  · rw [hresult] at hzero
    revert hzero
    decide
  · rw [htree] at hchildren
    revert hchildren
    decide

end PigaLinux.ProcInit
