import PigaLinux.Avc
import Mathlib.Algebra.Ring.Nat
import Mathlib.Logic.Function.Basic

namespace PigaLinux.AvcCache

open Kernel Trace Piga Avc

structure AvcNode where
  ssid : U32
  tsid : U32
  tclass : U16
  avd : AvDecision
deriving DecidableEq, Repr

/-- The cache: the chains of its slots from their heads on, and its counters. -/
structure Cache where
  slots : Fin 512 → List AvcNode
  lruHint : U32
  activeNodes : U32
  latestNotif : U32

/-- What a call depends on besides its arguments and the cache: the switch,
the security server, the threshold, the allocator and the locks of the slots. -/
structure Setting where
  enforcing : Bool
  securityComputeAv : U32 → U32 → U16 → AvDecision
  threshold : U32
  insertAllocated : Bool
  insertTrylock : Nat → Bool
  updateAllocated : Bool
  updateTrylock : Nat → Bool

structure Query where
  access : Access
  auditdata : Option AuditData
  flags : U32
  requested_ne : access.requested ≠ 0

inductive CallbackEvent
  | grant
  | tryRevoke
  | revoke
  | reset
  | auditallowEnable
  | auditallowDisable
  | auditdenyEnable
  | auditdenyDisable
deriving DecidableEq, Repr

def avcCacheReclaim : Nat := 16

def slotOf (x : U32) : Fin 512 := Fin.ofNat 512 (x &&& 511).toNat

def avcHash (ssid tsid : U32) (tclass : U16) : Fin 512 :=
  slotOf (ssid ^^^ (tsid <<< 2) ^^^ (tclass.setWidth 32 <<< 4))

def AvcNode.hash (n : AvcNode) : Fin 512 := avcHash n.ssid n.tsid n.tclass

def AvcNode.isFor (n : AvcNode) (ssid tsid : U32) (tclass : U16) : Bool :=
  ssid == n.ssid && tclass == n.tclass && tsid == n.tsid

/-- The inner loop of a reclaim: nodes are deleted from the head on, until
there are enough of them. -/
def reclaimChain : List AvcNode → Nat → List AvcNode × Nat
  | [], ecx => ([], ecx)
  | _ :: rest, ecx => if ecx + 1 ≥ avcCacheReclaim then (rest, ecx + 1) else reclaimChain rest (ecx + 1)

def reclaimLoop (trylock : Nat → Bool) : Nat → Nat → Cache → Cache
  | 0, _, c => c
  | tries + 1, ecx, c =>
      let c := { c with lruHint := c.lruHint + 1 }
      if trylock tries then
        let out := reclaimChain (c.slots (slotOf c.lruHint)) ecx
        let c := { c with
          slots := Function.update c.slots (slotOf c.lruHint) out.1
          activeNodes := c.activeNodes - BitVec.ofNat 32 (out.2 - ecx) }
        if out.2 ≥ avcCacheReclaim then c else reclaimLoop trylock tries out.2 c
      else reclaimLoop trylock tries ecx c

def avcReclaimNode (trylock : Nat → Bool) (c : Cache) : Cache := reclaimLoop trylock 512 0 c

/-- The cache after the allocation of a node that is not in it yet. -/
def avcAllocNode (threshold : U32) (allocated : Bool) (trylock : Nat → Bool) (c : Cache) : Option Cache :=
  if allocated then
    let c := { c with activeNodes := c.activeNodes + 1 }
    some (if c.activeNodes > threshold then avcReclaimNode trylock c else c)
  else none

def avcSearchNode (c : Cache) (ssid tsid : U32) (tclass : U16) : Option AvcNode :=
  (c.slots (avcHash ssid tsid tclass)).find? fun n => n.isFor ssid tsid tclass

def replaceNode (p : AvcNode → Bool) (new : AvcNode → AvcNode) : List AvcNode → Option (List AvcNode)
  | [] => none
  | n :: ns => if p n then some (new n :: ns) else (replaceNode p new ns).map (n :: ·)

def avcInsert (s : Setting) (ssid tsid : U32) (tclass : U16) (avd : AvDecision) (c : Cache) : Cache :=
  -- a decision of an older policy is not cached
  if avd.seqno < c.latestNotif then c
  else
    match avcAllocNode s.threshold s.insertAllocated s.insertTrylock c with
    | none => c
    | some c =>
        let node : AvcNode := ⟨ssid, tsid, tclass, avd⟩
        let h := avcHash ssid tsid tclass
        match replaceNode (fun n => n.isFor ssid tsid tclass) (fun _ => node) (c.slots h) with
        | some chain => { c with slots := Function.update c.slots h chain, activeNodes := c.activeNodes - 1 }
        | none => { c with slots := Function.update c.slots h (node :: c.slots h) }

def updateAvd (event : CallbackEvent) (perms : U32) (avd : AvDecision) : AvDecision :=
  match event with
  | .grant => { avd with allowed := avd.allowed ||| perms }
  | .tryRevoke | .revoke => { avd with allowed := avd.allowed &&& ~~~perms }
  | .auditallowEnable => { avd with auditallow := avd.auditallow ||| perms }
  | .auditallowDisable => { avd with auditallow := avd.auditallow &&& ~~~perms }
  | .auditdenyEnable => { avd with auditdeny := avd.auditdeny ||| perms }
  | .auditdenyDisable => { avd with auditdeny := avd.auditdeny &&& ~~~perms }
  | .reset => avd

/-- The new node takes the place of the old one. Where there is none it is
given back, after the reclaim that its allocation may have led to. -/
def avcUpdateNode (s : Setting) (event : CallbackEvent) (perms ssid tsid : U32) (tclass : U16) (seqno : U32)
    (c : Cache) : Cache :=
  match avcAllocNode s.threshold s.updateAllocated s.updateTrylock c with
  | none => c
  | some c =>
      let h := avcHash ssid tsid tclass
      let chain := replaceNode (fun n => n.isFor ssid tsid tclass && seqno == n.avd.seqno)
        (fun n => ⟨ssid, tsid, tclass, updateAvd event perms n.avd⟩) (c.slots h)
      { c with slots := Function.update c.slots h (chain.getD (c.slots h)), activeNodes := c.activeNodes - 1 }

/-- The decision that is handed back, and the cache with it in place. -/
def lookup (s : Setting) (ssid tsid : U32) (tclass : U16) (c : Cache) : AvDecision × Cache :=
  match avcSearchNode c ssid tsid tclass with
  | some node => (node.avd, c)
  | none =>
      let avd := s.securityComputeAv ssid tsid tclass
      (avd, avcInsert s ssid tsid tclass avd c)

structure Answer where
  rc : Int
  avd : AvDecision
  cache : Cache

def avcHasPermNoaudit (s : Setting) (a : Access) (flags : U32) (c : Cache) : Answer :=
  let out := lookup s a.ssid a.tsid a.tclass c
  if a.requested &&& ~~~out.1.allowed ≠ 0 then
    if flags &&& avcStrict ≠ 0 then ⟨-eacces, out.1, out.2⟩
    else if !s.enforcing || out.1.flags &&& avdFlagsPermissive != 0 then
      ⟨0, out.1, avcUpdateNode s .grant a.requested a.ssid a.tsid a.tclass out.1.seqno out.2⟩
    else ⟨-eacces, out.1, out.2⟩
  else ⟨0, out.1, out.2⟩

def avcFlush (c : Cache) : Cache :=
  { c with
    slots := fun _ => []
    activeNodes := c.activeNodes - BitVec.ofNat 32 ((List.finRange 512).map fun h => (c.slots h).length).sum }

def avcSsReset (seqno : U32) (c : Cache) : Cache :=
  let c := avcFlush c
  if seqno > c.latestNotif then { c with latestNotif := seqno } else c

def Query.call (q : Query) (s : Setting) (avd : AvDecision) : AvcCall :=
  ⟨q.access, q.auditdata, q.flags, avd, s.enforcing, q.requested_ne⟩

theorem avcHasPermNoaudit_avd (s : Setting) (a : Access) (flags : U32) (c : Cache) :
    (avcHasPermNoaudit s a flags c).avd = (lookup s a.ssid a.tsid a.tclass c).1 := by
  simp only [avcHasPermNoaudit]
  split
  · split
    · rfl
    · split
      · rfl
      · rfl
  · rfl

theorem avcHasPermNoaudit_rc (s : Setting) (a : Access) (flags : U32) (c : Cache) :
    (avcHasPermNoaudit s a flags c).rc =
      noauditRc s.enforcing a.requested flags (avcHasPermNoaudit s a flags c).avd := by
  rw [avcHasPermNoaudit_avd, noauditRc]
  simp only [avcHasPermNoaudit]
  split
  · split
    · rfl
    · split
      · rfl
      · rfl
  · rfl

end PigaLinux.AvcCache
