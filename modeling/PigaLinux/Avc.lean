import PigaLinux.Piga

namespace PigaLinux.Avc

open Kernel Trace Piga

inductive AuditType
  | fs
  | net
  | cap
  | ipc
  | task
  | key
  | none
  | kmod
deriving DecidableEq, Repr

/-- What the callers of the cache fill in of the common audit data and
the audit code reads back. -/
structure AuditData where
  type : AuditType
  auditdeny : U32
deriving DecidableEq, Repr

structure AuditRecord where
  ssid : U32
  tsid : U32
  tclass : U16
  requested : U32
  audited : U32
  denied : U32
deriving DecidableEq, Repr

def ipermFlagRcu : U32 := 1

def avcStrict : U32 := 1

def avdFlagsPermissive : U32 := 1

/-- A permission check together with the decision that the cache or the
security server gives for it. The cache refuses to look for no permission. -/
structure AvcCall where
  access : Access
  auditdata : Option AuditData
  flags : U32
  avd : AvDecision
  enforcing : Bool
  requested_ne : access.requested ≠ 0

/-- The answer of avc_has_perm_noaudit once the decision is at hand. What it
grants in the cache in permissive mode is seen by the next check only. -/
def noauditRc (enforcing : Bool) (requested flags : U32) (avd : AvDecision) : Int :=
  if requested &&& ~~~avd.allowed ≠ 0 then
    if flags &&& avcStrict ≠ 0 then -eacces
    else if !enforcing || avd.flags &&& avdFlagsPermissive != 0 then 0
    else -eacces
  else 0

def dontaudit (avd : AvDecision) : Option AuditData → Bool
  | none => false
  | some d => d.auditdeny != 0 && d.auditdeny &&& avd.auditdeny == 0

def auditMasks (requested : U32) (avd : AvDecision) (result : Int) (d : Option AuditData) : U32 × U32 :=
  let denied := requested &&& ~~~avd.allowed
  if denied ≠ 0 then (if dontaudit avd d then 0 else denied &&& avd.auditdeny, denied)
  else if result ≠ 0 then (requested, requested)
  else (requested &&& avd.auditallow, denied)

def auditType : Option AuditData → AuditType
  | none => .none
  | some d => d.type

def avcAudit (a : Access) (avd : AvDecision) (result : Int) (d : Option AuditData) (flags : U32) :
    Int × Option AuditRecord :=
  let masks := auditMasks a.requested avd result d
  if masks.1 = 0 then (0, none)
  else if auditType d = .fs ∧ flags &&& ipermFlagRcu ≠ 0 then (-echild, none)
  else (0, some ⟨a.ssid, a.tsid, a.tclass, a.requested, masks.1, masks.2⟩)

structure Outcome where
  rc : Int
  state : State
  record : Option AuditRecord

def AvcCall.Granted (c : AvcCall) : Prop := noauditRc c.enforcing c.access.requested 0 c.avd ≠ -eacces

instance : DecidablePred AvcCall.Granted := fun _ => inferInstanceAs (Decidable (_ ≠ _))

def AvcCall.toCall (c : AvcCall) : Call :=
  ⟨c.access, noauditRc c.enforcing c.access.requested 0 c.avd, some c.avd⟩

/-- What stands under CONFIG_SECURITY_PIGA between the check and its audit. -/
def pigaHook (k : State) (c : AvcCall) : Traced U32 (Int × State) :=
  if c.Granted then pigaHasPerm k c.toCall
  else pure (noauditRc c.enforcing c.access.requested 0 c.avd, k)

def avcHasPermFlags (k : State) (c : AvcCall) : Traced U32 Outcome := do
  let out ← pigaHook k c
  let rc2 := avcAudit c.access c.avd out.1 c.auditdata c.flags
  return ⟨if rc2.1 ≠ 0 then rc2.1 else out.1, out.2, rc2.2⟩

def avcHasPerm (k : State) (c : AvcCall) : Traced U32 Outcome := avcHasPermFlags k { c with flags := 0 }

theorem noauditRc_cases (enforcing : Bool) (requested flags : U32) (avd : AvDecision) :
    noauditRc enforcing requested flags avd = 0 ∨ noauditRc enforcing requested flags avd = -eacces := by
  rw [noauditRc]
  split
  · split
    · exact Or.inr rfl
    · split
      · exact Or.inl rfl
      · exact Or.inr rfl
  · exact Or.inl rfl

theorem avcAudit_cases (a : Access) (avd : AvDecision) (result : Int) (d : Option AuditData) (flags : U32) :
    (avcAudit a avd result d flags).1 = 0 ∨ (avcAudit a avd result d flags).1 = -echild := by
  rw [avcAudit]
  split
  · exact Or.inl rfl
  · split
    · exact Or.inr rfl
    · exact Or.inl rfl

theorem avcAudit_ne_zero_iff (a : Access) (avd : AvDecision) (result : Int) (d : Option AuditData)
    (flags : U32) :
    (avcAudit a avd result d flags).1 ≠ 0 ↔
      (auditMasks a.requested avd result d).1 ≠ 0 ∧ auditType d = .fs ∧ flags &&& ipermFlagRcu ≠ 0 := by
  rw [avcAudit]
  split
  · simp_all
  · split
    · simp_all [echild]
    · simp_all

theorem avcHasPermFlags_state (k : State) (c : AvcCall) :
    (avcHasPermFlags k c).value.state =
      if c.Granted then (pigaHasPerm k c.toCall).value.2 else k := by
  rw [avcHasPermFlags, value_bind, pigaHook]
  split <;> rfl

theorem avcHasPermFlags_rc (k : State) (c : AvcCall) :
    (avcHasPermFlags k c).value.rc =
      if (avcAudit c.access c.avd (pigaHook k c).value.1 c.auditdata c.flags).1 ≠ 0 then -echild
      else (pigaHook k c).value.1 := by
  change (if _ then _ else _) = _
  split
  next h => exact (avcAudit_cases c.access c.avd _ c.auditdata c.flags).resolve_left h
  next h => rfl

theorem avcHasPermFlags_rc_eq_zero {k : State} {c : AvcCall} (h : (avcHasPermFlags k c).value.rc = 0) :
    c.Granted ∧ (pigaHasPerm k c.toCall).value.1 = 0 := by
  rw [avcHasPermFlags_rc] at h
  split at h
  · exact absurd h (by decide)
  · by_cases hg : c.Granted
    · rw [pigaHook, if_pos hg] at h
      exact ⟨hg, h⟩
    · rw [pigaHook, if_neg hg, value_pure] at h
      exact absurd (h.symm.trans (not_not.mp hg)) (by decide)

end PigaLinux.Avc
