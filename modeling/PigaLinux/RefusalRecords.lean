import PigaLinux.Avc
import PigaLinux.Monitor

namespace PigaLinux.RefusalRecords

open Kernel Trace Piga Monitor Avc

def recordAccess (r : AuditRecord) : Access := ⟨r.ssid, r.tsid, r.tclass, r.requested⟩

def Recorded (k : State) (c : AvcCall) : Prop :=
  (avcHasPermFlags k c).value.rc = -eacces →
    ∃ r, (avcHasPermFlags k c).value.record = some r ∧ recordAccess r = c.access ∧ r.denied ≠ 0

def Recordable (c : AvcCall) : Prop :=
  c.access.requested &&& ~~~c.avd.allowed = 0 ∨
    (c.access.requested &&& ~~~c.avd.allowed &&& c.avd.auditdeny ≠ 0 ∧ dontaudit c.avd c.auditdata = false)

theorem auditMasks_ne_zero_iff (c : AvcCall) {result : Int} (h : result ≠ 0) :
    (auditMasks c.access.requested c.avd result c.auditdata).1 ≠ 0 ↔ Recordable c := by
  rw [auditMasks, Recordable]
  by_cases hd : c.access.requested &&& ~~~c.avd.allowed = 0
  · rw [if_neg (not_not.mpr hd), if_pos h]
    exact iff_of_true c.requested_ne (.inl hd)
  · rw [if_pos hd]
    cases dontaudit c.avd c.auditdata with
    | true => exact iff_of_false (fun hz => hz rfl) (fun hr => hr.elim hd fun hm => Bool.noConfusion hm.2)
    | false => exact ⟨fun hm => .inr ⟨hm, rfl⟩, fun hr => (hr.resolve_left hd).1⟩

theorem auditMasks_denied_ne_zero (c : AvcCall) {result : Int} (h : result ≠ 0) :
    (auditMasks c.access.requested c.avd result c.auditdata).2 ≠ 0 := by
  rw [auditMasks]
  by_cases hd : c.access.requested &&& ~~~c.avd.allowed = 0
  · rw [if_neg (not_not.mpr hd), if_pos h]
    exact c.requested_ne
  · rw [if_pos hd]
    exact hd

/-- A refusal of the monitor is on record exactly when SELinux's own decision
does not get in the way of it. -/
theorem recorded_iff (k : State) (c : AvcCall) (hgranted : c.Granted)
    (hrefused : (pigaHasPerm k c.toCall).value.1 = -eacces) : Recorded k c ↔ Recordable c := by
  have hresult : (-eacces : Int) ≠ 0 := by decide
  have hhook : (pigaHook k c).value.1 = -eacces := by rw [pigaHook, if_pos hgranted, hrefused]
  have hrecord : (avcHasPermFlags k c).value.record = (avcAudit c.access c.avd (-eacces) c.auditdata c.flags).2 := by
    rw [← hhook]
    rfl
  rw [Recorded, avcHasPermFlags_rc, hhook, hrecord, ← auditMasks_ne_zero_iff c hresult, avcAudit]
  by_cases hmask : (auditMasks c.access.requested c.avd (-eacces) c.auditdata).1 = 0
  · rw [if_pos hmask]
    simp [hmask]
  · rw [if_neg hmask]
    refine iff_of_true ?_ hmask
    -- a record that has to wait for the end of an RCU walk takes the answer with it
    by_cases hwait : auditType c.auditdata = .fs ∧ c.flags &&& ipermFlagRcu ≠ 0
    · rw [if_pos hwait]
      intro hrc
      exact absurd hrc (by decide)
    · rw [if_neg hwait]
      intro _
      exact ⟨_, rfl, rfl, auditMasks_denied_ne_zero c hresult⟩

/-- Permissive SELinux lets a read of the shadow file pass that its policy
denies and does not audit. -/
def silentRead : AvcCall where
  access := readShadow
  auditdata := none
  flags := 0
  avd := ⟨0, 0, 0xfffffffd, 1, 0⟩
  enforcing := false
  requested_ne := by decide

theorem silentRead_unrecorded :
    silentRead.Granted ∧ (pigaHasPerm shadowState silentRead.toCall).value.1 = -eacces ∧
      (avcHasPermFlags shadowState silentRead).value.rc = -eacces ∧
      (avcHasPermFlags shadowState silentRead).value.record = none ∧ ¬Recorded shadowState silentRead := by
  refine ⟨by decide, by decide, by decide, by decide, ?_⟩
  intro h
  have hnone : (avcHasPermFlags shadowState silentRead).value.record = none := by decide
  obtain ⟨r, hr, -⟩ := h (by decide)
  exact absurd (hnone.symm.trans hr) (by simp)

theorem recorded_iff_silentRead : Recorded shadowState silentRead ↔ Recordable silentRead :=
  recorded_iff shadowState silentRead (by decide) (by decide)

end PigaLinux.RefusalRecords
