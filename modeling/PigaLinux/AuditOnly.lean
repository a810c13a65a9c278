import PigaLinux.Bits
import PigaLinux.Denials

namespace PigaLinux.AuditOnly

open Kernel Trace Bits Piga Monitor Avc Denials

abbrev Decisions := U32 → U32 → U16 → AvDecision

def decision (D : Decisions) (a : Access) : AvDecision := D a.ssid a.tsid a.tclass

def enforcedCall (D : Decisions) (a : Access) : Call :=
  ⟨a, noauditRc true a.requested 0 (decision D a), some (decision D a)⟩

def trail (k : State) : List Call → List (Int × List U32)
  | [] => []
  | c :: cs =>
      ((pigaHasPerm k c).value.1, positions (pigaHasPerm k c).value.2) :: trail (pigaHasPerm k c).value.2 cs

/-- Every vector of a signature has its auditallow rule. -/
def Audited (D : Decisions) (p : Policy) : Prop :=
  ∀ s ∈ p.seq, ∀ l ∈ links p s, l.requested &&& ~~~(D l.cs l.cc l.tclass).auditallow = 0

instance (D : Decisions) (p : Policy) : Decidable (Audited D p) :=
  inferInstanceAs (Decidable (∀ s ∈ p.seq, ∀ l ∈ links p s, _ = _))

theorem current_mem_links {p : Policy} {s : Sequence} (h : Safe p s) : p.current s ∈ links p s := by
  rw [← token_current h]
  exact List.get_mem _ _

variable {D : Decisions} {p : Policy}

theorem not_matches_of_unaudited (hsafe : AllSafe p) (haud : Audited D p) {a : Access}
    (h : a.requested &&& (decision D a).auditallow = 0) (s : Sequence) (hs : s ∈ p.seq) :
    ¬(p.current s).Matches a := by
  rintro ⟨hcs, hcc, ht, hreq⟩
  have hsub := haud s hs _ (current_mem_links (hsafe s hs))
  rw [hcs, hcc, ht] at hsub
  exact and_ne_zero_of_subset hsub hreq h

theorem Audited.sweep (h : Audited D p) (a : Access) : Audited D (p.sweep a) := by
  intro s' hs' l hl
  obtain ⟨s, hs, rfl⟩ := List.mem_map.mp hs'
  refine h s hs l ?_
  rw [← passSeq_links p a s]
  exact hl

theorem AllSafe.sweep (h : AllSafe p) (a : Access) : AllSafe (p.sweep a) := by
  rw [← sweeps_nil (p.sweep a), sweep_sweeps]
  exact h.sweeps [a]

theorem enforcedCall_rc {a : Access} (h : a.requested &&& ~~~(decision D a).allowed = 0) :
    (enforcedCall D a).rc = 0 := by
  simp [enforcedCall, noauditRc, h]

/-- One call: either both modes examine it, or the filter skips it and the
loop would have found nothing. -/
theorem call_mode_irrelevant (hsafe : AllSafe p) (haud : Audited D p) (status : Bool) {a : Access}
    (h : a.requested &&& ~~~(decision D a).allowed = 0) :
    ∃ rc q, (pigaHasPerm ⟨status, true, p⟩ (enforcedCall D a)).value = (rc, ⟨status, true, q⟩) ∧
      (pigaHasPerm ⟨status, false, p⟩ (enforcedCall D a)).value = (rc, ⟨status, false, q⟩) ∧
      (q = p ∨ q = p.sweep a) := by
  rw [pigaHasPerm_value, pigaHasPerm_value]
  have hfull : Examines ⟨status, false, p⟩ (enforcedCall D a) ↔ status = true := by
    simp [Examines, auditOnlySkips, enforcedCall]
  have honly : Examines ⟨status, true, p⟩ (enforcedCall D a) ↔
      status = true ∧ a.requested &&& (decision D a).auditallow ≠ 0 := by
    simp [Examines, auditOnlySkips, enforcedCall, h]
  by_cases hst : status = true
  · by_cases hau : a.requested &&& (decision D a).auditallow = 0
    · have hno := not_matches_of_unaudited hsafe haud hau
      have hrefused : ¬Refused p a p.seq := by
        rintro ⟨s, hs, hr⟩
        exact hno s hs hr.1
      have hsweep : p.sweep a = p := sweep_eq_self fun s hs hm => hno s hs hm.1
      refine ⟨0, p, ?_, ?_, Or.inl rfl⟩
      · rw [if_neg fun hx => (honly.mp hx).2 hau, enforcedCall_rc h]
      · rw [if_pos (hfull.mpr hst)]
        refine Prod.ext (if_neg hrefused) ?_
        change ({ status := status, auditOnlyMode := false, pol := p.sweep a } : State) = _
        rw [hsweep]
    · exact ⟨_, _, if_pos (honly.mpr ⟨hst, hau⟩), if_pos (hfull.mpr hst), Or.inr rfl⟩
  · exact ⟨_, _, if_neg fun hx => hst (honly.mp hx).1, if_neg fun hx => hst (hfull.mp hx), Or.inl rfl⟩

/-- With the auditallow rules in place, audit-only mode gives every run the
answers and the tokens of the full check. -/
theorem auditOnly_transparent (D : Decisions) (p : Policy) (hsafe : AllSafe p) (haud : Audited D p)
    (status : Bool) (as : List Access)
    (hgrant : ∀ a ∈ as, a.requested &&& ~~~(decision D a).allowed = 0) :
    trail ⟨status, true, p⟩ (as.map (enforcedCall D)) = trail ⟨status, false, p⟩ (as.map (enforcedCall D)) := by
  induction as generalizing p with
  | nil => rfl
  | cons a as ih =>
      obtain ⟨rc, q, honly, hfull, hq⟩ :=
        call_mode_irrelevant hsafe haud status (hgrant a List.mem_cons_self)
      have hrest : ∀ b ∈ as, b.requested &&& ~~~(decision D b).allowed = 0 :=
        fun b hb => hgrant b (List.mem_cons_of_mem _ hb)
      have hnext : AllSafe q ∧ Audited D q := by
        rcases hq with rfl | rfl
        · exact ⟨hsafe, haud⟩
        · exact ⟨AllSafe.sweep hsafe a, haud.sweep a⟩
      rw [List.map_cons, trail, trail, honly, hfull, ih q hnext.1 hnext.2 hrest]
      rfl

def shadowDecisions : Decisions := fun _ tsid _ =>
  if tsid = 20 then ⟨0xffffffff, 2, 0, 1, 0⟩
  else if tsid = 30 then ⟨0xffffffff, 4, 0, 1, 0⟩
  else ⟨0xffffffff, 0, 0, 1, 0⟩

theorem auditOnly_transparent_shadow :
    trail ⟨true, true, shadowPolicy⟩ ([⟨11, 40, 6, 2⟩, readShadow, writeTty].map (enforcedCall shadowDecisions)) =
      trail ⟨true, false, shadowPolicy⟩ ([⟨11, 40, 6, 2⟩, readShadow, writeTty].map (enforcedCall shadowDecisions)) :=
  auditOnly_transparent shadowDecisions shadowPolicy
    (AllFresh.safe (by decide)) (by decide) true _ (by decide)

/-- A denied access that the monitor's filter takes for audited, and that the
override of access(2) keeps from being audited. -/
def Overridden (c : AvcCall) : Prop :=
  c.access.requested &&& ~~~c.avd.allowed &&& c.avd.auditdeny ≠ 0 ∧ dontaudit c.avd c.auditdata = true

/-- The filter examines an access exactly when avc_audit would record it, but
for the accesses that only the override keeps out of the audit. -/
theorem examines_iff_audited_iff (k : State) (hs : k.status = true) (hm : k.auditOnlyMode = true)
    (c : AvcCall) :
    (Examines k c.toCall ↔ (auditMasks c.access.requested c.avd 0 c.auditdata).1 ≠ 0) ↔ ¬Overridden c := by
  by_cases hd : c.access.requested &&& ~~~c.avd.allowed = 0
  · have hno : ¬Overridden c := fun h => and_ne_zero_left h.1 hd
    have hx : Examines k c.toCall ↔ c.access.requested &&& c.avd.auditallow ≠ 0 := by
      simp [Examines, auditOnlySkips, AvcCall.toCall, hs, hm, hd]
    have ha : (auditMasks c.access.requested c.avd 0 c.auditdata).1 = c.access.requested &&& c.avd.auditallow := by
      simp [auditMasks, hd]
    rw [hx, ha]
    exact iff_of_true Iff.rfl hno
  · have hx : Examines k c.toCall ↔ c.access.requested &&& ~~~c.avd.allowed &&& c.avd.auditdeny ≠ 0 := by
      rw [Examines, auditOnlySkips, AvcCall.toCall]
      dsimp only
      rw [if_pos hd, hs, hm, Bool.true_and, beq_eq_false_iff_ne]
      exact and_iff_right rfl
    have ha : (auditMasks c.access.requested c.avd 0 c.auditdata).1 =
        if dontaudit c.avd c.auditdata then 0 else c.access.requested &&& ~~~c.avd.allowed &&& c.avd.auditdeny := by
      rw [auditMasks, if_pos hd]
    rw [hx, ha, Overridden]
    cases dontaudit c.avd c.auditdata <;> simp

def accessCall : AvcCall where
  access := ⟨10, 20, 6, 0x2⟩
  auditdata := some ⟨.fs, 0x20000⟩
  flags := 0
  avd := ⟨0, 0, 0xfffdffff, 1, 0⟩
  enforcing := false
  requested_ne := by decide

theorem accessCall_examined_not_audited :
    noauditRc accessCall.enforcing accessCall.access.requested 0 accessCall.avd = 0 ∧
      Examines ⟨true, true, shadowPolicy⟩ accessCall.toCall ∧
      (auditMasks accessCall.access.requested accessCall.avd 0 accessCall.auditdata).1 = 0 := by
  decide

theorem examines_iff_audited_iff_access :
    (Examines ⟨true, true, shadowPolicy⟩ accessCall.toCall ↔
        (auditMasks accessCall.access.requested accessCall.avd 0 accessCall.auditdata).1 ≠ 0) ↔
      ¬Overridden accessCall :=
  examines_iff_audited_iff ⟨true, true, shadowPolicy⟩ rfl rfl accessCall

end PigaLinux.AuditOnly
