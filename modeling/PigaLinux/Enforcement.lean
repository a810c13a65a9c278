import PigaLinux.Avc
import PigaLinux.Runs

namespace PigaLinux.Enforcement

open Kernel Trace Greedy Piga Monitor Runs Avc

def granted (k : State) : List AvcCall → List Access
  | [] => []
  | c :: cs =>
      (if (avcHasPermFlags k c).value.rc = 0 then [c.access] else []) ++
        granted (avcHasPermFlags k c).value.state cs

/-- The monitor is switched on and looks at every access. -/
def FullCheck (k : State) : Prop := k.status = true ∧ k.auditOnlyMode = false

instance : DecidablePred FullCheck := fun _ => inferInstanceAs (Decidable (_ ∧ _))

variable {k : State}

theorem FullCheck.examines (h : FullCheck k) (c : Call) : Examines k c := by
  refine ⟨h.1, ?_⟩
  rw [auditOnlySkips]
  split
  · rfl
  · rw [h.2, Bool.false_and]

theorem FullCheck.state (h : FullCheck k) (c : AvcCall) :
    (avcHasPermFlags k c).value.state = if c.Granted then k.sweep c.access else k := by
  rw [avcHasPermFlags_state, pigaHasPerm_value, if_pos (h.examines c.toCall)]
  rfl

theorem FullCheck.next (h : FullCheck k) (c : AvcCall) : FullCheck (avcHasPermFlags k c).value.state := by
  rw [h.state]
  split <;> exact h

theorem FullCheck.rc_eq_zero (h : FullCheck k) {c : AvcCall} (hrc : (avcHasPermFlags k c).value.rc = 0) :
    c.Granted ∧ ¬Refused k.pol c.access k.pol.seq := by
  obtain ⟨hg, hp⟩ := avcHasPermFlags_rc_eq_zero hrc
  exact ⟨hg, (allowed_iff (h.examines c.toCall)).mp hp⟩

/-- The token of a sequence is never behind the greedy match of what was
granted, so a granted access cannot be the one that completes the signature. -/
theorem greedy_granted_lt {p : Policy} {s : Sequence} (hs : s ∈ p.seq) (hf : Fresh p s)
    (cs : List AvcCall) (k : State) (hk : FullCheck k) (seen past : List Access)
    (hpol : k.pol = sweeps p seen) (hsub : past.Sublist seen)
    (hlt : greedy Link.Matches (links p s) past < s.length.toNat) :
    greedy Link.Matches (links p s) (past ++ granted k cs) < s.length.toNat := by
  have hlen := links_length hf.safe
  induction cs generalizing k seen past with
  | nil => rwa [granted, List.append_nil]
  | cons c cs ih =>
      rw [granted, ← List.append_assoc]
      by_cases hg : c.Granted
      · have hnext : (avcHasPermFlags k c).value.state.pol = sweeps p (seen ++ [c.access]) := by
          rw [hk.state, if_pos hg, State.sweep, hpol, ← sweeps_nil ((sweeps p seen).sweep c.access),
            sweep_sweeps, sweeps_sweeps]
        by_cases hrc : (avcHasPermFlags k c).value.rc = 0
        · rw [if_pos hrc]
          refine ih _ (hk.next c) (seen ++ [c.access]) (past ++ [c.access]) hnext
            (hsub.append (List.Sublist.refl _)) ?_
          rw [← hlen] at hlt ⊢
          by_contra hge
          obtain ⟨hle, hlast⟩ := last_of_completes Link.Matches hlt (Nat.le_of_not_lt hge)
          have hmono := greedy_mono Link.Matches (links p s) hsub
          have hrefuse : Refuses p c.access (passes p seen s) :=
            (hf.refuses_passes seen c.access).mpr ⟨by omega, hlast⟩
          refine (hk.rc_eq_zero hrc).2 ⟨passes p seen s, ?_, ?_⟩
          · rw [hpol]
            exact mem_sweeps.mpr ⟨s, hs, rfl⟩
          · rw [hpol]
            exact hrefuse
        · rw [if_neg hrc, List.append_nil]
          exact ih _ (hk.next c) (seen ++ [c.access]) past hnext
            (hsub.trans (List.sublist_append_left _ _)) hlt
      · have hrc : (avcHasPermFlags k c).value.rc ≠ 0 := fun h => hg (hk.rc_eq_zero h).1
        have hnext : (avcHasPermFlags k c).value.state.pol = sweeps p seen := by
          rw [hk.state, if_neg hg, hpol]
        rw [if_neg hrc, List.append_nil]
        exact ih _ (hk.next c) seen past hnext hsub hlt

theorem granted_not_embeds {k : State} (hk : FullCheck k) (hf : AllFresh k.pol) (cs : List AvcCall)
    {s : Sequence} (hs : s ∈ k.pol.seq) {as : List Access} (hsub : as.Sublist (granted k cs)) :
    ¬List.Forall₂ Link.Matches (links k.pol s) as := by
  intro hall
  have hlt := greedy_granted_lt hs (hf s hs) cs k hk [] [] (sweeps_nil k.pol).symm
    (List.Sublist.refl []) (by rw [greedy_nil]; exact (hf s hs).one_le)
  have hle := (sublistForall₂_iff_length_le Link.Matches (links k.pol s) (granted k cs)).mp
    (List.sublistForall₂_iff.mpr ⟨as, hall, hsub⟩)
  rw [links_length (hf s hs).safe] at hle
  rw [List.nil_append] at hlt
  omega

/-- No run of checks lets through, in order, accesses that match all links of
an installed signature. -/
theorem granted_never_completes (k : State) (hk : FullCheck k) (hf : AllFresh k.pol)
    (cs : List AvcCall) :
    ∀ s ∈ k.pol.seq, ¬∃ as, as.Sublist (granted k cs) ∧ List.Forall₂ Link.Matches (links k.pol s) as := by
  rintro s hs ⟨as, hsub, hall⟩
  exact granted_not_embeds hk hf cs hs hsub hall

def auditedCall (a : Access) (flags : U32) (h : a.requested ≠ 0) : AvcCall :=
  ⟨a, some ⟨.fs, 0⟩, flags, ⟨a.requested, a.requested, 0, 1, 0⟩, true, h⟩

theorem granted_never_completes_shadow :
    FullCheck shadowState ∧ AllFresh shadowState.pol ∧
      ¬∃ as, as.Sublist (granted shadowState
          [auditedCall readShadow 0 (by decide), auditedCall writeTty 0 (by decide)]) ∧
        List.Forall₂ Link.Matches (links shadowState.pol ⟨2, 0, 0⟩) as :=
  ⟨by decide, by decide,
    granted_never_completes shadowState (by decide) (by decide) _ ⟨2, 0, 0⟩ (by decide)⟩

end PigaLinux.Enforcement
