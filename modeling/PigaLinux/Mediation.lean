import PigaLinux.ClassMap
import PigaLinux.Enforcement
import PigaLinux.Indices
import Mathlib.Algebra.Ring.Nat

namespace PigaLinux.Mediation

open Kernel Trace Indices Greedy Piga Monitor Runs Avc Enforcement ClassMap

def capLastCap : Nat := 34

def capToIndex (cap : Nat) : Nat := cap >>> 5

def capToMask (cap : Nat) : U32 := (1 : U32) <<< (cap &&& 31)

def secclassCapability : U16 := 4

def secclassCapability2 : U16 := 47

example : kernelClass "capability" = some secclassCapability ∧
    kernelClass "capability2" = some secclassCapability2 := by decide

/-- A check of task_has_capability, with the decision that the cache or the
security server gives for it. No valid capability has an index above 1. -/
structure CapCall where
  sid : U32
  cap : Nat
  audit : Bool
  avd : AvDecision
  enforcing : Bool
  valid : cap ≤ capLastCap

def capSclass (cap : Nat) : U16 := if capToIndex cap = 0 then secclassCapability else secclassCapability2

def CapCall.access (c : CapCall) : Access := ⟨c.sid, c.sid, capSclass c.cap, capToMask c.cap⟩

/-- The answer and the audit record. The decision is asked for without
auditing, and the monitor is not asked. -/
def taskHasCapability (c : CapCall) : Int × Option AuditRecord :=
  let rc := noauditRc c.enforcing c.access.requested 0 c.avd
  if c.audit then
    let rc2 := avcAudit c.access c.avd rc (some ⟨.cap, 0⟩) 0
    (if rc2.1 ≠ 0 then rc2.1 else rc, rc2.2)
  else (rc, none)

/-- A permission check of a hook, by the function that the hook calls. -/
inductive Check
  | hasPermFlags (c : AvcCall)
  | hasPerm (c : AvcCall)
  | capability (c : CapCall)

def Check.access : Check → Access
  | .hasPermFlags c | .hasPerm c => c.access
  | .capability c => c.access

def check (k : State) : Check → Traced U32 Outcome
  | .hasPermFlags c => avcHasPermFlags k c
  | .hasPerm c => avcHasPerm k c
  | .capability c => pure ⟨(taskHasCapability c).1, k, (taskHasCapability c).2⟩

def grantedChecks (k : State) : List Check → List Access
  | [] => []
  | c :: cs =>
      (if (check k c).value.rc = 0 then [c.access] else []) ++ grantedChecks (check k c).value.state cs

def mediated : List Check → List AvcCall
  | [] => []
  | .hasPermFlags c :: cs => c :: mediated cs
  | .hasPerm c :: cs => { c with flags := 0 } :: mediated cs
  | .capability _ :: cs => mediated cs

def Bypassed (l : Link) : Prop :=
  l.cs = l.cc ∧ ∃ cap ≤ capLastCap, l.tclass = capSclass cap ∧ l.requested &&& capToMask cap ≠ 0

theorem bypassed_of_matches {l : Link} {c : CapCall} (h : l.Matches c.access) : Bypassed l := by
  obtain ⟨hcs, hcc, ht, hr⟩ := h
  exact ⟨hcs.trans hcc.symm, c.cap, c.valid, ht, hr⟩

theorem filter_grantedChecks (Q : Access → Bool) (hQ : ∀ c : CapCall, Q c.access = false) (k : State)
    (cs : List Check) :
    ((grantedChecks k cs).filter Q).Sublist (granted k (mediated cs)) := by
  induction cs generalizing k with
  | nil => exact List.Sublist.refl []
  | cons c cs ih =>
      rw [grantedChecks, List.filter_append]
      cases c with
      | hasPermFlags c => exact List.filter_sublist.append (ih _)
      | hasPerm c => exact List.filter_sublist.append (ih _)
      | capability c =>
          have hone : (if (check k (.capability c)).value.rc = 0 then [Check.access (.capability c)] else []).filter Q
              = [] := by
            split
            · exact List.filter_cons_of_neg (by rw [Check.access, hQ c]; simp)
            · rfl
          rw [hone, List.nil_append]
          exact ih k

theorem not_completed_of_unbypassed {k : State} (hk : FullCheck k) (hf : AllFresh k.pol) {s : Sequence}
    (hs : s ∈ k.pol.seq) (hno : ∀ l ∈ links k.pol s, ¬Bypassed l) (cs : List Check) {as : List Access}
    (hsub : as.Sublist (grantedChecks k cs)) : ¬List.Forall₂ Link.Matches (links k.pol s) as := by
  intro hall
  let Q : Access → Bool := fun a => decide (∃ l ∈ links k.pol s, l.Matches a)
  have hcap : ∀ c : CapCall, Q c.access = false := by
    intro c
    apply decide_eq_false
    rintro ⟨l, hl, hm⟩
    exact hno l hl (bypassed_of_matches hm)
  have hself : as.filter Q = as := by
    rw [List.filter_eq_self]
    intro a ha
    obtain ⟨i, hi, rfl⟩ := List.getElem_of_mem ha
    have hi' : i < (links k.pol s).length := by rw [hall.length_eq]; exact hi
    exact decide_eq_true ⟨_, List.getElem_mem hi', (List.forall₂_iff_get.mp hall).2 i hi' hi⟩
  have hsub' : as.Sublist (granted k (mediated cs)) := by
    rw [← hself]
    exact (hsub.filter Q).trans (filter_grantedChecks Q hcap k cs)
  exact granted_not_embeds hk hf (mediated cs) hs hsub' hall

def wholeAccess (l : Link) : Access := ⟨l.cs, l.cc, l.tclass, l.requested⟩

def grantAll : AvDecision := ⟨0xffffffff, 0, 0, 1, 0⟩

theorem noauditRc_grantAll (requested flags : U32) : noauditRc true requested flags grantAll = 0 := by
  simp [noauditRc, grantAll]

def grantedCall (l : Link) (h : l.requested ≠ 0) : AvcCall := ⟨wholeAccess l, none, 0, grantAll, true, h⟩

theorem wholeAccess_matches {l : Link} (h : l.requested ≠ 0) : l.Matches (wholeAccess l) := by
  refine ⟨rfl, rfl, rfl, ?_⟩
  rwa [wholeAccess, BitVec.and_self]

theorem grantedCall_granted (l : Link) (h : l.requested ≠ 0) : (grantedCall l h).Granted := by
  rw [AvcCall.Granted]
  change noauditRc true l.requested 0 grantAll ≠ -eacces
  rw [noauditRc_grantAll]
  decide

theorem grantedCall_rc {k : State} (hk : FullCheck k) {l : Link} (h : l.requested ≠ 0)
    (hr : ¬Refused k.pol (wholeAccess l) k.pol.seq) : (avcHasPermFlags k (grantedCall l h)).value.rc = 0 := by
  have hhook : (pigaHook k (grantedCall l h)).value.1 = 0 := by
    rw [pigaHook, if_pos (grantedCall_granted l h)]
    exact (allowed_iff (hk.examines _)).mpr hr
  rw [avcHasPermFlags_rc, hhook, if_neg]
  rw [avcAudit_ne_zero_iff]
  rintro ⟨-, -, hflag⟩
  exact hflag (by simp [grantedCall])

variable {p : Policy} {s : Sequence}

theorem not_refused_of_few (hp : p.seq = [s]) (hf : Fresh p s) {seen : List Access}
    (hlt : seen.length + 1 < s.length.toNat) (a : Access) :
    ¬Refused (sweeps p seen) a (sweeps p seen).seq := by
  rintro ⟨s', hs', hr⟩
  obtain ⟨s₀, hs₀, rfl⟩ := mem_sweeps.mp hs'
  rw [hp, List.mem_singleton] at hs₀
  subst hs₀
  have hlast := ((hf.refuses_passes seen a).mp hr).1
  have hfew := greedy_le_events Link.Matches (links p s₀) seen
  omega

theorem grants_of_few (hp : p.seq = [s]) (hf : Fresh p s) (xs : List Link) (hxs : ∀ l ∈ xs, l.requested ≠ 0)
    (k : State) (hk : FullCheck k) (seen : List Access) (hpol : k.pol = sweeps p seen)
    (hlt : seen.length + xs.length < s.length.toNat) :
    ∃ cs k', (∀ rest, grantedChecks k (cs ++ rest) = xs.map wholeAccess ++ grantedChecks k' rest) ∧
      FullCheck k' ∧ k'.pol = sweeps p (seen ++ xs.map wholeAccess) := by
  induction xs generalizing k seen with
  | nil => exact ⟨[], k, fun rest => rfl, hk, by rw [List.map_nil, List.append_nil, hpol]⟩
  | cons x xs ih =>
      have hx := hxs x List.mem_cons_self
      rw [List.length_cons] at hlt
      have hr : ¬Refused k.pol (wholeAccess x) k.pol.seq := by
        rw [hpol]
        exact not_refused_of_few hp hf (by omega) _
      have hrc := grantedCall_rc hk hx hr
      have hnext : (avcHasPermFlags k (grantedCall x hx)).value.state.pol = sweeps p (seen ++ [wholeAccess x]) := by
        rw [hk.state, if_pos (grantedCall_granted x hx)]
        change k.pol.sweep (wholeAccess x) = _
        rw [hpol, ← sweeps_nil ((sweeps p seen).sweep (wholeAccess x)), sweep_sweeps, sweeps_sweeps]
      obtain ⟨cs, k', hgrant, hk', hpol'⟩ := ih (fun l hl => hxs l (List.mem_cons_of_mem _ hl)) _
        (hk.next (grantedCall x hx)) (seen ++ [wholeAccess x]) hnext
        (by rw [List.length_append, List.length_singleton]; omega)
      refine ⟨.hasPermFlags (grantedCall x hx) :: cs, k', ?_, hk', ?_⟩
      · intro rest
        rw [List.cons_append, grantedChecks, check, if_pos hrc, hgrant]
        rfl
      · rw [hpol', List.map_cons, List.append_assoc, List.singleton_append]

def signatureSequence (ls : List Link) : Sequence := ⟨BitVec.ofNat 32 ls.length, 0, 0⟩

def signaturePolicy (ls : List Link) (hlen : ls.length < 2 ^ 32) : Policy where
  sLen := 1
  lLen := BitVec.ofNat 32 ls.length
  seq := [signatureSequence ls]
  link := ls
  behind := fun _ => ⟨0, 0, 0, 0⟩
  seq_length := rfl
  link_length := by rw [BitVec.toNat_ofNat, Nat.mod_eq_of_lt hlen]

section signature

variable {ls : List Link} (hlen : ls.length < 2 ^ 32)
include hlen

theorem signatureSequence_length : (signatureSequence ls).length.toNat = ls.length := toNat_index hlen

theorem signaturePolicy_fresh (hne : 1 ≤ ls.length) : Fresh (signaturePolicy ls hlen) (signatureSequence ls) := by
  refine ⟨?_, rfl, ?_⟩
  · rw [signatureSequence_length hlen]
    exact hne
  · change 0 + (signatureSequence ls).length.toNat ≤ (signatureSequence ls).length.toNat
    rw [Nat.zero_add]

theorem signaturePolicy_links : links (signaturePolicy ls hlen) (signatureSequence ls) = ls := by
  rw [links, signatureSequence_length hlen]
  exact List.take_length

end signature

theorem wholeAccesses_match {xs : List Link} (h : ∀ x ∈ xs, x.requested ≠ 0) :
    List.Forall₂ Link.Matches xs (xs.map wholeAccess) := by
  rw [List.forall₂_map_right_iff, List.forall₂_same]
  exact fun x hx => wholeAccess_matches (h x hx)

/-- A capability check takes the place of the access to its link, so that one
access too few is examined. -/
theorem bypassed_completes {pre post : List Link} {l : Link} (hlen : (pre ++ l :: post).length < 2 ^ 32)
    (hreq : ∀ x ∈ pre ++ l :: post, x.requested ≠ 0) (hl : Bypassed l) :
    ∃ cs, List.Forall₂ Link.Matches (pre ++ l :: post)
      (grantedChecks ⟨true, false, signaturePolicy (pre ++ l :: post) hlen⟩ cs) := by
  obtain ⟨hcc, cap, hcap, ht, hr⟩ := hl
  have hpre : ∀ x ∈ pre, x.requested ≠ 0 := fun x hx => hreq x (List.mem_append_left _ hx)
  have hpost : ∀ x ∈ post, x.requested ≠ 0 := fun x hx =>
    hreq x (List.mem_append_right _ (List.mem_cons_of_mem _ hx))
  have hcount : (pre ++ l :: post).length = pre.length + post.length + 1 := by simp [Nat.add_assoc]
  have hslen := signatureSequence_length hlen
  have hfresh := signaturePolicy_fresh hlen (by omega)
  obtain ⟨cs₁, k₁, hg₁, hk₁, hp₁⟩ := grants_of_few rfl hfresh pre hpre
    ⟨true, false, signaturePolicy (pre ++ l :: post) hlen⟩ ⟨rfl, rfl⟩ [] (sweeps_nil _).symm
    (by rw [List.length_nil]; omega)
  obtain ⟨cs₂, k₂, hg₂, -, -⟩ := grants_of_few rfl hfresh post hpost k₁ hk₁ (pre.map wholeAccess)
    (by rw [hp₁, List.nil_append]) (by rw [List.length_map]; omega)
  let c : CapCall := ⟨l.cs, cap, false, grantAll, true, hcap⟩
  have hc : (check k₁ (.capability c)).value.rc = 0 := noauditRc_grantAll _ _
  have hrun : grantedChecks k₁ (.capability c :: (cs₂ ++ [])) = c.access :: post.map wholeAccess := by
    rw [grantedChecks, if_pos hc]
    change [c.access] ++ grantedChecks k₁ (cs₂ ++ []) = _
    rw [hg₂, grantedChecks, List.append_nil, List.singleton_append]
  refine ⟨cs₁ ++ .capability c :: (cs₂ ++ []), ?_⟩
  rw [hg₁, hrun]
  exact List.rel_append (wholeAccesses_match hpre)
    (List.Forall₂.cons ⟨rfl, hcc.symm, ht, hr⟩ (wholeAccesses_match hpost))

/-- A signature is never completed, whatever other signatures are installed,
exactly when no capability check matches a link of it, or when nothing at all
matches one of its links. -/
theorem neverCompleted_iff (ls : List Link) (hlen : ls.length < 2 ^ 32) :
    (∀ k, FullCheck k → AllFresh k.pol → ∀ s ∈ k.pol.seq, links k.pol s = ls →
        ∀ cs, ¬∃ as, as.Sublist (grantedChecks k cs) ∧ List.Forall₂ Link.Matches ls as) ↔
      (∃ l ∈ ls, l.requested = 0) ∨ ∀ l ∈ ls, ¬Bypassed l := by
  constructor
  · intro h
    by_contra hnot
    rw [not_or] at hnot
    obtain ⟨hreq, hby⟩ := hnot
    have hall : ∀ l ∈ ls, l.requested ≠ 0 := fun l hl hz => hreq ⟨l, hl, hz⟩
    obtain ⟨l, hl, hb⟩ : ∃ l ∈ ls, Bypassed l := by
      by_contra hno
      exact hby fun l hl hb => hno ⟨l, hl, hb⟩
    obtain ⟨pre, post, rfl⟩ := List.append_of_mem hl
    obtain ⟨cs, hcs⟩ := bypassed_completes hlen hall hb
    have hfresh := signaturePolicy_fresh hlen (List.length_pos_of_mem hl)
    refine h _ ⟨rfl, rfl⟩ ?_ _ List.mem_cons_self (signaturePolicy_links hlen) cs
      ⟨_, List.Sublist.refl _, hcs⟩
    intro s hs
    rw [List.mem_singleton.mp hs]
    exact hfresh
  · rintro h k hk hf s hs hlinks cs ⟨as, hsub, hall⟩
    rcases h with ⟨l, hl, hz⟩ | hno
    · obtain ⟨i, hi, rfl⟩ := List.getElem_of_mem hl
      have hm := (List.forall₂_iff_get.mp hall).2 i hi (by rw [← hall.length_eq]; exact hi)
      apply hm.2.2.2
      rw [List.get_eq_getElem, hz]
      exact BitVec.zero_and
    · subst hlinks
      exact not_completed_of_unbypassed hk hf hs hno cs hsub hall

def sysAdminLink : Link := ⟨10, 10, 4, 0x200000⟩

def sysAdminState : State := ⟨true, false, signaturePolicy [sysAdminLink] (by decide)⟩

theorem sysAdmin_completed :
    FullCheck sysAdminState ∧ AllFresh sysAdminState.pol ∧
      links sysAdminState.pol (signatureSequence [sysAdminLink]) = [sysAdminLink] ∧
      grantedChecks sysAdminState [.capability ⟨10, 21, true, grantAll, true, by decide⟩] =
        [⟨10, 10, 4, 0x200000⟩] ∧
      sysAdminLink.Matches ⟨10, 10, 4, 0x200000⟩ := by
  decide

theorem neverCompleted_iff_sysAdmin :
    (∀ k, FullCheck k → AllFresh k.pol → ∀ s ∈ k.pol.seq, links k.pol s = [sysAdminLink] →
        ∀ cs, ¬∃ as, as.Sublist (grantedChecks k cs) ∧ List.Forall₂ Link.Matches [sysAdminLink] as) ↔
      (∃ l ∈ [sysAdminLink], l.requested = 0) ∨ ∀ l ∈ [sysAdminLink], ¬Bypassed l :=
  neverCompleted_iff [sysAdminLink] (by decide)

end PigaLinux.Mediation
