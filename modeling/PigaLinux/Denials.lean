import PigaLinux.Enforcement

namespace PigaLinux.Denials

open Kernel Trace Greedy Piga Monitor Enforcement

/-- The state that a run of calls leaves. -/
def after (k : State) (cs : List Call) : State := cs.foldl (fun k c => (pigaHasPerm k c).value.2) k

def permitted (k : State) : List Call → List Access
  | [] => []
  | c :: cs =>
      (if (pigaHasPerm k c).value.1 = 0 then [c.access] else []) ++ permitted (pigaHasPerm k c).value.2 cs

def positions (k : State) : List U32 := k.pol.seq.map Sequence.currentPosition

/-- Refused accesses do not count, seen at the call c that follows the calls
in past. -/
structure RefusalsForgotten (k : State) (past : List Call) (c : Call) : Prop where
  untouched : (pigaHasPerm (after k past) c).value.1 = -eacces →
    positions (pigaHasPerm (after k past) c).value.2 = positions (after k past)
  justified : (pigaHasPerm (after k past) c).value.1 = -eacces →
    ∃ s ∈ k.pol.seq,
      (∃ as, as.Sublist (permitted k past) ∧ List.Forall₂ Link.Matches (links k.pol s).dropLast as) ∧
        ∃ l, (links k.pol s).getLast? = some l ∧ l.Matches c.access

/-- No sequence refuses the access while another one moves on it. -/
def Uncontested (p : Policy) (a : Access) : Prop :=
  Refused p a p.seq → ∀ s ∈ p.seq, ¬Moves p a s

theorem pass_eq_self_iff (p : Policy) (a : Access) (s : Sequence) :
    (passSeq p a s).currentPosition = s.currentPosition ↔ ¬Moves p a s := by
  rw [passSeq]
  split
  next h =>
    refine ⟨fun he => ?_, fun hn => absurd h hn⟩
    change s.currentPosition + 1 = s.currentPosition at he
    exact absurd he (by bv_omega)
  next h => exact ⟨fun _ => h, fun _ => rfl⟩

theorem positions_sweep_iff (k : State) (a : Access) :
    positions (k.sweep a) = positions k ↔ ∀ s ∈ k.pol.seq, ¬Moves k.pol a s := by
  change ((k.pol.seq.map (passSeq k.pol a)).map Sequence.currentPosition) = _ ↔ _
  rw [positions, List.map_map, List.map_inj_left]
  apply forall_congr'
  intro s
  rw [Function.comp_apply, pass_eq_self_iff]

theorem sweep_eq_self {p : Policy} {a : Access} (h : ∀ s ∈ p.seq, ¬Moves p a s) : p.sweep a = p := by
  have hm : p.seq.map (passSeq p a) = p.seq := by
    have hid : ∀ s ∈ p.seq, passSeq p a s = id s := fun s hs => if_neg (h s hs)
    rw [List.map_congr_left hid, List.map_id]
  exact Policy.ext rfl rfl hm rfl rfl

variable {k : State}

theorem call_state (h : FullCheck k) (c : Call) :
    (pigaHasPerm k c).value.2 = k.sweep c.access := by
  rw [pigaHasPerm_value, if_pos (h.examines c)]

theorem after_pol (hk : FullCheck k) (past : List Call)
    (h : ∀ pre c post, past = pre ++ c :: post → Uncontested (after k pre).pol c.access) :
    (after k past).pol = sweeps k.pol (permitted k past) := by
  induction past generalizing k with
  | nil => exact (sweeps_nil k.pol).symm
  | cons c cs ih =>
      have hc : Uncontested k.pol c.access := h [] c cs rfl
      have hnext : (pigaHasPerm k c).value.2.pol =
          sweeps k.pol (if (pigaHasPerm k c).value.1 = 0 then [c.access] else []) := by
        rw [call_state hk, State.sweep]
        by_cases hrc : (pigaHasPerm k c).value.1 = 0
        · rw [if_pos hrc, ← sweep_sweeps, sweeps_nil]
        · rw [if_neg hrc, sweeps_nil]
          apply sweep_eq_self
          apply hc
          by_contra hr
          exact hrc ((allowed_iff (hk.examines c)).mpr hr)
      have hfull : FullCheck (pigaHasPerm k c).value.2 := by
        rw [call_state hk]; exact hk
      have hrec := ih hfull fun pre d post he => h (c :: pre) d post (by rw [he]; rfl)
      change (after (pigaHasPerm k c).value.2 cs).pol = _
      rw [hrec, hnext, sweeps_sweeps]
      rfl

theorem fullCheck_after (hk : FullCheck k) (past : List Call) : FullCheck (after k past) := by
  induction past generalizing k with
  | nil => exact hk
  | cons c cs ih =>
      have hnext : FullCheck (pigaHasPerm k c).value.2 := by
        rw [call_state hk]; exact hk
      exact ih hnext

/-- In a run every refusal leaves the tokens alone, and is due to permitted
accesses, exactly when no access of the run is contested. -/
theorem refusalsForgotten_iff (k : State) (hk : FullCheck k) (hf : AllFresh k.pol) (cs : List Call) :
    (∀ past c rest, cs = past ++ c :: rest → RefusalsForgotten k past c) ↔
      ∀ past c rest, cs = past ++ c :: rest → Uncontested (after k past).pol c.access := by
  have hden (past : List Call) (c : Call) : (pigaHasPerm (after k past) c).value.1 = -eacces ↔
      Refused (after k past).pol c.access (after k past).pol.seq :=
    denied_iff ((fullCheck_after hk past).examines c)
  constructor
  · intro h past c rest he hr
    have hpos := (h past c rest he).untouched ((hden past c).mpr hr)
    rw [call_state (fullCheck_after hk past)] at hpos
    exact (positions_sweep_iff _ _).mp hpos
  · intro h past c rest he
    refine ⟨fun hr => ?_, fun hr => ?_⟩
    · rw [call_state (fullCheck_after hk past)]
      exact (positions_sweep_iff _ _).mpr (h past c rest he ((hden past c).mp hr))
    · obtain ⟨s', hs', hrefuse⟩ := (hden past c).mp hr
      have hpol : (after k past).pol = sweeps k.pol (permitted k past) :=
        after_pol hk past fun pre d post hp => h pre d (post ++ c :: rest) (by rw [he, hp]; simp)
      rw [hpol] at hs' hrefuse
      obtain ⟨s, hs, rfl⟩ := mem_sweeps.mp hs'
      obtain ⟨hle, hlast⟩ := ((hf s hs).refuses_passes (permitted k past) c.access).mp hrefuse
      refine ⟨s, hs, ?_, hlast⟩
      have hlen := links_length (hf s hs).safe
      rw [List.dropLast_eq_take]
      obtain ⟨as, hall, hsub⟩ := List.sublistForall₂_iff.mp
        ((sublistForall₂_take_iff Link.Matches (links k.pol s) (permitted k past) _ (Nat.sub_le _ 1)).mpr
          (by rw [hlen]; exact hle))
      exact ⟨as, hsub, hall⟩

/-- Reading the shadow file is refused by the first signature and moves the
second one, which then refuses a write after nothing was permitted. -/
theorem refusal_counts :
    FullCheck shadowState ∧ AllFresh shadowState.pol ∧
      permitted shadowState [⟨readShadow, 0, none⟩] = [] ∧
      (pigaHasPerm (after shadowState [⟨readShadow, 0, none⟩]) ⟨writeTty, 0, none⟩).value.1 = -eacces ∧
      ¬∀ past c rest, [⟨readShadow, 0, none⟩, ⟨writeTty, 0, none⟩] = past ++ c :: rest →
        RefusalsForgotten shadowState past c := by
  refine ⟨by decide, by decide, by decide, by decide, fun h => ?_⟩
  have huntouched := (h [] _ _ rfl).untouched (by decide)
  exact absurd huntouched (by decide)

theorem refusalsForgotten_iff_shadow :
    (∀ past c rest, [⟨writeTty, 0, none⟩] = past ++ c :: rest → RefusalsForgotten shadowState past c) ↔
      ∀ past c rest, [⟨writeTty, 0, none⟩] = past ++ c :: rest →
        Uncontested (after shadowState past).pol c.access :=
  refusalsForgotten_iff shadowState (by decide) (by decide) _

end PigaLinux.Denials
