import PigaLinux.Runs

namespace PigaLinux.Refinement

open Kernel Trace Greedy Piga Monitor Runs

/-- The run is one of the reference automaton that matches every signature
greedily against the examined accesses. -/
structure RefinesGreedy (k : State) (es : List Event) : Prop where
  tokens : List.Forall₂
    (fun s s' => s'.length = s.length ∧ s'.linkOffset = s.linkOffset ∧
      s'.currentPosition.toNat =
        min (greedy Link.Matches (links k.pol s) (examined k es)) (s.length.toNat - 1))
    k.pol.seq (run k es).value.2.pol.seq
  denials : ∀ n a r, (history k es)[n]? = some (a, r) →
    (r = -eacces ↔ ∃ s ∈ k.pol.seq,
      s.length.toNat - 1 ≤ greedy Link.Matches (links k.pol s) ((examined k es).take n) ∧
        ∃ l, (links k.pol s).getLast? = some l ∧ l.Matches a)
  link : (run k es).value.2.pol.link = k.pol.link
  sLen : (run k es).value.2.pol.sLen = k.pol.sLen
  lLen : (run k es).value.2.pol.lLen = k.pol.lLen
  reads : ∀ i ∈ (run k es).used, ∃ s ∈ k.pol.seq, ∃ q < s.length.toNat,
    i.toNat = s.linkOffset.toNat + q

theorem run_refinesGreedy (k : State) (h : AllFresh k.pol) (es : List Event) : RefinesGreedy k es where
  tokens := by
    rw [run_pol]
    change List.Forall₂ _ k.pol.seq (k.pol.seq.map (passes k.pol (examined k es)))
    rw [List.forall₂_map_right_iff, List.forall₂_same]
    intro s hs
    obtain ⟨hl, ho⟩ := passes_shape k.pol (examined k es) s
    exact ⟨hl, ho, (h s hs).passes_position (examined k es)⟩
  denials := by
    intro n a r hr
    rw [history_answer k es n a r hr]
    apply exists_congr
    intro s
    rw [and_congr_right_iff]
    exact fun hs => (h s hs).refuses_passes _ a
  link := by rw [run_pol]; rfl
  sLen := by rw [run_pol]; rfl
  lLen := by rw [run_pol]; rfl
  reads := run_within h.safe es

theorem run_refinesGreedy_shadow :
    AllFresh shadowState.pol ∧
      RefinesGreedy shadowState
        [.hasPerm ⟨readShadow, 0, none⟩, .modeWrite ['1', '\n'] 2, .hasPerm ⟨writeTty, 0, none⟩] :=
  ⟨by decide, run_refinesGreedy shadowState (by decide) _⟩

end PigaLinux.Refinement
