import PigaLinux.Monitor

namespace PigaLinux.Runs

open Kernel Trace Piga Monitor

inductive Event
  | hasPerm (c : Call)
  | statusWrite (buffer : List Char) (count : Nat)
  | modeWrite (buffer : List Char) (count : Nat)
deriving DecidableEq, Repr

def step (k : State) : Event → Traced U32 (Int × State)
  | .hasPerm c => pigaHasPerm k c
  | .statusWrite buffer count => pure (pigaProcStatusWrite k buffer count)
  | .modeWrite buffer count => pure (pigaProcModeWrite k buffer count)

def run (k : State) : List Event → Traced U32 (List Int × State)
  | [] => pure ([], k)
  | e :: es => do
      let out ← step k e
      let rest ← run out.2 es
      return (out.1 :: rest.1, rest.2)

theorem run_cons (k : State) (e : Event) (es : List Event) :
    (run k (e :: es)).value.1 = (step k e).value.1 :: (run (step k e).value.2 es).value.1 := rfl

def answered (k : State) : Event → List (Access × Int)
  | .hasPerm c => if Examines k c then [(c.access, (pigaHasPerm k c).value.1)] else []
  | .statusWrite _ _ | .modeWrite _ _ => []

def history (k : State) : List Event → List (Access × Int)
  | [] => []
  | e :: es => answered k e ++ history (step k e).value.2 es

def examined (k : State) (es : List Event) : List Access := (history k es).map Prod.fst

theorem procSwitchWrite_pol (set : State → Bool → State) (hset : ∀ k b, (set k b).pol = k.pol)
    (k : State) (buffer : List Char) (count : Nat) :
    (procSwitchWrite set k buffer count).2.pol = k.pol := by
  rw [procSwitchWrite]
  cases copyFromUser buffer count with
  | none => rfl
  | some tmp =>
      dsimp only
      split
      · exact hset k false
      · split
        · exact hset k true
        · rfl

theorem step_pol (k : State) (e : Event) :
    (step k e).value.2.pol = sweeps k.pol ((answered k e).map Prod.fst) := by
  cases e with
  | hasPerm c =>
      rw [step, answered, pigaHasPerm_value]
      by_cases h : Examines k c
      · rw [if_pos h, if_pos h]
        exact (sweep_sweeps k.pol c.access []).symm ▸ (sweeps_nil _).symm
      · rw [if_neg h, if_neg h]
        exact (sweeps_nil k.pol).symm
  | statusWrite buffer count =>
      rw [answered, List.map_nil, sweeps_nil]
      exact procSwitchWrite_pol (fun k b => { k with status := b }) (fun _ _ => rfl) k buffer count
  | modeWrite buffer count =>
      rw [answered, List.map_nil, sweeps_nil]
      exact procSwitchWrite_pol (fun k b => { k with auditOnlyMode := b }) (fun _ _ => rfl) k buffer count

/-- A run does to the policy what its examined accesses do, one by one. -/
theorem run_pol (k : State) (es : List Event) :
    (run k es).value.2.pol = sweeps k.pol (examined k es) := by
  induction es generalizing k with
  | nil => exact (sweeps_nil k.pol).symm
  | cons e es ih =>
      rw [run, value_bind, value_bind]
      change (run (step k e).value.2 es).value.2.pol = _
      rw [ih, step_pol, sweeps_sweeps, examined, examined, history, List.map_append]

theorem answered_iff {k : State} {e : Event} {a : Access} {r : Int} (h : (a, r) ∈ answered k e) :
    answered k e = [(a, r)] ∧ (r = -eacces ↔ Refused k.pol a k.pol.seq) := by
  cases e with
  | statusWrite buffer count => simp [answered] at h
  | modeWrite buffer count => simp [answered] at h
  | hasPerm c =>
      by_cases hx : Examines k c
      · simp only [answered, if_pos hx, List.mem_singleton, Prod.mk.injEq] at h ⊢
        obtain ⟨rfl, rfl⟩ := h
        exact ⟨rfl, denied_iff hx⟩
      · simp [answered, hx] at h

theorem exists_refuses_sweeps (p : Policy) (seen as : List Access) (a : Access) :
    (∃ s ∈ (sweeps p seen).seq, Refuses (sweeps p seen) a (passes (sweeps p seen) as s)) ↔
      ∃ s ∈ p.seq, Refuses p a (passes p (seen ++ as) s) := by
  constructor
  · rintro ⟨s', hs', hr⟩
    obtain ⟨s, hs, rfl⟩ := mem_sweeps.mp hs'
    exact ⟨s, hs, by rw [passes_append]; exact hr⟩
  · rintro ⟨s, hs, hr⟩
    rw [passes_append] at hr
    exact ⟨_, mem_sweeps.mpr ⟨s, hs, rfl⟩, hr⟩

/-- The answer to an examined access is read off the tokens that the examined
accesses before it have left. -/
theorem history_answer (k : State) (es : List Event) (n : Nat) (a : Access) (r : Int)
    (h : (history k es)[n]? = some (a, r)) :
    r = -eacces ↔ ∃ s ∈ k.pol.seq, Refuses k.pol a (passes k.pol ((examined k es).take n) s) := by
  induction es generalizing k n with
  | nil => simp [history] at h
  | cons e es ih =>
      rw [examined, history, List.map_append]
      rw [history] at h
      by_cases hn : n < (answered k e).length
      · have hmem : (a, r) ∈ answered k e := by
          rw [List.getElem?_append_left hn] at h
          exact List.mem_of_getElem? h
        obtain ⟨hone, hiff⟩ := answered_iff hmem
        have hz : n = 0 := by rw [hone] at hn; simpa using hn
        subst hz
        exact hiff
      · have hle : (answered k e).length ≤ n := Nat.le_of_not_lt hn
        rw [List.getElem?_append_right hle] at h
        have hrec := ih (step k e).value.2 (n - (answered k e).length) h
        have htake : (((answered k e).map Prod.fst) ++ ((history (step k e).value.2 es).map Prod.fst)).take n =
            (answered k e).map Prod.fst ++
              (examined (step k e).value.2 es).take (n - (answered k e).length) := by
          rw [List.take_append, List.take_of_length_le (by simpa using hle), List.length_map]
          rfl
        rw [hrec, htake, step_pol]
        exact exists_refuses_sweeps _ _ _ _

def InRange (p : Policy) (i : U32) : Prop :=
  ∃ s ∈ p.seq, ∃ q < s.length.toNat, i.toNat = s.linkOffset.toNat + q

theorem InRange.of_sweeps {p : Policy} {as : List Access} {i : U32} (h : InRange (sweeps p as) i) :
    InRange p i := by
  obtain ⟨s', hs', q, hq, hi⟩ := h
  obtain ⟨s, hs, rfl⟩ := mem_sweeps.mp hs'
  obtain ⟨hl, ho⟩ := passes_shape p as s
  rw [hl] at hq
  rw [ho] at hi
  exact ⟨s, hs, q, hq, hi⟩

theorem step_within {k : State} (h : AllSafe k.pol) (e : Event) :
    Within (InRange k.pol) (step k e) := by
  cases e with
  | hasPerm c =>
      refine (pigaHasPerm_within k c).mono ?_
      rintro i ⟨s, hs, rfl⟩
      exact ⟨s, hs, _, (h s hs).position, index_toNat (h s hs)⟩
  | statusWrite buffer count => exact within_pure _ _
  | modeWrite buffer count => exact within_pure _ _

theorem run_within {k : State} (h : AllSafe k.pol) (es : List Event) :
    Within (InRange k.pol) (run k es) := by
  induction es generalizing k with
  | nil => exact within_pure _ _
  | cons e es ih =>
      have hsafe : AllSafe (step k e).value.2.pol := by
        rw [step_pol]
        exact h.sweeps _
      refine within_bind (step_within h e) (within_bind ((ih hsafe).mono ?_) (within_pure _ _))
      intro i hi
      rw [step_pol] at hi
      exact hi.of_sweeps

end PigaLinux.Runs
