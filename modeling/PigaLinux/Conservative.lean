import PigaLinux.AvcCache
import PigaLinux.Loading
import PigaLinux.Lockstep

namespace PigaLinux.Conservative

open Kernel Trace Piga Loading Avc AvcCache Lockstep

inductive Control
  | load (u : Upload)
  | statusWrite (buffer : List Char) (count : Nat)
  | modeWrite (buffer : List Char) (count : Nat)

def control (k : State) : Control → State
  | .load u => (sysPigaAddSequence k u).value.state
  | .statusWrite buffer count => (pigaProcStatusWrite k buffer count).2
  | .modeWrite buffer count => (pigaProcModeWrite k buffer count).2

inductive Event
  | check (q : Query) (s : Setting)
  | reset (seqno : U32)
  | control (o : Control)

/-- An event as it is seen: the answer and the record of a check, the cache
after it, and whether the monitor was switched on. -/
structure Seen where
  answer : Option (Int × Option AuditRecord)
  cache : Cache
  status : Bool

def checkWith (q : Query) (s : Setting) (c : Cache) (k : State) : Outcome :=
  (avcHasPermFlags k (q.call s (avcHasPermNoaudit s q.access 0 c).avd)).value

def checkWithout (q : Query) (s : Setting) (c : Cache) : Int × Option AuditRecord :=
  let out := avcHasPermNoaudit s q.access 0 c
  let rc2 := avcAudit q.access out.avd out.rc q.auditdata q.flags
  (if rc2.1 ≠ 0 then rc2.1 else out.rc, rc2.2)

def stepWith (ck : Cache × State) : Event → (Cache × State) × Seen
  | .check q s =>
      let out := checkWith q s ck.1 ck.2
      let c := (avcHasPermNoaudit s q.access 0 ck.1).cache
      ((c, out.state), ⟨some (out.rc, out.record), c, ck.2.status⟩)
  | .reset seqno => ((avcSsReset seqno ck.1, ck.2), ⟨none, avcSsReset seqno ck.1, ck.2.status⟩)
  | .control o => ((ck.1, control ck.2 o), ⟨none, ck.1, ck.2.status⟩)

def stepWithout (c : Cache) : Event → Cache × Seen
  | .check q s =>
      let c' := (avcHasPermNoaudit s q.access 0 c).cache
      (c', ⟨some (checkWithout q s c), c', false⟩)
  | .reset seqno => (avcSsReset seqno c, ⟨none, avcSsReset seqno c, false⟩)
  | .control _ => (c, ⟨none, c, false⟩)

structure Extends (w o : Seen) : Prop where
  cache : w.cache = o.cache
  granted : ∀ r, w.answer = some (0, r) → ∃ r', o.answer = some (0, r')
  disabled : w.status = false → w.answer = o.answer

variable {q : Query} {s : Setting} {c : Cache} {k : State}

theorem checkWith_eq (h : (pigaHook k (q.call s (avcHasPermNoaudit s q.access 0 c).avd)).value.1 =
      (avcHasPermNoaudit s q.access 0 c).rc) :
    ((checkWith q s c k).rc, (checkWith q s c k).record) = checkWithout q s c := by
  rw [checkWithout, ← h]
  rfl

theorem checkWith_of_disabled (h : k.status = false) :
    ((checkWith q s c k).rc, (checkWith q s c k).record) = checkWithout q s c := by
  apply checkWith_eq
  rw [avcHasPermNoaudit_rc, pigaHook]
  split
  · rw [pigaHasPerm, if_neg (by rw [h]; decide)]
    rfl
  · rfl

theorem checkWith_of_granted (h : (checkWith q s c k).rc = 0) :
    ((checkWith q s c k).rc, (checkWith q s c k).record) = checkWithout q s c := by
  obtain ⟨hgranted, hpiga⟩ := avcHasPermFlags_rc_eq_zero h
  have hrc : (avcHasPermNoaudit s q.access 0 c).rc = 0 := by
    rw [avcHasPermNoaudit_rc]
    exact (noauditRc_cases _ _ _ _).resolve_right hgranted
  apply checkWith_eq
  rw [pigaHook, if_pos hgranted, hpiga, hrc]

theorem extends_step (c : Cache) (k : State) (e : Event) :
    (stepWith (c, k) e).1.1 = (stepWithout c e).1 ∧ Extends (stepWith (c, k) e).2 (stepWithout c e).2 := by
  cases e with
  | check q s =>
      refine ⟨rfl, rfl, ?_, ?_⟩
      · intro r hr
        obtain ⟨hrc, -⟩ := Prod.mk.inj (Option.some.inj hr)
        have heq := checkWith_of_granted hrc
        rw [hrc] at heq
        exact ⟨_, congrArg some heq.symm⟩
      · intro hstatus
        exact congrArg some (checkWith_of_disabled hstatus)
  | reset | control =>
      refine ⟨rfl, rfl, ?_, fun _ => rfl⟩
      intro r hr
      cases hr

/-- The monitor takes grants away and leaves everything else of SELinux alone. -/
theorem piga_extends_selinux (c : Cache) (k : State) (es : List Event) :
    List.Forall₂ Extends (outputs stepWith (c, k) es) (outputs stepWithout c es) := by
  refine forall₂_outputs (R := fun ck c' => ck.1 = c') (E := Eq) ?_ (List.forall₂_eq_eq_eq ▸ rfl) rfl
  rintro ⟨c, k⟩ c' e e' rfl rfl
  exact extends_step c k e

end PigaLinux.Conservative
