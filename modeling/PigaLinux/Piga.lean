import PigaLinux.Kernel
import PigaLinux.Trace

namespace PigaLinux.Piga

open Kernel Trace

structure Sequence where
  length : U32
  currentPosition : U32
  linkOffset : U32
deriving DecidableEq, Repr

structure Link where
  cs : U32
  cc : U32
  tclass : U16
  requested : U32
deriving DecidableEq, Repr

/-- The four globals of the monitor. The arrays are allocated with exactly
sLen and lLen elements. Nothing in the code keeps an index into the link
array below lLen, so what lies behind the array is part of the state. -/
@[ext] structure Policy where
  sLen : U32
  lLen : U32
  seq : List Sequence
  link : List Link
  behind : U32 → Link
  seq_length : seq.length = sLen.toNat
  link_length : link.length = lLen.toNat

def Policy.setSeq (p : Policy) (ss : List Sequence) (h : ss.length = p.seq.length) : Policy :=
  { p with seq := ss, seq_length := h.trans p.seq_length }

def Policy.linkAt (p : Policy) (i : U32) : Link := p.link.getD i.toNat (p.behind i)

/-- Each access to the link array is recorded by its index, a sum in 32 bits. -/
def pigaSeqGet {γ : Type} (field : Link → γ) (p : Policy) (s : Sequence) : Traced U32 γ :=
  visit (s.linkOffset + s.currentPosition) (field (p.linkAt (s.linkOffset + s.currentPosition)))

def pigaSeqGetCs : Policy → Sequence → Traced U32 U32 := pigaSeqGet Link.cs

def pigaSeqGetCc : Policy → Sequence → Traced U32 U32 := pigaSeqGet Link.cc

def pigaSeqGetTclass : Policy → Sequence → Traced U32 U16 := pigaSeqGet Link.tclass

def pigaSeqGetRequested : Policy → Sequence → Traced U32 U32 := pigaSeqGet Link.requested

def pigaSeqEnd (s : Sequence) : Bool := s.currentPosition + 1 == s.length

def pigaSeqNext (s : Sequence) : Bool × Sequence :=
  let moved := { s with currentPosition := s.currentPosition + 1 }
  if moved.currentPosition = moved.length then
    (false, { moved with currentPosition := moved.currentPosition - 1 })
  else (true, moved)

structure Call where
  access : Access
  rc : Int
  avd : Option AvDecision
deriving DecidableEq, Repr

structure State where
  status : Bool
  auditOnlyMode : Bool
  pol : Policy

def pigaAllow : Int := 0

def pigaDeny : Int := -eacces

/-- The early return of audit-only mode. -/
def auditOnlySkips (k : State) (c : Call) : Bool :=
  match c.avd with
  | none => false
  | some avd =>
      let denied := c.access.requested &&& ~~~avd.allowed
      k.auditOnlyMode &&
        if denied ≠ 0 then denied &&& avd.auditdeny == 0
        else c.access.requested &&& avd.auditallow == 0

/-- The condition under which a sequence looks at an access. The conjunction
stops at its first false member, and so do the reads. -/
def linkTest (p : Policy) (a : Access) (s : Sequence) : Traced U32 Bool := do
  let cs ← pigaSeqGetCs p s
  if cs = a.ssid then
    let cc ← pigaSeqGetCc p s
    if cc = a.tsid then
      let tclass ← pigaSeqGetTclass p s
      if tclass = a.tclass then
        let requested ← pigaSeqGetRequested p s
        return decide (requested &&& a.requested > 0)
      else return false
    else return false
  else return false

def sequenceLoop (p : Policy) (a : Access) (rc : Int) :
    List Sequence → Traced U32 (Int × List Sequence)
  | [] => pure (rc, [])
  | s :: ss => do
      let hit ← linkTest p a s
      if hit then
        if pigaSeqEnd s then
          let out ← sequenceLoop p a pigaDeny ss
          return (out.1, s :: out.2)
        else
          let out ← sequenceLoop p a rc ss
          return (out.1, (pigaSeqNext s).2 :: out.2)
      else
        let out ← sequenceLoop p a rc ss
        return (out.1, s :: out.2)

theorem sequenceLoop_length (p : Policy) (a : Access) (rc : Int) (ss : List Sequence) :
    (sequenceLoop p a rc ss).value.2.length = ss.length := by
  induction ss generalizing rc with
  | nil => rfl
  | cons s ss ih =>
      rw [sequenceLoop, value_bind]
      split
      · split <;> simp [ih]
      · simp [ih]

def pigaHasPerm (k : State) (c : Call) : Traced U32 (Int × State) :=
  if k.status then
    if auditOnlySkips k c then pure (c.rc, k)
    else
      let out := sequenceLoop k.pol c.access pigaAllow k.pol.seq
      ⟨(out.value.1, { k with
          pol := k.pol.setSeq out.value.2 (sequenceLoop_length k.pol c.access pigaAllow k.pol.seq) }),
        out.used⟩
  else pure (c.rc, k)

/-- The body shared by the two writable switches under /proc/piga: the first
byte decides, and the terminator stands there when nothing was written. -/
def procSwitchWrite (set : State → Bool → State) (k : State) (buffer : List Char) (count : Nat) :
    Int × State :=
  match copyFromUser buffer count with
  | none => (-efault, k)
  | some tmp =>
      (count,
        if tmp.headD '\x00' = '0' then set k false
        else if tmp.headD '\x00' = '1' then set k true
        else k)

def pigaProcStatusWrite : State → List Char → Nat → Int × State :=
  procSwitchWrite (fun k b => { k with status := b })

def pigaProcModeWrite : State → List Char → Nat → Int × State :=
  procSwitchWrite (fun k b => { k with auditOnlyMode := b })

def Link.Matches (l : Link) (a : Access) : Prop :=
  l.cs = a.ssid ∧ l.cc = a.tsid ∧ l.tclass = a.tclass ∧ l.requested &&& a.requested ≠ 0

instance : DecidableRel Link.Matches := fun _ _ => inferInstanceAs (Decidable (_ ∧ _))

def Policy.current (p : Policy) (s : Sequence) : Link := p.linkAt (s.linkOffset + s.currentPosition)

def Refuses (p : Policy) (a : Access) (s : Sequence) : Prop :=
  (p.current s).Matches a ∧ pigaSeqEnd s = true

instance (p : Policy) (a : Access) : DecidablePred (Refuses p a) :=
  fun _ => inferInstanceAs (Decidable (_ ∧ _))

def Refused (p : Policy) (a : Access) (ss : List Sequence) : Prop := ∃ s ∈ ss, Refuses p a s

instance (p : Policy) (a : Access) : DecidablePred (Refused p a) :=
  fun ss => inferInstanceAs (Decidable (∃ s ∈ ss, Refuses p a s))

def Moves (p : Policy) (a : Access) (s : Sequence) : Prop :=
  (p.current s).Matches a ∧ pigaSeqEnd s = false

instance (p : Policy) (a : Access) : DecidablePred (Moves p a) :=
  fun _ => inferInstanceAs (Decidable (_ ∧ _))

def passSeq (p : Policy) (a : Access) (s : Sequence) : Sequence :=
  if Moves p a s then { s with currentPosition := s.currentPosition + 1 } else s

/-- All sequences visited by one access. The passes do not see each other:
each of them reads the link array and its own sequence only. -/
def Policy.sweep (p : Policy) (a : Access) : Policy :=
  p.setSeq (p.seq.map (passSeq p a)) (by simp)

def State.sweep (k : State) (a : Access) : State := { k with pol := k.pol.sweep a }

/-- The call gets as far as the loop over the sequences. -/
def Examines (k : State) (c : Call) : Prop := k.status = true ∧ auditOnlySkips k c = false

instance (k : State) : DecidablePred (Examines k) := fun _ => inferInstanceAs (Decidable (_ ∧ _))

theorem pigaSeqNext_of_not_end {s : Sequence} (h : pigaSeqEnd s = false) :
    (pigaSeqNext s).2 = { s with currentPosition := s.currentPosition + 1 } := by
  have hne : s.currentPosition + 1 ≠ s.length := by simpa [pigaSeqEnd] using h
  simp only [pigaSeqNext, if_neg hne]

theorem linkTest_value (p : Policy) (a : Access) (s : Sequence) :
    (linkTest p a s).value = decide ((p.current s).Matches a) := by
  have hpos (x : U32) : 0#32 < x ↔ ¬x = 0#32 := by bv_omega
  have hget {γ : Type} (field : Link → γ) : (pigaSeqGet field p s).value = field (p.current s) := rfl
  rw [linkTest, value_bind, pigaSeqGetCs, hget]
  by_cases hcs : (p.current s).cs = a.ssid
  · rw [if_pos hcs, value_bind, pigaSeqGetCc, hget]
    by_cases hcc : (p.current s).cc = a.tsid
    · rw [if_pos hcc, value_bind, pigaSeqGetTclass, hget]
      by_cases ht : (p.current s).tclass = a.tclass
      · rw [if_pos ht, value_bind, pigaSeqGetRequested, hget]
        simp [Link.Matches, hcs, hcc, ht, hpos]
      · simp [Link.Matches, ht]
    · simp [Link.Matches, hcc]
  · simp [Link.Matches, hcs]

theorem linkTest_within (p : Policy) (a : Access) (s : Sequence) :
    Within (fun i => i = s.linkOffset + s.currentPosition) (linkTest p a s) := by
  have hget {γ : Type} (field : Link → γ) :
      Within (fun i => i = s.linkOffset + s.currentPosition) (pigaSeqGet field p s) := by
    apply within_visit
    rfl
  refine within_bind (hget _) ?_
  split
  · refine within_bind (hget _) ?_
    split
    · refine within_bind (hget _) ?_
      split
      · exact within_bind (hget _) (within_pure _ _)
      · exact within_pure _ _
    · exact within_pure _ _
  · exact within_pure _ _

theorem refused_cons (p : Policy) (a : Access) (s : Sequence) (ss : List Sequence) :
    Refused p a (s :: ss) ↔ Refuses p a s ∨ Refused p a ss := by
  simp [Refused]

theorem sequenceLoop_value (p : Policy) (a : Access) (rc : Int) (ss : List Sequence) :
    (sequenceLoop p a rc ss).value =
      (if Refused p a ss then pigaDeny else rc, ss.map (passSeq p a)) := by
  induction ss generalizing rc with
  | nil => simp [sequenceLoop, Refused]
  | cons s ss ih =>
      rw [sequenceLoop, value_bind, linkTest_value]
      simp only [refused_cons, List.map_cons]
      by_cases hm : (p.current s).Matches a
      · cases he : pigaSeqEnd s with
        | true => simp [hm, he, ih, Refuses, passSeq, Moves]
        | false => simp [hm, he, ih, Refuses, passSeq, Moves, pigaSeqNext_of_not_end]
      · simp [hm, ih, Refuses, passSeq, Moves]

theorem sequenceLoop_within (p : Policy) (a : Access) (rc : Int) (ss : List Sequence) :
    Within (fun i => ∃ s ∈ ss, i = s.linkOffset + s.currentPosition) (sequenceLoop p a rc ss) := by
  induction ss generalizing rc with
  | nil => exact within_pure _ _
  | cons s ss ih =>
      have hrest (rc : Int) : Within (fun i => ∃ s' ∈ s :: ss, i = s'.linkOffset + s'.currentPosition)
          (sequenceLoop p a rc ss) := by
        refine (ih rc).mono ?_
        rintro i ⟨s', hs, hi⟩
        exact ⟨s', List.mem_cons_of_mem _ hs, hi⟩
      have hthis : Within (fun i => ∃ s' ∈ s :: ss, i = s'.linkOffset + s'.currentPosition)
          (linkTest p a s) :=
        (linkTest_within p a s).mono fun i hi => ⟨s, List.mem_cons_self, hi⟩
      rw [sequenceLoop]
      refine within_bind hthis ?_
      split
      · split
        · exact within_bind (hrest _) (within_pure _ _)
        · exact within_bind (hrest _) (within_pure _ _)
      · exact within_bind (hrest _) (within_pure _ _)

theorem pigaHasPerm_value (k : State) (c : Call) :
    (pigaHasPerm k c).value =
      if Examines k c then
        (if Refused k.pol c.access k.pol.seq then pigaDeny else pigaAllow, k.sweep c.access)
      else (c.rc, k) := by
  rw [pigaHasPerm]
  by_cases hs : k.status = true
  · by_cases ha : auditOnlySkips k c = true
    · simp [Examines, ha]
    · simp [Examines, hs, ha, sequenceLoop_value, State.sweep, Policy.sweep, Policy.setSeq]
  · simp [Examines, hs]

theorem denied_iff {k : State} {c : Call} (h : Examines k c) :
    (pigaHasPerm k c).value.1 = -eacces ↔ Refused k.pol c.access k.pol.seq := by
  rw [pigaHasPerm_value, if_pos h]
  by_cases hr : Refused k.pol c.access k.pol.seq
  · simp [hr, pigaDeny]
  · simp [hr, pigaAllow, eacces]

theorem allowed_iff {k : State} {c : Call} (h : Examines k c) :
    (pigaHasPerm k c).value.1 = 0 ↔ ¬Refused k.pol c.access k.pol.seq := by
  rw [pigaHasPerm_value, if_pos h]
  by_cases hr : Refused k.pol c.access k.pol.seq
  · simp [hr, pigaDeny, eacces]
  · simp [hr, pigaAllow]

theorem pigaHasPerm_within (k : State) (c : Call) :
    Within (fun i => ∃ s ∈ k.pol.seq, i = s.linkOffset + s.currentPosition) (pigaHasPerm k c) := by
  unfold pigaHasPerm
  split
  · split
    · exact within_pure _ _
    · exact sequenceLoop_within _ _ _ _
  · exact within_pure _ _

end PigaLinux.Piga
