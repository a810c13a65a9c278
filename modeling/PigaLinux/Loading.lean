import PigaLinux.Indices
import PigaLinux.Runs

namespace PigaLinux.Loading

open Kernel Trace Indices Piga Monitor Runs

def sizeofSequence : Nat := 24

def sizeofLink : Nat := 16

/-- A sequence of which the first n bytes are new. Its seq_string, which nothing reads, stands behind the three fields. -/
def overlaySequence (old new : Sequence) (n : Nat) : Sequence where
  length := if 4 ≤ n then new.length else old.length
  currentPosition := if 8 ≤ n then new.currentPosition else old.currentPosition
  linkOffset := if 12 ≤ n then new.linkOffset else old.linkOffset

def overlayLink (old new : Link) (n : Nat) : Link where
  cs := if 4 ≤ n then new.cs else old.cs
  cc := if 8 ≤ n then new.cc else old.cc
  tclass := if 10 ≤ n then new.tclass else old.tclass
  requested := if 16 ≤ n then new.requested else old.requested

/-- The kernel's side of the system call: its two allocations, what the pages of the new arrays held
before, and what lies behind the second one. -/
structure Allocator where
  seqAllocated : Bool
  linkAllocated : Bool
  seqMemory : Nat → Sequence
  linkMemory : Nat → Link
  behind : U32 → Link

/-- A call, with its arguments. A user pointer is none when it is NULL. -/
structure Upload extends Allocator where
  sLen : U32
  lLen : U32
  s : Option (List Sequence)
  l : Option (List Link)

def Upload.over (u : Upload) (seqMemory : Nat → Sequence) (linkMemory : Nat → Link) : Upload :=
  { u with seqMemory := seqMemory, linkMemory := linkMemory }

inductive Line
  | sequence (length position : U32)
  | link (cs : U32) (tclass : U16) (requested cc : U32)
deriving DecidableEq, Repr

def printLink (l : Link) : Line := .link l.cs l.tclass l.requested l.cc

def printLinks (p : Policy) (off : U32) (j : Nat) : Nat → Traced U32 (List Line)
  | 0 => pure []
  | n + 1 => do
      let l ← visit (off + BitVec.ofNat 32 j) (p.linkAt (off + BitVec.ofNat 32 j))
      let rest ← printLinks p off (j + 1) n
      return printLink l :: rest

def printSequences (p : Policy) : List Sequence → Traced U32 (List Line)
  | [] => pure []
  | s :: ss => do
      let links ← printLinks p s.linkOffset 0 s.length.toNat
      let rest ← printSequences p ss
      return .sequence s.length s.currentPosition :: links ++ rest

/-- The checks, allocations and copies that come before anything is printed
or installed. -/
def copyPolicy (u : Upload) : Except Int Policy :=
  match u.s, u.l with
  | some s, some l =>
      if u.sLen = 0 ∨ u.lLen = 0 then .error (-efault)
      else if u.seqAllocated = false then .error (-enomem)
      else
        match hs : copyArray sizeofSequence overlaySequence u.seqMemory s u.sLen.toNat with
        | none => .error (-efault)
        | some seq =>
            if u.linkAllocated = false then .error (-enomem)
            else
              match hl : copyArray sizeofLink overlayLink u.linkMemory l u.lLen.toNat with
              | none => .error (-efault)
              | some link =>
                  .ok ⟨u.sLen, u.lLen, seq, link, u.behind, copyArray_length hs, copyArray_length hl⟩
  | _, _ => .error (-efault)

structure Loaded where
  rc : Int
  state : State
  log : List Line

def pigaSetPol (k : State) (p : Policy) : Int × State := (0, { k with pol := p })

def sysPigaAddSequence (k : State) (u : Upload) : Traced U32 Loaded :=
  match copyPolicy u with
  | .error rc => pure ⟨rc, k, []⟩
  | .ok p => do
      let log ← printSequences p p.seq
      return ⟨(pigaSetPol k p).1, (pigaSetPol k p).2, log⟩

/-- What the call asks of its arguments and of the allocator: the sizes are those that the copies work with. -/
structure Accepted (u : Upload) : Prop where
  seqAllocated : u.seqAllocated = true
  linkAllocated : u.linkAllocated = true
  sLen : u.sLen ≠ 0
  lLen : u.lLen ≠ 0
  seq : ∃ mem b, u.s = some mem ∧ copySize (sizeofSequence * u.sLen.toNat) = some b ∧ b ≤ sizeofSequence * mem.length
  link : ∃ mem b, u.l = some mem ∧ copySize (sizeofLink * u.lLen.toNat) = some b ∧ b ≤ sizeofLink * mem.length

def Fits (u : Upload) : Prop := sizeofSequence * u.sLen.toNat < 2 ^ 32 ∧ sizeofLink * u.lLen.toNat < 2 ^ 32

structure Made (u : Upload) (p : Policy) : Prop where
  sLen : p.sLen = u.sLen
  lLen : p.lLen = u.lLen
  seq : ∃ mem, u.s = some mem ∧ copyArray sizeofSequence overlaySequence u.seqMemory mem u.sLen.toNat = some p.seq
  link : ∃ mem, u.l = some mem ∧ copyArray sizeofLink overlayLink u.linkMemory mem u.lLen.toNat = some p.link

/-- The policy is what stood in the user's two arrays. -/
structure Copied (u : Upload) (p : Policy) : Prop where
  sLen : p.sLen = u.sLen
  lLen : p.lLen = u.lLen
  seq : ∃ mem, u.s = some mem ∧ u.sLen.toNat ≤ mem.length ∧ p.seq = mem.take u.sLen.toNat
  link : ∃ mem, u.l = some mem ∧ u.lLen.toNat ≤ mem.length ∧ p.link = mem.take u.lLen.toNat

theorem overlaySequence_whole (x y : Sequence) (n : Nat) (h : sizeofSequence ≤ n) : overlaySequence x y n = y := by
  have hn : 24 ≤ n := h
  simp [overlaySequence, show 4 ≤ n by omega, show 8 ≤ n by omega, show 12 ≤ n by omega]

theorem overlayLink_whole (x y : Link) (n : Nat) (h : sizeofLink ≤ n) : overlayLink x y n = y := by
  have hn : 16 ≤ n := h
  simp [overlayLink, hn, show 4 ≤ n by omega, show 8 ≤ n by omega, show 10 ≤ n by omega]

theorem copyPolicy_ok {u : Upload} {p : Policy} (h : copyPolicy u = .ok p) : Accepted u ∧ Made u p := by
  rw [copyPolicy] at h
  split at h
  next s l hs hl =>
    split at h
    · cases h
    next hlens =>
      split at h
      · cases h
      next hseqAlloc =>
        split at h
        · cases h
        next seq hseq =>
          split at h
          · cases h
          next hlinkAlloc =>
            split at h
            · cases h
            next link hlink =>
              cases h
              obtain ⟨b, hb, hbs, -⟩ := copyArray_eq_some.mp hseq
              obtain ⟨c, hc, hcs, -⟩ := copyArray_eq_some.mp hlink
              exact ⟨⟨Bool.not_eq_false _ ▸ hseqAlloc, Bool.not_eq_false _ ▸ hlinkAlloc, fun h => hlens (.inl h),
                fun h => hlens (.inr h), ⟨s, b, hs, hb, hbs⟩, ⟨l, c, hl, hc, hcs⟩⟩, rfl, rfl, ⟨s, hs, hseq⟩, ⟨l, hl, hlink⟩⟩
  next => cases h

theorem Accepted.copyPolicy {u : Upload} (h : Accepted u) : ∃ p, copyPolicy u = .ok p := by
  obtain ⟨s, b, hs, hb, hbs⟩ := h.seq
  obtain ⟨l, c, hl, hc, hcs⟩ := h.link
  cases hp : Loading.copyPolicy u with
  | ok p => exact ⟨p, rfl⟩
  | error rc =>
      exfalso
      rw [Loading.copyPolicy] at hp
      split at hp
      next s' l' hs' hl' =>
        obtain rfl := Option.some.inj (hs.symm.trans hs')
        obtain rfl := Option.some.inj (hl.symm.trans hl')
        rw [if_neg (not_or.mpr ⟨h.sLen, h.lLen⟩), if_neg (by simp [h.seqAllocated])] at hp
        split at hp
        next hnone => exact copyArray_ne_none hb hbs hnone
        next =>
          rw [if_neg (by simp [h.linkAllocated])] at hp
          split at hp
          next hnone => exact copyArray_ne_none hc hcs hnone
          next => cases hp
      next hnone => exact hnone s l hs hl

section made

variable {u : Upload} {p : Policy}

theorem Made.seq_whole (h : Made u p) (hfits : sizeofSequence * u.sLen.toNat < 2 ^ 32) :
    ∃ mem, u.s = some mem ∧ u.sLen.toNat ≤ mem.length ∧ p.seq = mem.take u.sLen.toNat := by
  obtain ⟨mem, hmem, hcopy⟩ := h.seq
  exact ⟨mem, hmem, copyArray_whole (by decide) overlaySequence_whole hfits hcopy⟩

theorem Made.link_whole (h : Made u p) (hfits : sizeofLink * u.lLen.toNat < 2 ^ 32) :
    ∃ mem, u.l = some mem ∧ u.lLen.toNat ≤ mem.length ∧ p.link = mem.take u.lLen.toNat := by
  obtain ⟨mem, hmem, hcopy⟩ := h.link
  exact ⟨mem, hmem, copyArray_whole (by decide) overlayLink_whole hfits hcopy⟩

theorem Made.copied (h : Made u p) (hfits : Fits u) : Copied u p :=
  ⟨h.sLen, h.lLen, h.seq_whole hfits.1, h.link_whole hfits.2⟩

theorem Made.seq_last (h : Made u p) (hwrap : 2 ^ 32 ≤ sizeofSequence * u.sLen.toNat) :
    p.seq[u.sLen.toNat - 1]? = some (u.seqMemory (u.sLen.toNat - 1)) := by
  obtain ⟨mem, -, hcopy⟩ := h.seq
  exact copyArray_last (by decide) (fun _ _ => rfl) hwrap hcopy

theorem Made.link_last (h : Made u p) (hwrap : 2 ^ 32 ≤ sizeofLink * u.lLen.toNat) :
    p.link[u.lLen.toNat - 1]? = some (u.linkMemory (u.lLen.toNat - 1)) := by
  obtain ⟨mem, -, hcopy⟩ := h.link
  exact copyArray_last (by decide) (fun _ _ => rfl) hwrap hcopy

end made

theorem copyPolicy_error {u : Upload} {rc : Int} (h : copyPolicy u = .error rc) : rc ≠ 0 := by
  rw [copyPolicy] at h
  split at h
  · split at h
    · cases h; decide
    · split at h
      · cases h; decide
      · split at h
        · cases h; decide
        · split at h
          · cases h; decide
          · split at h
            · cases h; decide
            · cases h
  · cases h; decide

theorem sysPigaAddSequence_ok {k : State} {u : Upload} {p : Policy} (h : copyPolicy u = .ok p) :
    (sysPigaAddSequence k u).value.rc = 0 ∧ (sysPigaAddSequence k u).value.state = { k with pol := p } ∧
      (sysPigaAddSequence k u).used = (printSequences p p.seq).used := by
  rw [sysPigaAddSequence, h]
  exact ⟨rfl, rfl, by rw [used_bind, used_pure, List.append_nil]⟩

theorem sysPigaAddSequence_failed {k : State} {u : Upload} (h : (sysPigaAddSequence k u).value.rc ≠ 0) :
    (sysPigaAddSequence k u).value.state = k := by
  rw [sysPigaAddSequence] at h ⊢
  cases hc : copyPolicy u with
  | error rc => rfl
  | ok p =>
      rw [hc] at h
      exact absurd rfl h

theorem sysPigaAddSequence_zero {k : State} {u : Upload} (h : (sysPigaAddSequence k u).value.rc = 0) :
    Accepted u ∧ ∃ p, copyPolicy u = .ok p ∧ Made u p ∧ (sysPigaAddSequence k u).value.state = { k with pol := p } ∧
      (sysPigaAddSequence k u).used = (printSequences p p.seq).used := by
  cases hc : copyPolicy u with
  | error rc =>
      rw [sysPigaAddSequence, hc] at h
      exact absurd h (copyPolicy_error hc)
  | ok p =>
      obtain ⟨haccepted, hmade⟩ := copyPolicy_ok hc
      obtain ⟨-, hstate, hused⟩ := sysPigaAddSequence_ok (k := k) hc
      exact ⟨haccepted, p, rfl, hmade, hstate, hused⟩

theorem Accepted.over {u : Upload} (h : Accepted u) (f : Nat → Sequence) (g : Nat → Link) : Accepted (u.over f g) :=
  ⟨h.seqAllocated, h.linkAllocated, h.sLen, h.lLen, h.seq, h.link⟩

theorem printLinks_within (p : Policy) (off : U32) (j n : Nat) (h : off.toNat + (j + n) ≤ p.lLen.toNat) :
    Within (fun i => i.toNat < p.lLen.toNat) (printLinks p off j n) := by
  induction n generalizing j with
  | zero => exact within_pure _ _
  | succ n ih =>
      have hl := p.lLen.isLt
      refine within_bind (within_visit ?_ _) (within_bind (ih (j + 1) (by omega)) (within_pure _ _))
      rw [toNat_add_ofNat (by omega)]
      omega

theorem printSequences_within (p : Policy) (ss : List Sequence)
    (h : ∀ s ∈ ss, s.linkOffset.toNat + s.length.toNat ≤ p.lLen.toNat) :
    Within (fun i => i.toNat < p.lLen.toNat) (printSequences p ss) := by
  induction ss with
  | nil => exact within_pure _ _
  | cons s ss ih =>
      refine within_bind (printLinks_within p s.linkOffset 0 _ ?_)
        (within_bind (ih fun t ht => h t (List.mem_cons_of_mem _ ht)) (within_pure _ _))
      rw [Nat.zero_add]
      exact h s List.mem_cons_self

theorem InRange.lt {p : Policy} (h : AllSafe p) {i : U32} (hi : InRange p i) : i.toNat < p.lLen.toNat := by
  obtain ⟨s, hs, q, hq, he⟩ := hi
  have hr := (h s hs).range
  omega

/-- What a successful load promises: the fields of every installed sequence,
and every index into the link array that the listing or a later run uses. -/
structure SafeInstall (out : Traced U32 Loaded) : Prop where
  fields : ∀ s ∈ out.value.state.pol.seq, 1 ≤ s.length.toNat ∧
    s.currentPosition.toNat < s.length.toNat ∧
    s.linkOffset.toNat + s.length.toNat ≤ out.value.state.pol.lLen.toNat
  listing : ∀ i ∈ out.used, i.toNat < out.value.state.pol.lLen.toNat
  runs : ∀ es, ∀ i ∈ (run out.value.state es).used, i.toNat < out.value.state.pol.lLen.toNat

theorem safeInstall_of_fields {k : State} {u : Upload} {p : Policy} (h : copyPolicy u = .ok p)
    (hfields : ∀ s ∈ p.seq, 1 ≤ s.length.toNat ∧ s.currentPosition.toNat < s.length.toNat ∧
      s.linkOffset.toNat + s.length.toNat ≤ p.lLen.toNat) : SafeInstall (sysPigaAddSequence k u) := by
  obtain ⟨-, hstate, hused⟩ := sysPigaAddSequence_ok (k := k) h
  have hpol : (sysPigaAddSequence k u).value.state.pol = p := by rw [hstate]
  have hall : AllSafe p := fun s hs => ⟨(hfields s hs).2.1, (hfields s hs).2.2⟩
  refine ⟨?_, ?_, ?_⟩
  · rw [hpol]
    exact hfields
  · rw [hpol, hused]
    exact printSequences_within p p.seq fun s hs => (hall s hs).range
  · intro es i hi
    have hin := run_within (hpol ▸ hall) es i hi
    rw [hpol] at hin ⊢
    exact InRange.lt hall hin

/-- The system call looks at none of the fields, so what it installs is safe to run, whatever its pages
held, exactly when the user's array was and is copied whole. -/
theorem safeInstall_iff (k : State) (u : Upload) (h : (sysPigaAddSequence k u).value.rc = 0) :
    (∀ f g, SafeInstall (sysPigaAddSequence k (u.over f g))) ↔
      sizeofSequence * u.sLen.toNat < 2 ^ 32 ∧
        ∀ mem, u.s = some mem → ∀ s ∈ mem.take u.sLen.toNat, 1 ≤ s.length.toNat ∧
          s.currentPosition.toNat < s.length.toNat ∧
          s.linkOffset.toNat + s.length.toNat ≤ u.lLen.toNat := by
  have haccepted := (sysPigaAddSequence_zero h).1
  constructor
  · intro hsafe
    obtain ⟨p, hp⟩ := (haccepted.over (fun _ => ⟨0, 0, 0⟩) u.linkMemory).copyPolicy
    have hmade := (copyPolicy_ok hp).2
    have hfields := (hsafe (fun _ => ⟨0, 0, 0⟩) u.linkMemory).fields
    rw [(sysPigaAddSequence_ok hp).2.1] at hfields
    have hfits : sizeofSequence * u.sLen.toNat < 2 ^ 32 := by
      -- otherwise a sequence of length 0 was in the pages
      by_contra hwrap
      have hlast := hmade.seq_last (Nat.le_of_not_lt hwrap)
      exact Nat.not_succ_le_zero 0 (hfields _ (List.mem_of_getElem? hlast)).1
    refine ⟨hfits, ?_⟩
    intro mem hmem s hs
    obtain ⟨mem', hmem', -, hseq⟩ := hmade.seq_whole hfits
    obtain rfl := Option.some.inj (hmem.symm.trans hmem')
    rw [← show p.lLen = u.lLen from hmade.lLen]
    exact hfields s (hseq ▸ hs)
  · rintro ⟨hfits, hfields⟩ f g
    obtain ⟨p, hp⟩ := (haccepted.over f g).copyPolicy
    have hmade := (copyPolicy_ok hp).2
    obtain ⟨mem, hmem, -, hseq⟩ := hmade.seq_whole hfits
    apply safeInstall_of_fields hp
    rw [hseq, show p.lLen = u.lLen from hmade.lLen]
    exact hfields mem hmem

def bootState : State where
  status := false
  auditOnlyMode := false
  pol :=
    { sLen := 0
      lLen := 0
      seq := []
      link := []
      behind := fun _ => ⟨0, 0, 0, 0⟩
      seq_length := rfl
      link_length := rfl }

def oneLink (s : Sequence) : Upload where
  sLen := 1
  lLen := 1
  s := some [s]
  l := some [⟨10, 20, 6, 2⟩]
  seqAllocated := true
  linkAllocated := true
  seqMemory := fun _ => ⟨0, 0, 0⟩
  linkMemory := fun _ => ⟨0, 0, 0, 0⟩
  behind := fun _ => ⟨0, 0, 0, 0⟩

theorem unchecked_offset_installed :
    (sysPigaAddSequence bootState (oneLink ⟨1, 0, 1⟩)).value.rc = 0 ∧
      (sysPigaAddSequence bootState (oneLink ⟨1, 0, 1⟩)).used = [1] ∧
      ¬∀ f g, SafeInstall (sysPigaAddSequence bootState ((oneLink ⟨1, 0, 1⟩).over f g)) := by
  refine ⟨by decide, by decide, ?_⟩
  intro h
  have hsafe := h (oneLink ⟨1, 0, 1⟩).seqMemory (oneLink ⟨1, 0, 1⟩).linkMemory
  exact absurd (hsafe.listing 1 (by decide)) (by decide)

theorem safeInstall_iff_oneLink :
    (∀ f g, SafeInstall (sysPigaAddSequence bootState ((oneLink ⟨1, 0, 0⟩).over f g))) ↔
      sizeofSequence * (oneLink ⟨1, 0, 0⟩).sLen.toNat < 2 ^ 32 ∧
        ∀ mem, (oneLink ⟨1, 0, 0⟩).s = some mem → ∀ s ∈ mem.take (oneLink ⟨1, 0, 0⟩).sLen.toNat,
          1 ≤ s.length.toNat ∧ s.currentPosition.toNat < s.length.toNat ∧
            s.linkOffset.toNat + s.length.toNat ≤ (oneLink ⟨1, 0, 0⟩).lLen.toNat :=
  safeInstall_iff bootState (oneLink ⟨1, 0, 0⟩) (by decide)

end PigaLinux.Loading
