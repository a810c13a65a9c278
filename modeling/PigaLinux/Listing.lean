import PigaLinux.Loading
import PigaLinux.ProcRead

namespace PigaLinux.Listing

open Kernel Trace Indices Piga Monitor Runs Loading ProcRead

def Line.text : Line → String
  | .sequence length position => "PIGA: len: " ++ toString length.toNat ++ ", pos: " ++ toString position.toNat
  | .link cs tclass requested cc =>
      toString cs.toNat ++ "-(" ++ toString tclass.toNat ++ "," ++ toString requested.toNat ++ ")->" ++ toString cc.toNat

def listSequences (p : Policy) : List Sequence → Traced U32 (List Line)
  | [] => pure []
  | s :: ss => do
      -- the inner loop runs to l_len, not to the length of the sequence
      let links ← printLinks p s.linkOffset 0 p.lLen.toNat
      let rest ← listSequences p ss
      return .sequence s.length s.currentPosition :: links ++ rest

def pigaListSequence (p : Policy) : Traced U32 (List Line) := listSequences p p.seq

/-- A read of /proc/piga/policy: the listing goes to the kernel's log, which
is kept with the policy. -/
def pigaProcPolicyRead (s : Policy × List Line) (offset : Nat) : List Char × (Policy × List Line) :=
  if offset > 0 then ([], s)
  else ("PIGA: policy: See dmesg output\n".toList, (s.1, s.2 ++ (pigaListSequence s.1).value))

def WellFormed (p : Policy) : Prop := ∀ s ∈ p.seq, s.linkOffset.toNat + s.length.toNat ≤ p.lLen.toNat

def ownLines (p : Policy) (s : Sequence) : List Line :=
  .sequence s.length s.currentPosition :: (links p s).map printLink

def withoutToken : Line → Line
  | .sequence length _ => .sequence length 0
  | .link cs tclass requested cc => .link cs tclass requested cc

/-- The listing shows the policy: the lines of its sequences, as they were
shown when it was loaded, whatever has moved its tokens since. -/
structure Shows (p : Policy) : Prop where
  own : (pigaListSequence p).value.map Line.text = (p.seq.flatMap (ownLines p)).map Line.text
  loaded : ∀ k u es, (sysPigaAddSequence k u).value.rc = 0 →
    (run (sysPigaAddSequence k u).value.state es).value.2.pol = p →
    ((pigaListSequence p).value.map withoutToken).map Line.text =
      ((sysPigaAddSequence k u).value.log.map withoutToken).map Line.text
  reads : ∀ i ∈ (pigaListSequence p).used, i.toNat < p.lLen.toNat

section lines

variable {p : Policy}

theorem length_printLinks (p : Policy) (off : U32) (j n : Nat) : (printLinks p off j n).value.length = n := by
  induction n generalizing j with
  | zero => rfl
  | succ n ih =>
      change (printLinks p off (j + 1) n).value.length + 1 = n + 1
      rw [ih]

theorem printLinks_value {off : U32} {j n : Nat} (h : off.toNat + (j + n) ≤ p.lLen.toNat) :
    (printLinks p off j n).value = ((p.link.drop (off.toNat + j)).take n).map printLink := by
  induction n generalizing j with
  | zero => rfl
  | succ n ih =>
      have hl := p.lLen.isLt
      have hlt : off.toNat + j < p.link.length := by
        rw [p.link_length]
        omega
      have hlink : p.linkAt (off + BitVec.ofNat 32 j) = p.link[off.toNat + j] := by
        rw [Policy.linkAt, toNat_add_ofNat (by omega), List.getD_eq_getElem?_getD, List.getElem?_eq_getElem hlt]
        rfl
      rw [List.drop_eq_getElem_cons hlt, List.take_succ_cons, List.map_cons, ← hlink]
      change printLink _ :: (printLinks p off (j + 1) n).value = _
      rw [ih (by omega)]
      rfl

theorem printSequences_value {ss : List Sequence} (h : ∀ s ∈ ss, s.linkOffset.toNat + s.length.toNat ≤ p.lLen.toNat) :
    (printSequences p ss).value = ss.flatMap (ownLines p) := by
  induction ss with
  | nil => rfl
  | cons s ss ih =>
      rw [List.forall_mem_cons] at h
      have hlinks : (printLinks p s.linkOffset 0 s.length.toNat).value = (links p s).map printLink := by
        rw [printLinks_value (by omega)]
        rfl
      rw [List.flatMap_cons, ← ih h.2, ownLines, ← hlinks]
      rfl

theorem listSequences_eq {ss : List Sequence} (h : ∀ s ∈ ss, s.length = p.lLen) :
    listSequences p ss = printSequences p ss := by
  induction ss with
  | nil => rfl
  | cons s ss ih =>
      rw [List.forall_mem_cons] at h
      rw [listSequences, printSequences, ih h.2, h.1]

theorem length_listSequences (p : Policy) (ss : List Sequence) :
    (listSequences p ss).value.length = (ss.map fun _ => p.lLen.toNat + 1).sum := by
  induction ss with
  | nil => rfl
  | cons s ss ih =>
      rw [List.map_cons, List.sum_cons, ← ih, ← length_printLinks p s.linkOffset 0 p.lLen.toNat]
      change (_ :: (printLinks p s.linkOffset 0 p.lLen.toNat).value ++ (listSequences p ss).value).length = _
      rw [List.length_append, List.length_cons]

theorem length_ownLines {s : Sequence} (h : s.linkOffset.toNat + s.length.toNat ≤ p.lLen.toNat) :
    (ownLines p s).length = s.length.toNat + 1 := by
  rw [ownLines, List.length_cons, List.length_map, links, List.length_take, List.length_drop, p.link_length]
  omega

theorem length_flatMap_le {ss : List Sequence} (h : ∀ s ∈ ss, s.linkOffset.toNat + s.length.toNat ≤ p.lLen.toNat) :
    (ss.flatMap (ownLines p)).length ≤ (listSequences p ss).value.length := by
  rw [length_listSequences]
  induction ss with
  | nil => exact Nat.le_refl 0
  | cons s ss ih =>
      rw [List.forall_mem_cons] at h
      have hle := ih h.2
      rw [List.flatMap_cons, List.length_append, length_ownLines h.1, List.map_cons, List.sum_cons]
      omega

theorem eq_lLen_of_length {ss : List Sequence} (h : ∀ s ∈ ss, s.linkOffset.toNat + s.length.toNat ≤ p.lLen.toNat)
    (hlen : (listSequences p ss).value.length = (ss.flatMap (ownLines p)).length) : ∀ s ∈ ss, s.length = p.lLen := by
  induction ss with
  | nil => exact fun s hs => absurd hs List.not_mem_nil
  | cons s ss ih =>
      rw [List.forall_mem_cons] at h ⊢
      have hle := length_flatMap_le h.2
      rw [length_listSequences] at hle
      rw [length_listSequences, List.map_cons, List.sum_cons, List.flatMap_cons, List.length_append, length_ownLines h.1] at hlen
      refine ⟨BitVec.eq_of_toNat_eq (by omega), ih h.2 ?_⟩
      rw [length_listSequences]
      omega

end lines

section loads

variable {p : Policy}

theorem sysPigaAddSequence_log {k : State} {u : Upload} (h : (sysPigaAddSequence k u).value.rc = 0) :
    (sysPigaAddSequence k u).value.log =
      (printSequences (sysPigaAddSequence k u).value.state.pol (sysPigaAddSequence k u).value.state.pol.seq).value := by
  rw [sysPigaAddSequence] at h ⊢
  cases hc : copyPolicy u with
  | error rc =>
      rw [hc] at h
      exact absurd h (copyPolicy_error hc)
  | ok p => rfl

theorem wellFormed_sweeps_iff (p : Policy) (as : List Access) : WellFormed (sweeps p as) ↔ WellFormed p := by
  have hone (s : Sequence) : (passes p as s).linkOffset.toNat + (passes p as s).length.toNat ≤ p.lLen.toNat ↔
      s.linkOffset.toNat + s.length.toNat ≤ p.lLen.toNat := by
    obtain ⟨hl, ho⟩ := passes_shape p as s
    rw [hl, ho]
  constructor
  · intro h s hs
    exact (hone s).mp (h _ (mem_sweeps.mpr ⟨s, hs, rfl⟩))
  · intro h s' hs'
    obtain ⟨s, hs, rfl⟩ := mem_sweeps.mp hs'
    exact (hone s).mpr (h s hs)

theorem ownLines_passes (p : Policy) (as : List Access) (s : Sequence) :
    (ownLines (sweeps p as) (passes p as s)).map withoutToken = (ownLines p s).map withoutToken := by
  have hlinks : links (sweeps p as) (passes p as s) = links p s := passes_links p as s
  rw [ownLines, ownLines, hlinks, List.map_cons, List.map_cons, withoutToken, withoutToken, (passes_shape p as s).1]

theorem ownLines_sweeps (p : Policy) (as : List Access) :
    ((sweeps p as).seq.flatMap (ownLines (sweeps p as))).map withoutToken = (p.seq.flatMap (ownLines p)).map withoutToken := by
  have hseq : (sweeps p as).seq = p.seq.map (passes p as) := rfl
  rw [hseq, List.flatMap_map, List.map_flatMap, List.map_flatMap]
  exact congrArg (fun f => p.seq.flatMap f) (funext fun s => ownLines_passes p as s)

/-- The listing shows a policy exactly when each of its sequences takes up the whole link array. -/
theorem shows_iff (h : WellFormed p) : Shows p ↔ ∀ s ∈ p.seq, s.length = p.lLen := by
  constructor
  · intro hshows
    have hlen := congrArg List.length hshows.own
    rw [List.length_map, List.length_map] at hlen
    exact eq_lLen_of_length h hlen
  · intro hall
    have hlist : pigaListSequence p = printSequences p p.seq := listSequences_eq hall
    have hvalue : (pigaListSequence p).value = p.seq.flatMap (ownLines p) := by rw [hlist, printSequences_value h]
    refine ⟨by rw [hvalue], ?_, ?_⟩
    · intro k u es hrc hpol
      rw [run_pol] at hpol
      have hloaded : WellFormed (sysPigaAddSequence k u).value.state.pol := by
        rwa [← wellFormed_sweeps_iff _ (examined (sysPigaAddSequence k u).value.state es), hpol]
      rw [hvalue, sysPigaAddSequence_log hrc, printSequences_value hloaded, ← hpol, ownLines_sweeps]
    · rw [hlist]
      exact printSequences_within p p.seq h

end loads

theorem oneShot_policyRead :
    OneShot pigaProcPolicyRead (fun _ => "PIGA: policy: See dmesg output\n".toList)
      (fun s => (s.1, s.2 ++ (pigaListSequence s.1).value)) where
  first _ := rfl
  later s i hi := by rw [pigaProcPolicyRead, if_pos hi]
  nonempty _ := by decide
  short _ := by decide

/-- To read the file to its end lists the policy once, in whatever pieces it is read. -/
theorem readUntilEof_policyRead {sizes : Nat → Nat} (hsizes : ∀ i, 0 < sizes i) (fuel : Nat) (p : Policy) (log : List Line) :
    (readUntilEof pigaProcPolicyRead sizes (fuel + 2) 0 0 (p, log)).map Prod.snd =
      some (p, log ++ (pigaListSequence p).value) := by
  rw [readUntilEof_eq oneShot_policyRead hsizes]
  rfl

def oneSignature : Policy := { shadowPolicy with sLen := 1, seq := [⟨2, 1, 0⟩], seq_length := rfl }

theorem shows_oneSignature : Shows oneSignature := by
  refine (shows_iff ?_).mpr ?_
  · exact List.forall_mem_singleton.mpr (by decide)
  · exact List.forall_mem_singleton.mpr rfl

def twoSignatures : Policy := { shadowPolicy with sLen := 2, seq := [⟨1, 0, 0⟩, ⟨1, 0, 1⟩], seq_length := rfl }

theorem twoSignatures_misprinted :
    WellFormed twoSignatures ∧
      (pigaListSequence twoSignatures).value =
        [.sequence 1 0, .link 10 6 2 20, .link 10 10 4 30, .sequence 1 0, .link 10 10 4 30, .link 0 0 0 0] ∧
      (pigaListSequence twoSignatures).used = [0, 1, 1, 2] ∧ ¬Shows twoSignatures := by
  refine ⟨?_, by decide, by decide, fun h => ?_⟩
  · exact List.forall_mem_cons.mpr ⟨by decide, List.forall_mem_singleton.mpr (by decide)⟩
  · exact absurd (h.reads 2 (by decide)) (by decide)

end PigaLinux.Listing
