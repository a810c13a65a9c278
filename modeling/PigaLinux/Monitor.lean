import PigaLinux.Piga
import PigaLinux.Signature

namespace PigaLinux.Monitor

open Kernel Trace Greedy Signature Piga

/-- The signature that a sequence stands for. -/
def links (p : Policy) (s : Sequence) : List Link :=
  (p.link.drop s.linkOffset.toNat).take s.length.toNat

structure Safe (p : Policy) (s : Sequence) : Prop where
  position : s.currentPosition.toNat < s.length.toNat
  range : s.linkOffset.toNat + s.length.toNat ≤ p.lLen.toNat

/-- A sequence as it is installed, with its token on the first link. -/
structure Fresh (p : Policy) (s : Sequence) : Prop where
  one_le : 1 ≤ s.length.toNat
  atStart : s.currentPosition = 0
  range : s.linkOffset.toNat + s.length.toNat ≤ p.lLen.toNat

instance (p : Policy) : DecidablePred (Fresh p) := fun s =>
  decidable_of_iff (1 ≤ s.length.toNat ∧ s.currentPosition = 0 ∧
    s.linkOffset.toNat + s.length.toNat ≤ p.lLen.toNat)
    ⟨fun h => ⟨h.1, h.2.1, h.2.2⟩, fun h => ⟨h.one_le, h.atStart, h.range⟩⟩

def AllSafe (p : Policy) : Prop := ∀ s ∈ p.seq, Safe p s

def AllFresh (p : Policy) : Prop := ∀ s ∈ p.seq, Fresh p s

instance (p : Policy) : Decidable (AllFresh p) := inferInstanceAs (Decidable (∀ s ∈ p.seq, Fresh p s))

variable {p : Policy} {s : Sequence}

theorem Fresh.safe (h : Fresh p s) : Safe p s := by
  refine ⟨?_, h.range⟩
  rw [h.atStart]
  exact h.one_le

theorem AllFresh.safe (h : AllFresh p) : AllSafe p := fun s hs => (h s hs).safe

theorem links_length (h : Safe p s) : (links p s).length = s.length.toNat := by
  have hr := h.range
  rw [links, List.length_take, List.length_drop, p.link_length]
  omega

def token (p : Policy) (s : Sequence) (h : Safe p s) : Token Link :=
  ⟨links p s, s.currentPosition.toNat, by rw [links_length h]; exact h.position⟩

theorem index_toNat (h : Safe p s) :
    (s.linkOffset + s.currentPosition).toNat = s.linkOffset.toNat + s.currentPosition.toNat := by
  have hp := h.position
  have hr := h.range
  have hl := p.lLen.isLt
  rw [BitVec.toNat_add]
  exact Nat.mod_eq_of_lt (by omega)

theorem token_current (h : Safe p s) : (token p s h).current = p.current s := by
  have hp := h.position
  have hr := h.range
  have hb : s.linkOffset.toNat + s.currentPosition.toNat < p.link.length := by
    rw [p.link_length]; omega
  rw [Policy.current, Policy.linkAt, index_toNat h, List.getD_eq_getElem?_getD,
    List.getElem?_eq_getElem hb]
  simp [Token.current, token, links]

theorem Safe.next_toNat (h : Safe p s) : (s.currentPosition + 1).toNat = s.currentPosition.toNat + 1 := by
  have hp := h.position
  have hl := s.length.isLt
  rw [BitVec.toNat_add]
  exact Nat.mod_eq_of_lt (by simpa using (by omega : s.currentPosition.toNat + 1 < 2 ^ 32))

theorem atEnd_iff (h : Safe p s) : (token p s h).AtEnd ↔ pigaSeqEnd s = true := by
  rw [Token.AtEnd, pigaSeqEnd, beq_iff_eq, ← BitVec.toNat_inj, h.next_toNat]
  exact iff_of_eq (congrArg _ (links_length h))

theorem refuses_iff (h : Safe p s) (a : Access) :
    Refuses p a s ↔ (token p s h).Refuses Link.Matches a := by
  rw [Refuses, Token.Refuses, token_current h, atEnd_iff h]

theorem passSeq_linkOffset (p : Policy) (a : Access) (s : Sequence) :
    (passSeq p a s).linkOffset = s.linkOffset := by
  rw [passSeq]; split <;> rfl

theorem passSeq_length (p : Policy) (a : Access) (s : Sequence) : (passSeq p a s).length = s.length := by
  rw [passSeq]; split <;> rfl

theorem passSeq_links (p : Policy) (a : Access) (s : Sequence) : links p (passSeq p a s) = links p s := by
  rw [links, passSeq_linkOffset, passSeq_length]; rfl

/-- The in-place pass over one sequence is the step of its token. -/
theorem passSeq_refines (h : Safe p s) (a : Access) :
    ∃ h' : Safe p (passSeq p a s), token p (passSeq p a s) h' = (token p s h).step Link.Matches a := by
  have hp := h.position
  by_cases hm : (p.current s).Matches a
  · by_cases he : (token p s h).AtEnd
    · have hs : passSeq p a s = s := by
        rw [passSeq, if_neg]
        intro hmv
        exact absurd ((atEnd_iff h).mp he) (by rw [hmv.2]; simp)
      have hn : ¬(token p s h).position + 1 < (token p s h).links.length := by
        rw [Token.AtEnd] at he; omega
      rw [hs]
      exact ⟨h, by rw [Token.step, dif_neg hn, ite_self]⟩
    · have hend : pigaSeqEnd s = false := by
        rw [← Bool.not_eq_true, ← atEnd_iff h]; exact he
      have hs : passSeq p a s = { s with currentPosition := s.currentPosition + 1 } := by
        rw [passSeq, if_pos ⟨hm, hend⟩]
      have hlt : s.currentPosition.toNat + 1 < s.length.toNat := by
        have hlen := links_length h
        have hne : s.currentPosition.toNat + 1 ≠ (links p s).length := he
        omega
      have hpos := h.next_toNat
      rw [hs]
      have hn : (token p s h).position + 1 < (token p s h).links.length := by
        change s.currentPosition.toNat + 1 < (links p s).length
        rw [links_length h]; exact hlt
      refine ⟨⟨by rw [hpos]; exact hlt, h.range⟩, ?_⟩
      rw [Token.step, token_current h, if_pos hm, dif_pos hn]
      exact Token.ext rfl hpos
  · have hs : passSeq p a s = s := by
      rw [passSeq, if_neg]
      exact fun hmv => hm hmv.1
    rw [hs]
    exact ⟨h, by rw [Token.step, token_current h, if_neg hm]⟩

def passes (p : Policy) (as : List Access) (s : Sequence) : Sequence :=
  as.foldl (fun s a => passSeq p a s) s

theorem passes_refines (h : Safe p s) (as : List Access) :
    ∃ h' : Safe p (passes p as s), token p (passes p as s) h' = (token p s h).run Link.Matches as := by
  induction as generalizing s with
  | nil => exact ⟨h, rfl⟩
  | cons a as ih =>
      obtain ⟨h₁, ht⟩ := passSeq_refines h a
      obtain ⟨h₂, hr⟩ := ih h₁
      rw [ht] at hr
      exact ⟨h₂, hr⟩

theorem passes_links (p : Policy) (as : List Access) (s : Sequence) :
    links p (passes p as s) = links p s := by
  induction as generalizing s with
  | nil => rfl
  | cons a as ih => exact (ih (passSeq p a s)).trans (passSeq_links p a s)

theorem Fresh.token_eq (h : Fresh p s) :
    token p s h.safe = start (links p s) (by rw [links_length h.safe]; exact h.one_le) := by
  apply Token.ext
  · rfl
  · change s.currentPosition.toNat = 0
    rw [h.atStart]; rfl

theorem Fresh.passes_position (h : Fresh p s) (as : List Access) :
    (passes p as s).currentPosition.toNat =
      min (greedy Link.Matches (links p s) as) (s.length.toNat - 1) := by
  obtain ⟨h', ht⟩ := passes_refines h.safe as
  rw [h.token_eq] at ht
  have hp := congrArg Token.position ht
  rw [position_run_start, links_length h.safe] at hp
  exact hp

theorem Fresh.refuses_passes (h : Fresh p s) (as : List Access) (a : Access) :
    Refuses p a (passes p as s) ↔
      s.length.toNat - 1 ≤ greedy Link.Matches (links p s) as ∧
        ∃ l, (links p s).getLast? = some l ∧ l.Matches a := by
  obtain ⟨h', ht⟩ := passes_refines h.safe as
  have hlen := links_length h.safe
  have hone := h.one_le
  rw [refuses_iff h', ht, h.token_eq, refuses_run_start]
  rw [List.getLast?_eq_getElem?, List.getElem?_eq_getElem (by omega)]
  simp [hlen]

def sweeps (p : Policy) (as : List Access) : Policy :=
  p.setSeq (p.seq.map (passes p as)) (by simp)

theorem sweeps_nil (p : Policy) : sweeps p [] = p := by
  have hm : p.seq.map (passes p []) = p.seq := List.map_id _
  exact Policy.ext rfl rfl hm rfl rfl

theorem sweep_sweeps (p : Policy) (a : Access) (as : List Access) :
    sweeps (p.sweep a) as = sweeps p (a :: as) := by
  have hm : (p.sweep a).seq.map (passes (p.sweep a) as) = p.seq.map (passes p (a :: as)) := by
    rw [Policy.sweep, Policy.setSeq, List.map_map]
    rfl
  exact Policy.ext rfl rfl hm rfl rfl

theorem passes_append (p : Policy) (as bs : List Access) (s : Sequence) :
    passes p (as ++ bs) s = passes p bs (passes p as s) :=
  List.foldl_append

theorem sweeps_sweeps (p : Policy) (as bs : List Access) :
    sweeps (sweeps p as) bs = sweeps p (as ++ bs) := by
  have hm : (sweeps p as).seq.map (passes (sweeps p as) bs) = p.seq.map (passes p (as ++ bs)) := by
    rw [sweeps, Policy.setSeq, List.map_map]
    exact List.map_congr_left fun s _ => (passes_append p as bs s).symm
  exact Policy.ext rfl rfl hm rfl rfl

theorem mem_sweeps {as : List Access} {s' : Sequence} :
    s' ∈ (sweeps p as).seq ↔ ∃ s ∈ p.seq, passes p as s = s' := List.mem_map

theorem passes_shape (p : Policy) (as : List Access) (s : Sequence) :
    (passes p as s).length = s.length ∧ (passes p as s).linkOffset = s.linkOffset := by
  induction as generalizing s with
  | nil => exact ⟨rfl, rfl⟩
  | cons a as ih =>
      obtain ⟨hl, ho⟩ := ih (passSeq p a s)
      exact ⟨hl.trans (passSeq_length p a s), ho.trans (passSeq_linkOffset p a s)⟩

theorem AllSafe.sweeps (h : AllSafe p) (as : List Access) : AllSafe (sweeps p as) := by
  intro s' hs'
  obtain ⟨s, hs, rfl⟩ := mem_sweeps.mp hs'
  obtain ⟨hsafe, _⟩ := passes_refines (h s hs) as
  exact ⟨hsafe.position, hsafe.range⟩

def readShadow : Access := ⟨10, 20, 6, 2⟩

def writeTty : Access := ⟨10, 30, 10, 4⟩

/-- Two signatures that share their links: to read the shadow file at all,
and to write to a terminal after it. -/
def shadowPolicy : Policy where
  sLen := 2
  lLen := 2
  seq := [⟨1, 0, 0⟩, ⟨2, 0, 0⟩]
  link := [⟨10, 20, 6, 2⟩, ⟨10, 30, 10, 4⟩]
  behind := fun _ => ⟨0, 0, 0, 0⟩
  seq_length := rfl
  link_length := rfl

def shadowState : State := ⟨true, false, shadowPolicy⟩

end PigaLinux.Monitor
