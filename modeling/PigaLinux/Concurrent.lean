import PigaLinux.Interleaving
import PigaLinux.Loading
import Mathlib.Data.List.GetD

namespace PigaLinux.Concurrent

open Kernel Trace Indices Piga Monitor Loading Interleaving

/-- The variables that the tasks share. An array is known by its address, and
one that has been given back keeps what it held. -/
structure Globals where
  status : Bool
  auditOnlyMode : Bool
  seq : Nat
  link : Nat
  sLen : U32
  lLen : U32
  seqHeap : Nat → U32 → Sequence
  linkHeap : Nat → U32 → Link

def cells {α : Type} (f : U32 → α) (i n : Nat) : List α :=
  (List.range' i n).map fun j => f (BitVec.ofNat 32 j)

def policy (g : Globals) : Policy where
  sLen := g.sLen
  lLen := g.lLen
  seq := cells (g.seqHeap g.seq) 0 g.sLen.toNat
  link := cells (g.linkHeap g.link) 0 g.lLen.toNat
  behind := g.linkHeap g.link
  seq_length := by simp [cells]
  link_length := by simp [cells]

def view (g : Globals) : State := ⟨g.status, g.auditOnlyMode, policy g⟩

def put (g : Globals) (base : Nat) (i : U32) (s : Sequence) : Globals :=
  { g with seqHeap := Function.update g.seqHeap base (Function.update (g.seqHeap base) i s) }

structure NewPolicy where
  sL : U32
  lL : U32
  s : Nat
  l : Nat
deriving DecidableEq

inductive Request
  | hasPerm (c : Call)
  | setPol (n : NewPolicy)
deriving DecidableEq

inductive Local
  | enter (c : Call)
  | test (a : Access) (base : Nat) (i : U32) (rc : Int)
  | matched (a : Access) (base : Nat) (i : U32) (rc : Int)
  | unfinished (a : Access) (base : Nat) (i : U32) (rc : Int)
  | setSeq (n : NewPolicy)
  | setLink (n : NewPolicy)
  | setSLen (n : NewPolicy)
  | setLLen (n : NewPolicy)
  | installed

def enter : Request → Local
  | .hasPerm c => .enter c
  | .setPol n => .setSeq n

/-- The base is read once, the length and the links each time anew. -/
def step (g : Globals) : Local → (Globals × Local) ⊕ Int
  | .enter c =>
      if g.status then
        if auditOnlySkips (view g) c then .inr c.rc
        else .inl (g, .test c.access g.seq 0 pigaAllow)
      else .inr c.rc
  | .test a base i rc =>
      if i < g.sLen then
        if (linkTest (policy g) a (g.seqHeap base i)).value then .inl (g, .matched a base i rc)
        else .inl (g, .test a base (i + 1) rc)
      else .inr rc
  | .matched a base i rc =>
      if pigaSeqEnd (g.seqHeap base i) then .inl (g, .test a base (i + 1) pigaDeny)
      else .inl (g, .unfinished a base i rc)
  | .unfinished a base i rc =>
      .inl (put g base i (pigaSeqNext (g.seqHeap base i)).2, .test a base (i + 1) rc)
  | .setSeq n => .inl ({ g with seq := n.s }, .setLink n)
  | .setLink n => .inl ({ g with link := n.l }, .setSLen n)
  | .setSLen n => .inl ({ g with sLen := n.sL }, .setLLen n)
  | .setLLen n => .inl ({ g with lLen := n.lL }, .installed)
  | .installed => .inr 0

def writes (_ : Globals) : Local → Bool
  | .unfinished .. | .setSeq _ | .setLink _ | .setSLen _ | .setLLen _ => true
  | _ => false

theorem step_kept (g : Globals) (l : Local) (g' : Globals) (l' : Local) (hw : writes g l = false)
    (h : step g l = .inl (g', l')) : g' = g := by
  have hsame {l₁ : Local} (h : (Sum.inl (g, l₁) : (Globals × Local) ⊕ Int) = .inl (g', l')) : g' = g :=
    (Prod.mk.inj (Sum.inl.inj h)).1.symm
  cases l with
  | enter c =>
      rw [step] at h
      split at h
      · split at h
        · exact absurd h (by simp)
        · exact hsame h
      · exact absurd h (by simp)
  | test a base i rc =>
      rw [step] at h
      split at h
      · split at h
        · exact hsame h
        · exact hsame h
      · exact absurd h (by simp)
  | matched a base i rc =>
      rw [step] at h
      split at h
      · exact hsame h
      · exact hsame h
  | installed => exact absurd h (by simp [step])
  | unfinished | setSeq | setLink | setSLen | setLLen => exact absurd hw (by simp [writes])

def tasks : Machine Globals Request Local Int := ⟨enter, step, writes, step_kept⟩

def store (g : Globals) (ss : List Sequence) : Globals :=
  { g with seqHeap := Function.update g.seqHeap g.seq fun i => ss.getD i.toNat (g.seqHeap g.seq i) }

def perform (g : Globals) : Request → Int × Globals
  | .hasPerm c => ((pigaHasPerm (view g) c).value.1, store g (pigaHasPerm (view g) c).value.2.pol.seq)
  | .setPol n => (0, { g with seq := n.s, link := n.l, sLen := n.sL, lLen := n.lL })

def Serialisable (g : Globals) (es : List (Event Request)) : Prop :=
  ∃ order : List (Request × Int),
    (order.map Prod.fst).Perm (started es) ∧
    order.Perm (run tasks (idle g) es).returned ∧
    serially perform g (order.map Prod.fst) = (order.map Prod.snd, (run tasks (idle g) es).shared)

/-- A token has passed only links that one of the accesses matches. -/
def Walked (g g' : Globals) (cs : List Call) : Prop :=
  ∀ i < g.sLen, ∀ p, (g.seqHeap g.seq i).currentPosition.toNat ≤ p →
    p < (g'.seqHeap g.seq i).currentPosition.toNat →
    ∃ c ∈ cs, (g.linkHeap g.link ((g.seqHeap g.seq i).linkOffset + BitVec.ofNat 32 p)).Matches c.access

section cells

variable {α : Type} (f : U32 → α)

theorem cells_succ (i n : Nat) : cells f i (n + 1) = f (BitVec.ofNat 32 i) :: cells f (i + 1) n := by
  simp [cells, List.range'_succ]

theorem cells_length (i n : Nat) : (cells f i n).length = n := by simp [cells]

theorem cells_map {β : Type} (h : α → β) (n i : U32) (y : β) :
    ((cells f 0 n.toNat).map h).getD i.toNat y = if i < n then h (f i) else y := by
  by_cases hi : i < n
  · simp [cells, List.getD, BitVec.lt_def.mp hi, hi]
  · have hle : n.toNat ≤ i.toNat := Nat.le_of_not_lt (fun hlt => hi (BitVec.lt_def.mpr hlt))
    rw [if_neg hi, List.getD_eq_default _ _ (by rw [List.length_map, cells_length]; exact hle)]

theorem cells_getD (n i : U32) : (cells f 0 n.toNat).getD i.toNat (f i) = f i := by
  have h := cells_map f id n i (f i)
  rwa [List.map_id, id, ite_self] at h

end cells

theorem linkAt_policy (g : Globals) (i : U32) : (policy g).linkAt i = g.linkHeap g.link i :=
  cells_getD (g.linkHeap g.link) g.lLen i

theorem current_policy (g : Globals) (s : Sequence) :
    (policy g).current s = g.linkHeap g.link (s.linkOffset + s.currentPosition) :=
  linkAt_policy g _

theorem put_self (g : Globals) (base : Nat) (i : U32) : put g base i (g.seqHeap base i) = g := by
  simp [put]

theorem seqHeap_put (g : Globals) (base : Nat) (i j : U32) (s : Sequence) :
    (put g base i s).seqHeap base j = if j = i then s else g.seqHeap base j := by
  simp [put, Function.update_apply]

theorem current_put (g : Globals) (base : Nat) (i : U32) (s s' : Sequence) :
    (policy (put g base i s)).current s' = (policy g).current s' := by
  rw [current_policy, current_policy]
  rfl

theorem passSeq_put (g : Globals) (a : Access) (base : Nat) (i : U32) (s : Sequence) :
    passSeq (policy (put g base i s)) a = passSeq (policy g) a := by
  funext s'
  have hmoves : Moves (policy (put g base i s)) a s' ↔ Moves (policy g) a s' := by
    simp only [Moves, current_put]
  exact if_congr hmoves rfl rfl

theorem refused_put (g : Globals) (a : Access) (base : Nat) (i : U32) (s : Sequence) (ss : List Sequence) :
    Refused (policy (put g base i s)) a ss ↔ Refused (policy g) a ss := by
  simp only [Refused, Refuses, current_put]

theorem cells_put (g : Globals) (i n : Nat) (s : Sequence) (h : i + n < 2 ^ 32) :
    cells ((put g g.seq (BitVec.ofNat 32 i) s).seqHeap g.seq) (i + 1) n = cells (g.seqHeap g.seq) (i + 1) n := by
  apply List.map_congr_left
  intro j hj
  obtain ⟨hij, hjn⟩ := List.mem_range'_1.mp hj
  rw [seqHeap_put, if_neg (ofNat_ne (by omega) (by omega) (by omega))]

def sweepFrom (g : Globals) (a : Access) (i : Nat) : Globals :=
  { g with
    seqHeap := Function.update g.seqHeap g.seq fun j =>
      if i ≤ j.toNat ∧ j < g.sLen then passSeq (policy g) a (g.seqHeap g.seq j) else g.seqHeap g.seq j }

theorem sweepFrom_end (g : Globals) (a : Access) : sweepFrom g a g.sLen.toNat = g := by
  have hsame : (fun j => if g.sLen.toNat ≤ j.toNat ∧ j < g.sLen then passSeq (policy g) a (g.seqHeap g.seq j)
      else g.seqHeap g.seq j) = g.seqHeap g.seq := by
    funext j
    rw [if_neg]
    rintro ⟨hle, hlt⟩
    exact absurd (BitVec.lt_def.mp hlt) (by omega)
  rw [sweepFrom, hsame, Function.update_eq_self]

theorem sweepFrom_succ (g : Globals) (a : Access) {i : Nat} (h : i < g.sLen.toNat) :
    sweepFrom (put g g.seq (BitVec.ofNat 32 i) (passSeq (policy g) a (g.seqHeap g.seq (BitVec.ofNat 32 i)))) a
      (i + 1) = sweepFrom g a i := by
  have hlt := g.sLen.isLt
  have hi : (BitVec.ofNat 32 i).toNat = i := toNat_index (by omega)
  rw [sweepFrom, sweepFrom, passSeq_put]
  congr 1
  change Function.update (Function.update _ _ _) g.seq _ = _
  rw [Function.update_idem]
  congr 1
  funext j
  change (if i + 1 ≤ j.toNat ∧ j < g.sLen then passSeq (policy g) a ((put g g.seq _ _).seqHeap g.seq j)
    else (put g g.seq _ _).seqHeap g.seq j) = _
  rw [seqHeap_put]
  by_cases hj : j = BitVec.ofNat 32 i
  · subst hj
    rw [hi, if_neg (by omega), if_pos rfl, if_pos ⟨le_rfl, BitVec.lt_def.mpr (by rw [hi]; exact h)⟩]
  · have hne : i ≠ j.toNat := by
      intro heq
      exact hj (BitVec.eq_of_toNat_eq (by rw [hi, heq]))
    rw [if_neg hj]
    congr 1
    simp only [eq_iff_iff, and_congr_left_iff]
    intro _
    omega

theorem iteration_completes (a : Access) {g g' : Globals} {i : U32} {rc r : Int} (hi : i < g.sLen)
    (h : Completes tasks (put g g.seq i (passSeq (policy g) a (g.seqHeap g.seq i)))
      (.test a g.seq (i + 1) (if Refuses (policy g) a (g.seqHeap g.seq i) then pigaDeny else rc)) g' r) :
    Completes tasks g (.test a g.seq i rc) g' r := by
  have htest := linkTest_value (policy g) a (g.seqHeap g.seq i)
  by_cases hm : ((policy g).current (g.seqHeap g.seq i)).Matches a
  · rw [decide_eq_true hm] at htest
    have hmatched : step g (.test a g.seq i rc) = .inl (g, .matched a g.seq i rc) := by
      rw [step, if_pos hi, if_pos htest]
    refine .step hmatched ?_
    cases he : pigaSeqEnd (g.seqHeap g.seq i) with
    | true =>
        have hstay : passSeq (policy g) a (g.seqHeap g.seq i) = g.seqHeap g.seq i :=
          if_neg (fun hmoves => by rw [hmoves.2] at he; exact absurd he (by decide))
        rw [hstay, put_self, if_pos ⟨hm, he⟩] at h
        have hdeny : step g (.matched a g.seq i rc) = .inl (g, .test a g.seq (i + 1) pigaDeny) := by
          rw [step, if_pos he]
        exact .step hdeny h
    | false =>
        have hmove : passSeq (policy g) a (g.seqHeap g.seq i) = (pigaSeqNext (g.seqHeap g.seq i)).2 := by
          rw [passSeq, if_pos ⟨hm, he⟩, pigaSeqNext_of_not_end he]
        rw [hmove, if_neg (fun hrefuses => by rw [hrefuses.2] at he; exact absurd he (by decide))] at h
        have hgoesOn : step g (.matched a g.seq i rc) = .inl (g, .unfinished a g.seq i rc) := by
          rw [step, if_neg (by rw [he]; decide)]
        exact .step hgoesOn (.step rfl h)
  · rw [decide_eq_false hm] at htest
    have hstay : passSeq (policy g) a (g.seqHeap g.seq i) = g.seqHeap g.seq i := if_neg (fun hmoves => hm hmoves.1)
    rw [hstay, put_self, if_neg (fun hrefuses => hm hrefuses.1)] at h
    have hpassed : step g (.test a g.seq i rc) = .inl (g, .test a g.seq (i + 1) rc) := by
      rw [step, if_pos hi, if_neg (by rw [htest]; decide)]
    exact .step hpassed h

theorem loop_completes (a : Access) (n : Nat) (g : Globals) (i : Nat) (rc : Int) (hn : i + n = g.sLen.toNat) :
    Completes tasks g (.test a g.seq (BitVec.ofNat 32 i) rc) (sweepFrom g a i)
      (if Refused (policy g) a (cells (g.seqHeap g.seq) i n) then pigaDeny else rc) := by
  have hlt := g.sLen.isLt
  -- on the iterations left, since each starts from the tokens that the last one left
  induction n generalizing g i rc with
  | zero =>
      obtain rfl : i = g.sLen.toNat := hn
      rw [sweepFrom_end]
      apply Completes.ret
      simp [tasks, step, cells, Refused]
  | succ n ih =>
      have hpos : BitVec.ofNat 32 i < g.sLen := by
        rw [BitVec.lt_def, toNat_index (by omega)]
        omega
      rw [cells_succ, ← sweepFrom_succ g a (by omega)]
      apply iteration_completes a hpos
      rw [ofNat_succ]
      have hrest := ih
        (put g g.seq (BitVec.ofNat 32 i) (passSeq (policy g) a (g.seqHeap g.seq (BitVec.ofNat 32 i))))
        (i + 1) (if Refuses (policy g) a (g.seqHeap g.seq (BitVec.ofNat 32 i)) then pigaDeny else rc)
        (by change i + 1 + n = g.sLen.toNat; omega) hlt
      change Completes tasks _ (.test a g.seq _ _) _
        (if Refused _ a (cells ((put g g.seq _ _).seqHeap g.seq) _ _) then _ else _) at hrest
      rw [cells_put g i n _ (by omega)] at hrest
      simp only [refused_put] at hrest
      convert hrest using 1
      simp only [refused_cons]
      by_cases hr : Refused (policy g) a (cells (g.seqHeap g.seq) (i + 1) n)
      · simp only [hr, or_true, if_true]
      · simp only [hr, or_false, if_false]

theorem store_sweep (g : Globals) (a : Access) : store g ((policy g).sweep a).seq = sweepFrom g a 0 := by
  rw [store, sweepFrom]
  congr 1
  congr 1
  funext j
  change ((cells (g.seqHeap g.seq) 0 g.sLen.toNat).map (passSeq (policy g) a)).getD _ _ = _
  rw [cells_map]
  simp

theorem store_self (g : Globals) : store g (policy g).seq = g := by
  have hsame : (fun i : U32 => (policy g).seq.getD i.toNat (g.seqHeap g.seq i)) = g.seqHeap g.seq :=
    funext (cells_getD (g.seqHeap g.seq) g.sLen)
  rw [store, hsame, Function.update_eq_self]

theorem perform_completes (g : Globals) (c : Request) :
    Completes tasks g (tasks.init c) (perform g c).2 (perform g c).1 := by
  cases c with
  | setPol n => exact .step rfl (.step rfl (.step rfl (.step rfl (.ret rfl))))
  | hasPerm c =>
      change Completes tasks g (.enter c) _ _
      rw [perform, pigaHasPerm_value]
      by_cases hx : Examines (view g) c
      · have henter : step g (.enter c) = .inl (g, .test c.access g.seq 0 pigaAllow) := by
          have hs : g.status = true := hx.1
          rw [step, if_pos hs, if_neg (by rw [hx.2]; decide)]
        have hloop := loop_completes c.access g.sLen.toNat g 0 pigaAllow (Nat.zero_add _)
        rw [if_pos hx]
        rw [← store_sweep] at hloop
        exact .step henter hloop
      · have hskip : step g (.enter c) = .inr c.rc := by
          rw [step]
          by_cases hs : g.status = true
          · rw [if_pos hs, if_pos (by_contra fun ha => hx ⟨hs, by simpa using ha⟩)]
          · rw [if_neg hs]
        rw [if_neg hx]
        change Completes tasks g _ (store g (policy g).seq) _
        rw [store_self]
        exact .ret hskip

theorem policy_store (g : Globals) (ss : List Sequence) (h : ss.length = (policy g).seq.length) :
    policy (store g ss) = (policy g).setSeq ss h := by
  have hseq : cells ((store g ss).seqHeap g.seq) 0 g.sLen.toNat = ss := by
    have hn : ss.length = g.sLen.toNat := h.trans (cells_length _ _ _)
    apply List.ext_getElem
    · rw [cells_length, hn]
    · intro i hi hi'
      have hlt : i % 4294967296 = i := Nat.mod_eq_of_lt (by have := g.sLen.isLt; omega)
      simp [cells, store, List.getD, hlt, hi']
  exact Policy.ext rfl rfl hseq rfl rfl

theorem view_perform (g : Globals) (c : Request) :
    ((perform g c).1, view (perform g c).2) =
      match c with
      | .hasPerm c => (pigaHasPerm (view g) c).value
      | .setPol n => pigaSetPol (view g) (policy (perform g (.setPol n)).2) := by
  cases c with
  | setPol n => rfl
  | hasPerm c =>
      dsimp only
      rw [perform, pigaHasPerm_value]
      by_cases hx : Examines (view g) c
      · rw [if_pos hx]
        exact Prod.ext rfl (congrArg (State.mk g.status g.auditOnlyMode) (policy_store g _ _))
      · rw [if_neg hx]
        exact Prod.ext rfl (congrArg view (store_self g))

theorem perform_hasPerm_cases (g : Globals) (c : Call) :
    (perform g (.hasPerm c)).2 = g ∨ (perform g (.hasPerm c)).2 = sweepFrom g c.access 0 := by
  rw [perform, pigaHasPerm_value]
  by_cases hx : Examines (view g) c
  · rw [if_pos hx]
    exact .inr (store_sweep g c.access)
  · rw [if_neg hx]
    exact .inl (store_self g)

theorem seqHeap_sweep (g : Globals) (a : Access) {i : U32} (hi : i < g.sLen) :
    (sweepFrom g a 0).seqHeap g.seq i = passSeq (policy g) a (g.seqHeap g.seq i) := by
  simp [sweepFrom, hi]

theorem walked_serially (g : Globals) (cs : List Call) :
    Walked g (serially perform g (cs.map .hasPerm)).2 cs := by
  induction cs generalizing g with
  | nil =>
      intro i _ p hle hlt
      exact absurd hlt (Nat.not_lt.mpr hle)
  | cons c cs ih =>
      intro i hi p hle hlt
      have hrest := ih (perform g (.hasPerm c)).2
      rw [List.map_cons, serially] at hlt
      rcases perform_hasPerm_cases g c with hg | hg
      · rw [hg] at hrest hlt
        exact List.exists_mem_cons_of_exists (hrest i hi p hle hlt)
      · rw [hg] at hrest hlt
        have hthen := hrest i hi p
        rw [show (sweepFrom g c.access 0).seq = g.seq from rfl, seqHeap_sweep g c.access hi,
          passSeq_linkOffset] at hthen
        by_cases hmoves : Moves (policy g) c.access (g.seqHeap g.seq i)
        · rcases Nat.eq_or_lt_of_le hle with rfl | hpast
          · have hmatches := hmoves.1
            rw [current_policy] at hmatches
            refine ⟨c, List.mem_cons_self, ?_⟩
            rw [BitVec.ofNat_toNat, BitVec.setWidth_eq]
            exact hmatches
          · -- a token that wraps around starts again from zero
            have hnext : ((g.seqHeap g.seq i).currentPosition + 1).toNat ≤ p := by
              rw [BitVec.toNat_add]
              exact (Nat.mod_le _ _).trans hpast
            rw [passSeq, if_pos hmoves] at hthen
            exact List.exists_mem_cons_of_exists (hthen hnext hlt)
        · rw [passSeq, if_neg hmoves] at hthen
          exact List.exists_mem_cons_of_exists (hthen hle hlt)

theorem Walked.perm {g g' : Globals} {cs cs' : List Call} (h : Walked g g' cs) (hcs : cs.Perm cs') :
    Walked g g' cs' := by
  intro i hi p hle hlt
  obtain ⟨c, hc, hmatches⟩ := h i hi p hle hlt
  exact ⟨c, hcs.mem_iff.mp hc, hmatches⟩

def oneToken : Globals where
  status := true
  auditOnlyMode := false
  seq := 1
  link := 1
  sLen := 1
  lLen := 3
  seqHeap _ _ := ⟨3, 0, 0⟩
  linkHeap _ i := if i = 0 then ⟨101, 102, 7, 1⟩ else if i = 1 then ⟨102, 103, 7, 1⟩ else ⟨103, 104, 7, 1⟩

def firstLinkCall : Call := ⟨⟨101, 102, 7, 1⟩, 0, none⟩

def sideBySide : List (Event Request) :=
  [.start (.hasPerm firstLinkCall), .start (.hasPerm firstLinkCall), .step 0, .step 1, .step 0, .step 1,
    .step 0, .step 1, .step 0, .step 1, .step 0, .step 0]

/-- The second task moves the token off a link that it has not matched. -/
theorem link_skipped :
    AllFresh (policy oneToken) ∧ (run tasks (idle oneToken) sideBySide).flight = [] ∧
      ¬Serialisable oneToken sideBySide ∧
      ¬Walked oneToken (run tasks (idle oneToken) sideBySide).shared [firstLinkCall, firstLinkCall] := by
  refine ⟨by decide, by decide, ?_, ?_⟩
  · rintro ⟨order, hstarted, -, hserial⟩
    have hcalls : order.map Prod.fst = List.replicate 2 (.hasPerm firstLinkCall) :=
      List.perm_replicate.mp hstarted
    rw [hcalls] at hserial
    have htoken :
        ((serially perform oneToken (List.replicate 2 (.hasPerm firstLinkCall))).2.seqHeap 1 0).currentPosition =
          ((run tasks (idle oneToken) sideBySide).shared.seqHeap 1 0).currentPosition := by rw [hserial]
    exact absurd htoken (by decide)
  · intro hwalked
    obtain ⟨c, hc, hmatches⟩ := hwalked 0 (by decide) 1 (by decide) (by decide)
    obtain rfl : c = firstLinkCall := by simpa using hc
    exact absurd hmatches (by decide)

/-- Calls that overlap while none of them has written are serialisable. -/
theorem serialisable_of_exclusive (g : Globals) (es : List (Event Request))
    (hexclusive : ExclusiveRun tasks (idle g) es) (hreturned : (run tasks (idle g) es).flight = []) :
    Serialisable g es ∧
      ∀ cs, started es = cs.map .hasPerm → Walked g (run tasks (idle g) es).shared cs := by
  have hserial := (serial_of_exclusive g es hexclusive hreturned).eq_serially perform_completes
  have hstarted : ((run tasks (idle g) es).returned.map Prod.fst).Perm (started es) := by
    have hperm := run_perm tasks (idle g) es
    rw [hreturned, List.map_nil, List.append_nil] at hperm
    exact hperm
  refine ⟨⟨_, hstarted, List.Perm.refl _, hserial⟩, ?_⟩
  intro cs hcs
  rw [hcs] at hstarted
  obtain ⟨cs', hmap, hcs'⟩ :
      Relation.Comp (fun l cs => l = cs.map Request.hasPerm) List.Perm
        ((run tasks (idle g) es).returned.map Prod.fst) cs := by
    rw [List.eq_map_comp_perm]
    exact hstarted
  have hwalked := walked_serially g cs'
  rw [← hmap, hserial] at hwalked
  exact hwalked.perm hcs'

def oneThenTwo : List (Event Request) :=
  [.start (.hasPerm firstLinkCall), .step 0, .step 0, .step 0, .step 0, .step 0,
    .start (.hasPerm firstLinkCall), .start (.hasPerm firstLinkCall), .step 0, .step 1, .step 1, .step 0,
    .step 0, .step 0]

theorem serialisable_of_exclusive_oneThenTwo :
    ExclusiveRun tasks (idle oneToken) oneThenTwo ∧ Serialisable oneToken oneThenTwo ∧
      Walked oneToken (run tasks (idle oneToken) oneThenTwo).shared (List.replicate 3 firstLinkCall) := by
  have hexclusive : ExclusiveRun tasks (idle oneToken) oneThenTwo := by decide
  have hboth := serialisable_of_exclusive oneToken oneThenTwo hexclusive (by decide)
  exact ⟨hexclusive, hboth.1, hboth.2 (List.replicate 3 firstLinkCall) rfl⟩

end PigaLinux.Concurrent
