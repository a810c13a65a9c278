import PigaLinux.Loading

namespace PigaLinux.Replacement

open Kernel Trace Piga Monitor Runs Loading

inductive Op
  | load (u : Upload)
  | event (e : Event)

def stepOp (k : State) : Op → Int × State
  | .load u => ((sysPigaAddSequence k u).value.rc, (sysPigaAddSequence k u).value.state)
  | .event e => (step k e).value

def after (k : State) (ops : List Op) : State := ops.foldl (fun k op => (stepOp k op).2) k

def answers (k : State) : List Op → List Int
  | [] => []
  | .load u :: ops => answers (stepOp k (.load u)).2 ops
  | .event e :: ops => (stepOp k (.event e)).1 :: answers (stepOp k (.event e)).2 ops

def events : List Op → List Event
  | [] => []
  | .load _ :: ops => events ops
  | .event e :: ops => e :: events ops

def LoadsFail (k : State) : List Op → Prop
  | [] => True
  | .load u :: ops => (stepOp k (.load u)).1 ≠ 0 ∧ LoadsFail (stepOp k (.load u)).2 ops
  | .event e :: ops => LoadsFail (stepOp k (.event e)).2 ops

/-- The size that the system call computes in a size_t. -/
def sizeOf (c : Nat) (n : U32) : BitVec 64 := BitVec.ofNat 64 c * n.setWidth 64

structure Replaces (k : State) (ops : List Op) : Prop where
  failed : ∀ past u rest, ops = past ++ .load u :: rest → (stepOp (after k past) (.load u)).1 ≠ 0 →
    (stepOp (after k past) (.load u)).2 = after k past
  installed : ∀ past u mid rest, ops = past ++ .load u :: (mid ++ rest) →
    (stepOp (after k past) (.load u)).1 = 0 →
      ∃ p, Copied u p ∧ (stepOp (after k past) (.load u)).2 = { after k past with pol := p } ∧
        (LoadsFail (stepOp (after k past) (.load u)).2 mid →
          answers (stepOp (after k past) (.load u)).2 mid =
            (run ⟨(after k past).status, (after k past).auditOnlyMode, p⟩ (events mid)).value.1)
  sizes : ∀ u : Upload, (sizeOf sizeofSequence u.sLen).toNat = sizeofSequence * u.sLen.toNat ∧
    (sizeOf sizeofLink u.lLen).toNat = sizeofLink * u.lLen.toNat

def Op.over (f : Nat → Sequence) (g : Nat → Link) : Op → Op
  | .load u => .load (u.over f g)
  | .event e => .event e

/-- A run relies on nothing that its kernel's pages held. -/
def AlwaysReplaces (k : State) (ops : List Op) : Prop := ∀ f g, Replaces k (ops.map (Op.over f g))

theorem failed_load {k : State} {u : Upload} (h : (stepOp k (.load u)).1 ≠ 0) : (stepOp k (.load u)).2 = k :=
  sysPigaAddSequence_failed h

theorem answers_of_loadsFail (k : State) (ops : List Op) (h : LoadsFail k ops) :
    answers k ops = (run k (events ops)).value.1 := by
  induction ops generalizing k with
  | nil => rfl
  | cons op ops ih =>
      cases op with
      | load u =>
          obtain ⟨hrc, hrest⟩ := h
          rw [failed_load hrc] at hrest
          rw [answers, events, failed_load hrc]
          exact ih k hrest
      | event e =>
          rw [answers, events, run_cons, ih _ h]
          rfl

theorem toNat_sizeOf {c : Nat} (hc : c < 2 ^ 32) (x : U32) : (sizeOf c x).toNat = c * x.toNat := by
  have hx := x.isLt
  have hm : c * x.toNat < 2 ^ 32 * 2 ^ 32 := Nat.mul_lt_mul'' hc hx
  rw [sizeOf, BitVec.toNat_mul, BitVec.toNat_ofNat, BitVec.toNat_setWidth, Nat.mod_eq_of_lt (by omega : c < 2 ^ 64),
    Nat.mod_eq_of_lt (by omega : x.toNat < 2 ^ 64), Nat.mod_eq_of_lt (by omega)]

section loads

variable {k : State} {ops : List Op} {u : Upload} {f : Nat → Sequence} {g : Nat → Link}

theorem mem_map_over {o : Op} (h : o ∈ ops.map (Op.over f g)) (ho : o = .load u) :
    ∃ v, .load v ∈ ops ∧ u = v.over f g := by
  obtain ⟨v, hv, rfl⟩ := List.mem_map.mp h
  cases v with
  | load v => exact ⟨v, hv, (Op.load.inj ho).symm⟩
  | event e => cases ho

theorem stepOp_load {p : Policy} (h : copyPolicy u = .ok p) : stepOp k (.load u) = (0, { k with pol := p }) := by
  obtain ⟨hrc, hstate, -⟩ := sysPigaAddSequence_ok (k := k) h
  rw [stepOp, hrc, hstate]

/-- A load that succeeds and fits installs the user's arrays, and from then on the answers depend on what
came before it only through the two switches. -/
theorem installs (h : (stepOp k (.load u)).1 = 0) (hfits : Fits u) (mid : List Op) :
    ∃ p, Copied u p ∧ (stepOp k (.load u)).2 = { k with pol := p } ∧
      (LoadsFail (stepOp k (.load u)).2 mid → answers (stepOp k (.load u)).2 mid =
        (run ⟨k.status, k.auditOnlyMode, p⟩ (events mid)).value.1) := by
  obtain ⟨-, p, -, hmade, hstate, -⟩ := sysPigaAddSequence_zero h
  refine ⟨p, hmade.copied hfits, hstate, ?_⟩
  intro hfail
  rw [answers_of_loadsFail _ _ hfail]
  exact congrArg (fun k => (run k (events mid)).value.1) hstate

theorem copied_unique {f' : Nat → Sequence} {g' : Nat → Link} {p q : Policy} (hp : Copied (u.over f g) p)
    (hq : Copied (u.over f' g') q) : p.seq = q.seq ∧ p.link = q.link := by
  obtain ⟨s, hs, -, hps⟩ := hp.seq
  obtain ⟨s', hs', -, hqs⟩ := hq.seq
  obtain ⟨l, hl, -, hpl⟩ := hp.link
  obtain ⟨l', hl', -, hql⟩ := hq.link
  obtain rfl := Option.some.inj (hs.symm.trans hs')
  obtain rfl := Option.some.inj (hl.symm.trans hl')
  exact ⟨hps.trans hqs.symm, hpl.trans hql.symm⟩

theorem fits_of_copied (h : ∀ f g p, copyPolicy (u.over f g) = .ok p → Copied (u.over f g) p) (hu : Accepted u) :
    Fits u := by
  -- two kernels whose pages differ in every entry
  obtain ⟨p, hp⟩ := (hu.over (fun _ => ⟨0, 0, 0⟩) (fun _ => ⟨0, 0, 0, 0⟩)).copyPolicy
  obtain ⟨q, hq⟩ := (hu.over (fun _ => ⟨1, 0, 0⟩) (fun _ => ⟨1, 0, 0, 0⟩)).copyPolicy
  obtain ⟨hseq, hlink⟩ := copied_unique (h _ _ p hp) (h _ _ q hq)
  have hmadeP := (copyPolicy_ok hp).2
  have hmadeQ := (copyPolicy_ok hq).2
  constructor
  · by_contra hwrap
    have hlast := hmadeP.seq_last (Nat.le_of_not_lt hwrap)
    rw [hseq] at hlast
    have heq := Option.some.inj (hlast.symm.trans (hmadeQ.seq_last (Nat.le_of_not_lt hwrap)))
    exact absurd (congrArg Sequence.length heq) (by decide : (0 : U32) ≠ 1)
  · by_contra hwrap
    have hlast := hmadeP.link_last (Nat.le_of_not_lt hwrap)
    rw [hlink] at hlast
    have heq := Option.some.inj (hlast.symm.trans (hmadeQ.link_last (Nat.le_of_not_lt hwrap)))
    exact absurd (congrArg Link.cs heq) (by decide : (0 : U32) ≠ 1)

theorem AlwaysReplaces.fits (h : AlwaysReplaces k ops) (hmem : .load u ∈ ops) (hu : Accepted u) : Fits u := by
  obtain ⟨past, rest, rfl⟩ := List.append_of_mem hmem
  refine fits_of_copied ?_ hu
  intro f g p hp
  have hload := stepOp_load (k := after k (past.map (Op.over f g))) hp
  have hsplit : (past ++ Op.load u :: rest).map (Op.over f g) =
      past.map (Op.over f g) ++ .load (u.over f g) :: ([] ++ rest.map (Op.over f g)) := List.map_append
  obtain ⟨q, hcopied, hstate, -⟩ := (h f g).installed _ _ _ _ hsplit (by rw [hload])
  rw [hload] at hstate
  obtain rfl : p = q := congrArg State.pol hstate
  exact hcopied

end loads

/-- Replacement is atomic, whatever the kernel's pages held, exactly when no load succeeds whose sizes
32 bits do not hold. -/
theorem alwaysReplaces_iff (k : State) (ops : List Op) :
    AlwaysReplaces k ops ↔ ∀ u, .load u ∈ ops → Accepted u → Fits u := by
  constructor
  · intro h u hmem hu
    exact h.fits hmem hu
  · intro h f g
    refine ⟨fun past u rest _ hrc => failed_load hrc, ?_, ?_⟩
    · intro past u mid rest hops hrc
      have hmem : .load u ∈ ops.map (Op.over f g) := by rw [hops]; simp
      obtain ⟨v, hv, rfl⟩ := mem_map_over hmem rfl
      have haccepted : Accepted v := ((sysPigaAddSequence_zero hrc).1).over v.seqMemory v.linkMemory
      exact installs hrc (h v hv haccepted) mid
    · exact fun u => ⟨toNat_sizeOf (by decide) u.sLen, toNat_sizeOf (by decide) u.lLen⟩

/-- One sequence, and as many links as make the size of their array 2 ^ 32. -/
def hugeLoad : Upload :=
  { oneLink ⟨1, 0, 0⟩ with lLen := 0x10000000 }

theorem hugeLoad_accepted : Accepted hugeLoad where
  seqAllocated := rfl
  linkAllocated := rfl
  sLen := by decide
  lLen := by decide
  seq := ⟨_, 24, rfl, rfl, by decide⟩
  link := ⟨_, 0, rfl, rfl, by decide⟩

theorem links_never_copied :
    (stepOp bootState (.load hugeLoad)).1 = 0 ∧
      (stepOp bootState (.load hugeLoad)).2.pol.link = (List.range 0x10000000).map hugeLoad.linkMemory ∧
      ¬AlwaysReplaces bootState [.load hugeLoad] := by
  obtain ⟨p, hp⟩ := hugeLoad_accepted.copyPolicy
  have hload := stepOp_load (k := bootState) hp
  obtain ⟨mem, -, hcopy⟩ := (copyPolicy_ok hp).2.link
  obtain ⟨b, hb, -, hlink⟩ := copyArray_eq_some.mp hcopy
  obtain rfl : b = 0 := (copySize_eq_some.mp hb).2.symm
  refine ⟨by rw [hload], ?_, ?_⟩
  · rw [hload]
    refine hlink.trans (List.map_congr_left ?_)
    intro i _
    rw [Nat.zero_sub]
    rfl
  · intro h
    exact absurd (h.fits List.mem_cons_self hugeLoad_accepted).2 (by decide)

end PigaLinux.Replacement
