import PigaLinux.Coherence
import Mathlib.Algebra.BigOperators.Fin
import Mathlib.Algebra.Order.BigOperators.Group.Finset

namespace PigaLinux.AvcRuns

open Kernel AvcCache Coherence

def AvcNode.key (n : AvcNode) : U32 × U32 × U16 := (n.ssid, n.tsid, n.tclass)

def population (c : Cache) : Nat := ((List.finRange 512).map fun h => (c.slots h).length).sum

/-- By how much the counter is ahead of the nodes: a node that is allocated
and not yet in a slot. -/
def excess (c : Cache) : U32 := c.activeNodes - BitVec.ofNat 32 (population c)

/-- The nodes are where they are looked for, at most one for a key, and none
is older than the last notification. -/
structure Ordered (ahead : U32) (c : Cache) : Prop where
  hashed : ∀ h, ∀ n ∈ c.slots h, n.hash = h
  unique : ∀ h, ((c.slots h).map AvcNode.key).Nodup
  recent : ∀ h, ∀ n ∈ c.slots h, c.latestNotif ≤ n.avd.seqno
  counted : excess c = ahead

abbrev WellFormed (c : Cache) : Prop := Ordered 0 c

section counting

variable {c c' : Cache} {i : Fin 512} {ns : List AvcNode}

theorem population_eq_sum (c : Cache) : population c = ∑ h, (c.slots h).length :=
  (Fin.sum_univ_def fun h => (c.slots h).length).symm

theorem population_update (h : c'.slots = Function.update c.slots i ns) :
    population c' + (c.slots i).length = population c + ns.length := by
  have hrest : ∑ j ∈ Finset.univ.erase i, (c'.slots j).length = ∑ j ∈ Finset.univ.erase i, (c.slots j).length := by
    apply Finset.sum_congr rfl
    intro j hj
    rw [h, Function.update_of_ne (Finset.ne_of_mem_erase hj)]
  have hc := Finset.add_sum_erase Finset.univ (fun j => (c.slots j).length) (Finset.mem_univ i)
  have hc' := Finset.add_sum_erase Finset.univ (fun j => (c'.slots j).length) (Finset.mem_univ i)
  rw [population_eq_sum, population_eq_sum, ← hc, ← hc', hrest, h, Function.update_self]
  omega

theorem population_le (h : ∀ i, (c'.slots i).Sublist (c.slots i)) : population c' ≤ population c := by
  rw [population_eq_sum, population_eq_sum]
  exact Finset.sum_le_sum fun i _ => (h i).length_le

theorem population_eq_zero (h : ∀ i, c.slots i = []) : population c = 0 := by
  rw [population_eq_sum]
  apply Finset.sum_eq_zero
  intro i _
  rw [h, List.length_nil]

theorem excess_sub {d : Nat} (ha : c'.activeNodes = c.activeNodes - BitVec.ofNat 32 d)
    (hp : population c' + d = population c) : excess c' = excess c := by
  rw [excess, excess, ha, ← hp, BitVec.ofNat_add]
  bv_omega

end counting

section reclaim

variable {trylock : Nat → Bool} {c : Cache}

theorem reclaimChain_length (ns : List AvcNode) (ecx : Nat) :
    (reclaimChain ns ecx).1.length + ((reclaimChain ns ecx).2 - ecx) = ns.length ∧ ecx ≤ (reclaimChain ns ecx).2 := by
  induction ns generalizing ecx with
  | nil => simp [reclaimChain]
  | cons n ns ih =>
      rw [reclaimChain]
      split
      · simp
      · obtain ⟨hlen, hle⟩ := ih (ecx + 1)
        rw [List.length_cons]
        exact ⟨by omega, by omega⟩

theorem reclaimChain_stops (ns : List AvcNode) {ecx : Nat} (h : ecx < avcCacheReclaim) :
    (reclaimChain ns ecx).2 = avcCacheReclaim ∨
      (reclaimChain ns ecx).1 = [] ∧ (reclaimChain ns ecx).2 < avcCacheReclaim := by
  induction ns generalizing ecx with
  | nil => exact Or.inr ⟨rfl, h⟩
  | cons n ns ih =>
      rw [reclaimChain]
      split
      next hge => exact Or.inl (Nat.le_antisymm h hge)
      next hlt => exact ih (Nat.lt_of_not_ge hlt)

def reclaimSlot (ecx : Nat) (c : Cache) : Cache :=
  { c with
    lruHint := c.lruHint + 1
    slots := Function.update c.slots (slotOf (c.lruHint + 1)) (reclaimChain (c.slots (slotOf (c.lruHint + 1))) ecx).1
    activeNodes := c.activeNodes -
      BitVec.ofNat 32 ((reclaimChain (c.slots (slotOf (c.lruHint + 1))) ecx).2 - ecx) }

theorem reclaimLoop_succ (trylock : Nat → Bool) (tries ecx : Nat) (c : Cache) :
    reclaimLoop trylock (tries + 1) ecx c =
      if trylock tries then
        if (reclaimChain (c.slots (slotOf (c.lruHint + 1))) ecx).2 ≥ avcCacheReclaim then reclaimSlot ecx c
        else reclaimLoop trylock tries (reclaimChain (c.slots (slotOf (c.lruHint + 1))) ecx).2 (reclaimSlot ecx c)
      else reclaimLoop trylock tries ecx { c with lruHint := c.lruHint + 1 } := rfl

theorem population_reclaimSlot (ecx : Nat) (c : Cache) :
    population (reclaimSlot ecx c) + ((reclaimChain (c.slots (slotOf (c.lruHint + 1))) ecx).2 - ecx) = population c := by
  have hp := population_update (rfl : (reclaimSlot ecx c).slots = _)
  have hlen := (reclaimChain_length (c.slots (slotOf (c.lruHint + 1))) ecx).1
  omega

theorem excess_reclaimSlot (ecx : Nat) (c : Cache) : excess (reclaimSlot ecx c) = excess c :=
  excess_sub rfl (population_reclaimSlot ecx c)

theorem reclaimLoop_kept (trylock : Nat → Bool) (tries ecx : Nat) (c : Cache) :
    excess (reclaimLoop trylock tries ecx c) = excess c ∧
      (reclaimLoop trylock tries ecx c).latestNotif = c.latestNotif := by
  induction tries generalizing ecx c with
  | zero => exact ⟨rfl, rfl⟩
  | succ tries ih =>
      rw [reclaimLoop_succ]
      split
      · split
        · exact ⟨excess_reclaimSlot ecx c, rfl⟩
        · obtain ⟨he, hn⟩ := ih (reclaimChain (c.slots (slotOf (c.lruHint + 1))) ecx).2 (reclaimSlot ecx c)
          exact ⟨he.trans (excess_reclaimSlot ecx c), hn⟩
      · exact ih ecx { c with lruHint := c.lruHint + 1 }

theorem slotOf_val (x : U32) : (slotOf x).val = x.toNat % 512 := by
  have h : (x &&& 511).toNat = x.toNat % 512 := by
    rw [BitVec.toNat_and]
    exact Nat.and_two_pow_sub_one_eq_mod x.toNat 9
  rw [slotOf, h]
  exact Nat.mod_mod _ _

theorem exists_slotOf (x : U32) (i : Fin 512) : ∃ j, j < 512 ∧ slotOf (x + 1 + BitVec.ofNat 32 j) = i := by
  refine ⟨(i.val + 1023 - x.toNat % 512) % 512, Nat.mod_lt _ (by decide), ?_⟩
  apply Fin.ext
  have hi := i.isLt
  have hone : (1 : U32).toNat = 1 := rfl
  rw [slotOf_val, BitVec.toNat_add, BitVec.toNat_add, BitVec.toNat_ofNat, hone]
  omega

theorem reclaimLoop_free (hfree : ∀ i, trylock i = true) (tries : Nat) {ecx : Nat} (hecx : ecx < avcCacheReclaim)
    (c : Cache) :
    population (reclaimLoop trylock tries ecx c) + (avcCacheReclaim - ecx) = population c ∨
      ∀ j < tries, (reclaimLoop trylock tries ecx c).slots (slotOf (c.lruHint + 1 + BitVec.ofNat 32 j)) = [] := by
  induction tries generalizing ecx c with
  | zero => exact Or.inr fun j hj => absurd hj (Nat.not_lt_zero j)
  | succ tries ih =>
      have hpop := population_reclaimSlot ecx c
      have hle := (reclaimChain_length (c.slots (slotOf (c.lruHint + 1))) ecx).2
      rw [reclaimLoop_succ, if_pos (hfree tries)]
      rcases reclaimChain_stops (c.slots (slotOf (c.lruHint + 1))) hecx with hstop | ⟨hnil, hlt⟩
      · rw [if_pos hstop.ge]
        rw [hstop] at hpop
        exact Or.inl hpop
      · rw [if_neg (Nat.not_le.mpr hlt)]
        rcases ih hlt (reclaimSlot ecx c) with hdone | hempty
        · exact Or.inl (by omega)
        · right
          intro j hj
          cases j with
          | zero =>
              -- the slot of this turn stays empty in the turns that follow
              have hself : (reclaimSlot ecx c).slots (slotOf (c.lruHint + 1)) = [] :=
                (Function.update_self ..).trans hnil
              have hsub := reclaimLoop_sublist trylock tries
                (reclaimChain (c.slots (slotOf (c.lruHint + 1))) ecx).2 (reclaimSlot ecx c) (slotOf (c.lruHint + 1))
              rw [hself] at hsub
              rw [show c.lruHint + 1 + BitVec.ofNat 32 0 = c.lruHint + 1 from BitVec.add_zero _]
              exact List.sublist_nil.mp hsub
          | succ j =>
              have hshift : c.lruHint + 1 + BitVec.ofNat 32 (j + 1) = c.lruHint + 1 + 1 + BitVec.ofNat 32 j := by
                rw [BitVec.ofNat_add]
                bv_omega
              rw [hshift]
              exact hempty j (Nat.lt_of_succ_lt_succ hj)

theorem avcReclaimNode_free (hfree : ∀ i, trylock i = true) (c : Cache) :
    population (avcReclaimNode trylock c) ≤ population c - avcCacheReclaim := by
  rcases reclaimLoop_free hfree 512 (by decide : 0 < avcCacheReclaim) c with hdone | hempty
  · rw [avcReclaimNode]
    omega
  · have hzero : population (avcReclaimNode trylock c) = 0 := by
      apply population_eq_zero
      intro i
      obtain ⟨j, hj, rfl⟩ := exists_slotOf c.lruHint i
      exact hempty j hj
    omega

end reclaim

/-- A cache with room made for one more node, which is counted already. -/
structure Allocated (c c' : Cache) : Prop where
  sublist : ∀ i, (c'.slots i).Sublist (c.slots i)
  kept : c'.latestNotif = c.latestNotif ∧ excess c' = excess c + 1

section operations

variable {c c' : Cache} {threshold : U32} {allocated : Bool} {trylock : Nat → Bool}

theorem excess_incr (c : Cache) : excess { c with activeNodes := c.activeNodes + 1 } = excess c + 1 := by
  change c.activeNodes + 1 - BitVec.ofNat 32 (population c) = c.activeNodes - BitVec.ofNat 32 (population c) + 1
  bv_omega

theorem avcAllocNode_allocated (h : avcAllocNode threshold allocated trylock c = some c') : Allocated c c' := by
  refine ⟨avcAllocNode_sublist h, ?_⟩
  rw [avcAllocNode] at h
  split at h
  · obtain rfl := Option.some.inj h
    dsimp only
    split
    · obtain ⟨he, hn⟩ := reclaimLoop_kept trylock 512 0 { c with activeNodes := c.activeNodes + 1 }
      exact ⟨hn, he.trans (excess_incr c)⟩
    · exact ⟨rfl, excess_incr c⟩
  · cases h

theorem Ordered.alloc {ahead : U32} (h : Ordered ahead c) (ha : Allocated c c') : Ordered (ahead + 1) c' where
  hashed i n hn := h.hashed i n ((ha.sublist i).mem hn)
  unique i := (h.unique i).sublist ((ha.sublist i).map _)
  recent i n hn := by
    rw [ha.kept.1]
    exact h.recent i n ((ha.sublist i).mem hn)
  counted := by rw [ha.kept.2, h.counted]

structure Stored (d : U32) (i : Fin 512) (ns : List AvcNode) (c c' : Cache) : Prop where
  slots : c'.slots = Function.update c.slots i ns
  latestNotif : c'.latestNotif = c.latestNotif
  activeNodes : c'.activeNodes = c.activeNodes - d

theorem avcInsert_cases (s : Setting) (ssid tsid : U32) (tclass : U16) (avd : AvDecision) (c : Cache) :
    avcInsert s ssid tsid tclass avd c = c ∨
      ∃ c₁, avcAllocNode s.threshold s.insertAllocated s.insertTrylock c = some c₁ ∧ c.latestNotif ≤ avd.seqno ∧
        ((∃ ns, replaceNode (fun n => n.isFor ssid tsid tclass) (fun _ => ⟨ssid, tsid, tclass, avd⟩)
            (c₁.slots (avcHash ssid tsid tclass)) = some ns ∧
            Stored 1 (avcHash ssid tsid tclass) ns c₁ (avcInsert s ssid tsid tclass avd c)) ∨
          (∀ n ∈ c₁.slots (avcHash ssid tsid tclass), n.isFor ssid tsid tclass = false) ∧
            Stored 0 (avcHash ssid tsid tclass) (⟨ssid, tsid, tclass, avd⟩ :: c₁.slots (avcHash ssid tsid tclass)) c₁
              (avcInsert s ssid tsid tclass avd c)) := by
  rw [avcInsert]
  split
  · exact Or.inl rfl
  next hrecent =>
    cases halloc : avcAllocNode s.threshold s.insertAllocated s.insertTrylock c with
    | none => exact Or.inl rfl
    | some c₁ =>
        refine Or.inr ⟨c₁, rfl, BitVec.not_lt.mp hrecent, ?_⟩
        dsimp only
        cases hchain : replaceNode (fun n => n.isFor ssid tsid tclass) (fun _ => ⟨ssid, tsid, tclass, avd⟩)
            (c₁.slots (avcHash ssid tsid tclass)) with
        | some ns => exact Or.inl ⟨ns, rfl, rfl, rfl, rfl⟩
        | none => exact Or.inr ⟨replaceNode_none hchain, rfl, rfl, (BitVec.sub_zero _).symm⟩

theorem avcUpdateNode_cases (s : Setting) (event : CallbackEvent) (perms ssid tsid : U32) (tclass : U16)
    (seqno : U32) (c : Cache) :
    avcUpdateNode s event perms ssid tsid tclass seqno c = c ∨
      ∃ c₁, avcAllocNode s.threshold s.updateAllocated s.updateTrylock c = some c₁ ∧
        ((∃ ns, replaceNode (fun n => n.isFor ssid tsid tclass && seqno == n.avd.seqno)
            (fun n => ⟨ssid, tsid, tclass, updateAvd event perms n.avd⟩) (c₁.slots (avcHash ssid tsid tclass)) = some ns ∧
            Stored 1 (avcHash ssid tsid tclass) ns c₁ (avcUpdateNode s event perms ssid tsid tclass seqno c)) ∨
          Stored 1 (avcHash ssid tsid tclass) (c₁.slots (avcHash ssid tsid tclass)) c₁
            (avcUpdateNode s event perms ssid tsid tclass seqno c)) := by
  rw [avcUpdateNode]
  cases halloc : avcAllocNode s.threshold s.updateAllocated s.updateTrylock c with
  | none => exact Or.inl rfl
  | some c₁ =>
      refine Or.inr ⟨c₁, rfl, ?_⟩
      dsimp only
      cases hchain : replaceNode (fun n => n.isFor ssid tsid tclass && seqno == n.avd.seqno)
          (fun n => ⟨ssid, tsid, tclass, updateAvd event perms n.avd⟩) (c₁.slots (avcHash ssid tsid tclass)) with
      | some ns => exact Or.inl ⟨ns, rfl, rfl, rfl, rfl⟩
      | none => exact Or.inr ⟨rfl, rfl, rfl⟩

theorem Stored.nodes {d : U32} {i : Fin 512} {ns : List AvcNode} (h : Stored d i ns c c') :
    population c' + (c.slots i).length = population c + ns.length := population_update h.slots

theorem Stored.excess_of_length {i : Fin 512} {ns : List AvcNode} (h : Stored 1 i ns c c')
    (hlen : ns.length = (c.slots i).length) : excess c' = excess c - 1 := by
  have hpop := h.nodes
  have hsame : population c' = population c := by omega
  rw [excess, excess, hsame, h.activeNodes]
  bv_omega

theorem Stored.excess_cons {i : Fin 512} {n : AvcNode} (h : Stored 0 i (n :: c.slots i) c c') :
    excess c' = excess c - 1 := by
  have hpop := h.nodes
  rw [List.length_cons] at hpop
  have hsucc : population c' = population c + 1 := by omega
  rw [excess, excess, h.activeNodes, hsucc, BitVec.ofNat_add]
  bv_omega

theorem Ordered.store {ahead ahead' d : U32} {i : Fin 512} {ns : List AvcNode} (h : Ordered ahead c)
    (hs : Stored d i ns c c') (hns : ∀ n ∈ ns, n.hash = i ∧ c.latestNotif ≤ n.avd.seqno)
    (hkeys : (ns.map AvcNode.key).Nodup) (hexcess : excess c' = ahead') : Ordered ahead' c' := by
  have hcases : ∀ j, (j = i ∧ c'.slots j = ns) ∨ c'.slots j = c.slots j := by
    intro j
    rw [hs.slots]
    by_cases hj : j = i
    · subst hj
      exact Or.inl ⟨rfl, Function.update_self ..⟩
    · exact Or.inr (Function.update_of_ne hj ..)
  refine ⟨?_, ?_, ?_, hexcess⟩
  · intro j n hn
    rcases hcases j with ⟨rfl, hj⟩ | hj
    · exact (hns n (hj ▸ hn)).1
    · exact h.hashed j n (hj ▸ hn)
  · intro j
    rcases hcases j with ⟨rfl, hj⟩ | hj
    · exact hj ▸ hkeys
    · exact hj ▸ h.unique j
  · intro j n hn
    rw [hs.latestNotif]
    rcases hcases j with ⟨rfl, hj⟩ | hj
    · exact (hns n (hj ▸ hn)).2
    · exact h.recent j n (hj ▸ hn)

theorem replaceNode_split {p : AvcNode → Bool} {new : AvcNode → AvcNode} {ns ns' : List AvcNode}
    (h : replaceNode p new ns = some ns') :
    ∃ before n rest, ns = before ++ n :: rest ∧ p n = true ∧ ns' = before ++ new n :: rest := by
  induction ns generalizing ns' with
  | nil => cases h
  | cons n ns ih =>
      rw [replaceNode] at h
      split at h
      next hp => exact ⟨[], n, ns, rfl, hp, (Option.some.inj h).symm⟩
      next =>
        obtain ⟨ns₁, hns, rfl⟩ := Option.map_eq_some_iff.mp h
        obtain ⟨before, m, rest, rfl, hm, rfl⟩ := ih hns
        exact ⟨n :: before, m, rest, rfl, hm, rfl⟩

theorem replaceNode_length {p : AvcNode → Bool} {new : AvcNode → AvcNode} {ns ns' : List AvcNode}
    (h : replaceNode p new ns = some ns') : ns'.length = ns.length := by
  obtain ⟨before, n, rest, rfl, -, rfl⟩ := replaceNode_split h
  simp

theorem key_of_isFor {n : AvcNode} {ssid tsid : U32} {tclass : U16} (h : n.isFor ssid tsid tclass = true) :
    AvcNode.key n = (ssid, tsid, tclass) := by
  obtain ⟨rfl, rfl, rfl⟩ := AvcNode.isFor_iff.mp h
  rfl

theorem isFor_of_key {n : AvcNode} {ssid tsid : U32} {tclass : U16} (h : AvcNode.key n = (ssid, tsid, tclass)) :
    n.isFor ssid tsid tclass = true := by
  obtain ⟨hs, ht, hc⟩ : n.ssid = ssid ∧ n.tsid = tsid ∧ n.tclass = tclass := by simpa [AvcNode.key] using h
  exact AvcNode.isFor_iff.mpr ⟨hs.symm, hc.symm, ht.symm⟩

theorem hash_of_key {n m : AvcNode} (h : AvcNode.key n = AvcNode.key m) : n.hash = m.hash := by
  obtain ⟨hs, ht, hc⟩ : n.ssid = m.ssid ∧ n.tsid = m.tsid ∧ n.tclass = m.tclass := by simpa [AvcNode.key] using h
  rw [AvcNode.hash, AvcNode.hash, hs, ht, hc]

theorem Ordered.replace {ahead : U32} {i : Fin 512} {p : AvcNode → Bool} {new : AvcNode → AvcNode} {ns : List AvcNode}
    (h : Ordered ahead c) (hns : replaceNode p new (c.slots i) = some ns)
    (hnew : ∀ n ∈ c.slots i, p n = true → AvcNode.key (new n) = AvcNode.key n ∧ c.latestNotif ≤ (new n).avd.seqno)
    (hs : Stored 1 i ns c c') : Ordered (ahead - 1) c' := by
  have hexcess := hs.excess_of_length (replaceNode_length hns)
  obtain ⟨before, n, rest, hold, hp, rfl⟩ := replaceNode_split hns
  have hmem : ∀ m ∈ c.slots i, m.hash = i ∧ c.latestNotif ≤ m.avd.seqno := fun m hm => ⟨h.hashed i m hm, h.recent i m hm⟩
  have hn : n ∈ c.slots i := by simp [hold]
  obtain ⟨hkey, hseqno⟩ := hnew n hn hp
  apply h.store hs
  · intro m hm
    rcases List.mem_append.mp hm with hm | hm
    · exact hmem m (hold ▸ List.mem_append_left _ hm)
    · rcases List.mem_cons.mp hm with rfl | hm
      · exact ⟨(hash_of_key hkey).trans (h.hashed i n hn), hseqno⟩
      · exact hmem m (hold ▸ List.mem_append_right _ (List.mem_cons_of_mem _ hm))
  · have hkeys := h.unique i
    rw [hold, List.map_append, List.map_cons] at hkeys
    rw [List.map_append, List.map_cons, hkey]
    exact hkeys
  · rw [hexcess, h.counted]

theorem updateAvd_seqno (event : CallbackEvent) (perms : U32) (avd : AvDecision) :
    (updateAvd event perms avd).seqno = avd.seqno := by
  cases event <;> rfl

theorem wellFormed_insert (h : WellFormed c) (s : Setting) (ssid tsid : U32) (tclass : U16) (avd : AvDecision) :
    WellFormed (avcInsert s ssid tsid tclass avd c) := by
  rcases avcInsert_cases s ssid tsid tclass avd c with heq | ⟨c₁, halloc, hrecent, hstored⟩
  · rw [heq]
    exact h
  · have ha := avcAllocNode_allocated halloc
    have h₁ : Ordered 1 c₁ := h.alloc ha
    rw [← ha.kept.1] at hrecent
    rcases hstored with ⟨ns, hns, hs⟩ | ⟨hnew, hs⟩
    · apply h₁.replace hns _ hs
      intro n _ hfor
      exact ⟨(key_of_isFor hfor).symm, hrecent⟩
    · apply h₁.store hs
      · rw [List.forall_mem_cons]
        exact ⟨⟨rfl, hrecent⟩, fun n hn => ⟨h₁.hashed _ n hn, h₁.recent _ n hn⟩⟩
      · rw [List.map_cons, List.nodup_cons]
        refine ⟨?_, h₁.unique _⟩
        intro hmem
        obtain ⟨n, hn, hkey⟩ := List.mem_map.mp hmem
        have hfor := isFor_of_key hkey
        rw [hnew n hn] at hfor
        cases hfor
      · rw [hs.excess_cons, h₁.counted]
        rfl

theorem wellFormed_update (h : WellFormed c) (s : Setting) (event : CallbackEvent) (perms ssid tsid : U32)
    (tclass : U16) (seqno : U32) : WellFormed (avcUpdateNode s event perms ssid tsid tclass seqno c) := by
  rcases avcUpdateNode_cases s event perms ssid tsid tclass seqno c with heq | ⟨c₁, halloc, hstored⟩
  · rw [heq]
    exact h
  · have h₁ : Ordered 1 c₁ := h.alloc (avcAllocNode_allocated halloc)
    rcases hstored with ⟨ns, hns, hs⟩ | hs
    · apply h₁.replace hns _ hs
      intro n hn hfor
      rw [Bool.and_eq_true] at hfor
      refine ⟨(key_of_isFor hfor.1).symm, ?_⟩
      rw [updateAvd_seqno]
      exact h₁.recent _ n hn
    · -- the node is given back, and the slot is as it was
      apply h₁.store hs
      · exact fun n hn => ⟨h₁.hashed _ n hn, h₁.recent _ n hn⟩
      · exact h₁.unique _
      · rw [hs.excess_of_length rfl, h₁.counted]
        rfl

theorem wellFormed_flush (h : WellFormed c) : WellFormed (avcFlush c) where
  hashed _ _ hn := absurd hn List.not_mem_nil
  unique _ := List.nodup_nil
  recent _ _ hn := absurd hn List.not_mem_nil
  counted := by
    have hzero : population (avcFlush c) = 0 := population_eq_zero fun _ => rfl
    rw [← h.counted]
    apply excess_sub rfl
    rw [hzero, Nat.zero_add]
    rfl

theorem wellFormed_ssReset (h : WellFormed c) (seqno : U32) : WellFormed (avcSsReset seqno c) := by
  have hflush := wellFormed_flush h
  rw [avcSsReset]
  split
  · exact ⟨hflush.hashed, hflush.unique, fun _ _ hn => absurd hn List.not_mem_nil, hflush.counted⟩
  · exact hflush

theorem wellFormed_check (h : WellFormed c) (s : Setting) (a : Access) (flags : U32) :
    WellFormed (avcHasPermNoaudit s a flags c).cache := by
  have hlookup : WellFormed (AvcCache.lookup s a.ssid a.tsid a.tclass c).2 := by
    rw [AvcCache.lookup]
    cases avcSearchNode c a.ssid a.tsid a.tclass with
    | some n => exact h
    | none => exact wellFormed_insert h s _ _ _ _
  rw [avcHasPermNoaudit]
  split
  · split
    · exact hlookup
    · split
      · exact wellFormed_update hlookup s _ _ _ _ _ _
      · exact hlookup
  · exact hlookup

end operations

section capacity

variable {c c' : Cache} {T : Nat}

structure Free (T : Nat) (s : Setting) : Prop where
  threshold : s.threshold.toNat ≤ T
  insertTrylock : ∀ i, s.insertTrylock i = true
  updateTrylock : ∀ i, s.updateTrylock i = true

theorem avcAllocNode_room {threshold : U32} {allocated : Bool} {trylock : Nat → Bool} (h : WellFormed c)
    (hT : threshold.toNat ≤ T) (hmax : T + 1 < 2 ^ 32) (hfree : ∀ i, trylock i = true) (hc : population c ≤ max T 1)
    (halloc : avcAllocNode threshold allocated trylock c = some c') : population c' + 1 ≤ max T 1 := by
  have hcount : c.activeNodes = BitVec.ofNat 32 (population c) := by
    have h₀ := h.counted
    rw [excess] at h₀
    bv_omega
  have hactive : (c.activeNodes + 1).toNat = population c + 1 := by
    rw [hcount, BitVec.toNat_add, BitVec.toNat_ofNat]
    have hone : (1 : U32).toNat = 1 := rfl
    omega
  rw [avcAllocNode] at halloc
  split at halloc
  · obtain rfl := Option.some.inj halloc
    dsimp only
    split
    · have hroom := avcReclaimNode_free hfree { c with activeNodes := c.activeNodes + 1 }
      change _ ≤ population c - avcCacheReclaim at hroom
      rw [avcCacheReclaim] at hroom
      omega
    next hle =>
      rw [gt_iff_lt, BitVec.lt_def, hactive] at hle
      change population c + 1 ≤ max T 1
      omega
  · cases halloc

theorem population_insert_le (h : WellFormed c) (hmax : T + 1 < 2 ^ 32) {s : Setting} (hs : Free T s)
    (hc : population c ≤ max T 1) (ssid tsid : U32) (tclass : U16) (avd : AvDecision) :
    population (avcInsert s ssid tsid tclass avd c) ≤ max T 1 := by
  rcases avcInsert_cases s ssid tsid tclass avd c with heq | ⟨c₁, halloc, -, hstored⟩
  · rw [heq]
    exact hc
  · have hroom := avcAllocNode_room h hs.threshold hmax hs.insertTrylock hc halloc
    rcases hstored with ⟨ns, hns, hst⟩ | ⟨-, hst⟩
    · have hpop := hst.nodes
      rw [replaceNode_length hns] at hpop
      omega
    · have hpop := hst.nodes
      rw [List.length_cons] at hpop
      omega

theorem population_update_le (hc : population c ≤ max T 1) (s : Setting) (event : CallbackEvent)
    (perms ssid tsid : U32) (tclass : U16) (seqno : U32) :
    population (avcUpdateNode s event perms ssid tsid tclass seqno c) ≤ max T 1 := by
  rcases avcUpdateNode_cases s event perms ssid tsid tclass seqno c with heq | ⟨c₁, halloc, hstored⟩
  · rw [heq]
    exact hc
  · have hle := population_le (avcAllocNode_sublist halloc)
    rcases hstored with ⟨ns, hns, hst⟩ | hst
    · have hpop := hst.nodes
      rw [replaceNode_length hns] at hpop
      omega
    · have hpop := hst.nodes
      omega

end capacity

/-- What is done to the cache: a permission check, an update of a node, the
notification of a new policy, and the flush when SELinux is switched off. -/
inductive Op
  | check (s : Setting) (a : Access) (flags : U32)
  | update (s : Setting) (event : CallbackEvent) (perms ssid tsid : U32) (tclass : U16) (seqno : U32)
  | ssReset (seqno : U32)
  | disable

def step (c : Cache) : Op → Cache
  | .check s a flags => (avcHasPermNoaudit s a flags c).cache
  | .update s event perms ssid tsid tclass seqno => avcUpdateNode s event perms ssid tsid tclass seqno c
  | .ssReset seqno => avcSsReset seqno c
  | .disable => avcFlush c

def run (c : Cache) (ops : List Op) : Cache := ops.foldl step c

def Op.Free (T : Nat) : Op → Prop
  | .check s _ _ | .update s _ _ _ _ _ _ => AvcRuns.Free T s
  | .ssReset _ | .disable => True

section runs

variable {c : Cache} {T : Nat}

theorem wellFormed_step (h : WellFormed c) (op : Op) : WellFormed (step c op) := by
  cases op with
  | check s a flags => exact wellFormed_check h s a flags
  | update s event perms ssid tsid tclass seqno => exact wellFormed_update h s event perms ssid tsid tclass seqno
  | ssReset seqno => exact wellFormed_ssReset h seqno
  | disable => exact wellFormed_flush h

theorem wellFormed_run (h : WellFormed c) (ops : List Op) : WellFormed (run c ops) := by
  induction ops generalizing c with
  | nil => exact h
  | cons op ops ih => exact ih (wellFormed_step h op)

theorem population_check_le (h : WellFormed c) (hmax : T + 1 < 2 ^ 32) {s : Setting} (hs : Free T s)
    (hc : population c ≤ max T 1) (a : Access) (flags : U32) :
    population (avcHasPermNoaudit s a flags c).cache ≤ max T 1 := by
  have hlookup : population (AvcCache.lookup s a.ssid a.tsid a.tclass c).2 ≤ max T 1 := by
    rw [AvcCache.lookup]
    cases avcSearchNode c a.ssid a.tsid a.tclass with
    | some n => exact hc
    | none => exact population_insert_le h hmax hs hc _ _ _ _
  rw [avcHasPermNoaudit]
  split
  · split
    · exact hlookup
    · split
      · exact population_update_le hlookup s _ _ _ _ _ _
      · exact hlookup
  · exact hlookup

theorem population_step_le (h : WellFormed c) (hmax : T + 1 < 2 ^ 32) {op : Op} (hop : op.Free T)
    (hc : population c ≤ max T 1) : population (step c op) ≤ max T 1 := by
  have hflush : ∀ c', (∀ i, c'.slots i = []) → population c' ≤ max T 1 := by
    intro c' hempty
    rw [population_eq_zero hempty]
    exact Nat.zero_le _
  cases op with
  | check s a flags => exact population_check_le h hmax hop hc a flags
  | update s event perms ssid tsid tclass seqno => exact population_update_le hc s event perms ssid tsid tclass seqno
  | ssReset seqno =>
      apply hflush
      intro i
      rw [step, avcSsReset]
      split <;> rfl
  | disable => exact hflush _ fun _ => rfl

structure Kept (c : Cache) (ops : List Op) : Prop where
  wellFormed : WellFormed (run c ops)
  bounded : ∀ T, T + 1 < 2 ^ 32 → (∀ op ∈ ops, op.Free T) → population c ≤ max T 1 → population (run c ops) ≤ max T 1

/-- Whatever is allocated or locked in between, the cache stays in order, its
counter is the number of its nodes, and nothing in it is older than the last
notification; while the locks are free it never outgrows the threshold, or one
node where that is 0. -/
theorem run_kept (c : Cache) (h : WellFormed c) (ops : List Op) : Kept c ops := by
  refine ⟨wellFormed_run h ops, ?_⟩
  intro T hmax hops hc
  induction ops generalizing c with
  | nil => exact hc
  | cons op ops ih =>
      obtain ⟨hop, hops⟩ := List.forall_mem_cons.mp hops
      exact ih (step c op) (wellFormed_step h op) hops (population_step_le h hmax hop hc)

theorem wellFormed_emptyCache : WellFormed emptyCache where
  hashed _ _ hn := absurd hn List.not_mem_nil
  unique _ := List.nodup_nil
  recent _ _ hn := absurd hn List.not_mem_nil
  counted := by
    rw [excess, population_eq_zero fun _ => rfl]
    rfl

theorem run_kept_emptyCache :
    WellFormed emptyCache ∧ Kept emptyCache [.check smallSetting Monitor.readShadow 0, .ssReset 2, .disable] :=
  ⟨wellFormed_emptyCache, run_kept emptyCache wellFormed_emptyCache _⟩

end runs

end PigaLinux.AvcRuns
