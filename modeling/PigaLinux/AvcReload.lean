import PigaLinux.AvcRuns

namespace PigaLinux.AvcReload

open Kernel AvcCache AvcRuns

structure Key where
  ssid : U32
  tsid : U32
  tclass : U16
deriving DecidableEq, Repr

def Key.slot (k : Key) : Fin 512 := avcHash k.ssid k.tsid k.tclass

def Key.names (k : Key) (n : AvcNode) : Bool := n.isFor k.ssid k.tsid k.tclass

/-- The security server. What it decides carries the number of its policy. -/
structure Server where
  latestGranting : U32
  av : Key → AvDecision

def Server.decide (s : Server) (k : Key) : AvDecision := { s.av k with seqno := s.latestGranting }

/-- Where a permission check is between two of its steps: before the lookup,
after a miss, with a decision, past the comparison with the last
notification, and done. -/
inductive Phase
  | started
  | missed
  | computed (avd : AvDecision)
  | admitted (avd : AvDecision)
  | answered (avd : AvDecision)

structure Check where
  key : Key
  phase : Phase

structure Reset where
  seqno : U32
  slot : Nat

/-- A reload runs under a mutex, so there is at most one reset for a policy. -/
structure Config where
  cache : Cache
  server : Server
  checks : List Check
  reset : Option Reset

inductive Event
  | start (k : Key)
  | step (i : Nat) (allocated : Bool)
  | update (s : Setting) (event : CallbackEvent) (perms : U32) (k : Key) (seqno : U32)
  | reclaim (ecx : Nat)
  | flush (i : Fin 512)
  | reload (av : Key → AvDecision)
  | reset

def flushSlot (i : Fin 512) (c : Cache) : Cache :=
  { c with
    slots := Function.update c.slots i []
    activeNodes := c.activeNodes - BitVec.ofNat 32 (c.slots i).length }

def storeNode (k : Key) (avd : AvDecision) (c : Cache) : Cache :=
  let node : AvcNode := ⟨k.ssid, k.tsid, k.tclass, avd⟩
  match replaceNode k.names (fun _ => node) (c.slots k.slot) with
  | some chain => { c with slots := Function.update c.slots k.slot chain }
  | none => { c with slots := Function.update c.slots k.slot (node :: c.slots k.slot), activeNodes := c.activeNodes + 1 }

def search (c : Cache) (k : Key) : Option AvcNode := avcSearchNode c k.ssid k.tsid k.tclass

/-- The indivisible steps of a check. Between any two of them others may run. -/
def stepPhase (c : Cache) (s : Server) (k : Key) (allocated : Bool) : Phase → Cache × Phase
  | .started =>
      match search c k with
      | some n => (c, .answered n.avd)
      | none => (c, .missed)
  | .missed => (c, .computed (s.decide k))
  | .computed avd => (c, if avd.seqno < c.latestNotif then .answered avd else .admitted avd)
  | .admitted avd => (if allocated then storeNode k avd c else c, .answered avd)
  | .answered avd => (c, .answered avd)

def stepReset (c : Cache) (r : Reset) : Cache × Option Reset :=
  if h : r.slot < 512 then (flushSlot ⟨r.slot, h⟩ c, some { r with slot := r.slot + 1 })
  else (if r.seqno > c.latestNotif then { c with latestNotif := r.seqno } else c, none)

def next (k : Config) : Event → Config
  | .start key => { k with checks := k.checks ++ [⟨key, .started⟩] }
  | .step i allocated =>
      match k.checks[i]? with
      | none => k
      | some x =>
          let out := stepPhase k.cache k.server x.key allocated x.phase
          { k with cache := out.1, checks := k.checks.set i ⟨x.key, out.2⟩ }
  | .update s event perms key seqno =>
      { k with cache := avcUpdateNode s event perms key.ssid key.tsid key.tclass seqno k.cache }
  | .reclaim ecx => { k with cache := reclaimSlot ecx k.cache }
  | .flush i => { k with cache := flushSlot i k.cache }
  | .reload av =>
      match k.reset with
      | some _ => k
      | none =>
          let seqno := k.server.latestGranting + 1
          { k with server := ⟨seqno, av⟩, reset := some ⟨seqno, 0⟩ }
  | .reset =>
      match k.reset with
      | none => k
      | some r => { k with cache := (stepReset k.cache r).1, reset := (stepReset k.cache r).2 }

def run (k : Config) (es : List Event) : Config := es.foldl next k

def reloads : List Event → Nat
  | [] => 0
  | .reload _ :: es => reloads es + 1
  | _ :: es => reloads es

/-- The check is about to cache the decision: it has passed the comparison with
the last notification, or would pass it now. -/
def OnItsWay (c : Cache) (avd : AvDecision) : Phase → Prop
  | .computed avd' => avd' = avd ∧ c.latestNotif ≤ avd.seqno
  | .admitted avd' => avd' = avd
  | _ => False

section nodes

variable {v : U32} {k : Key} {c c' : Cache}

def Holds (v : U32) (k : Key) (c : Cache) : Prop := ∀ n ∈ c.slots k.slot, k.names n = true → v ≤ n.avd.seqno

theorem Holds.of_sublist (h : Holds v k c) (hsub : ∀ i, (c'.slots i).Sublist (c.slots i)) : Holds v k c' :=
  fun n hn hk => h n ((hsub k.slot).mem hn) hk

theorem Holds.setSlot {i : Fin 512} {ns : List AvcNode} (h : Holds v k c) (hslots : c'.slots = Function.update c.slots i ns)
    (hns : i = k.slot → ∀ n ∈ ns, k.names n = true → v ≤ n.avd.seqno) : Holds v k c' := by
  intro n hn hk
  rw [hslots] at hn
  by_cases hi : k.slot = i
  · rw [hi, Function.update_self] at hn
    exact hns hi.symm n hn hk
  · rw [Function.update_of_ne hi] at hn
    exact h n hn hk

theorem holds_empty (h : c.slots k.slot = []) : Holds v k c := by
  intro n hn
  rw [h] at hn
  exact absurd hn List.not_mem_nil

theorem Holds.replace {i : Fin 512} {p : AvcNode → Bool} {new : AvcNode → AvcNode} {ns : List AvcNode} (h : Holds v k c)
    (hns : replaceNode p new (c.slots i) = some ns) (hslots : c'.slots = Function.update c.slots i ns)
    (hnew : ∀ n ∈ c.slots i, p n = true → k.names (new n) = true → i = k.slot → v ≤ (new n).avd.seqno) : Holds v k c' := by
  obtain ⟨before, n, rest, hold, hp, rfl⟩ := replaceNode_split hns
  apply h.setSlot hslots
  intro hi m hm hk
  have hkept : ∀ x, x ∈ c.slots i → k.names x = true → v ≤ x.avd.seqno := fun x hx => h x (hi ▸ hx)
  rw [hold] at hkept hnew
  rcases List.mem_append.mp hm with hm | hm
  · exact hkept m (List.mem_append_left _ hm) hk
  · rcases List.mem_cons.mp hm with rfl | hm
    · exact hnew n (by simp) hp hk hi
    · exact hkept m (List.mem_append_right _ (List.mem_cons_of_mem _ hm)) hk

theorem Holds.store (h : Holds v k c) {key : Key} {avd : AvDecision} (havd : key = k → v ≤ avd.seqno) :
    Holds v k (storeNode key avd c) := by
  have hnode : k.names ⟨key.ssid, key.tsid, key.tclass, avd⟩ = true → v ≤ avd.seqno := by
    intro hk
    obtain ⟨hs, hc, ht⟩ := Coherence.AvcNode.isFor_iff.mp hk
    apply havd
    cases key
    cases k
    simp_all
  rw [storeNode]
  cases hchain : replaceNode key.names (fun _ => ⟨key.ssid, key.tsid, key.tclass, avd⟩) (c.slots key.slot) with
  | some ns => exact h.replace hchain rfl fun _ _ _ hk _ => hnode hk
  | none =>
      refine h.setSlot rfl ?_
      intro hslot
      rw [List.forall_mem_cons]
      exact ⟨hnode, fun n hn hk => h n (hslot ▸ hn) hk⟩

theorem Holds.update (h : Holds v k c) (s : Setting) (event : CallbackEvent) (perms ssid tsid : U32) (tclass : U16)
    (seqno : U32) : Holds v k (avcUpdateNode s event perms ssid tsid tclass seqno c) := by
  rcases avcUpdateNode_cases s event perms ssid tsid tclass seqno c with heq | ⟨c₁, halloc, hstored⟩
  · rw [heq]
    exact h
  · have h₁ : Holds v k c₁ := h.of_sublist (Coherence.avcAllocNode_sublist halloc)
    rcases hstored with ⟨ns, hns, hs⟩ | hs
    · apply h₁.replace hns hs.slots
      intro n hn hp hk hi
      rw [updateAvd_seqno]
      rw [Bool.and_eq_true] at hp
      obtain ⟨rfl, rfl, rfl⟩ := Coherence.AvcNode.isFor_iff.mp hp.1
      exact h₁ n (hi ▸ hn) hk
    · exact h₁.setSlot hs.slots fun hi n hn hk => h₁ n (hi ▸ hn) hk

theorem update_latestNotif (s : Setting) (event : CallbackEvent) (perms ssid tsid : U32) (tclass : U16) (seqno : U32)
    (c : Cache) : (avcUpdateNode s event perms ssid tsid tclass seqno c).latestNotif = c.latestNotif := by
  rcases avcUpdateNode_cases s event perms ssid tsid tclass seqno c with heq | ⟨c₁, halloc, hstored⟩
  · rw [heq]
  · have ha := (avcAllocNode_allocated halloc).kept.1
    rcases hstored with ⟨ns, -, hs⟩ | hs
    · exact hs.latestNotif.trans ha
    · exact hs.latestNotif.trans ha

theorem storeNode_latestNotif (key : Key) (avd : AvDecision) (c : Cache) :
    (storeNode key avd c).latestNotif = c.latestNotif := by
  rw [storeNode]
  split <;> rfl

end nodes

section safety

variable {v : U32} {key : Key} {k : Config}

/-- Nothing older than v is cached for the key any more, once the reset under
way has passed its slot, and nothing older is on its way there. -/
structure Safe (v : U32) (key : Key) (k : Config) : Prop where
  server : v ≤ k.server.latestGranting
  checks : ∀ x ∈ k.checks, x.key = key → ∀ avd, OnItsWay k.cache avd x.phase → v ≤ avd.seqno
  nodes : (∃ r, k.reset = some r ∧ r.slot ≤ key.slot.val) ∨ Holds v key k.cache

theorem OnItsWay.mono {c c' : Cache} {avd : AvDecision} {p : Phase} (hle : c.latestNotif ≤ c'.latestNotif)
    (h : OnItsWay c' avd p) : OnItsWay c avd p := by
  cases p with
  | computed avd' => exact ⟨h.1, BitVec.le_trans hle h.2⟩
  | admitted avd' => exact h
  | started => exact h
  | missed => exact h
  | answered avd' => exact h

theorem Safe.setCache (h : Safe v key k) {c : Cache} (hnotif : k.cache.latestNotif ≤ c.latestNotif)
    (hholds : Holds v key k.cache → Holds v key c) : Safe v key { k with cache := c } where
  server := h.server
  checks x hx hkey avd hway := h.checks x hx hkey avd (hway.mono hnotif)
  nodes := h.nodes.imp_right hholds

theorem Safe.start (h : Safe v key k) (key' : Key) : Safe v key (next k (.start key')) where
  server := h.server
  checks x hx hkey avd hway := by
    rcases List.mem_append.mp hx with hx | hx
    · exact h.checks x hx hkey avd hway
    · obtain rfl := List.mem_singleton.mp hx
      exact hway.elim
  nodes := h.nodes

/-- One step of a check: what it caches, and what it has on its way afterwards. -/
theorem stepPhase_spec (c : Cache) (s : Server) (key' : Key) (allocated : Bool) (p : Phase) :
    (stepPhase c s key' allocated p).1.latestNotif = c.latestNotif ∧
      ((stepPhase c s key' allocated p).1 = c ∨
        ∃ avd, OnItsWay c avd p ∧ (stepPhase c s key' allocated p).1 = storeNode key' avd c) ∧
      ∀ avd, OnItsWay c avd (stepPhase c s key' allocated p).2 → OnItsWay c avd p ∨ avd = s.decide key' := by
  cases p with
  | started =>
      rw [stepPhase]
      cases search c key' with
      | some n => exact ⟨rfl, Or.inl rfl, fun avd hway => hway.elim⟩
      | none => exact ⟨rfl, Or.inl rfl, fun avd hway => hway.elim⟩
  | missed => exact ⟨rfl, Or.inl rfl, fun avd hway => Or.inr hway.1.symm⟩
  | computed avd' =>
      refine ⟨rfl, Or.inl rfl, ?_⟩
      intro avd hway
      rw [stepPhase] at hway
      dsimp only at hway
      split at hway
      · exact hway.elim
      next hrecent =>
        obtain rfl : avd' = avd := hway
        exact Or.inl ⟨rfl, BitVec.not_lt.mp hrecent⟩
  | admitted avd' =>
      rw [stepPhase]
      cases allocated with
      | true => exact ⟨storeNode_latestNotif _ _ _, Or.inr ⟨avd', rfl, rfl⟩, fun avd hway => hway.elim⟩
      | false => exact ⟨rfl, Or.inl rfl, fun avd hway => hway.elim⟩
  | answered avd' => exact ⟨rfl, Or.inl rfl, fun avd hway => hway.elim⟩

theorem Safe.step (h : Safe v key k) (i : Nat) (allocated : Bool) : Safe v key (next k (.step i allocated)) := by
  rw [next]
  cases hx : k.checks[i]? with
  | none => exact h
  | some x =>
      obtain ⟨hnotif, hcache, hphase⟩ := stepPhase_spec k.cache k.server x.key allocated x.phase
      have hmem : x ∈ k.checks := List.mem_of_getElem? hx
      have hcached : Safe v key { k with cache := (stepPhase k.cache k.server x.key allocated x.phase).1 } := by
        apply h.setCache (by rw [hnotif]; exact BitVec.le_refl _)
        intro hholds
        rcases hcache with hsame | ⟨avd, hway, hstore⟩
        · rw [hsame]
          exact hholds
        · rw [hstore]
          exact hholds.store fun hkey => h.checks x hmem hkey avd hway
      refine ⟨h.server, ?_, hcached.nodes⟩
      intro y hy hkey avd hway
      rcases List.mem_or_eq_of_mem_set hy with hy | rfl
      · exact hcached.checks y hy hkey avd hway
      · have hway' : OnItsWay k.cache avd (stepPhase k.cache k.server x.key allocated x.phase).2 :=
          hway.mono (by rw [hnotif]; exact BitVec.le_refl _)
        rcases hphase avd hway' with hway | rfl
        · exact h.checks x hmem hkey avd hway
        · exact h.server

theorem flushSlot_sublist (i : Fin 512) (c : Cache) (j : Fin 512) : ((flushSlot i c).slots j).Sublist (c.slots j) :=
  Coherence.update_sublist (List.nil_sublist _) j

theorem Safe.reset (h : Safe v key k) : Safe v key (next k .reset) := by
  rw [next]
  cases hr : k.reset with
  | none => exact h
  | some r =>
      dsimp only
      rw [stepReset]
      split
      next hslot =>
        have hflush : Safe v key { k with cache := flushSlot ⟨r.slot, hslot⟩ k.cache } :=
          h.setCache (BitVec.le_refl _) fun hholds => hholds.of_sublist (flushSlot_sublist _ _)
        refine ⟨h.server, hflush.checks, ?_⟩
        rcases h.nodes with ⟨r', hr', hle⟩ | hholds
        · obtain rfl := Option.some.inj (hr.symm.trans hr')
          by_cases he : r.slot = key.slot.val
          · -- this is the turn of the key's own slot
            have hself : (⟨r.slot, hslot⟩ : Fin 512) = key.slot := Fin.ext he
            right
            apply holds_empty
            rw [hself]
            exact Function.update_self ..
          · exact Or.inl ⟨_, rfl, by change r.slot + 1 ≤ key.slot.val; omega⟩
        · exact Or.inr (hholds.of_sublist (flushSlot_sublist _ _))
      next hdone =>
        have hnodes : Holds v key k.cache := by
          rcases h.nodes with ⟨r', hr', hle⟩ | hholds
          · obtain rfl := Option.some.inj (hr.symm.trans hr')
            have hlt := key.slot.isLt
            omega
          · exact hholds
        have hcache : k.cache.latestNotif ≤
              (if r.seqno > k.cache.latestNotif then { k.cache with latestNotif := r.seqno } else k.cache).latestNotif ∧
            Holds v key (if r.seqno > k.cache.latestNotif then { k.cache with latestNotif := r.seqno } else k.cache) := by
          split
          next hgt => exact ⟨BitVec.le_of_lt hgt, hnodes⟩
          next => exact ⟨BitVec.le_refl _, hnodes⟩
        have hset := h.setCache hcache.1 fun _ => hcache.2
        exact ⟨h.server, hset.checks, Or.inr hcache.2⟩

theorem le_succ_of_lt {x y : U32} (hle : x ≤ y) (hwrap : y.toNat + 1 < 2 ^ 32) : x ≤ y + 1 := by
  bv_omega

theorem Safe.reload (h : Safe v key k) (av : Key → AvDecision) (hwrap : k.server.latestGranting.toNat + 1 < 2 ^ 32) :
    Safe v key (next k (.reload av)) := by
  rw [next]
  cases hr : k.reset with
  | some r => exact h
  | none =>
      refine ⟨le_succ_of_lt h.server hwrap, h.checks, ?_⟩
      rcases h.nodes with ⟨r, hr', -⟩ | hholds
      · rw [hr] at hr'
        cases hr'
      · exact Or.inr hholds

theorem latestGranting_next (k : Config) (e : Event) (hwrap : k.server.latestGranting.toNat + reloads [e] < 2 ^ 32) :
    (next k e).server.latestGranting.toNat ≤ k.server.latestGranting.toNat + reloads [e] := by
  cases e with
  | reload av =>
      rw [next]
      cases k.reset with
      | some r => exact Nat.le_add_right _ _
      | none =>
          change (k.server.latestGranting + 1).toNat ≤ k.server.latestGranting.toNat + 1
          exact (Indices.toNat_succ_of_lt rfl hwrap).le
  | step i allocated =>
      rw [next]
      cases k.checks[i]? with
      | none => exact Nat.le_add_right _ _
      | some x => exact Nat.le_add_right _ _
  | reset =>
      rw [next]
      cases k.reset with
      | none => exact Nat.le_add_right _ _
      | some r => exact Nat.le_add_right _ _
  | start key => exact Nat.le_add_right _ _
  | update s event perms key seqno => exact Nat.le_add_right _ _
  | reclaim ecx => exact Nat.le_add_right _ _
  | flush i => exact Nat.le_add_right _ _

theorem Safe.next (h : Safe v key k) (e : Event) (hwrap : k.server.latestGranting.toNat + reloads [e] < 2 ^ 32) :
    Safe v key (next k e) := by
  cases e with
  | start key' => exact h.start key'
  | step i allocated => exact h.step i allocated
  | update s event perms key' seqno =>
      apply h.setCache
      · rw [update_latestNotif]
        exact BitVec.le_refl _
      · exact fun hholds => hholds.update s event perms _ _ _ seqno
  | reclaim ecx =>
      exact h.setCache (BitVec.le_refl _) fun hholds =>
        hholds.of_sublist (Coherence.update_sublist (Coherence.reclaimChain_sublist _ _))
  | flush i => exact h.setCache (BitVec.le_refl _) fun hholds => hholds.of_sublist (flushSlot_sublist i _)
  | reload av => exact h.reload av hwrap
  | reset => exact h.reset

theorem reloads_cons (e : Event) (es : List Event) : reloads (e :: es) = reloads [e] + reloads es := by
  cases e with
  | reload av => exact Nat.add_comm _ _
  | start key => exact (Nat.zero_add _).symm
  | step i allocated => exact (Nat.zero_add _).symm
  | update s event perms key seqno => exact (Nat.zero_add _).symm
  | reclaim ecx => exact (Nat.zero_add _).symm
  | flush i => exact (Nat.zero_add _).symm
  | reset => exact (Nat.zero_add _).symm

theorem Safe.run (h : Safe v key k) (es : List Event) (hwrap : k.server.latestGranting.toNat + reloads es < 2 ^ 32) :
    Safe v key (run k es) := by
  induction es generalizing k with
  | nil => exact h
  | cons e es ih =>
      rw [reloads_cons] at hwrap
      have hgrow := latestGranting_next k e (by omega)
      exact ih (h.next e (by omega)) (by omega)

end safety

section race

variable {k : Config} {key : Key} {avd : AvDecision}

theorem find?_of_replaceNode {p : AvcNode → Bool} {node : AvcNode} {ns ns' : List AvcNode} (hp : p node = true)
    (h : replaceNode p (fun _ => node) ns = some ns') : ns'.find? p = some node := by
  induction ns generalizing ns' with
  | nil => cases h
  | cons n ns ih =>
      rw [replaceNode] at h
      split at h
      next =>
        obtain rfl := Option.some.inj h
        exact List.find?_cons_of_pos hp
      next hn =>
        obtain ⟨ns₁, hns, rfl⟩ := Option.map_eq_some_iff.mp h
        rw [List.find?_cons_of_neg hn]
        exact ih hns

theorem search_storeNode (key : Key) (avd : AvDecision) (c : Cache) :
    search (storeNode key avd c) key = some ⟨key.ssid, key.tsid, key.tclass, avd⟩ := by
  have hself : key.names ⟨key.ssid, key.tsid, key.tclass, avd⟩ = true := Coherence.AvcNode.isFor_iff.mpr ⟨rfl, rfl, rfl⟩
  rw [storeNode]
  cases hchain : replaceNode key.names (fun _ => ⟨key.ssid, key.tsid, key.tclass, avd⟩) (c.slots key.slot) with
  | some ns =>
      change List.find? key.names (Function.update c.slots key.slot ns key.slot) = _
      rw [Function.update_self]
      exact find?_of_replaceNode hself hchain
  | none =>
      change List.find? key.names (Function.update c.slots key.slot (_ :: c.slots key.slot) key.slot) = _
      rw [Function.update_self]
      exact List.find?_cons_of_pos hself

theorem reset_completes {r : Reset} {n : Nat} (hr : k.reset = some r) (hn : r.slot + n = 512) :
    (run k (List.replicate (n + 1) .reset)).reset = none ∧
      (run k (List.replicate (n + 1) .reset)).checks = k.checks := by
  induction n generalizing k r with
  | zero =>
      have hlast : next k .reset = { k with
          cache := if r.seqno > k.cache.latestNotif then { k.cache with latestNotif := r.seqno } else k.cache
          reset := none } := by
        simp only [next, hr, stepReset, dif_neg (show ¬r.slot < 512 by omega)]
      change (next k .reset).reset = none ∧ (next k .reset).checks = k.checks
      rw [hlast]
      exact ⟨rfl, rfl⟩
  | succ n ih =>
      have hflush : next k .reset = { k with
          cache := flushSlot ⟨r.slot, by omega⟩ k.cache
          reset := some { r with slot := r.slot + 1 } } := by
        simp only [next, hr, stepReset, dif_pos (show r.slot < 512 by omega)]
      have hrest := ih (k := next k .reset) (r := { r with slot := r.slot + 1 }) (by rw [hflush])
        (by change r.slot + 1 + n = 512; omega)
      rw [List.replicate_succ]
      refine ⟨hrest.1, hrest.2.trans ?_⟩
      rw [hflush]

theorem reloads_replicate_reset (n : Nat) (es : List Event) : reloads (List.replicate n .reset ++ es) = reloads es := by
  induction n with
  | zero => rfl
  | succ n ih => exact ih

theorem stored_after_reset {r : Reset} {i : Nat} (hr : k.reset = some r) (hslot : r.slot ≤ 512)
    (hi : k.checks[i]? = some ⟨key, .admitted avd⟩) :
    ∃ es, reloads es = 0 ∧ (run k es).reset = none ∧
      search (run k es).cache key = some ⟨key.ssid, key.tsid, key.tclass, avd⟩ := by
  obtain ⟨n, hn⟩ := Nat.exists_eq_add_of_le hslot
  obtain ⟨hnone, hchecks⟩ := reset_completes hr hn.symm
  refine ⟨List.replicate (n + 1) .reset ++ [.step i true], reloads_replicate_reset _ _, ?_⟩
  rw [run, List.foldl_append, ← run]
  change (next (run k (List.replicate (n + 1) .reset)) (.step i true)).reset = none ∧
    search (next (run k (List.replicate (n + 1) .reset)) (.step i true)).cache key = _
  rw [next, hchecks, hi]
  exact ⟨hnone, search_storeNode key avd _⟩

end race

/-- From here on, and whatever runs in between, the cache answers for the key
with a policy that is at least v whenever no reset is under way. -/
def AlwaysFresh (v : U32) (key : Key) (k : Config) : Prop :=
  ∀ es, k.server.latestGranting.toNat + reloads es < 2 ^ 32 → (run k es).reset = none →
    ∀ n, search (run k es).cache key = some n → v ≤ n.avd.seqno

/-- A reload is final for a key, in every order of steps, exactly when no
check of that key was carrying an older decision towards the cache at the
moment the new policy was installed. -/
theorem alwaysFresh_iff (k : Config) (hreset : k.reset = none) (av : Key → AvDecision) (key : Key) :
    AlwaysFresh (k.server.latestGranting + 1) key (next k (.reload av)) ↔
      ∀ x ∈ k.checks, x.key = key → ∀ avd, OnItsWay k.cache avd x.phase → k.server.latestGranting + 1 ≤ avd.seqno := by
  have hinstalled : next k (.reload av) = { k with
      server := ⟨k.server.latestGranting + 1, av⟩
      reset := some ⟨k.server.latestGranting + 1, 0⟩ } := by
    rw [next, hreset]
  have hserver : (next k (.reload av)).server.latestGranting.toNat < 2 ^ 32 := BitVec.isLt _
  constructor
  · intro hfresh x hx hkey avd hway
    obtain ⟨i, hi⟩ := List.getElem?_of_mem hx
    obtain ⟨xkey, phase⟩ := x
    obtain rfl : xkey = key := hkey
    cases phase with
    | admitted avd' =>
        obtain rfl : avd' = avd := hway
        obtain ⟨es, hes, hnone, hfound⟩ := stored_after_reset (k := next k (.reload av)) (r := ⟨_, 0⟩) (i := i)
          (by rw [hinstalled]) (Nat.zero_le _) (by rw [hinstalled]; exact hi)
        exact hfresh es (by rw [hes]; exact hserver) hnone _ hfound
    | computed avd' =>
        obtain ⟨rfl, hrecent⟩ := hway
        -- it passes the comparison first, and the reset runs afterwards
        have hpassed : next (next k (.reload av)) (.step i true) =
            { next k (.reload av) with checks := k.checks.set i ⟨xkey, .admitted avd'⟩ } := by
          rw [hinstalled, next, hi]
          dsimp only [stepPhase]
          rw [if_neg (BitVec.not_lt.mpr hrecent)]
        have hchecks : (next (next k (.reload av)) (.step i true)).checks[i]? = some ⟨xkey, .admitted avd'⟩ := by
          rw [hpassed]
          exact List.getElem?_set_self (List.getElem?_eq_some_iff.mp hi).1
        obtain ⟨es, hes, hnone, hfound⟩ := stored_after_reset (k := next (next k (.reload av)) (.step i true)) (r := ⟨_, 0⟩)
          (by rw [hpassed, hinstalled]) (Nat.zero_le _) hchecks
        refine hfresh (.step i true :: es) ?_ hnone _ hfound
        change _ + reloads es < 2 ^ 32
        rw [hes]
        exact hserver
    | started => exact hway.elim
    | missed => exact hway.elim
    | answered avd' => exact hway.elim
  · intro hchecks es hes hnone n hn
    have hsafe : Safe (k.server.latestGranting + 1) key (next k (.reload av)) := by
      rw [hinstalled]
      exact ⟨BitVec.le_refl _, hchecks, Or.inl ⟨_, rfl, Nat.zero_le _⟩⟩
    have hrun := hsafe.run es hes
    rcases hrun.nodes with ⟨r, hr, -⟩ | hholds
    · rw [hnone] at hr
      cases hr
    · exact hholds n (List.mem_of_find?_eq_some hn) (List.find?_some hn)

def shadowKey : Key := ⟨10, 20, 6⟩

def quiet : Config where
  cache := Coherence.emptyCache
  server := ⟨1, fun _ => ⟨0, 0, 0, 0, 0⟩⟩
  checks := [⟨shadowKey, .started⟩]
  reset := none

theorem alwaysFresh_iff_quiet :
    AlwaysFresh 2 shadowKey (next quiet (.reload fun _ => ⟨0, 0, 0, 0, 0⟩)) ↔
      ∀ x ∈ quiet.checks, x.key = shadowKey → ∀ avd, OnItsWay quiet.cache avd x.phase → 2 ≤ avd.seqno :=
  alwaysFresh_iff quiet rfl _ shadowKey

end PigaLinux.AvcReload
