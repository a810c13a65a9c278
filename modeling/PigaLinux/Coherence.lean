import PigaLinux.Conservative
import PigaLinux.Monitor

namespace PigaLinux.Coherence

open Kernel Trace Piga Monitor Avc AvcCache Conservative Lockstep

/-- Every node is in the slot of its key, alone with that key, and holds what
the security server says for it. -/
structure Coherent (av : U32 → U32 → U16 → AvDecision) (c : Cache) : Prop where
  hashed : ∀ h, ∀ n ∈ c.slots h, n.hash = h
  unique : ∀ h, (c.slots h).Pairwise fun n m => m.isFor n.ssid n.tsid n.tclass = false
  decided : ∀ h, ∀ n ∈ c.slots h, n.avd = av n.ssid n.tsid n.tclass

variable {av : U32 → U32 → U16 → AvDecision} {c c' : Cache} {s : Setting} {i : Fin 512}

theorem Coherent.of_sublist (h : Coherent av c) (hsub : ∀ i, (c'.slots i).Sublist (c.slots i)) : Coherent av c' where
  hashed i n hn := h.hashed i n ((hsub i).mem hn)
  unique i := (h.unique i).sublist (hsub i)
  decided i n hn := h.decided i n ((hsub i).mem hn)

theorem reclaimChain_sublist (ns : List AvcNode) (ecx : Nat) : (reclaimChain ns ecx).1.Sublist ns := by
  induction ns generalizing ecx with
  | nil => exact .slnil
  | cons n ns ih =>
      rw [reclaimChain]
      split
      · exact List.sublist_cons_self n ns
      · exact (ih (ecx + 1)).cons n

theorem update_sublist {slots : Fin 512 → List AvcNode} {h : Fin 512} {ns : List AvcNode}
    (hns : ns.Sublist (slots h)) (i : Fin 512) : (Function.update slots h ns i).Sublist (slots i) := by
  by_cases hi : i = h
  · subst hi
    rw [Function.update_self]
    exact hns
  · rw [Function.update_of_ne hi]

theorem reclaimLoop_sublist (trylock : Nat → Bool) (tries ecx : Nat) (c : Cache) (i : Fin 512) :
    ((reclaimLoop trylock tries ecx c).slots i).Sublist (c.slots i) := by
  induction tries generalizing ecx c with
  | zero => exact List.Sublist.refl _
  | succ tries ih =>
      rw [reclaimLoop]
      dsimp only
      split
      · have hchain := reclaimChain_sublist (c.slots (slotOf (c.lruHint + 1))) ecx
        split
        · exact update_sublist hchain i
        · exact (ih _ _).trans (update_sublist hchain i)
      · exact ih ecx _

theorem avcAllocNode_sublist {threshold : U32} {allocated : Bool} {trylock : Nat → Bool}
    (h : avcAllocNode threshold allocated trylock c = some c') (i : Fin 512) :
    (c'.slots i).Sublist (c.slots i) := by
  rw [avcAllocNode] at h
  split at h
  · obtain rfl := Option.some.inj h
    dsimp only
    split
    · exact reclaimLoop_sublist trylock 512 0 _ i
    · exact List.Sublist.refl _
  · cases h

theorem AvcNode.isFor_iff {n : AvcNode} {ssid tsid : U32} {tclass : U16} :
    n.isFor ssid tsid tclass = true ↔ ssid = n.ssid ∧ tclass = n.tclass ∧ tsid = n.tsid := by
  simp [AvcNode.isFor, and_assoc]

theorem replaceNode_some {p : AvcNode → Bool} {node : AvcNode} {ns ns' : List AvcNode}
    (hnode : ∀ n ∈ ns, p n = true → n = node) (h : replaceNode p (fun _ => node) ns = some ns') : ns' = ns := by
  induction ns generalizing ns' with
  | nil => cases h
  | cons n ns ih =>
      rw [replaceNode] at h
      split at h
      next hp =>
        obtain rfl := hnode n List.mem_cons_self hp
        exact (Option.some.inj h).symm
      next =>
        obtain ⟨ns₁, hns, rfl⟩ := Option.map_eq_some_iff.mp h
        rw [ih (fun m hm => hnode m (List.mem_cons_of_mem _ hm)) hns]

theorem replaceNode_none {p : AvcNode → Bool} {new : AvcNode → AvcNode} {ns : List AvcNode}
    (h : replaceNode p new ns = none) : ∀ n ∈ ns, p n = false := by
  induction ns with
  | nil =>
      intro n hn
      exact absurd hn List.not_mem_nil
  | cons n ns ih =>
      rw [replaceNode] at h
      split at h
      · cases h
      next hp =>
        rw [Option.map_eq_none_iff] at h
        rw [List.forall_mem_cons]
        exact ⟨by simpa using hp, ih h⟩

theorem Coherent.cons (h : Coherent av c) {n : AvcNode} (hhash : n.hash = i) (havd : n.avd = av n.ssid n.tsid n.tclass)
    (hnew : ∀ m ∈ c.slots i, m.isFor n.ssid n.tsid n.tclass = false)
    (hslots : c'.slots = Function.update c.slots i (n :: c.slots i)) : Coherent av c' := by
  have hmem : ∀ j, ∀ m ∈ c'.slots j, (m = n ∧ j = i) ∨ m ∈ c.slots j := by
    intro j m hm
    rw [hslots] at hm
    by_cases hj : j = i
    · subst hj
      rw [Function.update_self] at hm
      exact (List.mem_cons.mp hm).imp_left fun hmn => ⟨hmn, rfl⟩
    · rw [Function.update_of_ne hj] at hm
      exact Or.inr hm
  refine ⟨?_, ?_, ?_⟩
  · intro j m hm
    rcases hmem j m hm with ⟨rfl, rfl⟩ | hm
    · exact hhash
    · exact h.hashed j m hm
  · intro j
    rw [hslots]
    by_cases hj : j = i
    · subst hj
      rw [Function.update_self]
      exact List.pairwise_cons.mpr ⟨hnew, h.unique j⟩
    · rw [Function.update_of_ne hj]
      exact h.unique j
  · intro j m hm
    rcases hmem j m hm with ⟨rfl, rfl⟩ | hm
    · exact havd
    · exact h.decided j m hm

theorem Coherent.insert (h : Coherent av c) (ssid tsid : U32) (tclass : U16) :
    Coherent av (avcInsert s ssid tsid tclass (av ssid tsid tclass) c) := by
  rw [avcInsert]
  split
  · exact h
  · cases halloc : avcAllocNode s.threshold s.insertAllocated s.insertTrylock c with
    | none => exact h
    | some c₁ =>
        have h₁ : Coherent av c₁ := h.of_sublist (avcAllocNode_sublist halloc)
        dsimp only
        cases hchain : replaceNode (fun n => n.isFor ssid tsid tclass) (fun _ => ⟨ssid, tsid, tclass, av ssid tsid tclass⟩)
            (c₁.slots (avcHash ssid tsid tclass)) with
        | some chain =>
            -- the node that would be replaced holds the same decision
            have hsame : chain = c₁.slots (avcHash ssid tsid tclass) := by
              apply replaceNode_some _ hchain
              intro n hn hfor
              obtain ⟨rfl, rfl, rfl⟩ := AvcNode.isFor_iff.mp hfor
              rw [← h₁.decided _ n hn]
            apply h₁.of_sublist
            exact update_sublist (by rw [hsame])
        | none =>
            apply h₁.cons (n := ⟨ssid, tsid, tclass, av ssid tsid tclass⟩) (i := avcHash ssid tsid tclass)
            · rfl
            · rfl
            · exact replaceNode_none hchain
            · rfl

theorem Coherent.lookup (h : Coherent av c) (hs : s.securityComputeAv = av) (ssid tsid : U32) (tclass : U16) :
    (AvcCache.lookup s ssid tsid tclass c).1 = av ssid tsid tclass ∧
      Coherent av (AvcCache.lookup s ssid tsid tclass c).2 := by
  rw [AvcCache.lookup]
  cases hfound : avcSearchNode c ssid tsid tclass with
  | some n =>
      refine ⟨?_, h⟩
      rw [avcSearchNode] at hfound
      have hfor := List.find?_some hfound
      obtain ⟨rfl, rfl, rfl⟩ := AvcNode.isFor_iff.mp hfor
      exact h.decided _ n (List.mem_of_find?_eq_some hfound)
  | none =>
      dsimp only
      rw [hs]
      exact ⟨rfl, h.insert ssid tsid tclass⟩

structure Setting.Fixed (s : Setting) (av : U32 → U32 → U16 → AvDecision) : Prop where
  enforcing : s.enforcing = true
  computed : s.securityComputeAv = av

def NoPermissive (av : U32 → U32 → U16 → AvDecision) : Prop :=
  ∀ ssid tsid tclass, (av ssid tsid tclass).flags &&& avdFlagsPermissive = 0

theorem Coherent.check (h : Coherent av c) (hav : NoPermissive av) (hs : Setting.Fixed s av) (a : Access) :
    (avcHasPermNoaudit s a 0 c).avd = av a.ssid a.tsid a.tclass ∧
      Coherent av (avcHasPermNoaudit s a 0 c).cache := by
  obtain ⟨havd, hcache⟩ := h.lookup hs.computed a.ssid a.tsid a.tclass
  refine ⟨by rw [avcHasPermNoaudit_avd, havd], ?_⟩
  simp only [avcHasPermNoaudit]
  split
  · -- nothing is granted through an update of a node
    rw [if_neg (by decide), if_neg]
    · exact hcache
    · rw [hs.enforcing, havd, hav]
      decide
  · exact hcache

structure Verdict where
  answer : Option (Int × Option AuditRecord)
  tokens : List U32
  cache : Cache

def step (ck : Cache × State) (e : Event) : (Cache × State) × Verdict :=
  let out := stepWith ck e
  (out.1, ⟨out.2.answer, out.1.2.pol.seq.map Sequence.currentPosition, out.2.cache⟩)

/-- One event of two runs: the caches may be of other sizes, and allocation
and locking may go another way. -/
inductive SameCall (av : U32 → U32 → U16 → AvDecision) : Event → Event → Prop
  | check (q : Query) {s₁ s₂ : Setting} (h₁ : Setting.Fixed s₁ av) (h₂ : Setting.Fixed s₂ av) :
      SameCall av (.check q s₁) (.check q s₂)
  | control (o : Control) : SameCall av (.control o) (.control o)

structure SameVerdict (av : U32 → U32 → U16 → AvDecision) (v₁ v₂ : Verdict) : Prop where
  answer : v₁.answer = v₂.answer
  tokens : v₁.tokens = v₂.tokens
  coherent₁ : Coherent av v₁.cache
  coherent₂ : Coherent av v₂.cache

theorem checkWith_congr {q : Query} {s₁ s₂ : Setting} {c₁ c₂ : Cache} {k : State} (hs : s₁.enforcing = s₂.enforcing)
    (havd : (avcHasPermNoaudit s₁ q.access 0 c₁).avd = (avcHasPermNoaudit s₂ q.access 0 c₂).avd) :
    checkWith q s₁ c₁ k = checkWith q s₂ c₂ k := by
  rw [checkWith, checkWith, Query.call, Query.call, havd, hs]

theorem same_step (hav : NoPermissive av) {c₁ c₂ : Cache} (h₁ : Coherent av c₁) (h₂ : Coherent av c₂) (k : State)
    {e₁ e₂ : Event} (he : SameCall av e₁ e₂) :
    (Coherent av (step (c₁, k) e₁).1.1 ∧ Coherent av (step (c₂, k) e₂).1.1 ∧
      (step (c₁, k) e₁).1.2 = (step (c₂, k) e₂).1.2) ∧
    SameVerdict av (step (c₁, k) e₁).2 (step (c₂, k) e₂).2 := by
  cases he with
  | check q hs₁ hs₂ =>
      obtain ⟨havd₁, hc₁⟩ := h₁.check hav hs₁ q.access
      obtain ⟨havd₂, hc₂⟩ := h₂.check hav hs₂ q.access
      have hout := checkWith_congr (k := k) (hs₁.enforcing.trans hs₂.enforcing.symm) (havd₁.trans havd₂.symm)
      refine ⟨⟨hc₁, hc₂, congrArg Outcome.state hout⟩, ?_, ?_, hc₁, hc₂⟩
      · exact congrArg (fun out => some (out.rc, out.record)) hout
      · exact congrArg (fun out => out.state.pol.seq.map Sequence.currentPosition) hout
  | control o => exact ⟨⟨h₁, h₂, rfl⟩, rfl, rfl, h₁, h₂⟩

/-- What is cached makes no difference to an answer or to a token. -/
theorem verdicts_independent_of_cache (hav : NoPermissive av) (c₁ c₂ : Cache) (h₁ : Coherent av c₁) (h₂ : Coherent av c₂)
    (k : State) (es₁ es₂ : List Event) (hes : List.Forall₂ (SameCall av) es₁ es₂) :
    List.Forall₂ (SameVerdict av) (outputs step (c₁, k) es₁) (outputs step (c₂, k) es₂) := by
  refine forall₂_outputs
    (R := fun ck₁ ck₂ => Coherent av ck₁.1 ∧ Coherent av ck₂.1 ∧ ck₁.2 = ck₂.2) ?_ hes ⟨h₁, h₂, rfl⟩
  rintro ⟨c₁, k⟩ ⟨c₂, k'⟩ e₁ e₂ ⟨h₁, h₂, rfl⟩ he
  exact same_step hav h₁ h₂ k he

def readsOnly (_ _ : U32) (tclass : U16) : AvDecision := ⟨if tclass = 6 then 2 else 0, 0, 0xffffffff, 1, 0⟩

def emptyCache : Cache := ⟨fun _ => [], 0, 0, 0⟩

def warmCache : Cache :=
  ⟨Function.update (fun _ => []) (avcHash 10 20 6) [⟨10, 20, 6, readsOnly 10 20 6⟩], 7, 1, 0⟩

theorem emptyCache_coherent : Coherent av emptyCache :=
  ⟨fun _ _ hn => absurd hn List.not_mem_nil, fun _ => List.Pairwise.nil, fun _ _ hn => absurd hn List.not_mem_nil⟩

theorem warmCache_coherent : Coherent readsOnly warmCache := by
  apply emptyCache_coherent.cons (n := ⟨10, 20, 6, readsOnly 10 20 6⟩) (i := avcHash 10 20 6)
  · rfl
  · rfl
  · exact fun m hm => absurd hm List.not_mem_nil
  · rfl

def smallSetting : Setting := ⟨true, readsOnly, 1, true, fun _ => true, true, fun _ => true⟩

def starvedSetting : Setting := ⟨true, readsOnly, 512, false, fun _ => false, false, fun _ => false⟩

theorem readShadow_requested_ne : readShadow.requested ≠ 0 := by decide

def shadowQuery : Query := ⟨readShadow, none, 0, readShadow_requested_ne⟩

theorem verdicts_shadowQuery :
    List.Forall₂ (SameVerdict readsOnly)
      (outputs step (emptyCache, shadowState) [.check shadowQuery smallSetting])
      (outputs step (warmCache, shadowState) [.check shadowQuery starvedSetting]) := by
  apply verdicts_independent_of_cache
  · intro ssid tsid tclass
    have hzero : (0 : U32) &&& avdFlagsPermissive = 0 := by decide
    exact hzero
  · exact emptyCache_coherent
  · exact warmCache_coherent
  · exact .cons (.check shadowQuery ⟨rfl, rfl⟩ ⟨rfl, rfl⟩) .nil

end PigaLinux.Coherence
