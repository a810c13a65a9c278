import PigaLinux.AvcRuns
import PigaLinux.Denials

namespace PigaLinux.RcuRetry

open Kernel Trace Piga Monitor Avc AvcCache Conservative Coherence AvcRuns Enforcement Denials

def retry (q : Query) : Query := { q with flags := 0 }

/-- A check that is put off is not counted: neither by itself nor together
with its repetition, which finds the cache as the first attempt left it. -/
structure CountedOnce (k : State) (c : Cache) (q : Query) (s s' : Setting) : Prop where
  untouched : (checkWith q s c k).rc = -echild → positions (checkWith q s c k).state = positions k
  answer : (checkWith q s c k).rc = -echild →
    (checkWith (retry q) s' (avcHasPermNoaudit s q.access 0 c).cache (checkWith q s c k).state).rc =
      (checkWith (retry q) s' c k).rc
  tokens : (checkWith q s c k).rc = -echild →
    positions (checkWith (retry q) s' (avcHasPermNoaudit s q.access 0 c).cache (checkWith q s c k).state).state =
      positions (checkWith (retry q) s' c k).state

abbrev Server := U32 → U32 → U16 → AvDecision

def under (enforcing : Bool) (av : Server) (s : Setting) : Setting := { s with enforcing, securityComputeAv := av }

def AlwaysCountedOnce (k : State) (c : Cache) (q : Query) (enforcing : Bool) (av : Server) : Prop :=
  ∀ s s', CountedOnce k c q (under enforcing av s) (under enforcing av s')

/-- The cache after some checks under one policy, whatever went on before it was loaded. -/
def warmed (av : Server) (before : List Op) (past : List (Setting × Access × U32)) : Cache :=
  past.foldl (fun c x => (avcHasPermNoaudit { x.1 with securityComputeAv := av } x.2.1 x.2.2 c).cache)
    (avcFlush (run emptyCache before))

/-- The decision that a check finds or is given. -/
def decided (av : Server) (c : Cache) (a : Access) : AvDecision :=
  match avcSearchNode c a.ssid a.tsid a.tclass with
  | some node => node.avd
  | none => av a.ssid a.tsid a.tclass

def asked (enforcing : Bool) (q : Query) (avd : AvDecision) : AvcCall :=
  ⟨q.access, q.auditdata, q.flags, avd, enforcing, q.requested_ne⟩

/-- The access is to be recorded: as denied by SELinux, as refused by a
signature, or as granted under auditallow. -/
def ToRecord (k : State) (c : AvcCall) : Prop :=
  if c.access.requested &&& ~~~c.avd.allowed ≠ 0 then
    dontaudit c.avd c.auditdata = false ∧ c.access.requested &&& ~~~c.avd.allowed &&& c.avd.auditdeny ≠ 0
  else Refused k.pol c.access k.pol.seq ∨ c.access.requested &&& c.avd.auditallow ≠ 0

/-- The record has to wait for the end of the RCU walk. -/
def Deferred (k : State) (c : AvcCall) : Prop :=
  auditType c.auditdata = .fs ∧ c.flags &&& ipermFlagRcu ≠ 0 ∧ ToRecord k c

/-- Once the first attempt has granted the access in the cache, audit-only mode
skips a repetition that a signature refuses. -/
structure Hidden (k : State) (c : AvcCall) : Prop where
  denied : c.access.requested &&& ~~~c.avd.allowed ≠ 0
  auditOnly : k.auditOnlyMode = true
  auditallow : c.access.requested &&& c.avd.auditallow = 0
  refused : Refused k.pol c.access k.pol.seq

/-- The decision is cached, or is not too old for it. -/
def Cacheable (av : Server) (c : Cache) (a : Access) : Prop :=
  (avcSearchNode c a.ssid a.tsid a.tclass).isSome = true ∨ ¬ (av a.ssid a.tsid a.tclass).seqno < c.latestNotif

section calls

variable {k : State} {c : AvcCall}

theorem pigaHook_rc (k : State) (c : AvcCall) :
    (pigaHook k c).value.1 = 0 ∨ (pigaHook k c).value.1 = -eacces := by
  rw [pigaHook]
  split
  · rw [pigaHasPerm_value]
    split
    · change (if _ then pigaDeny else pigaAllow) = 0 ∨ (if _ then pigaDeny else pigaAllow) = -eacces
      split
      · exact Or.inr rfl
      · exact Or.inl rfl
    · exact noauditRc_cases _ _ _ _
  · exact noauditRc_cases _ _ _ _

theorem rc_eq_echild_iff (k : State) (c : AvcCall) :
    (avcHasPermFlags k c).value.rc = -echild ↔
      (auditMasks c.access.requested c.avd (pigaHook k c).value.1 c.auditdata).1 ≠ 0 ∧
        auditType c.auditdata = .fs ∧ c.flags &&& ipermFlagRcu ≠ 0 := by
  rw [avcHasPermFlags_rc, ← avcAudit_ne_zero_iff]
  split
  next h => exact ⟨fun _ => h, fun _ => rfl⟩
  next h =>
    refine ⟨fun he => ?_, fun hn => absurd hn h⟩
    rcases pigaHook_rc k c with h0 | h0
    · rw [h0] at he
      exact absurd he (by decide)
    · rw [h0] at he
      exact absurd he (by decide)

theorem audited_iff (hg : c.Granted) (hx : Examines k c.toCall) :
    (auditMasks c.access.requested c.avd (pigaHook k c).value.1 c.auditdata).1 ≠ 0 ↔ ToRecord k c := by
  rw [auditMasks, ToRecord]
  split
  · cases dontaudit c.avd c.auditdata <;> simp
  · have hrc : (pigaHook k c).value.1 ≠ 0 ↔ Refused k.pol c.access k.pol.seq := by
      rw [pigaHook, if_pos hg, Ne, allowed_iff hx, not_not]
      rfl
    split
    next h => exact ⟨fun _ => Or.inl (hrc.mp h), fun _ => c.requested_ne⟩
    next h => exact ⟨Or.inr, fun ho => ho.resolve_left fun hr => h (hrc.mpr hr)⟩

theorem denied_of_audited (hdenied : c.access.requested &&& ~~~c.avd.allowed ≠ 0) {rc : Int}
    (haudited : (auditMasks c.access.requested c.avd rc c.auditdata).1 ≠ 0) :
    c.access.requested &&& ~~~c.avd.allowed &&& c.avd.auditdeny ≠ 0 := by
  rw [auditMasks, if_pos hdenied] at haudited
  dsimp only at haudited
  split at haudited
  · exact absurd rfl haudited
  · exact haudited

theorem state_eq_of_unmoved (h : c.Granted → Examines k c.toCall → ∀ s ∈ k.pol.seq, ¬Moves k.pol c.access s) :
    (avcHasPermFlags k c).value.state = k := by
  rw [avcHasPermFlags_state, pigaHasPerm_value]
  split
  next hg =>
    split
    next hx =>
      change { k with pol := k.pol.sweep c.access } = k
      rw [sweep_eq_self (h hg hx)]
    next => rfl
  next => rfl

theorem rc_of_flags (h : c.flags = 0) : (avcHasPermFlags k c).value.rc = (pigaHook k c).value.1 := by
  rw [avcHasPermFlags_rc, if_neg]
  intro hne
  have hrcu := ((avcAudit_ne_zero_iff ..).mp hne).2.2
  rw [h] at hrcu
  exact hrcu (by decide)

theorem hook_examined (hg : c.Granted) (hx : Examines k c.toCall) (hstill : ∀ s ∈ k.pol.seq, ¬Moves k.pol c.access s) :
    (pigaHook k c).value = (if Refused k.pol c.access k.pol.seq then pigaDeny else pigaAllow, k) := by
  rw [pigaHook, if_pos hg, pigaHasPerm_value, if_pos hx, State.sweep]
  change (_, ({ k with pol := k.pol.sweep c.access } : State)) = _
  rw [sweep_eq_self hstill]
  rfl

theorem hook_skipped (hg : c.Granted) (hx : ¬Examines k c.toCall) : (pigaHook k c).value = (0, k) := by
  rw [pigaHook, if_pos hg, pigaHasPerm_value, if_neg hx]
  exact Prod.ext ((noauditRc_cases _ _ _ _).resolve_right hg) rfl

theorem examines_of_denied (h : c.access.requested &&& ~~~c.avd.allowed &&& c.avd.auditdeny ≠ 0) (hstatus : k.status = true) :
    Examines k c.toCall := by
  have hdenied : c.access.requested &&& ~~~c.avd.allowed ≠ 0 := by
    intro hzero
    rw [hzero] at h
    exact h BitVec.zero_and
  refine ⟨hstatus, ?_⟩
  change (k.auditOnlyMode && if c.access.requested &&& ~~~c.avd.allowed ≠ 0 then
    c.access.requested &&& ~~~c.avd.allowed &&& c.avd.auditdeny == 0 else _) = false
  rw [if_pos hdenied, beq_eq_false_iff_ne.mpr h, Bool.and_false]

theorem examines_iff_of_allowed (h : c.access.requested &&& ~~~c.avd.allowed = 0) : Examines k c.toCall ↔
    k.status = true ∧ ¬(k.auditOnlyMode = true ∧ c.access.requested &&& c.avd.auditallow = 0) := by
  apply and_congr_right
  intro _
  change (k.auditOnlyMode && if c.access.requested &&& ~~~c.avd.allowed ≠ 0 then _ else
    c.access.requested &&& c.avd.auditallow == 0) = false ↔ _
  rw [if_neg (not_not.mpr h), ← Bool.not_eq_true, Bool.and_eq_true, beq_iff_eq]

theorem granted_of_allowed (h : c.access.requested &&& ~~~c.avd.allowed = 0) : c.Granted := by
  rw [AvcCall.Granted, noauditRc, if_neg (not_not.mpr h)]
  decide

theorem permissive_of_granted (hg : c.Granted) (hdenied : c.access.requested &&& ~~~c.avd.allowed ≠ 0) :
    (!c.enforcing || c.avd.flags &&& avdFlagsPermissive != 0) = true := by
  by_contra hno
  rw [AvcCall.Granted, noauditRc, if_pos hdenied, if_neg (by decide), if_neg hno] at hg
  exact hg rfl

theorem granted_of_permissive (h : (!c.enforcing || c.avd.flags &&& avdFlagsPermissive != 0) = true) : c.Granted := by
  rw [AvcCall.Granted, noauditRc, if_neg (by decide : ¬(0 : U32) &&& avcStrict ≠ 0), if_pos h, ite_self]
  decide

end calls

section caches

variable {av : Server} {c c' : Cache} {a : Access} {s : Setting} {n : AvcNode}

theorem lookup_fst (hs : s.securityComputeAv = av) : (lookup s a.ssid a.tsid a.tclass c).1 = decided av c a := by
  rw [lookup, decided, ← hs]
  cases avcSearchNode c a.ssid a.tsid a.tclass with
  | some n => rfl
  | none => rfl

theorem search_eq_some (h : avcSearchNode c a.ssid a.tsid a.tclass = some n) :
    n ∈ c.slots (avcHash a.ssid a.tsid a.tclass) ∧ n.isFor a.ssid a.tsid a.tclass = true := by
  rw [avcSearchNode] at h
  have hfor := List.find?_some h
  exact ⟨List.mem_of_find?_eq_some h, hfor⟩

theorem search_eq_none (h : avcSearchNode c a.ssid a.tsid a.tclass = none) :
    ∀ n ∈ c.slots (avcHash a.ssid a.tsid a.tclass), ¬ n.isFor a.ssid a.tsid a.tclass = true := by
  rw [avcSearchNode] at h
  exact List.find?_eq_none.mp h

theorem search_of_mem {ahead : U32} (h : Ordered ahead c) (hn : n ∈ c.slots (avcHash a.ssid a.tsid a.tclass))
    (hfor : n.isFor a.ssid a.tsid a.tclass = true) : avcSearchNode c a.ssid a.tsid a.tclass = some n := by
  cases hfound : avcSearchNode c a.ssid a.tsid a.tclass with
  | none => exact absurd hfor (search_eq_none hfound n hn)
  | some m =>
      obtain ⟨hm, hmfor⟩ := search_eq_some hfound
      have hkey : AvcNode.key m = AvcNode.key n := (key_of_isFor hmfor).trans (key_of_isFor hfor).symm
      rw [List.inj_on_of_nodup_map (h.unique _) hm hn hkey]

theorem decided_of_some (h : avcSearchNode c a.ssid a.tsid a.tclass = some n) : decided av c a = n.avd := by
  rw [decided, h]

theorem decided_of_none (h : avcSearchNode c a.ssid a.tsid a.tclass = none) : decided av c a = av a.ssid a.tsid a.tclass := by
  rw [decided, h]

theorem isFor_self (a : Access) (avd : AvDecision) :
    (⟨a.ssid, a.tsid, a.tclass, avd⟩ : AvcNode).isFor a.ssid a.tsid a.tclass = true :=
  AvcNode.isFor_iff.mpr ⟨rfl, rfl, rfl⟩

theorem search_insert (hnone : avcSearchNode c a.ssid a.tsid a.tclass = none) (avd : AvDecision) :
    (avcInsert s a.ssid a.tsid a.tclass avd c = c ∧ (avd.seqno < c.latestNotif ∨ s.insertAllocated = false)) ∨
      (avcSearchNode (avcInsert s a.ssid a.tsid a.tclass avd c) a.ssid a.tsid a.tclass = some ⟨a.ssid, a.tsid, a.tclass, avd⟩ ∧
        ¬ avd.seqno < c.latestNotif) := by
  rw [avcInsert]
  split
  next hold => exact Or.inl ⟨rfl, Or.inl hold⟩
  next hrecent =>
    cases halloc : avcAllocNode s.threshold s.insertAllocated s.insertTrylock c with
    | none =>
        refine Or.inl ⟨rfl, Or.inr ?_⟩
        rw [avcAllocNode] at halloc
        split at halloc
        · exact absurd halloc (Option.some_ne_none _)
        next hfalse => exact Bool.not_eq_true _ ▸ hfalse
    | some c₁ =>
        refine Or.inr ⟨?_, hrecent⟩
        dsimp only
        cases hchain : replaceNode (fun n => n.isFor a.ssid a.tsid a.tclass) (fun _ => ⟨a.ssid, a.tsid, a.tclass, avd⟩)
            (c₁.slots (avcHash a.ssid a.tsid a.tclass)) with
        | some ns =>
            obtain ⟨before, n, rest, hslot, hn, -⟩ := replaceNode_split hchain
            have hmem : n ∈ c₁.slots (avcHash a.ssid a.tsid a.tclass) := by
              rw [hslot]
              exact List.mem_append_right _ List.mem_cons_self
            exact absurd hn (search_eq_none hnone n ((avcAllocNode_sublist halloc _).mem hmem))
        | none =>
            change (Function.update c₁.slots _ _ _).find? _ = _
            rw [Function.update_self]
            exact List.find?_cons_of_pos (isFor_self a avd)

theorem lookup_snd_of_some (hn : avcSearchNode c a.ssid a.tsid a.tclass = some n) : (lookup s a.ssid a.tsid a.tclass c).2 = c := by
  rw [lookup, hn]

theorem lookup_snd_of_none (hs : s.securityComputeAv = av) (hn : avcSearchNode c a.ssid a.tsid a.tclass = none) :
    (lookup s a.ssid a.tsid a.tclass c).2 = avcInsert s a.ssid a.tsid a.tclass (av a.ssid a.tsid a.tclass) c := by
  rw [lookup, hn, hs]

theorem decided_lookup (hs : s.securityComputeAv = av) : decided av (lookup s a.ssid a.tsid a.tclass c).2 a = decided av c a := by
  cases hfound : avcSearchNode c a.ssid a.tsid a.tclass with
  | some n => rw [lookup_snd_of_some hfound]
  | none =>
      rw [lookup_snd_of_none hs hfound, decided_of_none hfound]
      rcases search_insert (s := s) hfound (av a.ssid a.tsid a.tclass) with ⟨hsame, -⟩ | ⟨hnew, -⟩
      · rw [hsame, decided_of_none hfound]
      · rw [decided_of_some hnew]

theorem cacheable_of_lookup (hs : s.securityComputeAv = av)
    (h : (avcSearchNode (lookup s a.ssid a.tsid a.tclass c).2 a.ssid a.tsid a.tclass).isSome = true) : Cacheable av c a := by
  cases hfound : avcSearchNode c a.ssid a.tsid a.tclass with
  | some n => exact Or.inl (by rw [hfound]; rfl)
  | none =>
      rw [lookup_snd_of_none hs hfound] at h
      rcases search_insert (s := s) hfound (av a.ssid a.tsid a.tclass) with ⟨hsame, -⟩ | ⟨-, hrecent⟩
      · rw [hsame, hfound] at h
        exact absurd h Bool.false_ne_true
      · exact Or.inr hrecent

theorem search_lookup (hs : s.securityComputeAv = av) (hmemory : s.insertAllocated = true) (h : Cacheable av c a) :
    ∃ n, avcSearchNode (lookup s a.ssid a.tsid a.tclass c).2 a.ssid a.tsid a.tclass = some n ∧ n.avd = decided av c a := by
  cases hfound : avcSearchNode c a.ssid a.tsid a.tclass with
  | some n =>
      rw [lookup_snd_of_some hfound]
      exact ⟨n, hfound, (decided_of_some hfound).symm⟩
  | none =>
      have hrecent := h.resolve_left (by rw [hfound]; exact Bool.false_ne_true)
      rw [lookup_snd_of_none hs hfound]
      rcases search_insert (s := s) hfound (av a.ssid a.tsid a.tclass) with ⟨-, hold | hfalse⟩ | ⟨hnew, -⟩
      · exact absurd hold hrecent
      · exact absurd (hmemory.symm.trans hfalse) Bool.false_ne_true.symm
      · exact ⟨_, hnew, (decided_of_none hfound).symm⟩

theorem search_replaced {ahead : U32} (h : Ordered ahead c) {perms seqno : U32} {ns : List AvcNode}
    (hns : replaceNode (fun n => n.isFor a.ssid a.tsid a.tclass && seqno == n.avd.seqno)
      (fun n => ⟨a.ssid, a.tsid, a.tclass, updateAvd .grant perms n.avd⟩) (c.slots (avcHash a.ssid a.tsid a.tclass)) = some ns) :
    ∃ n, avcSearchNode c a.ssid a.tsid a.tclass = some n ∧
      (ns.find? fun n => n.isFor a.ssid a.tsid a.tclass) = some ⟨a.ssid, a.tsid, a.tclass, updateAvd .grant perms n.avd⟩ := by
  obtain ⟨before, n, rest, hslot, hp, rfl⟩ := replaceNode_split hns
  obtain ⟨hfor, -⟩ := Bool.and_eq_true_iff.mp hp
  have hn : n ∈ c.slots (avcHash a.ssid a.tsid a.tclass) := by
    rw [hslot]
    exact List.mem_append_right _ List.mem_cons_self
  have hbefore : before.find? (fun n => n.isFor a.ssid a.tsid a.tclass) = none := by
    apply List.find?_eq_none.mpr
    intro m hm hmfor
    have hnodup := h.unique (avcHash a.ssid a.tsid a.tclass)
    rw [hslot, List.map_append, List.nodup_append] at hnodup
    have hkey : AvcNode.key m = AvcNode.key n := (key_of_isFor hmfor).trans (key_of_isFor hfor).symm
    exact hnodup.2.2 _ (List.mem_map_of_mem hm) _ (List.mem_map_of_mem List.mem_cons_self) hkey
  refine ⟨n, search_of_mem h hn hfor, ?_⟩
  rw [List.find?_append, hbefore, Option.none_or]
  exact List.find?_cons_of_pos (isFor_self a _)

theorem decided_update (av : Server) (h : WellFormed c) (perms seqno : U32) :
    decided av (avcUpdateNode s .grant perms a.ssid a.tsid a.tclass seqno c) a = decided av c a ∨
      decided av (avcUpdateNode s .grant perms a.ssid a.tsid a.tclass seqno c) a = av a.ssid a.tsid a.tclass ∨
      ((avcSearchNode c a.ssid a.tsid a.tclass).isSome = true ∧
        decided av (avcUpdateNode s .grant perms a.ssid a.tsid a.tclass seqno c) a = updateAvd .grant perms (decided av c a)) := by
  rcases avcUpdateNode_cases s .grant perms a.ssid a.tsid a.tclass seqno c with hsame | ⟨c₁, halloc, hstored⟩
  · exact Or.inl (by rw [hsame])
  -- the allocation may reclaim the very node that is to be updated
  have h₁ := h.alloc (avcAllocNode_allocated halloc)
  have hkept : ∀ n, avcSearchNode c₁ a.ssid a.tsid a.tclass = some n → avcSearchNode c a.ssid a.tsid a.tclass = some n := by
    intro n hn
    obtain ⟨hmem, hfor⟩ := search_eq_some hn
    exact search_of_mem h ((avcAllocNode_sublist halloc _).mem hmem) hfor
  rcases hstored with ⟨ns, hns, hstored⟩ | hstored
  · obtain ⟨n, hn, hfind⟩ := search_replaced h₁ hns
    have hnew : avcSearchNode (avcUpdateNode s .grant perms a.ssid a.tsid a.tclass seqno c) a.ssid a.tsid a.tclass =
        some ⟨a.ssid, a.tsid, a.tclass, updateAvd .grant perms n.avd⟩ := by
      rw [avcSearchNode, hstored.slots, Function.update_self]
      exact hfind
    refine Or.inr (Or.inr ⟨by rw [hkept n hn]; rfl, ?_⟩)
    rw [decided_of_some hnew, decided_of_some (hkept n hn)]
  · have hsame : avcSearchNode (avcUpdateNode s .grant perms a.ssid a.tsid a.tclass seqno c) a.ssid a.tsid a.tclass =
        avcSearchNode c₁ a.ssid a.tsid a.tclass := by
      rw [avcSearchNode, hstored.slots, Function.update_self]
      rfl
    cases hfound : avcSearchNode c₁ a.ssid a.tsid a.tclass with
    | none => exact Or.inr (Or.inl (decided_of_none (hsame.trans hfound)))
    | some n =>
        refine Or.inl ?_
        rw [decided_of_some (hsame.trans hfound), decided_of_some (hkept n hfound)]

theorem wellFormed_lookup (h : WellFormed c) (hs : s.securityComputeAv = av) :
    WellFormed (lookup s a.ssid a.tsid a.tclass c).2 := by
  cases hfound : avcSearchNode c a.ssid a.tsid a.tclass with
  | some n =>
      rw [lookup_snd_of_some hfound]
      exact h
  | none =>
      rw [lookup_snd_of_none hs hfound]
      exact wellFormed_insert h s _ _ _ _

def Grants (s : Setting) (avd : AvDecision) (a : Access) : Prop :=
  a.requested &&& ~~~avd.allowed ≠ 0 ∧ (!s.enforcing || avd.flags &&& avdFlagsPermissive != 0) = true

instance (s : Setting) (avd : AvDecision) (a : Access) : Decidable (Grants s avd a) := inferInstanceAs (Decidable (_ ∧ _))

theorem cache_check (hs : s.securityComputeAv = av) : (avcHasPermNoaudit s a 0 c).cache =
    if Grants s (decided av c a) a then
      avcUpdateNode s .grant a.requested a.ssid a.tsid a.tclass (decided av c a).seqno (lookup s a.ssid a.tsid a.tclass c).2
    else (lookup s a.ssid a.tsid a.tclass c).2 := by
  rw [avcHasPermNoaudit, lookup_fst hs]
  split
  next hdenied =>
    rw [if_neg (by decide)]
    split
    next hpermissive => exact (if_pos ⟨hdenied, hpermissive⟩).symm
    next hno => exact (if_neg fun h => hno h.2).symm
  next hno => exact (if_neg fun h => hno h.1).symm

theorem decided_check (h : WellFormed c) (hs : s.securityComputeAv = av) :
    decided av (avcHasPermNoaudit s a 0 c).cache a = decided av c a ∨
      (Grants s (decided av c a) a ∧
        (decided av (avcHasPermNoaudit s a 0 c).cache a = av a.ssid a.tsid a.tclass ∨
          (Cacheable av c a ∧
            decided av (avcHasPermNoaudit s a 0 c).cache a = updateAvd .grant a.requested (decided av c a)))) := by
  have hkept := decided_lookup (c := c) (a := a) hs
  rw [cache_check hs]
  split
  next hgrants =>
    rcases decided_update av (s := s) (wellFormed_lookup h hs) a.requested (decided av c a).seqno with
      hsame | hgone | ⟨hsome, hnew⟩
    · exact Or.inl (hsame.trans hkept)
    · exact Or.inr ⟨hgrants, Or.inl hgone⟩
    · refine Or.inr ⟨hgrants, Or.inr ⟨cacheable_of_lookup hs hsome, ?_⟩⟩
      rw [hnew, hkept]
  next => exact Or.inl hkept

/-- Memory for every node, in a cache that is never full. -/
structure Ample (s : Setting) : Prop where
  threshold : s.threshold = BitVec.allOnes 32
  insertAllocated : s.insertAllocated = true
  updateAllocated : s.updateAllocated = true

theorem Ample.alloc (h : Ample s) (c : Cache) : avcAllocNode s.threshold s.updateAllocated s.updateTrylock c =
    some { c with activeNodes := c.activeNodes + 1 } := by
  have hroom : ¬ c.activeNodes + 1 > s.threshold := by
    rw [h.threshold]
    exact BitVec.not_lt.mpr (BitVec.le_def.mpr (by rw [BitVec.toNat_allOnes]; omega))
  rw [avcAllocNode, if_pos h.updateAllocated]
  dsimp only
  rw [if_neg hroom]

theorem Ample.decided (hm : Ample s) (h : WellFormed c) (hs : s.securityComputeAv = av)
    (hgrants : Grants s (decided av c a) a) (hcache : Cacheable av c a) :
    RcuRetry.decided av (avcHasPermNoaudit s a 0 c).cache a = updateAvd .grant a.requested (RcuRetry.decided av c a) := by
  obtain ⟨n, hn, havd⟩ := search_lookup hs hm.insertAllocated hcache
  obtain ⟨hmem, hfor⟩ := search_eq_some hn
  rw [cache_check hs, if_pos hgrants, avcUpdateNode, hm.alloc]
  dsimp only
  cases hchain : replaceNode (fun n => n.isFor a.ssid a.tsid a.tclass && (RcuRetry.decided av c a).seqno == n.avd.seqno)
      (fun n => ⟨a.ssid, a.tsid, a.tclass, updateAvd .grant a.requested n.avd⟩)
      ((lookup s a.ssid a.tsid a.tclass c).2.slots (avcHash a.ssid a.tsid a.tclass)) with
  | none =>
      have hmiss := replaceNode_none hchain n hmem
      rw [hfor, havd, beq_self_eq_true] at hmiss
      exact absurd hmiss Bool.false_ne_true.symm
  | some ns =>
      obtain ⟨m, hm', hfind⟩ := search_replaced (wellFormed_lookup h hs) hchain
      obtain rfl := Option.some.inj (hn.symm.trans hm')
      rw [← havd]
      apply decided_of_some (n := ⟨a.ssid, a.tsid, a.tclass, updateAvd .grant a.requested n.avd⟩)
      rw [avcSearchNode]
      dsimp only
      rw [Function.update_self]
      exact hfind

end caches

section warm

variable {av : Server} {c c' : Cache} {a : Access} {s : Setting} {n : AvcNode} {h : Fin 512}

def OnTop (av : Server) (n : AvcNode) : Prop := ∃ perms, n.avd = updateAvd .grant perms (av n.ssid n.tsid n.tclass)

structure Warm (av : Server) (c : Cache) : Prop where
  wellFormed : WellFormed c
  granted : ∀ h, ∀ n ∈ c.slots h, OnTop av n

theorem grant_zero (avd : AvDecision) : updateAvd .grant 0 avd = avd := by
  change { avd with allowed := avd.allowed ||| 0#32 } = avd
  rw [BitVec.or_zero]

theorem Stored.mem {d : U32} {i : Fin 512} {ns : List AvcNode} (hst : Stored d i ns c c') (hn : n ∈ c'.slots h) :
    n ∈ ns ∨ n ∈ c.slots h := by
  rw [hst.slots] at hn
  by_cases hi : h = i
  · subst hi
    rw [Function.update_self] at hn
    exact Or.inl hn
  · rw [Function.update_of_ne hi] at hn
    exact Or.inr hn

theorem mem_of_replaceNode {p : AvcNode → Bool} {new : AvcNode → AvcNode} {ns ns' : List AvcNode}
    (hns : replaceNode p new ns = some ns') (hn : n ∈ ns') : n ∈ ns ∨ ∃ m ∈ ns, p m = true ∧ n = new m := by
  obtain ⟨before, m, rest, rfl, hp, rfl⟩ := replaceNode_split hns
  rcases List.mem_append.mp hn with hn | hn
  · exact Or.inl (List.mem_append_left _ hn)
  · rcases List.mem_cons.mp hn with rfl | hn
    · exact Or.inr ⟨m, List.mem_append_right _ List.mem_cons_self, hp, rfl⟩
    · exact Or.inl (List.mem_append_right _ (List.mem_cons_of_mem _ hn))

theorem Warm.insert (hw : Warm av c) (a : Access) :
    Warm av (avcInsert s a.ssid a.tsid a.tclass (av a.ssid a.tsid a.tclass) c) := by
  refine ⟨wellFormed_insert hw.wellFormed s _ _ _ _, fun h n hn => ?_⟩
  have hnew : OnTop av ⟨a.ssid, a.tsid, a.tclass, av a.ssid a.tsid a.tclass⟩ := ⟨0, (grant_zero _).symm⟩
  rcases avcInsert_cases s a.ssid a.tsid a.tclass (av a.ssid a.tsid a.tclass) c with hsame | ⟨c₁, halloc, -, hstored⟩
  · rw [hsame] at hn
    exact hw.granted h n hn
  have hold : ∀ i, ∀ m ∈ c₁.slots i, OnTop av m := fun i m hm => hw.granted i m ((avcAllocNode_sublist halloc i).mem hm)
  rcases hstored with ⟨ns, hns, hstored⟩ | ⟨-, hstored⟩
  · rcases Stored.mem hstored hn with hn | hn
    · rcases mem_of_replaceNode hns hn with hn | ⟨-, -, -, rfl⟩
      · exact hold _ n hn
      · exact hnew
    · exact hold h n hn
  · rcases Stored.mem hstored hn with hn | hn
    · rcases List.mem_cons.mp hn with rfl | hn
      · exact hnew
      · exact hold _ n hn
    · exact hold h n hn

theorem Warm.update (hw : Warm av c) (perms ssid tsid : U32) (tclass : U16) (seqno : U32) :
    Warm av (avcUpdateNode s .grant perms ssid tsid tclass seqno c) := by
  refine ⟨wellFormed_update hw.wellFormed s _ _ _ _ _ _, fun h n hn => ?_⟩
  rcases avcUpdateNode_cases s .grant perms ssid tsid tclass seqno c with hsame | ⟨c₁, halloc, hstored⟩
  · rw [hsame] at hn
    exact hw.granted h n hn
  have hold : ∀ i, ∀ m ∈ c₁.slots i, OnTop av m := fun i m hm => hw.granted i m ((avcAllocNode_sublist halloc i).mem hm)
  rcases hstored with ⟨ns, hns, hstored⟩ | hstored
  · rcases Stored.mem hstored hn with hn | hn
    · rcases mem_of_replaceNode hns hn with hn | ⟨m, hm, hp, rfl⟩
      · exact hold _ n hn
      · obtain ⟨hfor, -⟩ := Bool.and_eq_true_iff.mp hp
        obtain ⟨rfl, rfl, rfl⟩ := AvcNode.isFor_iff.mp hfor
        obtain ⟨granted, havd⟩ := hold _ m hm
        refine ⟨granted ||| perms, ?_⟩
        rw [havd]
        simp only [updateAvd, BitVec.or_assoc]
    · exact hold h n hn
  · rcases Stored.mem hstored hn with hn | hn
    · exact hold _ n hn
    · exact hold h n hn

theorem Warm.check (hw : Warm av c) (hs : s.securityComputeAv = av) (a : Access) (flags : U32) :
    Warm av (avcHasPermNoaudit s a flags c).cache := by
  have hlookup : Warm av (lookup s a.ssid a.tsid a.tclass c).2 := by
    cases hfound : avcSearchNode c a.ssid a.tsid a.tclass with
    | some n =>
        rw [lookup_snd_of_some hfound]
        exact hw
    | none =>
        rw [lookup_snd_of_none hs hfound]
        exact hw.insert a
  rw [avcHasPermNoaudit]
  split
  · split
    · exact hlookup
    · split
      · exact hlookup.update _ _ _ _ _
      · exact hlookup
  · exact hlookup

theorem warm_warmed (av : Server) (before : List Op) (past : List (Setting × Access × U32)) : Warm av (warmed av before past) := by
  have hrun : ∀ c, Warm av c → Warm av (past.foldl
      (fun c x => (avcHasPermNoaudit { x.1 with securityComputeAv := av } x.2.1 x.2.2 c).cache) c) := by
    induction past with
    | nil => exact fun c hw => hw
    | cons x past ih => exact fun c hw => ih _ (hw.check rfl x.2.1 x.2.2)
  exact hrun _ ⟨wellFormed_flush (wellFormed_run wellFormed_emptyCache before), fun _ _ hn => absurd hn List.not_mem_nil⟩

theorem Warm.decided (hw : Warm av c) (a : Access) :
    ∃ perms, RcuRetry.decided av c a = updateAvd .grant perms (av a.ssid a.tsid a.tclass) := by
  cases hfound : avcSearchNode c a.ssid a.tsid a.tclass with
  | none =>
      rw [decided_of_none hfound]
      exact ⟨0, (grant_zero _).symm⟩
  | some n =>
      obtain ⟨hmem, hfor⟩ := search_eq_some hfound
      obtain ⟨hssid, htclass, htsid⟩ := AvcNode.isFor_iff.mp hfor
      rw [decided_of_some hfound, hssid, htclass, htsid]
      exact hw.granted _ n hmem

end warm

def ample : Setting := ⟨true, fun _ _ _ => ⟨0, 0, 0, 0, 0⟩, BitVec.allOnes 32, true, fun _ => true, true, fun _ => true⟩

section pairs

variable {av : Server} {c : Cache} {q : Query} {k : State} {enforcing : Bool} {s s' : Setting}

theorem checkWith_under (k : State) (c : Cache) (q : Query) (s : Setting) :
    checkWith q (under enforcing av s) c k = (avcHasPermFlags k (asked enforcing q (decided av c q.access))).value := by
  rw [checkWith, avcHasPermNoaudit_avd, lookup_fst rfl]
  rfl

theorem checkWith_retry (k : State) (c : Cache) (q : Query) (s : Setting) :
    (checkWith (retry q) (under enforcing av s) c k).rc = (pigaHook k (asked enforcing q (decided av c q.access))).value.1 ∧
      (checkWith (retry q) (under enforcing av s) c k).state =
        (pigaHook k (asked enforcing q (decided av c q.access))).value.2 := by
  rw [checkWith_under]
  exact ⟨rc_of_flags rfl, rfl⟩

theorem granted_denied {r allowed auditdeny : U32} (perms : U32) (h : r &&& ~~~(allowed ||| perms) &&& auditdeny ≠ 0) :
    r &&& ~~~allowed &&& auditdeny ≠ 0 := by
  intro hzero
  apply h
  calc r &&& ~~~(allowed ||| perms) &&& auditdeny
      = r &&& (~~~allowed &&& ~~~perms) &&& auditdeny := by rw [BitVec.not_or]
    _ = (r &&& ~~~allowed &&& auditdeny) &&& ~~~perms := by ac_rfl
    _ = 0 := by rw [hzero]; exact BitVec.zero_and

theorem granted_allowed (r allowed : U32) : r &&& ~~~(allowed ||| r) = 0 := by
  calc r &&& ~~~(allowed ||| r)
      = ~~~allowed &&& (r &&& ~~~r) := by rw [BitVec.not_or]; ac_rfl
    _ = 0 := by rw [BitVec.and_not_self]; exact BitVec.and_zero

/-- The monitor sees the repetition as it would have seen it alone, unless the grant hides it. -/
theorem hook_after (hw : Warm av c) (hgrants : Grants (under enforcing av s) (decided av c q.access) q.access)
    (haudited : q.access.requested &&& ~~~(decided av c q.access).allowed &&& (decided av c q.access).auditdeny ≠ 0)
    (hgood : k.status = true → ¬((∃ s ∈ k.pol.seq, Moves k.pol q.access s) ∨
      (Hidden k (asked enforcing q (decided av c q.access)) ∧ Cacheable av c q.access))) {avd : AvDecision}
    (havd : avd = av q.access.ssid q.access.tsid q.access.tclass ∨
      (Cacheable av c q.access ∧ avd = updateAvd .grant q.access.requested (decided av c q.access))) :
    (pigaHook k (asked enforcing q avd)).value = (pigaHook k (asked enforcing q (decided av c q.access))).value := by
  obtain ⟨hdenied, hpermissive⟩ := hgrants
  have hg : (asked enforcing q (decided av c q.access)).Granted := granted_of_permissive hpermissive
  by_cases hstatus : k.status = true
  · obtain ⟨hmoves, hhidden⟩ := not_or.mp (hgood hstatus)
    have hstill : ∀ s ∈ k.pol.seq, ¬Moves k.pol q.access s := fun s hs hm => hmoves ⟨s, hs, hm⟩
    rw [hook_examined hg (examines_of_denied haudited hstatus) hstill]
    rcases havd with rfl | ⟨hcache, rfl⟩
    · -- the node was reclaimed: the server decides again, without what was granted on top
      obtain ⟨perms, hperms⟩ := hw.decided q.access
      rw [hperms] at hpermissive haudited
      exact hook_examined (granted_of_permissive hpermissive) (examines_of_denied (granted_denied perms haudited) hstatus)
        hstill
    · have hallowed : q.access.requested &&& ~~~(updateAvd .grant q.access.requested (decided av c q.access)).allowed = 0 :=
        granted_allowed _ _
      by_cases hx : Examines k (asked enforcing q (updateAvd .grant q.access.requested (decided av c q.access))).toCall
      · exact hook_examined (granted_of_allowed hallowed) hx hstill
      · rw [hook_skipped (granted_of_allowed hallowed) hx, if_neg]
        · rfl
        · intro hrefused
          obtain ⟨hmode, hnone⟩ : k.auditOnlyMode = true ∧ q.access.requested &&& (decided av c q.access).auditallow = 0 := by
            by_contra hno
            exact hx ((examines_iff_of_allowed hallowed).mpr ⟨hstatus, hno⟩)
          exact hhidden ⟨⟨hdenied, hmode, hnone, hrefused⟩, hcache⟩
  · have hskip : ∀ c : AvcCall, ¬Examines k c.toCall := fun c hx => hstatus hx.1
    have hg' : (asked enforcing q avd).Granted := by
      rcases havd with rfl | ⟨-, rfl⟩
      · obtain ⟨perms, hperms⟩ := hw.decided q.access
        rw [hperms] at hpermissive
        exact granted_of_permissive hpermissive
      · exact granted_of_permissive hpermissive
    rw [hook_skipped hg (hskip _), hook_skipped hg' (hskip _)]

theorem AlwaysCountedOnce.still (h : AlwaysCountedOnce k c q enforcing av)
    (hchild : ∀ s, (checkWith q (under enforcing av s) c k).rc = -echild)
    (hg : (asked enforcing q (decided av c q.access)).Granted)
    (hx : Examines k (asked enforcing q (decided av c q.access)).toCall) : ∀ s ∈ k.pol.seq, ¬Moves k.pol q.access s := by
  have hpos := (h ample ample).untouched (hchild ample)
  rw [checkWith_under, avcHasPermFlags_state, if_pos hg, pigaHasPerm_value, if_pos hx] at hpos
  exact (positions_sweep_iff k _).mp hpos

theorem AlwaysCountedOnce.seen (hw : Warm av c) (h : AlwaysCountedOnce k c q enforcing av)
    (hchild : ∀ s, (checkWith q (under enforcing av s) c k).rc = -echild)
    (hg : (asked enforcing q (decided av c q.access)).Granted)
    (hx : Examines k (asked enforcing q (decided av c q.access)).toCall)
    (hhidden : Hidden k (asked enforcing q (decided av c q.access))) : ¬Cacheable av c q.access := by
  intro hcache
  have hstill := h.still hchild hg hx
  have hstate : (checkWith q (under enforcing av ample) c k).state = k := by
    rw [checkWith_under]
    exact state_eq_of_unmoved fun _ _ => hstill
  have hskip : ¬Examines k (asked enforcing q (updateAvd .grant q.access.requested (decided av c q.access))).toCall :=
    fun hx => ((examines_iff_of_allowed (granted_allowed _ _)).mp hx).2 ⟨hhidden.auditOnly, hhidden.auditallow⟩
  have hgrants : Grants (under enforcing av ample) (decided av c q.access) q.access :=
    ⟨hhidden.denied, permissive_of_granted hg hhidden.denied⟩
  have hcomputed : (under enforcing av ample).securityComputeAv = av := rfl
  -- with memory for its node the grant is in the cache, and the repetition is skipped
  have hanswer := (h ample ample).answer (hchild ample)
  rw [hstate, (checkWith_retry k _ q ample).1, (checkWith_retry k c q ample).1,
    Ample.decided ⟨rfl, rfl, rfl⟩ hw.wellFormed hcomputed hgrants hcache, hook_examined hg hx hstill, if_pos hhidden.refused,
    hook_skipped (granted_of_allowed (granted_allowed _ _)) hskip] at hanswer
  have hne : (0 : Int) ≠ pigaDeny := by decide
  exact hne hanswer

/-- A check that is put off counts once if it leaves the monitor alone, and its
repetition is answered as if it were the first attempt. -/
theorem alwaysCountedOnce_of_same (hsame : ∀ s, (checkWith q (under enforcing av s) c k).rc = -echild →
    (checkWith q (under enforcing av s) c k).state = k ∧
      (pigaHook k (asked enforcing q
        (decided av (avcHasPermNoaudit (under enforcing av s) q.access 0 c).cache q.access))).value =
        (pigaHook k (asked enforcing q (decided av c q.access))).value) : AlwaysCountedOnce k c q enforcing av := by
  intro s s'
  refine ⟨fun hchild => ?_, fun hchild => ?_, fun hchild => ?_⟩
  · rw [(hsame s hchild).1]
  · rw [(hsame s hchild).1, (checkWith_retry k _ q s').1, (checkWith_retry k c q s').1, (hsame s hchild).2]
  · rw [(hsame s hchild).1, (checkWith_retry k _ q s').2, (checkWith_retry k c q s').2, (hsame s hchild).2]

/-- A check that is put off has moved the tokens already, and in permissive mode
it may have hidden its repetition from the monitor. Otherwise it counts once. -/
theorem countedOnce_iff (k : State) (av : Server) (before : List Op) (past : List (Setting × Access × U32)) (enforcing : Bool)
    (q : Query) :
    AlwaysCountedOnce k (warmed av before past) q enforcing av ↔
      let c := asked enforcing q (decided av (warmed av before past) q.access)
      ¬(Deferred k c ∧ c.Granted ∧ Examines k c.toCall ∧
        ((∃ s ∈ k.pol.seq, Moves k.pol q.access s) ∨ (Hidden k c ∧ Cacheable av (warmed av before past) q.access))) := by
  have hw := warm_warmed av before past
  generalize warmed av before past = c at hw
  dsimp only
  constructor
  · rintro h ⟨⟨hfs, hrcu, hrec⟩, hg, hx, hbad⟩
    have hchild : ∀ s, (checkWith q (under enforcing av s) c k).rc = -echild := by
      intro s
      rw [checkWith_under]
      exact (rc_eq_echild_iff k _).mpr ⟨(audited_iff hg hx).mpr hrec, hfs, hrcu⟩
    rcases hbad with ⟨s, hs, hmoves⟩ | ⟨hhidden, hcache⟩
    · exact h.still hchild hg hx s hs hmoves
    · exact h.seen hw hchild hg hx hhidden hcache
  · intro h
    apply alwaysCountedOnce_of_same
    intro s hchild
    rw [checkWith_under] at hchild ⊢
    obtain ⟨hmask, hfs, hrcu⟩ := (rc_eq_echild_iff k _).mp hchild
    have hgood : ∀ hg hx, ¬((∃ s ∈ k.pol.seq, Moves k.pol q.access s) ∨
        (Hidden k (asked enforcing q (decided av c q.access)) ∧ Cacheable av c q.access)) := fun hg hx hbad =>
      h ⟨⟨hfs, hrcu, (audited_iff hg hx).mp hmask⟩, hg, hx, hbad⟩
    refine ⟨state_eq_of_unmoved fun hg hx s hs hm => hgood hg hx (Or.inl ⟨s, hs, hm⟩), ?_⟩
    have hcomputed : (under enforcing av s).securityComputeAv = av := rfl
    rcases decided_check (a := q.access) hw.wellFormed hcomputed with hsame | ⟨hgrants, hafter⟩
    · rw [hsame]
    · have hdenied := denied_of_audited (c := asked enforcing q (decided av c q.access)) hgrants.1 hmask
      have hg : (asked enforcing q (decided av c q.access)).Granted := granted_of_permissive hgrants.2
      exact hook_after hw hgrants hdenied (fun hstatus => hgood hg (examines_of_denied hdenied hstatus)) hafter

end pairs

def twiceState : State where
  status := true
  auditOnlyMode := false
  pol :=
    { sLen := 1
      lLen := 2
      seq := [⟨2, 0, 0⟩]
      link := [⟨10, 20, 6, 2⟩, ⟨10, 20, 6, 2⟩]
      behind := fun _ => ⟨0, 0, 0, 0⟩
      seq_length := rfl
      link_length := rfl }

def lookupQuery : Query := ⟨readShadow, some ⟨.fs, 0⟩, ipermFlagRcu, readShadow_requested_ne⟩

def auditsAll : Server := fun _ _ _ => ⟨0xffffffff, 0xffffffff, 0, 1, 0⟩

/-- An audited lookup that is put off once is refused on its repetition,
which alone is granted. -/
theorem retry_counts_twice :
    let s := under true auditsAll ample
    let first := checkWith lookupQuery s emptyCache twiceState
    let c := (avcHasPermNoaudit s readShadow 0 emptyCache).cache
    first.rc = -echild ∧ (checkWith (retry lookupQuery) s c first.state).rc = -eacces ∧
      (checkWith (retry lookupQuery) s emptyCache twiceState).rc = 0 ∧
      ¬AlwaysCountedOnce twiceState emptyCache lookupQuery true auditsAll := by
  refine ⟨by decide, by decide, by decide, fun h => ?_⟩
  exact absurd ((h ample ample).answer (by decide)) (by decide)

/-- In audit-only mode a refused read of the shadow file is granted in the cache
by permissive SELinux, and its repetition is let through. -/
example :
    let k : State := ⟨true, true, { twiceState.pol with seq := [⟨1, 0, 0⟩], seq_length := rfl }⟩
    let s := under false (fun _ _ _ => ⟨0, 0, 0xffffffff, 1, 0⟩) ample
    let first := checkWith lookupQuery s emptyCache k
    let c := (avcHasPermNoaudit s readShadow 0 emptyCache).cache
    first.rc = -echild ∧ (checkWith (retry lookupQuery) s c first.state).rc = 0 ∧
      (checkWith (retry lookupQuery) s emptyCache k).rc = -eacces := by
  decide

end PigaLinux.RcuRetry
