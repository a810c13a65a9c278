import PigaLinux.Chains
import PigaLinux.Contexts

namespace PigaLinux.SidTable

open Kernel Contexts

def uintMax : U32 := 0xffffffff

structure Node where
  sid : U32
  context : Context
deriving DecidableEq

def sidtabHash (sid : Nat) : Fin 128 := Fin.ofNat 128 (sid &&& 127)

abbrev Htable := Chains.Table (fun n : Node => n.sid.toNat) sidtabHash

structure Sidtab where
  htable : Htable
  nel : U32
  nextSid : U32
  shutdown : Bool
  cache : Fin 3 → Option Node

def sidtabInit : Sidtab := ⟨Chains.empty, 0, 1, false, fun _ => none⟩

/-- The allocations of the new node, of its context and of its string are one outcome. -/
def sidtabInsert (s : Sidtab) (sid : U32) (context : Context) (alloc : Bool) : Except Int Sidtab :=
  if h : Chains.has s.htable sid.toNat = false then
    if alloc = false then .error (-enomem)
    else .ok { s with
      htable := Chains.insert s.htable ⟨sid, context⟩ h
      nel := s.nel + 1
      nextSid := if s.nextSid ≤ sid then sid + 1 else s.nextSid }
  else .error (-eexist)

def sidtabUpdateCache (s : Sidtab) (n : Node) (loc : Fin 3) : Sidtab :=
  { s with cache := fun i => if i = 0 then some n else if i ≤ loc then s.cache (i - 1) else s.cache i }

/-- The nodes in the order in which the nested loops visit them. -/
def nodes (s : Sidtab) : List Node := Chains.entries s.htable

def sidtabSearchContext (s : Sidtab) (context : Context) : U32 × Sidtab :=
  match (nodes s).find? (fun n => contextCmp n.context context) with
  | some n => (n.sid, sidtabUpdateCache s n 2)
  | none => (0, s)

def searchCacheAt (s : Sidtab) (context : Context) : List (Fin 3) → U32 × Sidtab
  | [] => (0, s)
  | i :: is =>
      match s.cache i with
      | none => (0, s)
      | some n =>
          if contextCmp n.context context then (n.sid, sidtabUpdateCache s n i) else searchCacheAt s context is

def sidtabSearchCache (s : Sidtab) (context : Context) : U32 × Sidtab := searchCacheAt s context [0, 1, 2]

/-- The part under the lock: a rescan, and a new SID when it finds nothing. -/
def allocateSid (s : Sidtab) (context : Context) (alloc : Bool) : Except Int U32 × Sidtab :=
  let (sid, s) := sidtabSearchContext s context
  if sid ≠ 0 then (.ok sid, s)
  else if s.nextSid = uintMax ∨ s.shutdown = true then (.error (-enomem), s)
  else
    match sidtabInsert { s with nextSid := s.nextSid + 1 } s.nextSid context alloc with
    | .error rc => (.error rc, { s with nextSid := s.nextSid + 1 - 1 })
    | .ok s' => (.ok s.nextSid, s')

def sidtabContextToSid (s : Sidtab) (context : Context) (alloc : Bool) : Except Int U32 × Sidtab :=
  let (sid, s) := sidtabSearchCache s context
  if sid ≠ 0 then (.ok sid, s)
  else
    let (sid, s) := sidtabSearchContext s context
    if sid ≠ 0 then (.ok sid, s) else allocateSid s context alloc

def loadIsids (alloc : Nat → Bool) : Nat → List (U32 × Context) → Sidtab → Except Int Sidtab
  | _, [], s => .ok s
  | i, (sid, context) :: cs, s =>
      if context.user = 0 then .error (-einval)
      else
        match sidtabInsert s sid context (alloc i) with
        | .error rc => .error rc
        | .ok s => loadIsids alloc (i + 1) cs s

def policydbLoadIsids (isids : List (U32 × Context)) (alloc : Nat → Bool) : Except Int Sidtab :=
  loadIsids alloc 0 isids sidtabInit

theorem contextCmp_congr_right (c : Context) {x y : Context} (h : spelling x = spelling y) :
    contextCmp c x = contextCmp c y := by
  rw [Bool.eq_iff_iff, contextCmp_iff, contextCmp_iff, h]

def first (s : Sidtab) (x : Context) : Option Node := (nodes s).find? (fun n => contextCmp n.context x)

def found (s : Sidtab) (x : Context) : U32 := ((first s x).map Node.sid).getD 0

theorem first_congr (s : Sidtab) {x y : Context} (h : spelling x = spelling y) : first s x = first s y := by
  rw [first, first]
  congr 1
  funext n
  exact contextCmp_congr_right n.context h

theorem first_eq_some {s : Sidtab} {x : Context} {n : Node} (h : first s x = some n) :
    n ∈ nodes s ∧ spelling n.context = spelling x := by
  have hp := List.find?_some (p := fun n : Node => contextCmp n.context x) h
  exact ⟨List.mem_of_find?_eq_some h, contextCmp_iff.mp hp⟩

theorem first_eq_none {s : Sidtab} {x : Context} (h : first s x = none) :
    ∀ n ∈ nodes s, spelling n.context ≠ spelling x := by
  intro n hn hm
  exact List.find?_eq_none.mp h n hn (contextCmp_iff.mpr hm)

theorem first_self {s : Sidtab} {x : Context} {n : Node} (h : first s x = some n) :
    first s n.context = some n := by
  rw [first_congr s (first_eq_some h).2, h]

/-- Everything but the cache and the count of elements is the same. -/
structure SameNodes (s s' : Sidtab) : Prop where
  htable : s'.htable = s.htable
  nextSid : s'.nextSid = s.nextSid
  shutdown : s'.shutdown = s.shutdown

theorem SameNodes.refl (s : Sidtab) : SameNodes s s := ⟨rfl, rfl, rfl⟩

theorem SameNodes.trans {s s₁ s₂ : Sidtab} (h₁ : SameNodes s s₁) (h₂ : SameNodes s₁ s₂) : SameNodes s s₂ :=
  ⟨h₂.htable.trans h₁.htable, h₂.nextSid.trans h₁.nextSid, h₂.shutdown.trans h₁.shutdown⟩

theorem SameNodes.nodes {s s' : Sidtab} (h : SameNodes s s') : nodes s' = nodes s := by
  rw [SidTable.nodes, SidTable.nodes, h.htable]

theorem SameNodes.first {s s' : Sidtab} (h : SameNodes s s') (x : Context) : first s' x = first s x := by
  rw [SidTable.first, SidTable.first, h.nodes]

theorem SameNodes.found {s s' : Sidtab} (h : SameNodes s s') (x : Context) : found s' x = found s x := by
  rw [SidTable.found, SidTable.found, h.first]

def Cached (s : Sidtab) : Prop := ∀ i n, s.cache i = some n → first s n.context = some n

theorem updateCache_same (s : Sidtab) (n : Node) (loc : Fin 3) : SameNodes s (sidtabUpdateCache s n loc) :=
  ⟨rfl, rfl, rfl⟩

theorem updateCache_cached {s : Sidtab} (hc : Cached s) {n : Node} (hn : first s n.context = some n)
    (loc : Fin 3) : Cached (sidtabUpdateCache s n loc) := by
  intro i m hm
  rw [(updateCache_same s n loc).first]
  change (if i = 0 then some n else if i ≤ loc then s.cache (i - 1) else s.cache i) = some m at hm
  split at hm
  · exact Option.some.inj hm ▸ hn
  · split at hm
    · exact hc _ m hm
    · exact hc _ m hm

theorem searchContext_done {s : Sidtab} (hc : Cached s) (x : Context) :
    (sidtabSearchContext s x).1 = found s x ∧ SameNodes s (sidtabSearchContext s x).2 ∧
      Cached (sidtabSearchContext s x).2 := by
  cases hf : first s x with
  | none =>
      have hx : sidtabSearchContext s x = (0, s) := by
        rw [first] at hf
        rw [sidtabSearchContext, hf]
      rw [hx, found, hf]
      exact ⟨rfl, .refl s, hc⟩
  | some n =>
      have hx : sidtabSearchContext s x = (n.sid, sidtabUpdateCache s n 2) := by
        rw [first] at hf
        rw [sidtabSearchContext, hf]
      rw [hx, found, hf]
      exact ⟨rfl, updateCache_same s n 2, updateCache_cached hc (first_self hf) 2⟩

theorem searchCacheAt_done {s : Sidtab} (hc : Cached s) (x : Context) (is : List (Fin 3)) :
    ((searchCacheAt s x is).1 = 0 ∨ (searchCacheAt s x is).1 = found s x) ∧
      SameNodes s (searchCacheAt s x is).2 ∧ Cached (searchCacheAt s x is).2 := by
  induction is with
  | nil => exact ⟨.inl rfl, .refl s, hc⟩
  | cons i is ih =>
      cases hn : s.cache i with
      | none =>
          rw [searchCacheAt, hn]
          exact ⟨.inl rfl, .refl s, hc⟩
      | some n =>
          rw [searchCacheAt, hn]
          dsimp only
          by_cases hx : contextCmp n.context x = true
          · have hf : first s x = some n := by
              rw [← first_congr s (contextCmp_iff.mp hx)]
              exact hc i n hn
            rw [if_pos hx, found, hf]
            exact ⟨.inr rfl, updateCache_same s n i, updateCache_cached hc (hc i n hn) i⟩
          · rw [if_neg hx]
            exact ih

inductive Outcome (s : Sidtab) (x : Context) (alloc : Bool) : Except Int U32 × Sidtab → Prop
  | hit (s' : Sidtab) : SameNodes s s' → Cached s' → found s x ≠ 0 → Outcome s x alloc (.ok (found s x), s')
  | refused (rc : Int) (s' : Sidtab) : SameNodes s s' → Cached s' → found s x = 0 →
      (s.nextSid = uintMax ∨ s.shutdown = true ∨ Chains.has s.htable s.nextSid.toNat = true ∨ alloc = false) →
      Outcome s x alloc (.error rc, s')
  | fresh (s' : Sidtab) (h : Chains.has s.htable s.nextSid.toNat = false) :
      s'.htable = Chains.insert s.htable ⟨s.nextSid, x⟩ h → s'.nextSid = s.nextSid + 1 →
      s'.shutdown = s.shutdown → (∀ i n, s'.cache i = some n → first s n.context = some n) →
      s.nextSid ≠ uintMax → found s x = 0 → Outcome s x alloc (.ok s.nextSid, s')

theorem not_succ_le {x : U32} (h : x ≠ uintMax) : ¬x + 1 ≤ x := by
  rw [uintMax] at h
  bv_omega

theorem allocateSid_outcome {s : Sidtab} (hc : Cached s) (x : Context) (alloc : Bool) (hf : found s x = 0) :
    Outcome s x alloc (allocateSid s x alloc) := by
  obtain ⟨hsid, hsame, hcached⟩ := searchContext_done hc x
  rw [hf] at hsid
  cases hs : sidtabSearchContext s x with
  | mk sid s₁ =>
      rw [hs] at hsid hsame hcached
      obtain ⟨htable, nel, nextSid, shutdown, cache⟩ := s₁
      -- after the rescan only the cache and the element count can differ from s
      obtain rfl : sid = 0 := hsid
      obtain rfl : htable = s.htable := hsame.htable
      obtain rfl : nextSid = s.nextSid := hsame.nextSid
      obtain rfl : shutdown = s.shutdown := hsame.shutdown
      rw [allocateSid, hs]
      dsimp only
      rw [if_neg (fun h => h rfl)]
      by_cases hfull : s.nextSid = uintMax ∨ s.shutdown = true
      · rw [if_pos hfull]
        exact .refused _ _ hsame hcached hf (by tauto)
      · rw [if_neg hfull]
        rw [not_or] at hfull
        have hback : s.nextSid + 1 - 1 = s.nextSid := BitVec.add_sub_cancel _ _
        by_cases hhas : Chains.has s.htable s.nextSid.toNat = false
        · by_cases halloc : alloc = false
          · rw [sidtabInsert, dif_pos hhas, if_pos halloc]
            dsimp only
            rw [hback]
            exact .refused _ _ hsame hcached hf (by tauto)
          · rw [sidtabInsert, dif_pos hhas, if_neg halloc]
            dsimp only
            rw [if_neg (not_succ_le hfull.1)]
            refine .fresh _ hhas rfl rfl rfl ?_ hfull.1 hf
            intro i n hn
            rw [← hsame.first]
            exact hcached i n hn
        · rw [sidtabInsert, dif_neg hhas]
          dsimp only
          rw [hback]
          exact .refused _ _ hsame hcached hf (by simp at hhas; tauto)

theorem Outcome.of_same {s s₁ : Sidtab} {x : Context} {alloc : Bool} {res : Except Int U32 × Sidtab}
    (hsame : SameNodes s s₁) (h : Outcome s₁ x alloc res) : Outcome s x alloc res := by
  obtain ⟨htable, nel, nextSid, shutdown, cache⟩ := s₁
  obtain rfl : htable = s.htable := hsame.htable
  obtain rfl : nextSid = s.nextSid := hsame.nextSid
  obtain rfl : shutdown = s.shutdown := hsame.shutdown
  cases h with
  | hit s' hs hc hf => exact hsame.found x ▸ .hit s' (hsame.trans hs) hc (hsame.found x ▸ hf)
  | refused rc s' hs hc hf hwhy => exact .refused rc s' (hsame.trans hs) hc (hsame.found x ▸ hf) hwhy
  | fresh s' hhas hins hnext hdown hc hmax hf =>
      refine .fresh s' hhas hins hnext hdown ?_ hmax (hsame.found x ▸ hf)
      intro i n hn
      rw [← hsame.first]
      exact hc i n hn

theorem sidtabContextToSid_outcome {s : Sidtab} (hc : Cached s) (x : Context) (alloc : Bool) :
    Outcome s x alloc (sidtabContextToSid s x alloc) := by
  obtain ⟨hsid, hsame, hcached⟩ := searchCacheAt_done hc x [0, 1, 2]
  cases hs : sidtabSearchCache s x with
  | mk sid s₁ =>
      rw [sidtabSearchCache] at hs
      rw [hs] at hsid hsame hcached
      dsimp only at hsid hsame hcached
      rw [sidtabContextToSid, sidtabSearchCache, hs]
      dsimp only
      by_cases hz : sid ≠ 0
      · rw [if_pos hz]
        obtain rfl := hsid.resolve_left hz
        exact .hit s₁ hsame hcached hz
      · rw [if_neg hz]
        obtain ⟨hsid₂, hsame₂, hcached₂⟩ := searchContext_done hcached x
        cases hs₂ : sidtabSearchContext s₁ x with
        | mk sid₂ s₂ =>
            rw [hs₂] at hsid₂ hsame₂ hcached₂
            dsimp only at hsid₂ hsame₂ hcached₂
            dsimp only
            have hall := hsame.trans hsame₂
            by_cases hz₂ : sid₂ ≠ 0
            · rw [if_pos hz₂]
              rw [hsame.found] at hsid₂
              subst hsid₂
              exact .hit s₂ hall hcached₂ hz₂
            · rw [if_neg hz₂]
              apply Outcome.of_same hall
              apply allocateSid_outcome hcached₂
              rw [hsame₂.found, ← hsid₂]
              exact not_not.mp hz₂

end PigaLinux.SidTable
