import PigaLinux.Ppp

namespace PigaLinux.PppActions

open Kernel Trace PppSyntax Ppp
open Piga (Sequence Link)

variable (env : Env)

def mask (c : U16) (ws : List String) : U32 := ws.foldl (fun m w => m ||| env.stringToAvPerm c w) 0

/-- The request list that the two actions leave for a permission list. -/
def pushed (r : Request) : List String := List.replicate r.words.length r.first

theorem parseRequest_eq (r : Request) (k : Loader) :
    parseRequest r k = (r.first, { k with requestList := k.requestList ++ pushed r }) := by
  induction r with
  | word w => rfl
  | snoc r w ih =>
      have hp : pushed (.snoc r w) = pushed r ++ [r.first] := by
        simp [pushed, Request.words, Request.first, List.replicate_succ']
      rw [parseRequest, ih, hp]
      simp only [pushRequest, List.append_assoc]
      rfl

structure Requested (c : U16) (ws : List String) (k k' : Loader) : Prop where
  s : k'.s = k.s
  l : k'.l = Function.update k.l k.currLink
    { k.l k.currLink with
      requested := ws.foldl (fun m w => m ||| env.stringToAvPerm c w) (k.l k.currLink).requested }
  currSeq : k'.currSeq = k.currSeq
  currLink : k'.currLink = k.currLink
  sidMap : k'.sidMap = k.sidMap
  statRequestedMap : ∀ n, k'.statRequestedMap n = k.statRequestedMap n + BitVec.ofNat 32 (ws.count n)

theorem addRequest_requested (tclass it : String) (hit : it ≠ "") (k : Loader) :
    Requested env (k.l k.currLink).tclass [it] k (addRequest env tclass it k).value := by
  constructor <;> simp only [addRequest, statPerm, modifyLink, value_bind, value_visit, value_pure, if_neg hit]
  · rfl
  · intro n
    by_cases h : n = it
    · subst h
      simp
    · rw [Function.update_of_ne h, List.count_singleton, if_neg (by simpa using Ne.symm h)]
      simp

theorem Requested.trans {c : U16} {ws vs : List String} {k k₁ k₂ : Loader}
    (h₁ : Requested env c ws k k₁) (h₂ : Requested env c vs k₁ k₂) : Requested env c (ws ++ vs) k k₂ where
  s := h₂.s.trans h₁.s
  l := by
    rw [h₂.l, h₁.currLink, h₁.l]
    simp
  currSeq := h₂.currSeq.trans h₁.currSeq
  currLink := h₂.currLink.trans h₁.currLink
  sidMap := h₂.sidMap.trans h₁.sidMap
  statRequestedMap n := by
    rw [h₂.statRequestedMap, h₁.statRequestedMap, List.count_append, BitVec.ofNat_add, BitVec.add_assoc]

theorem Requested.nil (c : U16) (k : Loader) : Requested env c [] k k := by
  constructor <;> simp

theorem foldl_requested (tclass : String) (ws : List String) (hws : ∀ w ∈ ws, w ≠ "") (k : Loader) :
    Requested env (k.l k.currLink).tclass ws k
      (ws.foldl (fun k w => (addRequest env tclass w k).value) k) := by
  induction ws generalizing k with
  | nil => exact .nil env _ k
  | cons w ws ih =>
      have h₁ := addRequest_requested env tclass w (hws w List.mem_cons_self) k
      have h₂ := ih (fun v hv => hws v (List.mem_cons_of_mem _ hv)) (addRequest env tclass w k).value
      have hc : ((addRequest env tclass w k).value.l (addRequest env tclass w k).value.currLink).tclass =
          (k.l k.currLink).tclass := by
        rw [h₁.currLink, h₁.l, Function.update_self]
      rw [hc] at h₂
      exact h₁.trans env h₂

structure VectorDone (v : AvVector) (k k' : Loader) : Prop where
  s : k'.s = k.s
  l : k'.l = Function.update k.l k.currLink
    { k.l k.currLink with
      tclass := env.stringToSecurityClass v.tclass.text
      requested := mask env (env.stringToSecurityClass v.tclass.text) (pushed v.request) }
  currSeq : k'.currSeq = k.currSeq
  currLink : k'.currLink = k.currLink
  sidMap : k'.sidMap = k.sidMap
  requestList : k'.requestList = []
  statRequestedMap : ∀ n,
    k'.statRequestedMap n = k.statRequestedMap n + BitVec.ofNat 32 ((pushed v.request).count n)

theorem pushed_ne_empty (r : Request) : ∀ w ∈ pushed r, w ≠ "" := by
  intro w hw
  rw [List.eq_of_mem_replicate hw]
  exact r.ne_empty r.first_mem

theorem parseVector_done (v : AvVector) (k : Loader) (hk : k.requestList = []) :
    VectorDone env v k (parseVector env v k).value := by
  have h := foldl_requested env v.tclass.text (pushed v.request) (pushed_ne_empty v.request)
    { k with
      requestList := pushed v.request
      l := Function.update k.l k.currLink
        { k.l k.currLink with tclass := env.stringToSecurityClass v.tclass.text, requested := 0 }
      tclassMap := Function.update k.tclassMap v.tclass.text
        (some ((env.stringToSecurityClass v.tclass.text).setWidth 32)) }
  simp only [Function.update_self] at h
  constructor <;>
    simp only [parseVector, vectorAction, parseRequest_eq, hk, List.nil_append, value_bind, value_pure, value_visit,
      modifyLink, value_foldlM, Function.update_self, Function.update_idem, statPerm, if_true]
  · exact h.s
  · rw [h.l]
    simp only [Function.update_self, Function.update_idem]
    rfl
  · exact h.currSeq
  · exact h.currLink
  · exact h.sidMap
  · exact h.statRequestedMap

structure LookupFrame (k k' : Loader) : Prop where
  s : k'.s = k.s
  l : k'.l = k.l
  currSeq : k'.currSeq = k.currSeq
  currLink : k'.currLink = k.currLink
  requestList : k'.requestList = k.requestList
  statRequestedMap : k'.statRequestedMap = k.statRequestedMap

theorem rejectZero_frame (res : U32) (k : Loader) : LookupFrame k (rejectZero res k) := by
  rw [rejectZero]
  split <;> exact ⟨rfl, rfl, rfl, rfl, rfl, rfl⟩

theorem stringToSid_frame (sid : String) (k : Loader) : LookupFrame k (stringToSid env sid k).2 := by
  rw [stringToSid]
  split
  · obtain ⟨hs, hl, hcs, hcl, hr, hm⟩ := rejectZero_frame _ _
    exact ⟨hs, hl, hcs, hcl, hr, hm⟩
  · split
    · obtain ⟨hs, hl, hcs, hcl, hr, hm⟩ := rejectZero_frame _ _
      exact ⟨hs, hl, hcs, hcl, hr, hm⟩
    · exact ⟨rfl, rfl, rfl, rfl, rfl, rfl⟩

def sidOf : Getsid → U32
  | .answer line => (strtoul line).setWidth 32
  | _ => -1

def Cached (answer : String → Getsid) (k : Loader) : Prop :=
  ∀ c r, k.sidMap c = some r → r = sidOf (answer c)

theorem rejectZero_sidMap (res : U32) (k : Loader) : (rejectZero res k).sidMap = k.sidMap := by
  rw [rejectZero]
  split <;> rfl

variable {env}

theorem stringToSid_cached {answer : String → Getsid} (ha : ∀ n c, env.getsid n c = answer c)
    {k : Loader} (hk : Cached answer k) (sid : String) :
    (stringToSid env sid k).1 = sidOf (answer sid) ∧ Cached answer (stringToSid env sid k).2 := by
  rw [stringToSid]
  cases hm : k.sidMap sid with
  | some res =>
      refine ⟨hk sid res hm, ?_⟩
      intro c r hr
      rw [rejectZero_sidMap] at hr
      exact hk c r hr
  | none =>
      rw [ha]
      cases hg : answer sid with
      | answer line =>
          refine ⟨rfl, ?_⟩
          intro c r hr
          rw [rejectZero_sidMap] at hr
          change Function.update k.sidMap sid _ c = some r at hr
          by_cases hc : c = sid
          · subst hc
            rw [Function.update_self] at hr
            rw [hg, ← Option.some.inj hr]
            rfl
          · rw [Function.update_of_ne hc] at hr
            exact hk c r hr
      | cannotWrite => exact ⟨rfl, hk⟩
      | cannotRead => exact ⟨rfl, hk⟩

def lookupSource (env : Env) (t : Transition) (k : Loader) : U32 × Loader :=
  stringToSid env t.source.text (parseVector env t.vector k).value

def lookupTarget (env : Env) (t : Transition) (k : Loader) : U32 × Loader :=
  stringToSid env t.target.text
    (modifyLink (fun x => { x with cs := (lookupSource env t k).1 }) (lookupSource env t k).2).value

structure TransitionDone (env : Env) (t : Transition) (k k' : Loader) : Prop where
  s : k'.s = Function.update k.s k.currSeq { k.s k.currSeq with length := (k.s k.currSeq).length + 1 }
  l : k'.l = Function.update k.l k.currLink
    ⟨(lookupSource env t k).1, (lookupTarget env t k).1, env.stringToSecurityClass t.vector.tclass.text,
      mask env (env.stringToSecurityClass t.vector.tclass.text) (pushed t.vector.request)⟩
  currSeq : k'.currSeq = k.currSeq
  currLink : k'.currLink = k.currLink + 1
  requestList : k'.requestList = []
  sidMap : k'.sidMap = (lookupTarget env t k).2.sidMap
  statRequestedMap : ∀ n,
    k'.statRequestedMap n = k.statRequestedMap n + BitVec.ofNat 32 ((pushed t.vector.request).count n)

theorem parseTransition_done (t : Transition) (k : Loader) (hk : k.requestList = []) :
    TransitionDone env t k (parseTransition env t k).value := by
  have hv := parseVector_done env t.vector k hk
  have h₁ : LookupFrame _ (lookupSource env t k).2 := stringToSid_frame env _ _
  have h₂ : LookupFrame _ (lookupTarget env t k).2 := stringToSid_frame env _ _
  have hcl : (lookupTarget env t k).2.currLink = k.currLink :=
    h₂.currLink.trans (h₁.currLink.trans hv.currLink)
  have hcs : (lookupTarget env t k).2.currSeq = k.currSeq := h₂.currSeq.trans (h₁.currSeq.trans hv.currSeq)
  have hs : (lookupTarget env t k).2.s = k.s := h₂.s.trans (h₁.s.trans hv.s)
  have hl : (lookupTarget env t k).2.l = Function.update k.l k.currLink
      ⟨(lookupSource env t k).1, (k.l k.currLink).cc, env.stringToSecurityClass t.vector.tclass.text,
        mask env (env.stringToSecurityClass t.vector.tclass.text) (pushed t.vector.request)⟩ := by
    refine h₂.l.trans ?_
    simp only [modifyLink, value_visit, h₁.l, h₁.currLink, hv.l, hv.currLink, Function.update_self,
      Function.update_idem]
  change TransitionDone env t k (pigaSeqAddLink
    (modifyLink (fun x => { x with cc := (lookupTarget env t k).1 }) (lookupTarget env t k).2).value).value
  constructor <;>
    simp only [pigaSeqAddLink, modifyLink, modifySeq, value_bind, value_visit, value_pure, hcl, hcs, hs, hl,
      Function.update_self, Function.update_idem]
  · exact h₂.requestList.trans (h₁.requestList.trans hv.requestList)
  · intro n
    exact (congrFun (h₂.statRequestedMap.trans h₁.statRequestedMap) n).trans (hv.statRequestedMap n)

theorem lookups_cached {answer : String → Getsid} (ha : ∀ n c, env.getsid n c = answer c)
    (t : Transition) {k : Loader} (hk : k.requestList = []) (hc : Cached answer k) :
    (lookupSource env t k).1 = sidOf (answer t.source.text) ∧
      (lookupTarget env t k).1 = sidOf (answer t.target.text) ∧ Cached answer (lookupTarget env t k).2 := by
  have hv : Cached answer (parseVector env t.vector k).value := by
    intro c r hr
    rw [(parseVector_done env t.vector k hk).sidMap] at hr
    exact hc c r hr
  obtain ⟨h₁, hc₁⟩ := stringToSid_cached ha hv t.source.text
  have hm : Cached answer (modifyLink (fun x => { x with cs := (lookupSource env t k).1 })
      (lookupSource env t k).2).value := hc₁
  exact ⟨h₁, stringToSid_cached ha hm t.target.text⟩

end PigaLinux.PppActions
