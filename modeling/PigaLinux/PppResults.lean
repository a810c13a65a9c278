import PigaLinux.Bits
import PigaLinux.PppCompile
import Mathlib.Data.List.Forall2

namespace PigaLinux.PppResults

open Kernel Trace Bits Indices PppSyntax Ppp PppActions PppCompile
open Piga (Sequence Link)

def resolution (env : Env) (c : String) (k : Loader) : Option U32 :=
  match k.sidMap c with
  | some res => some res
  | none =>
      match env.getsid k.queries c with
      | .answer line => some ((strtoul line).setWidth 32)
      | _ => none

def resolves : Option U32 → Bool
  | some r => r != 0
  | none => false

structure Step where
  source : Option U32
  target : Option U32
  link : Link
deriving DecidableEq

def Step.resolved (x : Step) : Bool := resolves x.source && resolves x.target

structure Result where
  loaded : Bool
  steps : List Step
deriving DecidableEq

def Result.resolved (r : Result) : Bool := r.steps.all Step.resolved

def Result.links (r : Result) : List Link := r.steps.map Step.link

variable (env : Env)

def stepOf (t : Transition) (k : Loader) : Step where
  source := resolution env t.source.text (parseVector env t.vector k).value
  target := resolution env t.target.text (lookupSource env t k).2
  link := (parseTransition env t k).value.l k.currLink

def parseTransitions (ts : List Transition) (k : Loader) : Loader :=
  ts.foldl (fun k t => (parseTransition env t k).value) k

def steps : List Transition → Loader → List Step
  | [], _ => []
  | t :: ts, k => stepOf env t k :: steps ts (parseTransition env t k).value

def parseLines (ns : List Line) (k : Loader) : Loader := ns.foldl (fun k n => (parseLine env n k).value) k

def lineResult (n : Line) (k : Loader) : Result where
  loaded :=
    (countLine (parseTransitions env n.transitions k)).loaded == (parseTransitions env n.transitions k).loaded + 1
  steps := steps env n.transitions k

def lineResults : List Line → Loader → List Result
  | [], _ => []
  | n :: ns, k => lineResult env n k :: lineResults ns (parseLine env n k).value

theorem parseSignature_value (g : Signature) (k : Loader) :
    (parseSignature env g k).value = parseTransitions env g.transitions k := by
  induction g with
  | transition t => rfl
  | snoc g t ih =>
      rw [Signature.transitions, parseTransitions, List.foldl_append]
      change (parseTransition env t (parseSignature env g k).value).value = _
      rw [ih]
      rfl

theorem parseLine_value (n : Line) (k : Loader) :
    (parseLine env n k).value = (lineAction (parseTransitions env n.transitions k)).value := by
  rw [parseLine, value_bind, parseSignature_value]
  rfl

theorem parseFile_value (f : File) (k : Loader) : (parseFile env f k).value = parseLines env f.lines k := by
  induction f with
  | line n => rfl
  | snoc f n ih =>
      rw [File.lines, parseLines, List.foldl_append]
      change (parseLine env n (parseFile env f k).value).value = _
      rw [ih]
      rfl

structure LookupKept (k k' : Loader) : Prop where
  sidMap : k'.sidMap = k.sidMap
  queries : k'.queries = k.queries
  invalidContext : k'.invalidContext = k.invalidContext
  loaded : k'.loaded = k.loaded
  ignored : k'.ignored = k.ignored

theorem LookupKept.trans {k k₁ k₂ : Loader} (h₁ : LookupKept k k₁) (h₂ : LookupKept k₁ k₂) : LookupKept k k₂ where
  sidMap := h₂.sidMap.trans h₁.sidMap
  queries := h₂.queries.trans h₁.queries
  invalidContext := h₂.invalidContext.trans h₁.invalidContext
  loaded := h₂.loaded.trans h₁.loaded
  ignored := h₂.ignored.trans h₁.ignored

theorem statPerm_kept (tclass requested : String) (k : Loader) : LookupKept k (statPerm tclass requested k) := by
  rw [statPerm]
  split <;> exact ⟨rfl, rfl, rfl, rfl, rfl⟩

theorem addRequest_kept (tclass it : String) (k : Loader) : LookupKept k (addRequest env tclass it k).value := by
  obtain ⟨hm, hq, hi, hl, hg⟩ := statPerm_kept tclass it
    (modifyLink (fun x => { x with
      requested := x.requested ||| env.stringToAvPerm (k.l k.currLink).tclass it }) k).value
  exact ⟨hm, hq, hi, hl, hg⟩

theorem foldl_addRequest_kept (tclass : String) (ws : List String) (k : Loader) :
    LookupKept k (ws.foldl (fun k w => (addRequest env tclass w k).value) k) := by
  induction ws generalizing k with
  | nil => exact ⟨rfl, rfl, rfl, rfl, rfl⟩
  | cons w ws ih => exact (addRequest_kept env tclass w k).trans (ih _)

theorem parseVector_kept (v : AvVector) (k : Loader) : LookupKept k (parseVector env v k).value := by
  constructor <;>
    simp only [parseVector, vectorAction, parseRequest_eq, value_bind, value_pure, value_visit, modifyLink, value_foldlM]
  · exact (statPerm_kept _ _ _).sidMap.trans (foldl_addRequest_kept env _ _ _).sidMap
  · exact (statPerm_kept _ _ _).queries.trans (foldl_addRequest_kept env _ _ _).queries
  · exact (statPerm_kept _ _ _).invalidContext.trans (foldl_addRequest_kept env _ _ _).invalidContext
  · exact (statPerm_kept _ _ _).loaded.trans (foldl_addRequest_kept env _ _ _).loaded
  · exact (statPerm_kept _ _ _).ignored.trans (foldl_addRequest_kept env _ _ _).ignored

/-- A lookup returns its resolution, and raises the flag unless that is a SID. -/
structure LookupDone (c : String) (k : Loader) (res : U32 × Loader) : Prop where
  sid : res.1 = (resolution env c k).getD (-1)
  invalidContext : res.2.invalidContext = (k.invalidContext || !resolves (resolution env c k))
  loaded : res.2.loaded = k.loaded
  ignored : res.2.ignored = k.ignored

theorem rejectZero_done (r : U32) (k : Loader) :
    (rejectZero r k).invalidContext = (k.invalidContext || !resolves (some r)) ∧
      (rejectZero r k).loaded = k.loaded ∧ (rejectZero r k).ignored = k.ignored := by
  by_cases hr : r = 0
  · simp [rejectZero, resolves, hr]
  · have hb : (r != 0) = true := bne_iff_ne.mpr hr
    rw [rejectZero, if_neg hr, resolves, hb]
    exact ⟨(Bool.or_false _).symm, rfl, rfl⟩

theorem stringToSid_done (c : String) (k : Loader) : LookupDone env c k (stringToSid env c k) := by
  cases hm : k.sidMap c with
  | some res =>
      obtain ⟨h₁, h₂, h₃⟩ := rejectZero_done res
        { k with statSidMap := Function.update k.statSidMap c (k.statSidMap c + 1) }
      constructor <;> simp only [stringToSid, resolution, hm]
      · rfl
      · exact h₁
      · exact h₂
      · exact h₃
  | none =>
      cases hg : env.getsid k.queries c with
      | answer line =>
          obtain ⟨h₁, h₂, h₃⟩ := rejectZero_done ((strtoul line).setWidth 32)
            { k with
              sidMap := Function.update k.sidMap c (some ((strtoul line).setWidth 32))
              statSidMap := Function.update k.statSidMap c 1
              queries := k.queries + 1 }
          constructor <;> simp only [stringToSid, resolution, hm, hg]
          · rfl
          · exact h₁
          · exact h₂
          · exact h₃
      | cannotWrite => constructor <;> simp [stringToSid, resolution, hm, hg, resolves]
      | cannotRead => constructor <;> simp [stringToSid, resolution, hm, hg, resolves]

theorem parseTransition_flag (t : Transition) (k : Loader) :
    (parseTransition env t k).value.invalidContext = (k.invalidContext || !(stepOf env t k).resolved) ∧
      (parseTransition env t k).value.loaded = k.loaded ∧ (parseTransition env t k).value.ignored = k.ignored := by
  have hv := parseVector_kept env t.vector k
  have h₁ : LookupDone env t.source.text _ (lookupSource env t k) := stringToSid_done env _ _
  have h₂ : LookupDone env t.target.text _ (lookupTarget env t k) := stringToSid_done env _ _
  have hflag : (lookupTarget env t k).2.invalidContext = (k.invalidContext || !(stepOf env t k).resolved) := by
    refine h₂.invalidContext.trans ?_
    change ((lookupSource env t k).2.invalidContext || !resolves (stepOf env t k).target) = _
    rw [h₁.invalidContext, hv.invalidContext, Step.resolved, Bool.not_and, Bool.or_assoc]
    rfl
  exact ⟨hflag, h₂.loaded.trans (h₁.loaded.trans hv.loaded), h₂.ignored.trans (h₁.ignored.trans hv.ignored)⟩

def Compiles (t : Transition) (x : Step) : Prop :=
  x.link = ⟨x.source.getD (-1), x.target.getD (-1), env.stringToSecurityClass t.vector.tclass.text,
    mask env (env.stringToSecurityClass t.vector.tclass.text) (pushed t.vector.request)⟩

theorem stepOf_compiles (t : Transition) (k : Loader) (hk : k.requestList = []) :
    Compiles env t (stepOf env t k) := by
  have h : TransitionDone env t k _ := parseTransition_done t k hk
  have h₁ : LookupDone env t.source.text _ (lookupSource env t k) := stringToSid_done env _ _
  have h₂ : LookupDone env t.target.text _ (lookupTarget env t k) := stringToSid_done env _ _
  have hs : (lookupSource env t k).1 = (stepOf env t k).source.getD (-1) := h₁.sid
  have ht : (lookupTarget env t k).1 = (stepOf env t k).target.getD (-1) := h₂.sid
  rw [Compiles, ← hs, ← ht, stepOf]
  dsimp only
  rw [h.l, Function.update_self]

theorem parseTransitions_flag (ts : List Transition) (k : Loader) :
    (parseTransitions env ts k).invalidContext = (k.invalidContext || !(steps env ts k).all Step.resolved) ∧
      (parseTransitions env ts k).loaded = k.loaded ∧ (parseTransitions env ts k).ignored = k.ignored := by
  induction ts generalizing k with
  | nil => exact ⟨(Bool.or_false _).symm, rfl, rfl⟩
  | cons t ts ih =>
      obtain ⟨hi, hl, hg⟩ := ih (parseTransition env t k).value
      obtain ⟨hi₁, hl₁, hg₁⟩ := parseTransition_flag env t k
      refine ⟨hi.trans ?_, hl.trans hl₁, hg.trans hg₁⟩
      rw [hi₁, steps, List.all_cons, Bool.not_and, Bool.or_assoc]

theorem parseTransitions_requestList (ts : List Transition) (k : Loader) (hk : k.requestList = []) :
    (parseTransitions env ts k).requestList = [] := by
  induction ts generalizing k with
  | nil => exact hk
  | cons t ts ih =>
      have h : TransitionDone env t k _ := parseTransition_done t k hk
      exact ih _ h.requestList

theorem steps_compile (ts : List Transition) (k : Loader) (hk : k.requestList = []) :
    List.Forall₂ (Compiles env) ts (steps env ts k) := by
  induction ts generalizing k with
  | nil => exact .nil
  | cons t ts ih =>
      have h : TransitionDone env t k _ := parseTransition_done t k hk
      exact .cons (stepOf_compiles env t k hk) (ih _ h.requestList)

/-- What the state at the start of a line has to be for the line to be
resolved and counted on its own. -/
structure Ready (k : Loader) : Prop where
  requestList : k.requestList = []
  invalidContext : k.invalidContext = false

theorem lineResult_loaded (n : Line) {k : Loader} (hk : Ready k) :
    (lineResult env n k).loaded = (lineResult env n k).resolved := by
  obtain ⟨hi, -, -⟩ := parseTransitions_flag env n.transitions k
  rw [hk.invalidContext, Bool.false_or] at hi
  have hne : (parseTransitions env n.transitions k).loaded ≠ (parseTransitions env n.transitions k).loaded + 1 := by
    bv_omega
  rw [Result.resolved]
  change ((countLine (parseTransitions env n.transitions k)).loaded ==
    (parseTransitions env n.transitions k).loaded + 1) = (steps env n.transitions k).all Step.resolved
  rw [countLine, hi]
  cases (steps env n.transitions k).all Step.resolved with
  | true => exact beq_self_eq_true _
  | false => exact beq_eq_false_iff_ne.mpr hne

theorem parseLine_counted (n : Line) {k : Loader} (hk : Ready k) :
    Ready (parseLine env n k).value ∧
      (parseLine env n k).value.loaded = (if (lineResult env n k).loaded then k.loaded + 1 else k.loaded) ∧
      (parseLine env n k).value.ignored = (if (lineResult env n k).loaded then k.ignored else k.ignored + 1) := by
  obtain ⟨hi, hl, hg⟩ := parseTransitions_flag env n.transitions k
  have hr := parseTransitions_requestList env n.transitions k hk.requestList
  have hd := lineAction_done (parseTransitions env n.transitions k)
  rw [hk.invalidContext, Bool.false_or] at hi
  have hloaded : (lineResult env n k).loaded = (steps env n.transitions k).all Step.resolved :=
    lineResult_loaded env n hk
  rw [parseLine_value, hloaded]
  cases ha : (steps env n.transitions k).all Step.resolved with
  | true =>
      rw [ha] at hi
      refine ⟨⟨hd.requestList.trans hr, ?_⟩, ?_, ?_⟩ <;>
        simp [lineAction, modifySeq, countLine, hi, hl, hg]
  | false =>
      rw [ha] at hi
      refine ⟨⟨hd.requestList.trans hr, ?_⟩, ?_, ?_⟩ <;>
        simp [lineAction, modifySeq, countLine, hi, hl, hg]

structure LineDoneWell (n : Line) (r : Result) : Prop where
  loaded : r.loaded = r.resolved
  steps : List.Forall₂ (Compiles env) n.transitions r.steps

theorem lineResults_done (ns : List Line) {k : Loader} (hk : Ready k) :
    List.Forall₂ (LineDoneWell env) ns (lineResults env ns k) := by
  induction ns generalizing k with
  | nil => exact .nil
  | cons n ns ih =>
      have hn : LineDoneWell env n (lineResult env n k) :=
        ⟨lineResult_loaded env n hk, steps_compile env n.transitions k hk.requestList⟩
      exact .cons hn (ih (parseLine_counted env n hk).1)

theorem parseLines_counted (ns : List Line) {k : Loader} (hk : Ready k) :
    (parseLines env ns k).loaded =
        k.loaded + BitVec.ofNat 32 ((lineResults env ns k).countP fun r => r.loaded) ∧
      (parseLines env ns k).ignored =
        k.ignored + BitVec.ofNat 32 ((lineResults env ns k).countP fun r => !r.loaded) := by
  induction ns generalizing k with
  | nil => exact ⟨(BitVec.add_zero _).symm, (BitVec.add_zero _).symm⟩
  | cons n ns ih =>
      obtain ⟨hr, hl, hg⟩ := parseLine_counted env n hk
      obtain ⟨ihl, ihg⟩ := ih hr
      change (parseLines env ns (parseLine env n k).value).loaded = _ ∧
        (parseLines env ns (parseLine env n k).value).ignored = _
      rw [ihl, ihg, hl, hg, lineResults, List.countP_cons, List.countP_cons]
      cases (lineResult env n k).loaded with
      | true => exact ⟨add_one_ofNat _ _, rfl⟩
      | false => exact ⟨rfl, add_one_ofNat _ _⟩

theorem ready_start (s : U32 → Sequence) (l : U32 → Link) : Ready (start s l) := ⟨rfl, rfl⟩

section answers

/-- The exchanges with getsid: the answers that are remembered, and how many there have been. -/
structure Asked where
  sids : String → Option U32
  count : Nat

def Asked.lookup (q : Asked) (c : String) : Option U32 × Asked :=
  match q.sids c with
  | some res => (some res, q)
  | none =>
      match env.getsid q.count c with
      | .answer line =>
          (some ((strtoul line).setWidth 32), ⟨Function.update q.sids c (some ((strtoul line).setWidth 32)), q.count + 1⟩)
      | _ => (none, ⟨q.sids, q.count + 1⟩)

def answers : List String → Asked → List (Option U32)
  | [], _ => []
  | c :: cs, q => (q.lookup env c).1 :: answers cs (q.lookup env c).2

end answers

section enforceable

def Named (n : Line) : Prop :=
  ∀ t ∈ n.transitions, env.stringToSecurityClass t.vector.tclass.text ≠ 0 ∧
    ∀ w ∈ t.vector.request.words, env.stringToAvPerm (env.stringToSecurityClass t.vector.tclass.text) w ≠ 0

variable {env}

theorem exists_of_mem_left {α β : Type} {R : α → β → Prop} {xs : List α} {ys : List β}
    (h : List.Forall₂ R xs ys) {x : α} (hx : x ∈ xs) : ∃ y ∈ ys, R x y := by
  induction h with
  | nil => exact absurd hx List.not_mem_nil
  | cons hab _ ih =>
      rcases List.mem_cons.mp hx with rfl | hx
      · exact ⟨_, List.mem_cons_self, hab⟩
      · obtain ⟨y, hy, hr⟩ := ih hx
        exact ⟨y, List.mem_cons_of_mem _ hy, hr⟩

theorem forall₂_getElem? {α β : Type} {R : α → β → Prop} {xs : List α} {ys : List β} (h : List.Forall₂ R xs ys)
    {i : Nat} {x : α} {y : β} (hx : xs[i]? = some x) (hy : ys[i]? = some y) : R x y := by
  obtain ⟨hi, rfl⟩ := List.getElem?_eq_some_iff.mp hx
  obtain ⟨hj, rfl⟩ := List.getElem?_eq_some_iff.mp hy
  exact h.get hi hj

end enforceable

end PigaLinux.PppResults
