import PigaLinux.PppResults
import Mathlib.Algebra.Ring.Nat

namespace PigaLinux.PppMemory

open Kernel Trace Indices PppSyntax Ppp PppActions PppCompile PppResults
open Piga (Sequence Link)

variable (env : Env)

structure TransitionsDone (ts : List Transition) (k k' : Loader) : Prop where
  s : k'.s = Function.update k.s k.currSeq
    { k.s k.currSeq with length := (k.s k.currSeq).length + BitVec.ofNat 32 ts.length }
  currSeq : k'.currSeq = k.currSeq
  currLink : k'.currLink = k.currLink + BitVec.ofNat 32 ts.length
  requestList : k'.requestList = []

theorem parseTransitions_done (ts : List Transition) (k : Loader) (hk : k.requestList = []) :
    TransitionsDone ts k (parseTransitions env ts k) := by
  induction ts generalizing k with
  | nil => exact ⟨by simp [parseTransitions], rfl, (BitVec.add_zero _).symm, hk⟩
  | cons t ts ih =>
      have h : TransitionDone env t k _ := parseTransition_done t k hk
      obtain ⟨hs, hcs, hcl, hr⟩ := ih _ h.requestList
      refine ⟨hs.trans ?_, hcs.trans h.currSeq, hcl.trans ?_, hr⟩
      · rw [h.currSeq, h.s, Function.update_self, Function.update_idem, List.length_cons]
        dsimp only
        rw [add_one_ofNat]
      · rw [h.currLink, List.length_cons, add_one_ofNat]

section records

/-- The records that the lines from the i-th on get, when the cursor stands at
`cur` before them and the array held `s` at first. -/
def records (s : U32 → Sequence) : Nat → U32 → List Line → List Sequence
  | _, _, [] => []
  | i, cur, n :: ns =>
      let m := BitVec.ofNat 32 n.transitions.length
      let len := (s (BitVec.ofNat 32 i)).length + m
      ⟨len, (s (BitVec.ofNat 32 i)).currentPosition, cur⟩ :: records s (i + 1) (cur + m + len) ns

/-- The loader before its i-th line: what lies ahead in the array of sequences
is as it was at first, but for the offset of the next one. -/
structure Before (s : U32 → Sequence) (i : Nat) (cur : U32) (k : Loader) : Prop where
  requestList : k.requestList = []
  currSeq : k.currSeq = BitVec.ofNat 32 i
  currLink : k.currLink = cur
  offset : (k.s (BitVec.ofNat 32 i)).linkOffset = cur
  ahead : ∀ j, i ≤ j → j < 2 ^ 32 → (k.s (BitVec.ofNat 32 j)).length = (s (BitVec.ofNat 32 j)).length ∧
    (k.s (BitVec.ofNat 32 j)).currentPosition = (s (BitVec.ofNat 32 j)).currentPosition

variable {s : U32 → Sequence} {i : Nat} {cur : U32} {k : Loader}

theorem before_start (s : U32 → Sequence) (l : U32 → Link) : Before s 0 0 (start s l) where
  requestList := rfl
  currSeq := rfl
  currLink := rfl
  offset := by
    change (Function.update s 0 { s 0 with linkOffset := 0 } 0).linkOffset = 0
    rw [Function.update_self]
  ahead j _ _ := by
    change (Function.update s 0 { s 0 with linkOffset := 0 } _).length = _ ∧
      (Function.update s 0 { s 0 with linkOffset := 0 } _).currentPosition = _
    by_cases h : BitVec.ofNat 32 j = (0 : U32)
    · rw [h, Function.update_self]
      exact ⟨rfl, rfl⟩
    · rw [Function.update_of_ne h]
      exact ⟨rfl, rfl⟩

theorem Before.record (h : Before s i cur k) (hi : i < 2 ^ 32) {ts : List Transition} {k₁ : Loader}
    (h₁ : TransitionsDone ts k k₁) :
    k₁.s (BitVec.ofNat 32 i) = ⟨(s (BitVec.ofNat 32 i)).length + BitVec.ofNat 32 ts.length,
      (s (BitVec.ofNat 32 i)).currentPosition, cur⟩ := by
  obtain ⟨hlen, hpos⟩ := h.ahead i (Nat.le_refl i) hi
  have hoff := h.offset
  rw [h₁.s, h.currSeq, Function.update_self, ← hlen, ← hpos, ← hoff]

theorem Before.line (h : Before s i cur k) (n : Line) (hi : i + 1 < 2 ^ 32) :
    let m := BitVec.ofNat 32 n.transitions.length
    let len := (s (BitVec.ofNat 32 i)).length + m
    Before s (i + 1) (cur + m + len) (parseLine env n k).value ∧
      (parseLine env n k).value.s (BitVec.ofNat 32 i) = ⟨len, (s (BitVec.ofNat 32 i)).currentPosition, cur⟩ ∧
      ∀ j < i, (parseLine env n k).value.s (BitVec.ofNat 32 j) = k.s (BitVec.ofNat 32 j) := by
  intro m len
  have h₁ := parseTransitions_done env n.transitions k h.requestList
  have h₂ := lineAction_done (parseTransitions env n.transitions k)
  have hrec := h.record (by omega) h₁
  have hseq : (parseTransitions env n.transitions k).currSeq = BitVec.ofNat 32 i := h₁.currSeq.trans h.currSeq
  have hcur : (parseTransitions env n.transitions k).currLink = cur + m := by rw [h₁.currLink, h.currLink]
  have hs₂ := h₂.s
  have hl₂ := h₂.currLink
  rw [hseq, ofNat_succ, hrec, hcur] at hs₂
  rw [hseq, hrec, hcur] at hl₂
  -- only the record of the line and the offset of the next one are written
  have hother : ∀ j < 2 ^ 32, j ≠ i → (parseTransitions env n.transitions k).s (BitVec.ofNat 32 j) =
      k.s (BitVec.ofNat 32 j) := by
    intro j hj hne
    rw [h₁.s, h.currSeq, Function.update_of_ne (ofNat_ne hj (by omega) hne)]
  rw [parseLine_value]
  refine ⟨⟨h₂.requestList.trans h₁.requestList, ?_, hl₂, ?_, ?_⟩, ?_, ?_⟩
  · rw [h₂.currSeq, hseq, ofNat_succ]
  · rw [hs₂, Function.update_self]
  · intro j hle hj
    obtain ⟨hlen, hpos⟩ := h.ahead j (by omega) hj
    by_cases he : j = i + 1
    · subst he
      rw [hs₂, Function.update_self, hother _ hj (by omega)]
      exact ⟨hlen, hpos⟩
    · rw [hs₂, Function.update_of_ne (ofNat_ne hj hi he), hother j hj (by omega)]
      exact ⟨hlen, hpos⟩
  · rw [hs₂, Function.update_of_ne (ofNat_ne (by omega) hi (by omega)), hrec]
  · intro j hj
    rw [hs₂, Function.update_of_ne (ofNat_ne (by omega) hi (by omega)), hother j (by omega) (by omega)]

theorem Before.lines (h : Before s i cur k) (ns : List Line) (hi : i + ns.length < 2 ^ 32) :
    (parseLines env ns k).currSeq = BitVec.ofNat 32 (i + ns.length) ∧
      (∀ j r, (records s i cur ns)[j]? = some r → (parseLines env ns k).s (BitVec.ofNat 32 (i + j)) = r) ∧
      ∀ j < i, (parseLines env ns k).s (BitVec.ofNat 32 j) = k.s (BitVec.ofNat 32 j) := by
  induction ns generalizing i cur k with
  | nil => exact ⟨h.currSeq, fun j r hr => by simp [records] at hr, fun j _ => rfl⟩
  | cons n ns ih =>
      rw [List.length_cons] at hi
      obtain ⟨hb, hrec, hold⟩ := h.line env n (by omega)
      obtain ⟨hseq, hrecs, hkeep⟩ := ih hb (by omega)
      change (parseLines env ns (parseLine env n k).value).currSeq = _ ∧
        (∀ j r, _ → (parseLines env ns (parseLine env n k).value).s _ = r) ∧
        ∀ j < i, (parseLines env ns (parseLine env n k).value).s _ = _
      refine ⟨?_, ?_, ?_⟩
      · rw [hseq, List.length_cons, Nat.add_assoc, Nat.add_comm 1]
      · intro j r hr
        cases j with
        | zero =>
            obtain rfl := Option.some.inj hr
            rw [Nat.add_zero, hkeep i (by omega), hrec]
        | succ j =>
            rw [Nat.add_comm j 1, ← Nat.add_assoc]
            exact hrecs j r hr
      · intro j hj
        rw [hkeep j (by omega), hold j hj]

theorem records_length (s : U32 → Sequence) (i : Nat) (cur : U32) (ns : List Line) :
    (records s i cur ns).length = ns.length := by
  induction ns generalizing i cur with
  | nil => rfl
  | cons n ns ih => rw [records, List.length_cons, List.length_cons, ih]

end records

section used

theorem addRequest_currLink (tclass it : String) (k : Loader) :
    (addRequest env tclass it k).value.currLink = k.currLink := by
  simp only [addRequest, statPerm, modifyLink, value_bind, value_visit, value_pure]
  split <;> rfl

def AtLink (c : U32) (x : Slot) : Prop := x = .l c

theorem within_atLink {c i : U32} (h : i = c) {α : Type} (a : α) : Within (AtLink c) (visit (.l i) a) :=
  within_visit (P := AtLink c) (congrArg Slot.l h) a

theorem foldlM_addRequest_used (tclass : String) (ws : List String) (k : Loader) :
    Within (AtLink k.currLink) (ws.foldlM (fun k it => addRequest env tclass it k) k) := by
  induction ws generalizing k with
  | nil => exact within_pure _ k
  | cons w ws ih =>
      have hw := ih (addRequest env tclass w k).value
      rw [addRequest_currLink] at hw
      rw [List.foldlM_cons]
      exact within_bind (within_bind (within_atLink rfl _) (within_bind (within_atLink rfl _) (within_pure _ _))) hw

theorem parseVector_used (v : AvVector) (k : Loader) : Within (AtLink k.currLink) (parseVector env v k) := by
  have hcur : (parseRequest v.request k).2.currLink = k.currLink := by rw [parseRequest_eq]
  refine within_bind (within_atLink hcur _) (within_bind (within_atLink hcur _)
    (within_bind (within_atLink hcur _) (within_bind ?_ (within_pure _ _))))
  rw [← hcur]
  exact foldlM_addRequest_used env _ _ _

theorem mem_parseVector_used (v : AvVector) (k : Loader) (x : Slot) :
    x ∈ (parseVector env v k).used ↔ x = .l k.currLink := by
  constructor
  · exact parseVector_used env v k x
  · rintro rfl
    have hcur : (parseRequest v.request k).2.currLink = k.currLink := by rw [parseRequest_eq]
    rw [← hcur]
    exact List.mem_append_left _ List.mem_cons_self

theorem mem_parseTransition_used (t : Transition) (k : Loader) (hk : k.requestList = []) (x : Slot) :
    x ∈ (parseTransition env t k).used ↔ x = .l k.currLink ∨ x = .s k.currSeq := by
  have hv := parseVector_done env t.vector k hk
  have h₁ : LookupFrame _ (lookupSource env t k).2 := stringToSid_frame env _ _
  have h₂ : LookupFrame _ (lookupTarget env t k).2 := stringToSid_frame env _ _
  have hsource : (lookupSource env t k).2.currLink = k.currLink := h₁.currLink.trans hv.currLink
  have htarget : (lookupTarget env t k).2.currLink = k.currLink := h₂.currLink.trans hsource
  have hseq : (lookupTarget env t k).2.currSeq = k.currSeq := h₂.currSeq.trans (h₁.currSeq.trans hv.currSeq)
  have hused : (parseTransition env t k).used = (parseVector env t.vector k).used ++
      ([.l (lookupSource env t k).2.currLink] ++ ([.l (lookupTarget env t k).2.currLink] ++
        [.s (lookupTarget env t k).2.currSeq])) := rfl
  rw [hused, hsource, htarget, hseq, List.mem_append, mem_parseVector_used]
  simp

theorem lineAction_used (k : Loader) (x : U32) : .l x ∉ (lineAction k).used := by
  have hused : (lineAction k).used = [.s (countLine k).currSeq, .s ((countLine k).currSeq + 1)] := rfl
  rw [hused]
  simp

end used

section lines

def runLines : List Line → Loader → Traced Slot Loader
  | [], k => pure k
  | n :: ns, k => parseLine env n k >>= runLines ns

theorem runLines_append (ns ms : List Line) (k : Loader) :
    runLines env (ns ++ ms) k = runLines env ns k >>= runLines env ms := by
  induction ns generalizing k with
  | nil => rfl
  | cons n ns ih =>
      rw [List.cons_append, runLines, runLines, Traced.bind_assoc]
      exact congrArg (parseLine env n k >>= ·) (funext ih)

theorem parseFile_eq (f : File) (k : Loader) : parseFile env f k = runLines env f.lines k := by
  induction f generalizing k with
  | line n => exact (Traced.bind_pure _).symm
  | snoc f n ih =>
      rw [File.lines, runLines_append, ← ih]
      exact congrArg (parseFile env f k >>= ·) (funext fun k => (Traced.bind_pure _).symm)

variable {s : U32 → Sequence} {i : Nat} {cur : U32} {k : Loader}

theorem mem_signature_used (h : Before s i cur k) (g : Signature) (x : Slot) :
    x ∈ (parseSignature env g k).used ↔
      (∃ j < g.transitions.length, x = .l (cur + BitVec.ofNat 32 j)) ∨ x = .s (BitVec.ofNat 32 i) := by
  induction g with
  | transition t =>
      rw [parseSignature, mem_parseTransition_used env t k h.requestList, h.currLink, h.currSeq]
      simp [Signature.transitions]
  | snoc g t ih =>
      have hdone := parseTransitions_done env g.transitions k h.requestList
      rw [← parseSignature_value] at hdone
      rw [parseSignature, used_bind, List.mem_append, ih, mem_parseTransition_used env t _ hdone.requestList,
        hdone.currLink, hdone.currSeq, h.currLink, h.currSeq, Signature.transitions, List.length_append,
        List.length_singleton, Nat.exists_lt_succ_right, or_or_or_comm, or_self]

theorem mem_line_used (h : Before s i cur k) (n : Line) (x : Slot) :
    x ∈ (parseLine env n k).used ↔
      (∃ j < n.transitions.length, x = .l (cur + BitVec.ofNat 32 j)) ∨ x = .s (BitVec.ofNat 32 i) ∨
        x = .s (BitVec.ofNat 32 (i + 1)) := by
  have hdone := parseTransitions_done env n.transitions k h.requestList
  have hused : (lineAction (parseSignature env n.signature k).value).used =
      [.s (BitVec.ofNat 32 i), .s (BitVec.ofNat 32 (i + 1))] := by
    have hseq : (countLine (parseSignature env n.signature k).value).currSeq = BitVec.ofNat 32 i := by
      rw [parseSignature_value, ← h.currSeq, ← hdone.currSeq, countLine]
      split <;> rfl
    rw [← ofNat_succ, ← hseq]
    rfl
  rw [parseLine, used_bind, List.mem_append, mem_signature_used env h, hused, List.mem_cons, List.mem_singleton, or_assoc,
    or_self_left]
  rfl

/-- The links that a record covers. -/
def Spans (r : Sequence) (x : U32) : Prop := ∃ j < r.length.toNat, x = r.linkOffset + BitVec.ofNat 32 j

/-- The links that a line's transitions take from the offset of its record on. -/
def Fills (n : Line) (r : Sequence) (x : U32) : Prop := ∃ j < n.transitions.length, x = r.linkOffset + BitVec.ofNat 32 j

theorem mem_runLines_links (h : Before s i cur k) (ns : List Line) (hi : i + ns.length < 2 ^ 32) (x : U32) :
    .l x ∈ (runLines env ns k).used ↔ ∃ p ∈ ns.zip (records s i cur ns), Fills p.1 p.2 x := by
  induction ns generalizing i cur k with
  | nil => simp [runLines]
  | cons n ns ih =>
      rw [List.length_cons] at hi
      obtain ⟨hb, -, -⟩ := h.line env n (by omega)
      rw [runLines, used_bind, List.mem_append, mem_line_used env h, ih hb (by omega), records, List.zip_cons_cons,
        List.exists_mem_cons_iff]
      refine or_congr_left ?_
      simp [Fills]

end lines

section lockstep

structure Lock (N : Nat) (k₁ k₂ : Loader) : Prop where
  clean₁ : k₁.requestList = []
  clean₂ : k₂.requestList = []
  currSeq : k₂.currSeq = k₁.currSeq
  currLink : k₂.currLink = k₁.currLink
  sidMap : k₂.sidMap = k₁.sidMap
  queries : k₂.queries = k₁.queries
  lengths : ∀ i : U32, i.toNat < N → (k₂.s i).length = (k₁.s i).length

structure Cells (used : List Slot) (k₁ k₂ k₁' k₂' : Loader) : Prop where
  written : ∀ x, .l x ∈ used → k₂'.l x = k₁'.l x
  kept₁ : ∀ x, .l x ∉ used → k₁'.l x = k₁.l x
  kept₂ : ∀ x, .l x ∉ used → k₂'.l x = k₂.l x

theorem Cells.trans {u v : List Slot} {k₁ k₂ k₁' k₂' k₁'' k₂'' : Loader} (h : Cells u k₁ k₂ k₁' k₂')
    (h' : Cells v k₁' k₂' k₁'' k₂'') : Cells (u ++ v) k₁ k₂ k₁'' k₂'' where
  written x hx := by
    by_cases hv : .l x ∈ v
    · exact h'.written x hv
    · have hu : .l x ∈ u := (List.mem_append.mp hx).resolve_right hv
      rw [h'.kept₁ x hv, h'.kept₂ x hv, h.written x hu]
  kept₁ x hx := by
    rw [List.mem_append, not_or] at hx
    rw [h'.kept₁ x hx.2, h.kept₁ x hx.1]
  kept₂ x hx := by
    rw [List.mem_append, not_or] at hx
    rw [h'.kept₂ x hx.2, h.kept₂ x hx.1]

theorem rejectZero_queries (res : U32) (k : Loader) : (rejectZero res k).queries = k.queries := by
  rw [rejectZero]
  split <;> rfl

theorem stringToSid_same (c : String) {k₁ k₂ : Loader} (hm : k₂.sidMap = k₁.sidMap)
    (hq : k₂.queries = k₁.queries) :
    (stringToSid env c k₂).1 = (stringToSid env c k₁).1 ∧
      (stringToSid env c k₂).2.sidMap = (stringToSid env c k₁).2.sidMap ∧
      (stringToSid env c k₂).2.queries = (stringToSid env c k₁).2.queries := by
  rw [stringToSid, stringToSid, hm, hq]
  cases k₁.sidMap c with
  | some res =>
      dsimp only
      rw [rejectZero_sidMap, rejectZero_sidMap, rejectZero_queries, rejectZero_queries]
      exact ⟨rfl, rfl, rfl⟩
  | none =>
      cases env.getsid k₁.queries c with
      | answer line =>
          dsimp only
          rw [rejectZero_sidMap, rejectZero_sidMap, rejectZero_queries, rejectZero_queries]
          exact ⟨rfl, rfl, rfl⟩
      | cannotWrite => exact ⟨rfl, rfl, rfl⟩
      | cannotRead => exact ⟨rfl, rfl, rfl⟩

variable {N : Nat} {k₁ k₂ : Loader}

theorem Lock.lookups (h : Lock N k₁ k₂) (t : Transition) :
    (lookupSource env t k₂).1 = (lookupSource env t k₁).1 ∧
      (lookupTarget env t k₂).1 = (lookupTarget env t k₁).1 ∧
      (lookupTarget env t k₂).2.sidMap = (lookupTarget env t k₁).2.sidMap ∧
      (lookupTarget env t k₂).2.queries = (lookupTarget env t k₁).2.queries := by
  have hv₁ := parseVector_kept env t.vector k₁
  have hv₂ := parseVector_kept env t.vector k₂
  have hmap : (parseVector env t.vector k₂).value.sidMap = (parseVector env t.vector k₁).value.sidMap := by
    rw [hv₁.sidMap, hv₂.sidMap, h.sidMap]
  have hqueries : (parseVector env t.vector k₂).value.queries = (parseVector env t.vector k₁).value.queries := by
    rw [hv₁.queries, hv₂.queries, h.queries]
  obtain ⟨hs, hsm, hsq⟩ := stringToSid_same env t.source.text hmap hqueries
  -- between the two lookups only a link is written
  exact ⟨hs, stringToSid_same env t.target.text hsm hsq⟩

theorem Lock.transition (h : Lock N k₁ k₂) (t : Transition) :
    Lock N (parseTransition env t k₁).value (parseTransition env t k₂).value ∧
      Cells (parseTransition env t k₁).used k₁ k₂ (parseTransition env t k₁).value
        (parseTransition env t k₂).value := by
  have h₁ : TransitionDone env t k₁ _ := parseTransition_done t k₁ h.clean₁
  have h₂ : TransitionDone env t k₂ _ := parseTransition_done t k₂ h.clean₂
  obtain ⟨hsource, htarget, hmap, hqueries⟩ := h.lookups env t
  refine ⟨⟨h₁.requestList, h₂.requestList, ?_, ?_, ?_, hqueries, ?_⟩, ?_, ?_, ?_⟩
  · rw [h₁.currSeq, h₂.currSeq, h.currSeq]
  · rw [h₁.currLink, h₂.currLink, h.currLink]
  · rw [h₁.sidMap, h₂.sidMap, hmap]
  · intro i hi
    have hlen := h.lengths i hi
    rw [h₁.s, h₂.s, h.currSeq]
    by_cases he : i = k₁.currSeq
    · subst he
      rw [Function.update_self, Function.update_self, hlen]
    · rw [Function.update_of_ne he, Function.update_of_ne he, hlen]
  · intro x hx
    obtain rfl : x = k₁.currLink := by simpa [mem_parseTransition_used env t k₁ h.clean₁] using hx
    rw [h₁.l, h₂.l, h.currLink, Function.update_self, Function.update_self, hsource, htarget]
  · intro x hx
    have hne : x ≠ k₁.currLink := by simpa [mem_parseTransition_used env t k₁ h.clean₁] using hx
    rw [h₁.l, Function.update_of_ne hne]
  · intro x hx
    have hne : x ≠ k₁.currLink := by simpa [mem_parseTransition_used env t k₁ h.clean₁] using hx
    rw [h₂.l, h.currLink, Function.update_of_ne hne]

theorem Lock.signature (h : Lock N k₁ k₂) (g : Signature) :
    Lock N (parseSignature env g k₁).value (parseSignature env g k₂).value ∧
      Cells (parseSignature env g k₁).used k₁ k₂ (parseSignature env g k₁).value
        (parseSignature env g k₂).value := by
  induction g with
  | transition t => exact h.transition env t
  | snoc g t ih =>
      obtain ⟨hl, hc⟩ := ih
      obtain ⟨hl', hc'⟩ := hl.transition env t
      exact ⟨hl', hc.trans hc'⟩

theorem Lock.lineAction (h : Lock N k₁ k₂) (hN : k₁.currSeq.toNat < N) :
    Lock N (lineAction k₁).value (lineAction k₂).value ∧
      Cells (lineAction k₁).used k₁ k₂ (lineAction k₁).value (lineAction k₂).value := by
  have h₁ := lineAction_done k₁
  have h₂ := lineAction_done k₂
  have hq : ∀ k, (Ppp.lineAction k).value.queries = k.queries := by
    intro k
    simp only [Ppp.lineAction, countLine, modifySeq, value_bind, value_visit]
    split <;> rfl
  refine ⟨⟨h₁.requestList.trans h.clean₁, h₂.requestList.trans h.clean₂, ?_, ?_, ?_, ?_, ?_⟩, ?_, ?_, ?_⟩
  · rw [h₁.currSeq, h₂.currSeq, h.currSeq]
  · rw [h₁.currLink, h₂.currLink, h.currLink, h.currSeq, h.lengths k₁.currSeq hN]
  · rw [h₁.sidMap, h₂.sidMap, h.sidMap]
  · rw [hq, hq, h.queries]
  · intro i hi
    have hlen := h.lengths i hi
    rw [h₁.s, h₂.s, h.currSeq]
    by_cases he : i = k₁.currSeq + 1
    · subst he
      rw [Function.update_self, Function.update_self, hlen]
    · rw [Function.update_of_ne he, Function.update_of_ne he, hlen]
  · intro x hx
    exact absurd hx (lineAction_used k₁ x)
  · intro x _
    rw [h₁.l]
  · intro x _
    rw [h₂.l]

theorem parseLine_currSeq (n : Line) (k : Loader) (hk : k.requestList = []) :
    (parseLine env n k).value.currSeq = k.currSeq + 1 := by
  rw [parseLine_value, (lineAction_done _).currSeq, (parseTransitions_done env n.transitions k hk).currSeq]

theorem Lock.line (h : Lock N k₁ k₂) (n : Line) (hN : k₁.currSeq.toNat < N) :
    Lock N (parseLine env n k₁).value (parseLine env n k₂).value ∧
      Cells (parseLine env n k₁).used k₁ k₂ (parseLine env n k₁).value (parseLine env n k₂).value := by
  obtain ⟨hl, hc⟩ := h.signature env n.signature
  have hseq : (parseSignature env n.signature k₁).value.currSeq = k₁.currSeq := by
    rw [parseSignature_value]
    exact (parseTransitions_done env n.signature.transitions k₁ h.clean₁).currSeq
  obtain ⟨hl', hc'⟩ := hl.lineAction (hseq ▸ hN)
  exact ⟨hl', hc.trans hc'⟩

theorem Lock.file (h : Lock N k₁ k₂) (hstart : k₁.currSeq = 0) (f : File) (hf : f.lines.length ≤ N)
    (hN : N < 2 ^ 32) :
    (parseFile env f k₁).value.currSeq = BitVec.ofNat 32 f.lines.length ∧
      Lock N (parseFile env f k₁).value (parseFile env f k₂).value ∧
      Cells (parseFile env f k₁).used k₁ k₂ (parseFile env f k₁).value (parseFile env f k₂).value := by
  induction f with
  | line n =>
      have hpos : k₁.currSeq.toNat < N := by
        rw [hstart]
        exact hf
      refine ⟨?_, h.line env n hpos⟩
      change (parseLine env n k₁).value.currSeq = _
      rw [parseLine_currSeq env n k₁ h.clean₁, hstart]
      rfl
  | snoc f n ih =>
      rw [File.lines, List.length_append, List.length_singleton] at hf
      obtain ⟨hseq, hl, hc⟩ := ih (by omega)
      obtain ⟨hl', hc'⟩ := hl.line env n (by rw [hseq, toNat_index (by omega)]; omega)
      refine ⟨?_, hl', hc.trans hc'⟩
      change (parseLine env n (parseFile env f k₁).value).value.currSeq = _
      rw [parseLine_currSeq env n _ hl.clean₁, hseq, ofNat_succ, File.lines, List.length_append,
        List.length_singleton]

end lockstep

section upload

def InRange (k : Loader) (x : U32) : Prop := ∃ i < k.currSeq.toNat, Spans (k.s (BitVec.ofNat 32 i)) x

structure SameUpload (k₁ k₂ : Loader) : Prop where
  currSeq : k₂.currSeq = k₁.currSeq
  sequences : ∀ i < k₁.currSeq.toNat, k₂.s (BitVec.ofNat 32 i) = k₁.s (BitVec.ofNat 32 i)
  links : ∀ x, InRange k₁ x → k₂.l x = k₁.l x

theorem records_congr {s₁ s₂ : U32 → Sequence} (ns : List Line) (i : Nat) (cur : U32)
    (h : ∀ j, i ≤ j → j < i + ns.length →
      (s₂ (BitVec.ofNat 32 j)).length = (s₁ (BitVec.ofNat 32 j)).length ∧
        (s₂ (BitVec.ofNat 32 j)).currentPosition = (s₁ (BitVec.ofNat 32 j)).currentPosition) :
    records s₂ i cur ns = records s₁ i cur ns := by
  induction ns generalizing i cur with
  | nil => rfl
  | cons n ns ih =>
      rw [List.length_cons] at h
      obtain ⟨hlen, hpos⟩ := h i (Nat.le_refl i) (by omega)
      rw [records, records, hlen, hpos, ih (i + 1) _ (fun j hj hlt => h j (by omega) (by omega))]

theorem records_fields (s : U32 → Sequence) (ns : List Line) (i : Nat) (cur : U32) {j : Nat} {n : Line}
    {r : Sequence} (hn : ns[j]? = some n) (hr : (records s i cur ns)[j]? = some r) :
    r.length = (s (BitVec.ofNat 32 (i + j))).length + BitVec.ofNat 32 n.transitions.length ∧
      r.currentPosition = (s (BitVec.ofNat 32 (i + j))).currentPosition := by
  induction ns generalizing i cur j with
  | nil => simp at hn
  | cons m ns ih =>
      cases j with
      | zero =>
          obtain rfl := Option.some.inj hn
          obtain rfl := Option.some.inj hr
          exact ⟨rfl, rfl⟩
      | succ j =>
          rw [Nat.add_comm j 1, ← Nat.add_assoc]
          exact ih (i + 1) _ hn hr

variable (w : Wholefile)

abbrev parsed (s : U32 → Sequence) (l : U32 → Link) : Loader := (yyparse env w (start s l)).value

theorem parsed_records (hs : w.file.lines.length < 2 ^ 32) (s : U32 → Sequence) (l : U32 → Link) :
    (parsed env w s l).currSeq = BitVec.ofNat 32 w.file.lines.length ∧
      ∀ i r, (records s 0 0 w.file.lines)[i]? = some r → (parsed env w s l).s (BitVec.ofNat 32 i) = r := by
  obtain ⟨hseq, hrec, -⟩ := (before_start s l).lines env w.file.lines (by rwa [Nat.zero_add])
  rw [parsed, yyparse, parseFile_value]
  rw [Nat.zero_add] at hseq
  refine ⟨hseq, ?_⟩
  intro i r hr
  have h := hrec i r hr
  rwa [Nat.zero_add] at h

variable {w}

theorem parsed_fields (hs : w.file.lines.length < 2 ^ 32) (s : U32 → Sequence) (l : U32 → Link) {i : Nat}
    {n : Line} (hn : w.file.lines[i]? = some n) :
    ((parsed env w s l).s (BitVec.ofNat 32 i)).length =
        (s (BitVec.ofNat 32 i)).length + BitVec.ofNat 32 n.transitions.length ∧
      ((parsed env w s l).s (BitVec.ofNat 32 i)).currentPosition = (s (BitVec.ofNat 32 i)).currentPosition := by
  have hi := (List.getElem?_eq_some_iff.mp hn).1
  rw [← records_length s 0 0] at hi
  have hr := List.getElem?_eq_getElem hi
  obtain ⟨hlen, hpos⟩ := records_fields s w.file.lines 0 0 hn hr
  rw [Nat.zero_add] at hlen hpos
  rw [(parsed_records env w hs s l).2 i _ hr]
  exact ⟨hlen, hpos⟩

def SameFields (N : Nat) (s₁ s₂ : U32 → Sequence) : Prop :=
  ∀ i < N, (s₂ (BitVec.ofNat 32 i)).length = (s₁ (BitVec.ofNat 32 i)).length ∧
    (s₂ (BitVec.ofNat 32 i)).currentPosition = (s₁ (BitVec.ofNat 32 i)).currentPosition

theorem lock_start {N : Nat} {s₁ s₂ : U32 → Sequence} (h : SameFields N s₁ s₂)
    (l₁ l₂ : U32 → Link) : Lock N (start s₁ l₁) (start s₂ l₂) where
  clean₁ := rfl
  clean₂ := rfl
  currSeq := rfl
  currLink := rfl
  sidMap := rfl
  queries := rfl
  lengths i hi := by
    obtain ⟨h₁, -⟩ := (before_start s₁ l₁).ahead i.toNat (Nat.zero_le _) i.isLt
    obtain ⟨h₂, -⟩ := (before_start s₂ l₂).ahead i.toNat (Nat.zero_le _) i.isLt
    have hlen := (h i.toNat hi).1
    rw [← h₁, ← h₂, BitVec.ofNat_toNat, BitVec.setWidth_eq] at hlen
    exact hlen

theorem sameFields_of_sameUpload (hs : w.file.lines.length < 2 ^ 32) {s₁ s₂ : U32 → Sequence}
    {l₁ l₂ : U32 → Link} (h : SameUpload (parsed env w s₁ l₁) (parsed env w s₂ l₂)) :
    SameFields w.file.lines.length s₁ s₂ := by
  intro i hi
  have hseq := (parsed_records env w hs s₁ l₁).1
  have hsame := h.sequences i (by rw [hseq, toNat_index hs]; exact hi)
  obtain ⟨hlen₁, hpos₁⟩ := parsed_fields env hs s₁ l₁ (List.getElem?_eq_getElem hi)
  obtain ⟨hlen₂, hpos₂⟩ := parsed_fields env hs s₂ l₂ (List.getElem?_eq_getElem hi)
  rw [← hpos₁, ← hpos₂, hsame]
  rw [hsame, hlen₁] at hlen₂
  exact ⟨((BitVec.add_left_inj _).mp hlen₂).symm, rfl⟩

/-- The links that some line's record covers and no line fills. -/
def Stale (s : U32 → Sequence) (ns : List Line) (x : U32) : Prop :=
  (∃ r ∈ records s 0 0 ns, Spans r x) ∧ ¬∃ p ∈ ns.zip (records s 0 0 ns), Fills p.1 p.2 x

theorem inRange_parsed (hs : w.file.lines.length < 2 ^ 32) (s : U32 → Sequence) (l : U32 → Link) (x : U32) :
    InRange (parsed env w s l) x ↔ ∃ r ∈ records s 0 0 w.file.lines, Spans r x := by
  obtain ⟨hseq, hrec⟩ := parsed_records env w hs s l
  rw [InRange, hseq, toNat_index hs]
  constructor
  · rintro ⟨i, hi, hx⟩
    rw [← records_length s 0 0] at hi
    rw [hrec i _ (List.getElem?_eq_getElem hi)] at hx
    exact ⟨_, List.getElem_mem hi, hx⟩
  · rintro ⟨r, hr, hx⟩
    obtain ⟨i, hi⟩ := List.mem_iff_getElem?.mp hr
    have hlt := (List.getElem?_eq_some_iff.mp hi).1
    rw [records_length] at hlt
    refine ⟨i, hlt, ?_⟩
    rw [hrec i r hi]
    exact hx

theorem mem_yyparse_links (hs : w.file.lines.length < 2 ^ 32) (s : U32 → Sequence) (l : U32 → Link) (x : U32) :
    .l x ∈ (yyparse env w (start s l)).used ↔ ∃ p ∈ w.file.lines.zip (records s 0 0 w.file.lines), Fills p.1 p.2 x := by
  rw [yyparse, parseFile_eq]
  exact mem_runLines_links env (before_start s l) w.file.lines (by omega) x

/-- The upload is the same from two memories exactly when they hold the same
lengths and positions where the lines' records are put, and the same links
where a record covers links that no line fills. -/
theorem sameUpload_iff (w : Wholefile) (hs : w.file.lines.length < 2 ^ 32) (s₁ s₂ : U32 → Sequence)
    (l₁ l₂ : U32 → Link) :
    SameUpload (parsed env w s₁ l₁) (parsed env w s₂ l₂) ↔
      SameFields w.file.lines.length s₁ s₂ ∧ ∀ x, Stale s₁ w.file.lines x → l₂ x = l₁ x := by
  obtain ⟨hseq₁, hrec₁⟩ := parsed_records env w hs s₁ l₁
  obtain ⟨hseq₂, hrec₂⟩ := parsed_records env w hs s₂ l₂
  constructor
  · intro h
    have hfields := sameFields_of_sameUpload env hs h
    obtain ⟨-, -, hcells⟩ := (lock_start hfields l₁ l₂).file env rfl w.file (Nat.le_refl _) hs
    refine ⟨hfields, ?_⟩
    rintro x ⟨hx, hused⟩
    have hl := h.links x ((inRange_parsed env hs s₁ l₁ x).mpr hx)
    rw [← mem_yyparse_links env hs s₁ l₁] at hused
    rw [parsed, parsed, yyparse, yyparse, hcells.kept₁ x hused, hcells.kept₂ x hused] at hl
    exact hl
  · rintro ⟨hfields, hlinks⟩
    obtain ⟨-, -, hcells⟩ := (lock_start hfields l₁ l₂).file env rfl w.file (Nat.le_refl _) hs
    have hrecords : records s₂ 0 0 w.file.lines = records s₁ 0 0 w.file.lines :=
      records_congr w.file.lines 0 0 (fun j _ hj => hfields j (by omega))
    refine ⟨by rw [hseq₁, hseq₂], ?_, ?_⟩
    · intro i hi
      rw [hseq₁, toNat_index hs, ← records_length s₁ 0 0] at hi
      have hr := List.getElem?_eq_getElem hi
      rw [hrec₁ i _ hr, hrec₂ i _ (by rw [hrecords]; exact hr)]
    · intro x hx
      by_cases hused : .l x ∈ (yyparse env w (start s₁ l₁)).used
      · exact hcells.written x hused
      · rw [parsed, parsed, yyparse, yyparse, hcells.kept₁ x hused, hcells.kept₂ x hused]
        rw [inRange_parsed env hs] at hx
        rw [mem_yyparse_links env hs] at hused
        exact hlinks x ⟨hx, hused⟩

theorem stale_length_uploaded :
    (parsed shadowEnv shadowFile (fun _ => ⟨0, 0, 0⟩) (fun _ => ⟨0, 0, 0, 0⟩)).s 0 = ⟨2, 0, 0⟩ ∧
      (parsed shadowEnv shadowFile (fun _ => ⟨1, 0, 0⟩) (fun _ => ⟨0, 0, 0, 0⟩)).s 0 = ⟨3, 0, 0⟩ ∧
      ¬SameUpload (parsed shadowEnv shadowFile (fun _ => ⟨0, 0, 0⟩) (fun _ => ⟨0, 0, 0, 0⟩))
        (parsed shadowEnv shadowFile (fun _ => ⟨1, 0, 0⟩) (fun _ => ⟨0, 0, 0, 0⟩)) := by
  refine ⟨by decide, by decide, ?_⟩
  intro h
  exact absurd (h.sequences 0 (by decide)) (by decide)

theorem sameUpload_iff_shadow :
    SameUpload (parsed shadowEnv shadowFile (fun _ => ⟨0, 0, 0⟩) (fun _ => ⟨0, 0, 0, 0⟩))
      (parsed shadowEnv shadowFile (fun _ => ⟨0, 0, 0⟩) (fun _ => ⟨1, 1, 1, 1⟩)) := by
  refine (sameUpload_iff shadowEnv shadowFile (by decide) _ _ _ _).mpr ⟨fun i _ => ⟨rfl, rfl⟩, ?_⟩
  rintro x ⟨⟨r, hr, hx⟩, hno⟩
  -- the one line fills all that its record covers
  obtain rfl := List.mem_singleton.mp hr
  exact absurd ⟨_, List.mem_singleton.mpr rfl, hx⟩ hno

end upload

section dropped

/-- The arrays handed to set_sequence, read back sequence by sequence. -/
def upload (k : Loader) : List (List Link) :=
  (List.range k.currSeq.toNat).map fun i =>
    (List.range (k.s (BitVec.ofNat 32 i)).length.toNat).map fun j =>
      k.l ((k.s (BitVec.ofNat 32 i)).linkOffset + BitVec.ofNat 32 j)

theorem parseTransitions_links (ts : List Transition) (k : Loader) (hk : k.requestList = [])
    (hb : k.currLink.toNat + ts.length < 2 ^ 32) :
    (∀ x, x.toNat < k.currLink.toNat → (parseTransitions env ts k).l x = k.l x) ∧
      ∀ j y, (steps env ts k)[j]? = some y →
        (parseTransitions env ts k).l (k.currLink + BitVec.ofNat 32 j) = y.link := by
  induction ts generalizing k with
  | nil => exact ⟨fun x _ => rfl, fun j y hy => by simp [steps] at hy⟩
  | cons t ts ih =>
      rw [List.length_cons] at hb
      have h : TransitionDone env t k _ := parseTransition_done t k hk
      have hcur : (parseTransition env t k).value.currLink.toNat = k.currLink.toNat + 1 := by
        rw [h.currLink]
        exact toNat_succ_of_lt rfl (by omega)
      obtain ⟨hbelow, hlinks⟩ := ih _ h.requestList (by omega)
      change (∀ x, _ → (parseTransitions env ts (parseTransition env t k).value).l x = _) ∧
        ∀ j y, _ → (parseTransitions env ts (parseTransition env t k).value).l _ = _
      refine ⟨?_, ?_⟩
      · intro x hx
        have hne : x ≠ k.currLink := fun e => by
          rw [e] at hx
          exact Nat.lt_irrefl _ hx
        rw [hbelow x (by omega), h.l, Function.update_of_ne hne]
      · intro j y hy
        cases j with
        | zero =>
            obtain rfl := Option.some.inj hy
            have hz : k.currLink + BitVec.ofNat 32 0 = k.currLink := BitVec.add_zero _
            rw [hz, hbelow _ (by omega)]
            rfl
        | succ j =>
            rw [← add_one_ofNat, ← h.currLink]
            exact hlinks j y hy

theorem steps_length (ts : List Transition) (k : Loader) : (steps env ts k).length = ts.length := by
  induction ts generalizing k with
  | nil => rfl
  | cons t ts ih => rw [steps, List.length_cons, List.length_cons, ih]

theorem parseLine_links {s : U32 → Sequence} {i : Nat} {cur : U32} {k : Loader} (h : Before s i cur k)
    (n : Line) (hb : cur.toNat + n.transitions.length < 2 ^ 32) :
    (∀ x, x.toNat < cur.toNat → (parseLine env n k).value.l x = k.l x) ∧
      ∀ j y, (lineResult env n k).steps[j]? = some y →
        (parseLine env n k).value.l (cur + BitVec.ofNat 32 j) = y.link := by
  have hd := lineAction_done (parseTransitions env n.transitions k)
  rw [parseLine_value, hd.l, ← h.currLink]
  exact parseTransitions_links env n.transitions k h.requestList (by rw [h.currLink]; exact hb)

theorem cursor_toNat {cur : U32} {m : Nat} (h : cur.toNat + 2 * m < 2 ^ 32) :
    (cur + BitVec.ofNat 32 m + BitVec.ofNat 32 m).toNat = cur.toNat + 2 * m := by
  have hfirst : (cur + BitVec.ofNat 32 m).toNat = cur.toNat + m := toNat_add_ofNat (by omega)
  rw [toNat_add_ofNat (by omega), hfirst]
  omega

theorem parseLines_links {s : U32 → Sequence} {i : Nat} {cur : U32} {k : Loader} (h : Before s i cur k)
    (ns : List Line) (hi : i + ns.length < 2 ^ 32)
    (hz : ∀ j, i ≤ j → j < i + ns.length → (s (BitVec.ofNat 32 j)).length = 0)
    (hb : cur.toNat + 2 * size ns < 2 ^ 32) :
    (∀ x, x.toNat < cur.toNat → (parseLines env ns k).l x = k.l x) ∧
      ∀ (j : Nat) (r : Result) (q : Sequence) (p : Nat) y, (lineResults env ns k)[j]? = some r →
        (records s i cur ns)[j]? = some q → r.steps[p]? = some y →
        (parseLines env ns k).l (q.linkOffset + BitVec.ofNat 32 p) = y.link := by
  -- what the later lines write lies behind the cursor, and so behind this line's range
  induction ns generalizing i cur k with
  | nil => exact ⟨fun x _ => rfl, fun j r q p y hr => by simp [lineResults] at hr⟩
  | cons n ns ih =>
      rw [List.length_cons] at hi hz
      have hsize : size (n :: ns) = n.transitions.length + size ns := by simp [size]
      rw [hsize] at hb
      obtain ⟨hnext, -, -⟩ := h.line env n (by omega)
      obtain ⟨hbelow, hlinks⟩ := parseLine_links env h n (by omega)
      have hlen : (s (BitVec.ofNat 32 i)).length = 0 := hz i (Nat.le_refl i) (by omega)
      have hcur : (cur + BitVec.ofNat 32 n.transitions.length +
          ((s (BitVec.ofNat 32 i)).length + BitVec.ofNat 32 n.transitions.length)).toNat =
          cur.toNat + 2 * n.transitions.length := by
        rw [hlen, zero_add_ofNat, cursor_toNat (by omega)]
      obtain ⟨ihb, ihl⟩ := ih hnext (by omega) (fun j hj hlt => hz j (by omega) (by omega)) (by omega)
      change (∀ x, _ → (parseLines env ns (parseLine env n k).value).l x = _) ∧
        ∀ (j : Nat) (r : Result) (q : Sequence) (p : Nat) y, _ → _ → _ →
          (parseLines env ns (parseLine env n k).value).l _ = _
      refine ⟨?_, ?_⟩
      · intro x hx
        rw [ihb x (by omega), hbelow x hx]
      · intro j r q p y hr hq hp
        cases j with
        | zero =>
            obtain rfl := Option.some.inj hr
            obtain rfl := Option.some.inj hq
            have hlt := (List.getElem?_eq_some_iff.mp hp).1
            have hp' : p < n.transitions.length := by rwa [← steps_length env n.transitions k]
            have hpos : (cur + BitVec.ofNat 32 p).toNat = cur.toNat + p := toNat_add_ofNat (by omega)
            rw [ihb _ (by dsimp only; omega)]
            exact hlinks p y hp
        | succ j => exact ihl j r q p y hr hq hp

theorem lineResults_getElem? {s : U32 → Sequence} {l : U32 → Link} (w : Wholefile) {i : Nat} {r : Result}
    (hr : (lineResults env w.file.lines (start s l))[i]? = some r) :
    ∃ n, w.file.lines[i]? = some n ∧ n.transitions.length = r.steps.length := by
  have hdone := lineResults_done env w.file.lines (ready_start s l)
  have hi := (List.getElem?_eq_some_iff.mp hr).1
  rw [← hdone.length_eq] at hi
  exact ⟨_, List.getElem?_eq_getElem hi, (forall₂_getElem? hdone (List.getElem?_eq_getElem hi) hr).steps.length_eq⟩

theorem upload_length (w : Wholefile) (hs : w.file.lines.length < 2 ^ 32) (s : U32 → Sequence) (l : U32 → Link) :
    (upload (parsed env w s l)).length = w.file.lines.length := by
  rw [upload, List.length_map, List.length_range, (parsed_records env w hs s l).1, toNat_index hs]

theorem upload_eq {w : Wholefile} (hs : w.file.lines.length < 2 ^ 32) (hl : 2 * size w.file.lines < 2 ^ 32)
    {s : U32 → Sequence} (l : U32 → Link)
    (hz : ∀ i < w.file.lines.length, (s (BitVec.ofNat 32 i)).length = 0) :
    upload (parsed env w s l) = (lineResults env w.file.lines (start s l)).map Result.links := by
  have hdone := lineResults_done env w.file.lines (ready_start s l)
  obtain ⟨hseq, hrec⟩ := parsed_records env w hs s l
  obtain ⟨-, hlinks⟩ := parseLines_links env (before_start s l) w.file.lines (by rwa [Nat.zero_add])
    (fun j _ hj => hz j (by omega)) (by simpa using hl)
  rw [upload, hseq, toNat_index hs, hdone.length_eq]
  apply map_range_eq
  intro i r hr
  obtain ⟨n, hn, hsteps⟩ := lineResults_getElem? env w hr
  have hi := (List.getElem?_eq_some_iff.mp hn).1
  have hq := List.getElem?_eq_getElem (show i < (records s 0 0 w.file.lines).length by rwa [records_length])
  have hlen : ((parsed env w s l).s (BitVec.ofNat 32 i)).length.toNat = r.steps.length := by
    have hle := size_take_add_le hn
    rw [(parsed_fields env hs s l hn).1, hz i hi, zero_add_ofNat, toNat_index (by omega), hsteps]
  rw [hlen]
  apply map_range_eq
  intro p y hy
  rw [hrec i _ hq, parsed, yyparse, parseFile_value]
  exact hlinks i r _ p y hr hq hy

structure OnlyResolved (ns : List Line) (rs : List Result) (k : Loader) : Prop where
  uploaded : upload k = (rs.filter Result.resolved).map Result.links
  loaded : k.currSeq = k.loaded
  total : k.loaded.toNat + k.ignored.toNat = ns.length

theorem counters_parsed (w : Wholefile) (s : U32 → Sequence) (l : U32 → Link) :
    (parsed env w s l).loaded =
        BitVec.ofNat 32 ((lineResults env w.file.lines (start s l)).countP fun r => r.loaded) ∧
      (parsed env w s l).ignored =
        BitVec.ofNat 32 ((lineResults env w.file.lines (start s l)).countP fun r => !r.loaded) := by
  obtain ⟨hl, hg⟩ := parseLines_counted env w.file.lines (ready_start s l)
  rw [parsed, yyparse, parseFile_value]
  exact ⟨hl.trans (BitVec.zero_add _), hg.trans (BitVec.zero_add _)⟩

theorem counters_total (w : Wholefile) (hs : w.file.lines.length < 2 ^ 32) (s : U32 → Sequence) (l : U32 → Link) :
    (parsed env w s l).loaded.toNat + (parsed env w s l).ignored.toNat = w.file.lines.length := by
  obtain ⟨hl, hg⟩ := counters_parsed env w s l
  have hlen := (lineResults_done env w.file.lines (ready_start s l)).length_eq
  have hsum := List.length_eq_countP_add_countP (fun r : Result => r.loaded)
    (l := lineResults env w.file.lines (start s l))
  have hnot : (lineResults env w.file.lines (start s l)).countP (fun r => decide ¬r.loaded = true) =
      (lineResults env w.file.lines (start s l)).countP fun r => !r.loaded := by
    apply List.countP_congr
    intro r _
    simp
  rw [hnot] at hsum
  rw [hl, hg, toNat_index (by omega), toNat_index (by omega)]
  omega

theorem length_of_upload {w : Wholefile} (hs : w.file.lines.length < 2 ^ 32) {s : U32 → Sequence} {l : U32 → Link}
    (h : upload (parsed env w s l) = (lineResults env w.file.lines (start s l)).map Result.links) {i : Nat}
    (hi : i < w.file.lines.length) : (s (BitVec.ofNat 32 i)).length = 0 := by
  have hdone := lineResults_done env w.file.lines (ready_start s l)
  have hr := List.getElem?_eq_getElem (hdone.length_eq ▸ hi)
  obtain ⟨n, hn, hsteps⟩ := lineResults_getElem? env w hr
  have hseq : (parsed env w s l).currSeq.toNat = w.file.lines.length := by
    rw [(parsed_records env w hs s l).1, toNat_index hs]
  have hget : (upload (parsed env w s l))[i]? =
      ((lineResults env w.file.lines (start s l)).map Result.links)[i]? := by rw [h]
  rw [upload, List.getElem?_map, List.getElem?_map, hr, hseq, List.getElem?_range hi] at hget
  have hcount := congrArg List.length (Option.some.inj hget)
  rw [List.length_map, List.length_range, Result.links, List.length_map, ← hsteps,
    (parsed_fields env hs s l hn).1] at hcount
  apply (BitVec.add_left_inj (BitVec.ofNat 32 n.transitions.length)).mp
  apply BitVec.eq_of_toNat_eq
  rw [hcount, zero_add_ofNat, toNat_index (by omega)]

/-- Nothing is dropped from the arrays: the upload is the lines that count as
loaded exactly when all do, and when the memory holds no stale length. -/
theorem onlyResolved_iff (w : Wholefile) (hs : w.file.lines.length < 2 ^ 32)
    (hl : 2 * size w.file.lines < 2 ^ 32) (s : U32 → Sequence) (l : U32 → Link) :
    OnlyResolved w.file.lines (lineResults env w.file.lines (start s l)) (parsed env w s l) ↔
      (∀ r ∈ lineResults env w.file.lines (start s l), r.resolved = true) ∧
        ∀ i < w.file.lines.length, (s (BitVec.ofNat 32 i)).length = 0 := by
  have hdone := lineResults_done env w.file.lines (ready_start s l)
  constructor
  · intro h
    have hall : ∀ r ∈ lineResults env w.file.lines (start s l), r.resolved = true := by
      have hcount := congrArg List.length h.uploaded
      rw [upload_length env w hs, List.length_map, hdone.length_eq] at hcount
      exact List.length_filter_eq_length_iff.mp hcount.symm
    refine ⟨hall, ?_⟩
    intro i hi
    have hup := h.uploaded
    rw [List.filter_eq_self.mpr hall] at hup
    exact length_of_upload env hs hup hi
  · rintro ⟨hall, hz⟩
    refine ⟨?_, ?_, counters_total env w hs s l⟩
    · rw [List.filter_eq_self.mpr hall]
      exact upload_eq env hs hl l hz
    · have hloaded : (lineResults env w.file.lines (start s l)).countP (fun r => r.loaded) =
          w.file.lines.length := by
        rw [hdone.length_eq, List.countP_eq_length]
        intro r hr
        obtain ⟨n, -, hn⟩ := exists_of_mem_left hdone.flip hr
        rw [hn.loaded]
        exact hall r hr
      rw [(parsed_records env w hs s l).1, (counters_parsed env w s l).1, hloaded]

def noDevpts : Env :=
  { shadowEnv with
    getsid := fun _ c => if c = "root:object_r:user_devpts_t" then .answer "0" else shadowAnswer c }

/-- The ignored line is uploaded, with the SID 0 in its second link. -/
theorem ignored_line_uploaded :
    (parsed noDevpts shadowFile (fun _ => ⟨0, 0, 0⟩) (fun _ => ⟨0, 0, 0, 0⟩)).loaded = 0 ∧
      (parsed noDevpts shadowFile (fun _ => ⟨0, 0, 0⟩) (fun _ => ⟨0, 0, 0, 0⟩)).ignored = 1 ∧
      (parsed noDevpts shadowFile (fun _ => ⟨0, 0, 0⟩) (fun _ => ⟨0, 0, 0, 0⟩)).currSeq = 1 ∧
      upload (parsed noDevpts shadowFile (fun _ => ⟨0, 0, 0⟩) (fun _ => ⟨0, 0, 0, 0⟩)) =
        [[⟨101, 102, 6, 0x2⟩, ⟨101, 0, 10, 0x4⟩]] ∧
      ¬OnlyResolved shadowFile.file.lines (lineResults noDevpts shadowFile.file.lines zeroed)
        (parsed noDevpts shadowFile (fun _ => ⟨0, 0, 0⟩) (fun _ => ⟨0, 0, 0, 0⟩)) := by
  refine ⟨by decide, by decide, by decide, by decide, ?_⟩
  intro h
  exact absurd h.loaded (by decide)

theorem onlyResolved_iff_shadow :
    OnlyResolved shadowFile.file.lines
        (lineResults shadowEnv shadowFile.file.lines zeroed)
        (parsed shadowEnv shadowFile (fun _ => ⟨0, 0, 0⟩) (fun _ => ⟨0, 0, 0, 0⟩)) ↔
      (∀ r ∈ lineResults shadowEnv shadowFile.file.lines zeroed,
          r.resolved = true) ∧
        ∀ i < shadowFile.file.lines.length, ((fun _ => ⟨0, 0, 0⟩ : U32 → Sequence) (BitVec.ofNat 32 i)).length = 0 :=
  onlyResolved_iff shadowEnv shadowFile (by decide) (by decide) _ _

end dropped

end PigaLinux.PppMemory
