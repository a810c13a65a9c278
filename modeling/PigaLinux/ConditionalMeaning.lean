import PigaLinux.Bits
import PigaLinux.ConditionalRuns

namespace PigaLinux.ConditionalMeaning

open Kernel Bits Rpn SortedLists RuleTable RuleFormat Conditional ConditionalRuns
open ExtensibleBitmap (u32)

def avtabAv : U16 := avtabAllowed ||| avtabAuditallow ||| avtabAuditdeny

section shares

variable {avd : AvDecision} {n : AvtabNode} {b : Nat}

/-- What one rule brings to a decision. -/
structure Share where
  allowed : U32
  auditallow : U32
  auditdeny : U32

def addShare (avd : AvDecision) (s : Share) : AvDecision :=
  { avd with
    allowed := avd.allowed ||| s.allowed
    auditallow := avd.auditallow ||| s.auditallow
    auditdeny := avd.auditdeny &&& s.auditdeny }

theorem getLsbD_foldl {vector : AvDecision → U32} {part : Share → U32}
    (h : ∀ avd s, vector (addShare avd s) = vector avd ||| part s) (ss : List Share) (b : Nat) :
    (vector (ss.foldl addShare avd)).getLsbD b = ((vector avd).getLsbD b || ss.any fun s => (part s).getLsbD b) := by
  induction ss generalizing avd with
  | nil => simp
  | cons s ss ih => rw [List.foldl_cons, ih, h, BitVec.getLsbD_or, List.any_cons, Bool.or_assoc]

theorem auditdeny_foldl (ss : List Share) (b : Nat) :
    (ss.foldl addShare avd).auditdeny.getLsbD b = (avd.auditdeny.getLsbD b && ss.all fun s => s.auditdeny.getLsbD b) := by
  induction ss generalizing avd with
  | nil => simp
  | cons s ss ih => rw [List.foldl_cons, ih, addShare, BitVec.getLsbD_and, List.all_cons, Bool.and_assoc]

def shareOf (inForce : U16 → Bool) (data : U32) : Share where
  allowed := if inForce avtabAllowed then data else 0#32
  auditallow := if inForce avtabAuditallow then data else 0#32
  auditdeny := if inForce avtabAuditdeny then data else BitVec.allOnes 32

theorem condComputeAvNode_eq (avd : AvDecision) (n : AvtabNode) :
    condComputeAvNode avd n = addShare avd (shareOf (enabledFor · n) n.data) := by
  rw [condComputeAvNode, addShare, shareOf]
  cases enabledFor avtabAllowed n <;> cases enabledFor avtabAuditdeny n <;> cases enabledFor avtabAuditallow n <;>
    simp [-BitVec.reduceAllOnes]

theorem condComputeAv_eq (ctab : Avtab) (key : AvtabKey) (avd : AvDecision) :
    condComputeAv ctab key avd = ((visited ctab key).map fun n => shareOf (enabledFor · n) n.data).foldl addShare avd := by
  rw [condComputeAv, List.foldl_map]
  congr 1
  funext avd n
  exact condComputeAvNode_eq avd n

structure Adds (applies : U16 → U32 → Prop) (avd avd' : AvDecision) : Prop where
  allowed : ∀ b, avd'.allowed.getLsbD b = true ↔
    avd.allowed.getLsbD b = true ∨ ∃ data, applies avtabAllowed data ∧ data.getLsbD b = true
  auditallow : ∀ b, avd'.auditallow.getLsbD b = true ↔
    avd.auditallow.getLsbD b = true ∨ ∃ data, applies avtabAuditallow data ∧ data.getLsbD b = true
  auditdeny : ∀ b, avd'.auditdeny.getLsbD b = true ↔
    avd.auditdeny.getLsbD b = true ∧ ∀ data, applies avtabAuditdeny data → data.getLsbD b = true

variable {ι : Type} {items : List ι} {test : ι → U16 → Bool} {data : ι → U32} {applies : U16 → U32 → Prop}

theorem any_share {part : Share → U32} {kind : U16}
    (h : ∀ inForce data, part (shareOf inForce data) = if inForce kind then data else 0#32) :
    ((items.map fun x => shareOf (test x) (data x)).any fun s => (part s).getLsbD b) = true ↔
      ∃ x ∈ items, test x kind = true ∧ (data x).getLsbD b = true := by
  rw [List.any_map, List.any_eq_true]
  apply exists_congr
  intro x
  rw [Function.comp, h]
  cases test x kind <;> simp

theorem all_auditdeny (hb : b < 32) :
    ((items.map fun x => shareOf (test x) (data x)).all fun s => s.auditdeny.getLsbD b) = true ↔
      ¬ ∃ x ∈ items, test x avtabAuditdeny = true ∧ ¬ (data x).getLsbD b = true := by
  rw [List.all_map, List.all_eq_true]
  simp only [not_exists, not_and, not_not]
  apply forall_congr'
  intro x
  rw [Function.comp, shareOf]
  cases test x avtabAuditdeny <;> simp [-BitVec.reduceAllOnes, hb]

theorem adds_foldl (h : ∀ k < 3, ∀ P : U32 → Prop, (∃ x ∈ items, test x (BitVec.twoPow 16 k) = true ∧ P (data x)) ↔
      ∃ data, applies (BitVec.twoPow 16 k) data ∧ P data) (avd : AvDecision) :
    Adds applies avd ((items.map fun x => shareOf (test x) (data x)).foldl addShare avd) where
  allowed b := by
    rw [getLsbD_foldl (fun _ _ => rfl), Bool.or_eq_true, any_share fun _ _ => rfl]
    exact or_congr_right (h 0 (by decide) fun data => data.getLsbD b = true)
  auditallow b := by
    rw [getLsbD_foldl (fun _ _ => rfl), Bool.or_eq_true, any_share fun _ _ => rfl]
    exact or_congr_right (h 1 (by decide) fun data => data.getLsbD b = true)
  auditdeny b := by
    rw [auditdeny_foldl, Bool.and_eq_true]
    apply and_congr_right
    intro hbit
    have hrules := h 2 (by decide) fun data => ¬ data.getLsbD b = true
    rw [all_auditdeny (BitVec.lt_of_getLsbD hbit)]
    exact (not_congr hrules).trans (by simp only [not_exists, not_and, not_not]; rfl)

end shares

/-- The truth of an expression. -/
def truth (bools : List (Option Bool)) : Expr Nat Unit BoolOp → Bool
  | .leaf b => (bools.getD (b - 1) none).getD false
  | .unary _ e => !truth bools e
  | .binary op l r => op.apply (truth bools l) (truth bools r)

/-- The rules that a block puts in force. One whose expression needs more than the
stack has puts none in force. -/
def branch (bools : List (Option Bool)) (e : Expr Nat Unit BoolOp) (node : CondNode) : List Nat :=
  if e.need ≤ condExprMaxdepth then if truth bools e then node.trueList else node.falseList else []

def InForce (p : CondPolicy) (bools : List (Option Bool)) (a : Nat) : Prop :=
  ∃ node ∈ p.condList, ∃ e : Expr Nat Unit BoolOp, e.tokens = node.expr.map CondExpr.token ∧ a ∈ branch bools e node

def RuleAt (h : Avtab) (a : Nat) (kind : U16) (key : AvtabKey) (data : U32) : Prop :=
  ∃ i, ∃ n ∈ chain h i, n.addr = a ∧ triple n.key = triple key ∧ n.key.specified &&& kind ≠ 0 ∧ n.data = data

section expressions

variable {bools : List (Option Bool)} {e : Expr Nat Unit BoolOp} {node : CondNode}

def Bound (nbools : Nat) (e : Expr Nat Unit BoolOp) : Prop := ∀ b, Token.leaf b ∈ e.tokens → 1 ≤ b ∧ b ≤ nbools

theorem boolState_of_bound (hfilled : none ∉ bools) (hsmall : bools.length < 2 ^ 32) {b : Nat} (hb : 1 ≤ b ∧ b ≤ bools.length) :
    boolState bools b = .ok ((bools.getD (b - 1) none).getD false) := by
  have hindex : u32 (b + 2 ^ 32 - 1) = b - 1 := by
    rw [u32]
    omega
  have hlt : b - 1 < bools.length := by omega
  rw [boolState, hindex, List.getD_eq_getElem?_getD, List.getElem?_eq_getElem hlt]
  cases hstate : bools[b - 1] with
  | none => exact absurd (hstate ▸ List.getElem_mem hlt) hfilled
  | some state => rfl

theorem eval_truth (hfilled : none ∉ bools) (hsmall : bools.length < 2 ^ 32) (h : Bound bools.length e) :
    (condMachine bools).eval e = .ok (truth bools e) := by
  induction e with
  | leaf b => exact boolState_of_bound hfilled hsmall (h b (List.mem_singleton_self _))
  | unary u e ih =>
      rw [Machine.eval, ih fun b hb => h b (List.mem_append_left _ hb)]
      rfl
  | binary op l r ihl ihr =>
      rw [Machine.eval, ihl fun b hb => h b (List.mem_append_left _ hb),
        ihr fun b hb => h b (List.mem_append_right _ (List.mem_append_left _ hb))]
      rfl

theorem condEvaluateExpr_tokens (hfilled : none ∉ bools) (hsmall : bools.length < 2 ^ 32) (h : Bound bools.length e)
    (he : e.tokens = node.expr.map CondExpr.token) : condEvaluateExpr bools node.expr =
      some (if e.need ≤ condExprMaxdepth then if truth bools e then 1 else 0 else -1) := by
  rw [condEvaluateExpr, ← he]
  by_cases hneed : e.need ≤ condExprMaxdepth
  · have hcap : ([] : List Bool).length + e.need ≤ (condMachine bools).cap := by
      rw [List.length_nil, Nat.zero_add]
      exact hneed
    rw [if_pos hneed, run_tokens e [] hcap, eval_truth hfilled hsmall h]
    rfl
  · have hcap : (condMachine bools).cap < ([] : List Bool).length + e.need := by
      rw [List.length_nil, Nat.zero_add]
      exact Nat.lt_of_not_le hneed
    have hleaf : ∀ b, Token.leaf b ∈ e.tokens → ∃ x, (condMachine bools).leaf b = .ok x := fun b hb =>
      ⟨_, boolState_of_bound hfilled hsmall (h b hb)⟩
    rw [if_neg hneed, run_overflow hleaf [] (Nat.zero_le _) hcap]
    rfl

theorem mem_branch_iff (hfilled : none ∉ bools) (hsmall : bools.length < 2 ^ 32) (h : Bound bools.length e)
    (he : e.tokens = node.expr.map CondExpr.token) {a : Nat} : a ∈ branch bools e node ↔
      (a ∈ node.trueList ∧ 0 < valueOf bools node) ∨ (a ∈ node.falseList ∧ valueOf bools node = 0) := by
  rw [valueOf, condEvaluateExpr_tokens hfilled hsmall h he, Option.getD_some, branch]
  split
  · split
    · simp
    · simp
  · simp

end expressions

section rules

variable {p : CondPolicy} {rules : List (AvtabKey × U32)} {flags : Nat → Bool} {key : AvtabKey} {k : Nat} {a : Nat}
variable {n : AvtabNode}

theorem enabledFor_iff (hk : k < 15) : enabledFor (BitVec.twoPow 16 k) n = true ↔
    n.key.specified &&& BitVec.twoPow 16 k ≠ 0 ∧ n.key.specified.getLsbD 15 = true := by
  have henabled : avtabEnabled = BitVec.twoPow 16 15 := by decide
  rw [BitVec.and_comm, twoPow_and_ne_zero (by omega), enabledFor, beq_iff_eq, henabled]
  constructor
  · intro heq
    have hbit := fun i => congrArg (fun v => BitVec.getLsbD v i) heq
    simp only [BitVec.getLsbD_and, BitVec.getLsbD_or, BitVec.getLsbD_twoPow] at hbit
    have h15 := hbit 15
    have hk' := hbit k
    simp at h15 hk'
    exact ⟨hk' (by omega), h15⟩
  · rintro ⟨hspec, hon⟩
    apply BitVec.eq_of_getLsbD_eq
    intro i hi
    simp only [BitVec.getLsbD_and, BitVec.getLsbD_or, BitVec.getLsbD_twoPow]
    by_cases hik : k = i
    · subst hik
      simp [hspec]
    · by_cases hi15 : 15 = i
      · subst hi15
        simp [hon]
      · simp [hik, hi15]

theorem flagged_and_ne_zero (hk : k < 15) (on : Bool) (specified : U16) :
    flagged on specified &&& BitVec.twoPow 16 k ≠ 0 ↔ specified &&& BitVec.twoPow 16 k ≠ 0 := by
  rw [BitVec.and_comm, twoPow_and_ne_zero (by omega), BitVec.and_comm, twoPow_and_ne_zero (by omega),
    getLsbD_flagged on specified (by omega), if_neg (by omega)]

theorem ruleAt_iff (hw : Wired p rules flags) (hk : k < 15) {data : U32} :
    RuleAt p.teCondAvtab a (BitVec.twoPow 16 k) key data ↔
      ∃ r, rules[a]? = some r ∧ triple r.1 = triple key ∧ r.1.specified &&& BitVec.twoPow 16 k ≠ 0 ∧ r.2 = data := by
  constructor
  · rintro ⟨i, n, hn, haddr, htriple, hkind, hdata⟩
    obtain ⟨j, r, hr, rfl⟩ := mem_nodesOf.mp ((mem_chain hw.holds).mp ⟨i, hn⟩)
    obtain rfl : j = a := haddr
    exact ⟨r, hr, htriple, (flagged_and_ne_zero hk _ _).mp hkind, hdata⟩
  · rintro ⟨r, hr, htriple, hkind, hdata⟩
    have hn : ⟨a, flaggedKey (flags a) r.1, r.2⟩ ∈ nodesOf rules flags := mem_nodesOf.mpr ⟨a, r, hr, rfl⟩
    obtain ⟨i, hi⟩ := (mem_chain hw.holds).mpr hn
    exact ⟨i, _, hi, rfl, htriple, (flagged_and_ne_zero hk _ _).mpr hkind, hdata⟩

theorem exists_visited_iff {h : Avtab} {rs : List AvtabNode} (hh : Holds h rs) (hkey : key.specified = avtabAv) (hk : k < 3)
    {Q : AvtabNode → Prop} (hQ : ∀ n, Q n → n.key.specified &&& BitVec.twoPow 16 k ≠ 0) :
    (∃ n ∈ visited h key, Q n) ↔ ∃ n ∈ rs, triple n.key = triple key ∧ Q n := by
  have hmask : (plain avtabAv).getLsbD k = true := by
    have hall : ∀ k < 3, (plain avtabAv).getLsbD k = true := by decide
    exact hall k hk
  constructor
  · rintro ⟨n, hn, hq⟩
    obtain ⟨hmem, hwants⟩ := List.mem_filter.mp ((hh.visited key).mem_iff.mp hn)
    exact ⟨n, hmem, (wanted_iff.mp hwants).1, hq⟩
  · rintro ⟨n, hmem, htriple, hq⟩
    refine ⟨n, (hh.visited key).mem_iff.mpr (List.mem_filter.mpr ⟨hmem, wanted_iff.mpr ⟨htriple, ?_⟩⟩), hq⟩
    have hkind := hQ n hq
    rw [BitVec.and_comm, twoPow_and_ne_zero (by omega)] at hkind
    rw [shares, bne_iff_ne, hkey]
    exact and_ne_zero_iff.mpr ⟨k, hmask, hkind⟩

theorem exists_enabled_iff (hw : Wired p rules flags) (hkey : key.specified = avtabAv) (hk : k < 3) (P : U32 → Prop) :
    (∃ n ∈ visited p.teCondAvtab key, enabledFor (BitVec.twoPow 16 k) n = true ∧ P n.data) ↔
      ∃ a data, flags a = true ∧ RuleAt p.teCondAvtab a (BitVec.twoPow 16 k) key data ∧ P data := by
  have hflag : ∀ i, ∀ r : AvtabKey × U32, (flaggedKey (flags i) r.1).specified.getLsbD 15 = flags i := fun i r =>
    getLsbD_flagged _ _ (by decide)
  rw [exists_visited_iff hw.holds hkey hk fun n hn => ((enabledFor_iff (by omega)).mp hn.1).1]
  constructor
  · rintro ⟨n, hmem, htriple, henabled, hdata⟩
    obtain ⟨hkind, hon⟩ := (enabledFor_iff (by omega)).mp henabled
    obtain ⟨i, r, hr, rfl⟩ := mem_nodesOf.mp hmem
    refine ⟨i, r.2, (hflag i r).symm.trans hon, (ruleAt_iff hw (by omega)).mpr ⟨r, hr, htriple, ?_, rfl⟩, hdata⟩
    exact (flagged_and_ne_zero (by omega) _ _).mp hkind
  · rintro ⟨i, data, hon, hrule, hdata⟩
    obtain ⟨r, hr, htriple, hkind, rfl⟩ := (ruleAt_iff hw (by omega)).mp hrule
    have hkind' := (flagged_and_ne_zero (by omega) (flags i) _).mpr hkind
    exact ⟨⟨i, flaggedKey (flags i) r.1, r.2⟩, mem_nodesOf.mpr ⟨i, r, hr, rfl⟩, htriple,
      (enabledFor_iff (by omega)).mpr ⟨hkind', (hflag i r).trans hon⟩, hdata⟩

end rules

section runs

variable {p p' : CondPolicy} {rules : List (AvtabKey × U32)} {flags : Nat → Bool} {key : AvtabKey}

def blank (node : CondNode) : CondNode := { node with curState := 0 }

def taken (bools : List (Option Bool)) (values : List Int) : List (Option Bool) :=
  if values.length = bools.length then boolsOf values else bools

theorem evaluateNodes_blank {bools : List (Option Bool)} {nodes nodes' : List CondNode} {h h' : Avtab}
    (heval : evaluateNodes bools nodes h = some (nodes', h')) : nodes'.map blank = nodes.map blank := by
  induction nodes generalizing h h' nodes' with
  | nil =>
      obtain ⟨rfl, -⟩ := Prod.mk.inj (Option.some.inj heval)
      rfl
  | cons node nodes ih =>
      rw [evaluateNodes] at heval
      obtain ⟨⟨node₁, h₁⟩, hnode, heval⟩ := Option.bind_eq_some_iff.mp heval
      obtain ⟨⟨nodes₁, h₂⟩, hnodes, heval⟩ := Option.map_eq_some_iff.mp heval
      obtain ⟨rfl, -⟩ := Prod.mk.inj heval
      obtain ⟨v, -, hnode⟩ := Option.map_eq_some_iff.mp hnode
      have hblank : blank node₁ = blank node := by
        split at hnode
        · obtain ⟨rfl, -⟩ := Prod.mk.inj hnode
          rfl
        · obtain ⟨rfl, -⟩ := Prod.mk.inj hnode
          rfl
      rw [List.map_cons, List.map_cons, hblank, ih hnodes]

theorem setBools_same {values : List Int} (h : setBools p values = some p') :
    p'.condList.map blank = p.condList.map blank ∧ p'.bools = taken p.bools values := by
  obtain ⟨⟨rc, p₁⟩, hset, rfl⟩ := Option.map_eq_some_iff.mp h
  rw [securitySetBools] at hset
  rw [taken]
  split at hset
  next hne =>
    obtain ⟨-, rfl⟩ := Prod.mk.inj (Option.some.inj hset)
    exact ⟨rfl, (if_neg hne).symm⟩
  split at hset
  · exact absurd hset.symm (Option.some_ne_none _)
  next heq _ =>
    obtain ⟨⟨nodes, h'⟩, heval, hset⟩ := Option.map_eq_some_iff.mp hset
    obtain ⟨-, rfl⟩ := Prod.mk.inj hset
    exact ⟨evaluateNodes_blank heval, (if_pos (not_not.mp heq)).symm⟩

theorem setAll_same {calls : List (List Int)} (h : setAll p calls = some p') :
    p'.condList.map blank = p.condList.map blank ∧ p'.bools = calls.foldl taken p.bools := by
  induction calls generalizing p with
  | nil =>
      obtain rfl := Option.some.inj h
      exact ⟨rfl, rfl⟩
  | cons values calls ih =>
      rw [setAll, List.foldlM_cons] at h
      obtain ⟨p₁, hset, hrest⟩ := Option.bind_eq_some_iff.mp h
      obtain ⟨hblank, hbools⟩ := setBools_same hset
      obtain ⟨hblank', hbools'⟩ := ih hrest
      rw [List.foldl_cons, ← hbools]
      exact ⟨hblank'.trans hblank, hbools'⟩

theorem length_foldl_taken (bools : List (Option Bool)) (calls : List (List Int)) :
    (calls.foldl taken bools).length = bools.length := by
  induction calls generalizing bools with
  | nil => rfl
  | cons values calls ih =>
      rw [List.foldl_cons, ih, taken]
      split
      next heq => rw [boolsOf, List.length_map, heq]
      next => rfl

theorem inForce_congr (h : p'.condList.map blank = p.condList.map blank) {bools : List (Option Bool)} {a : Nat} :
    InForce p' bools a ↔ InForce p bools a := by
  have hblank : ∀ q : CondPolicy, InForce q bools a ↔ ∃ node ∈ q.condList.map blank, ∃ e : Expr Nat Unit BoolOp,
      e.tokens = node.expr.map CondExpr.token ∧ a ∈ branch bools e node := by
    intro q
    constructor
    · rintro ⟨node, hnode, h⟩
      exact ⟨blank node, List.mem_map_of_mem hnode, h⟩
    · rintro ⟨_, hmem, h⟩
      obtain ⟨node, hnode, rfl⟩ := List.mem_map.mp hmem
      exact ⟨node, hnode, h⟩
  rw [hblank p', hblank p, h]

theorem flag_iff (hw : Wired p rules flags) (hs : Settled p flags) (hfilled : none ∉ p.bools) (hsmall : p.bools.length < 2 ^ 32)
    (hspelled : ∀ node ∈ p.condList, ∃ e : Expr Nat Unit BoolOp,
      e.tokens = node.expr.map CondExpr.token ∧ Bound p.bools.length e) {a : Nat} (ha : a < rules.length) :
    flags a = true ↔ InForce p p.bools a := by
  constructor
  · intro hon
    have hmem : a ∈ p.condList.flatMap lists := by
      rw [hw.lists]
      exact List.mem_range.mpr ha
    obtain ⟨node, hnode, hlists⟩ := List.mem_flatMap.mp hmem
    obtain ⟨e, he, hbound⟩ := hspelled node hnode
    obtain ⟨hcur, hobeys⟩ := hs node hnode
    rw [hcur] at hobeys
    refine ⟨node, hnode, e, he, (mem_branch_iff hfilled hsmall hbound he).mpr ?_⟩
    rcases List.mem_append.mp hlists with htrue | hfalse
    · exact Or.inl ⟨htrue, of_decide_eq_true ((hobeys.ifTrue a htrue).symm.trans hon)⟩
    · exact Or.inr ⟨hfalse, of_decide_eq_true ((hobeys.ifFalse a hfalse).symm.trans hon)⟩
  · rintro ⟨node, hnode, e, he, hbranch⟩
    obtain ⟨e', he', hbound⟩ := hspelled node hnode
    obtain rfl : e = e' := tokens_injective (he.trans he'.symm)
    obtain ⟨hcur, hobeys⟩ := hs node hnode
    rw [hcur] at hobeys
    rcases (mem_branch_iff hfilled hsmall hbound he).mp hbranch with ⟨htrue, hpos⟩ | ⟨hfalse, hzero⟩
    · exact (hobeys.ifTrue a htrue).trans (decide_eq_true hpos)
    · exact (hobeys.ifFalse a hfalse).trans (decide_eq_true hzero)

/-- The rules of a kind that the blocks put in force for a key. -/
def Applies (p : CondPolicy) (bools : List (Option Bool)) (kind : U16) (key : AvtabKey) (data : U32) : Prop :=
  ∃ a, InForce p bools a ∧ RuleAt p.teCondAvtab a kind key data

theorem Loaded.bound (hp : Loaded p) (hn : Named p) {node : CondNode} (hnode : node ∈ p.condList) {e : Expr Nat Unit BoolOp}
    (he : e.tokens = node.expr.map CondExpr.token) : Bound p.bools.length e := by
  intro b hb
  rw [he] at hb
  obtain ⟨⟨exprType, bool⟩, hx, htoken⟩ := List.mem_map.mp hb
  cases exprType with
  | leaf u =>
      obtain rfl : bool = b := Token.leaf.inj htoken
      exact ⟨Nat.pos_of_ne_zero ((hn.nodes node hnode).2 _ hx u rfl), hp.wired.2 node hnode _ hx⟩
  | unary u => cases htoken
  | binary op => cases htoken

theorem adds_condComputeAv (hw : Wired p rules flags) (hs : Settled p flags) (hfilled : none ∉ p.bools)
    (hsmall : p.bools.length < 2 ^ 32)
    (hspelled : ∀ node ∈ p.condList, ∃ e : Expr Nat Unit BoolOp,
      e.tokens = node.expr.map CondExpr.token ∧ Bound p.bools.length e) (hkey : key.specified = avtabAv) (avd : AvDecision) :
    Adds (fun kind data => Applies p p.bools kind key data) avd (condComputeAv p.teCondAvtab key avd) := by
  rw [condComputeAv_eq]
  refine adds_foldl (fun k hk P => ?_) avd
  rw [exists_enabled_iff hw hkey hk P]
  constructor
  · rintro ⟨a, data, hon, hrule, hdata⟩
    obtain ⟨r, hr, -⟩ := (ruleAt_iff hw (by omega)).mp hrule
    exact ⟨data, ⟨a, (flag_iff hw hs hfilled hsmall hspelled (List.getElem?_eq_some_iff.mp hr).1).mp hon, hrule⟩, hdata⟩
  · rintro ⟨data, ⟨a, hforce, hrule⟩, hdata⟩
    obtain ⟨r, hr, -⟩ := (ruleAt_iff hw (by omega)).mp hrule
    exact ⟨a, data, (flag_iff hw hs hfilled hsmall hspelled (List.getElem?_eq_some_iff.mp hr).1).mpr hforce, hrule, hdata⟩

/-- After any calls of security_set_bools, of which one at least is taken,
cond_compute_av decides by the booleans of the last one that was: it adds the
rules of the branch that the truth of each expression selects, and no others. -/
theorem setAll_condComputeAv (p : CondPolicy) (hp : Loaded p) (hn : Named p) (hsmall : p.bools.length < 2 ^ 32)
    (hspelled : ∀ node ∈ p.condList, ∃ e : Expr Nat Unit BoolOp, e.tokens = node.expr.map CondExpr.token)
    (hrules : ∀ node ∈ p.condList, Follows p node node.curState ∨
      ∀ bools : List Bool, bools.length = p.bools.length → condEvaluateExpr (bools.map some) node.expr ≠ some node.curState)
    (calls : List (List Int)) (htaken : ∃ values ∈ calls, values.length = p.bools.length) :
    ∃ p', setAll p calls = some p' ∧ ∀ key, key.specified = avtabAv → ∀ avd,
      Adds (fun kind data => Applies p (calls.foldl taken p.bools) kind key data) avd
        (condComputeAv p'.teCondAvtab key avd) := by
  obtain ⟨⟨rules, flags, hw⟩, -⟩ := hp.wired
  have he := hp.evaluable hn
  obtain ⟨p', flags', hall, hw', he', hsettled⟩ := setAll_settled hw he ((repairable_iff hw he).mp hrules) calls
  obtain ⟨hblank, hbools⟩ := setAll_same hall
  have hlen : p'.bools.length = p.bools.length := by rw [hbools, length_foldl_taken]
  have hspelled' : ∀ node ∈ p'.condList, ∃ e : Expr Nat Unit BoolOp,
      e.tokens = node.expr.map CondExpr.token ∧ Bound p'.bools.length e := by
    intro node hnode
    have hmem : blank node ∈ p.condList.map blank := hblank ▸ List.mem_map_of_mem hnode
    obtain ⟨node₀, hnode₀, heq⟩ := List.mem_map.mp hmem
    have hexpr : node₀.expr = node.expr := (CondNode.mk.inj heq).2.1
    obtain ⟨e, he⟩ := hspelled node₀ hnode₀
    exact ⟨e, hexpr ▸ he, hlen ▸ Loaded.bound hp hn hnode₀ he⟩
  refine ⟨p', hall, fun key hkey avd => ?_⟩
  have hadds := adds_condComputeAv hw' (hsettled (Or.inr htaken)) he'.filled (hlen ▸ hsmall) hspelled' hkey avd
  -- the rules and the blocks are still those that were loaded
  have happlies : ∀ k < 15, ∀ data, Applies p' p'.bools (BitVec.twoPow 16 k) key data ↔
      Applies p (calls.foldl taken p.bools) (BitVec.twoPow 16 k) key data := by
    intro k hk data
    apply exists_congr
    intro a
    rw [inForce_congr hblank, hbools, ruleAt_iff hw' hk, ruleAt_iff hw hk]
  refine ⟨fun b => (hadds.allowed b).trans ?_, fun b => (hadds.auditallow b).trans ?_, fun b => (hadds.auditdeny b).trans ?_⟩
  · exact or_congr_right (exists_congr fun data => and_congr_left fun _ => happlies 0 (by decide) data)
  · exact or_congr_right (exists_congr fun data => and_congr_left fun _ => happlies 1 (by decide) data)
  · exact and_congr_right fun _ => forall_congr' fun data => imp_congr_left (happlies 2 (by decide) data)

theorem setAll_condComputeAv_oneBlock :
    ∃ p p' : CondPolicy, p.bools = [some false] ∧ p.condList.length = 1 ∧ setAll p [[1], [1, 0]] = some p' ∧
      ∀ key, key.specified = avtabAv → ∀ avd,
        Adds (fun kind data => Applies p [some true] kind key data) avd (condComputeAv p'.teCondAvtab key avd) := by
  obtain ⟨p, hp, hn, hbools, hlist, hnever⟩ := oneBlock_loaded
  have hspelled : ∀ node ∈ p.condList, ∃ e : Expr Nat Unit BoolOp, e.tokens = node.expr.map CondExpr.token := by
    rw [hlist, List.forall_mem_singleton]
    exact ⟨.leaf 1, rfl⟩
  obtain ⟨p', hall, hadds⟩ := setAll_condComputeAv p hp hn (by rw [hbools]; decide) hspelled
    (fun node hnode => Or.inr (hnever node hnode)) [[1], [1, 0]] ⟨[1], List.mem_cons_self, by rw [hbools]; rfl⟩
  rw [hbools] at hadds
  exact ⟨p, p', hbools, by rw [hlist]; rfl, hall, hadds⟩

end runs

end PigaLinux.ConditionalMeaning
