import PigaLinux.RuleFormat
import PigaLinux.Rpn

namespace PigaLinux.Conditional

open Kernel Bytes Rpn SortedLists RuleTable RuleFormat
open BitmapFormat (asInt)
open ExtensibleBitmap (u32)

def condExprMaxdepth : Nat := 10

inductive BoolOp
  | or
  | and
  | xor
  | eq
  | neq
deriving DecidableEq, Repr

def BoolOp.apply : BoolOp → Bool → Bool → Bool
  | .or, x, y => x || y
  | .and, x, y => x && y
  | .xor, x, y => x ^^ y
  | .eq, x, y => x == y
  | .neq, x, y => x != y

/-- An element of an expression. Every element has a field for a boolean, which
only COND_BOOL reads. -/
structure CondExpr where
  exprType : Token Unit Unit BoolOp
  bool : Nat

def CondExpr.token (x : CondExpr) : Token Nat Unit BoolOp :=
  match x.exprType with
  | .leaf _ => .leaf x.bool
  | .unary u => .unary u
  | .binary b => .binary b

/-- The ways in which an evaluation ends early: with -1, or with a read
outside the array of booleans, of which nothing is known. -/
inductive Undefined
  | minusOne
  | wild

/-- Booleans count from 1; number 0 is the index 2^32 - 1. A pointer is set only
for the booleans that are there. -/
def boolState (bools : List (Option Bool)) (bool : Nat) : Except Undefined Bool :=
  match bools[u32 (bool + 2 ^ 32 - 1)]? with
  | some (some state) => .ok state
  | _ => .error .wild

def condMachine (bools : List (Option Bool)) : Machine Nat Unit BoolOp Bool Undefined where
  cap := condExprMaxdepth
  overflow := .minusOne
  underflow := .minusOne
  leaf := boolState bools
  unary _ x := !x
  binary := BoolOp.apply

/-- The result is the lowest cell of the stack, also when others are left over
it. It is not set when there was no operand at all. -/
def condEvaluateExpr (bools : List (Option Bool)) (expr : List CondExpr) : Option Int :=
  match (condMachine bools).run (expr.map CondExpr.token) [] with
  | .error .minusOne => some (-1)
  | .error .wild => none
  | .ok st => st.getLast?.map fun v => if v then 1 else 0

/-- A conditional block. Its rules are nodes of the conditional table. -/
structure CondNode where
  curState : Int
  expr : List CondExpr
  trueList : List Nat
  falseList : List Nat

structure CondPolicy where
  bools : List (Option Bool)
  condList : List CondNode
  teCondAvtab : Avtab
  latestGranting : U32

def flagged (on : Bool) (specified : U16) : U16 := if on then specified ||| avtabEnabled else specified &&& ~~~avtabEnabled

def setFlag (on : Bool) (addr : Nat) (n : AvtabNode) : AvtabNode :=
  if n.addr = addr then { n with key := { n.key with specified := flagged on n.key.specified } } else n

def mapNodes (f : AvtabNode → AvtabNode) (h : Avtab) : Avtab :=
  { h with htable := h.htable.map fun tab i => (tab i).map f }

def switchRules (on : Bool) (rules : List Nat) (h : Avtab) : Avtab :=
  rules.foldl (fun h addr => mapNodes (setFlag on addr) h) h

def evaluateCondNode (bools : List (Option Bool)) (node : CondNode) (h : Avtab) : Option (CondNode × Avtab) :=
  (condEvaluateExpr bools node.expr).map fun newState =>
    if newState ≠ node.curState then
      ({ node with curState := newState },
        switchRules (newState = 0) node.falseList (switchRules (0 < newState) node.trueList h))
    else (node, h)

def evaluateNodes (bools : List (Option Bool)) : List CondNode → Avtab → Option (List CondNode × Avtab)
  | [], h => some ([], h)
  | node :: nodes, h =>
      (evaluateCondNode bools node h).bind fun (node, h) =>
        (evaluateNodes bools nodes h).map fun (nodes, h) => (node :: nodes, h)

def boolsOf (values : List Int) : List (Option Bool) := values.map fun value => some (decide (value ≠ 0))

def securitySetBools (p : CondPolicy) (values : List Int) : Option (Int × CondPolicy) :=
  if values.length ≠ p.bools.length then some (-efault, p)
  -- the old states are compared with the new ones, through pointers of which some may not be set
  else if p.bools.contains none then none
  else
    (evaluateNodes (boolsOf values) p.condList p.teCondAvtab).map fun (nodes, h) =>
      (0, ⟨boolsOf values, nodes, h, p.latestGranting + 1⟩)

def enabledFor (kind : U16) (n : AvtabNode) : Bool := n.key.specified &&& (kind ||| avtabEnabled) == kind ||| avtabEnabled

def condComputeAvNode (avd : AvDecision) (n : AvtabNode) : AvDecision :=
  let avd := if enabledFor avtabAllowed n then { avd with allowed := avd.allowed ||| n.data } else avd
  let avd := if enabledFor avtabAuditdeny n then { avd with auditdeny := avd.auditdeny &&& n.data } else avd
  if enabledFor avtabAuditallow n then { avd with auditallow := avd.auditallow ||| n.data } else avd

def condComputeAv (ctab : Avtab) (key : AvtabKey) (avd : AvDecision) : AvDecision :=
  (visited ctab key).foldl condComputeAvNode avd

inductive Allocation
  | slots
  | rule (nel : Nat)
  | entry (nel : Nat)
  | expr (i : Nat)
  | node (i : Nat)

/-- The checks on type rules. The list of the other branch is NULL while the
true branch is read, and also when the true branch has no rules. -/
def conflicts (teAvtab : Avtab) (other : List Nat) (h : Avtab) (key : AvtabKey) : Bool :=
  (avtabSearch teAvtab key).isSome ||
    match other with
    | [] => (avtabSearch h key).isSome
    | _ :: _ =>
        match avtabSearchNode h key with
        | [] => false
        | n :: rest => !(avtabSearchNodeNext (n :: rest) key.specified).isEmpty || !other.contains n.addr

def condInsertf (teAvtab : Avtab) (other : List Nat) (memory : Allocation → Bool) (key : AvtabKey) (data : U32)
    (st : Avtab × List Nat) : Except Int (Avtab × List Nat) :=
  if key.specified &&& avtabType ≠ 0 ∧ conflicts teAvtab other st.1 key = true then .error (-einval)
  else
    match avtabInsertNonunique (memory (.rule st.1.nel)) st.1 key data with
    | (none, _) => .error (-enomem)
    | (some addr, h) => if memory (.entry st.1.nel) then .ok (h, st.2 ++ [addr]) else .error (-enomem)

def readRules (p : Symbols) (teAvtab : Avtab) (other : List Nat) (memory : Allocation → Bool) :
    Nat → Avtab × List Nat → List Byte → Except Int ((Avtab × List Nat) × List Byte)
  | 0, st, fp => .ok (st, fp)
  | n + 1, st, fp =>
      (avtabReadItem p (condInsertf teAvtab other memory) st fp).bind fun (st, fp) =>
        readRules p teAvtab other memory n st fp

def condReadAvList (p : Symbols) (teAvtab : Avtab) (other : List Nat) (memory : Allocation → Bool) (h : Avtab)
    (fp : List Byte) : Except Int ((Avtab × List Nat) × List Byte) :=
  (nextEntry 4 fp).bind fun (buf, fp) => readRules p teAvtab other memory (leValue buf) (h, []) fp

def exprTypeOf : Nat → Option (Token Unit Unit BoolOp)
  | 1 => some (.leaf ())
  | 2 => some (.unary ())
  | 3 => some (.binary .or)
  | 4 => some (.binary .and)
  | 5 => some (.binary .xor)
  | 6 => some (.binary .eq)
  | 7 => some (.binary .neq)
  | _ => none

def readExpr (nbools : Nat) (memory : Allocation → Bool) : Nat → List CondExpr → List Byte →
    Except Int (List CondExpr × List Byte)
  | 0, expr, fp => .ok (expr, fp)
  | n + 1, expr, fp =>
      (nextEntry 8 fp).bind fun (buf, fp) =>
        if memory (.expr expr.length) = false then .error (-enomem)
        else
          match exprTypeOf (leValue (buf.take 4)) with
          | none => .error (-einval)
          | some exprType =>
              if leValue (buf.drop 4) > nbools then .error (-einval)
              else readExpr nbools memory n (expr ++ [⟨exprType, leValue (buf.drop 4)⟩]) fp

def condReadNode (p : Symbols) (nbools : Nat) (teAvtab : Avtab) (memory : Allocation → Bool) (h : Avtab) (fp : List Byte) :
    Except Int (CondNode × Avtab × List Byte) :=
  (nextEntry 4 fp).bind fun (buf, fp) =>
    (nextEntry 4 fp).bind fun (len, fp) =>
      (readExpr nbools memory (leValue len) [] fp).bind fun (expr, fp) =>
        (condReadAvList p teAvtab [] memory h fp).bind fun ((h, trueList), fp) =>
          (condReadAvList p teAvtab trueList memory h fp).bind fun ((h, falseList), fp) =>
            .ok (⟨asInt (leValue buf), expr, trueList, falseList⟩, h, fp)

def readNodes (p : Symbols) (nbools : Nat) (teAvtab : Avtab) (memory : Allocation → Bool) :
    Nat → List CondNode → Avtab → List Byte → Except Int (List CondNode × Avtab × List Byte)
  | 0, nodes, h, fp => .ok (nodes, h, fp)
  | n + 1, nodes, h, fp =>
      if memory (.node nodes.length) = false then .error (-enomem)
      else (condReadNode p nbools teAvtab memory h fp).bind fun (node, h, fp) =>
        readNodes p nbools teAvtab memory n (nodes ++ [node]) h fp

def condReadList (p : Symbols) (nbools : Nat) (teAvtab : Avtab) (memory : Allocation → Bool) (fp : List Byte) :
    Except Int (List CondNode × Avtab × List Byte) :=
  (nextEntry 4 fp).bind fun (buf, fp) =>
    (avtabAlloc (memory .slots) avtabInit teAvtab.nel).bind fun h => readNodes p nbools teAvtab memory (leValue buf) [] h fp

section flags

variable {h : Avtab} {rs : List AvtabNode} {rules : List (AvtabKey × U32)} {flags : Nat → Bool} {on : Bool}

theorem getLsbD_flagged (on : Bool) (specified : U16) {i : Nat} (hi : i < 16) :
    (flagged on specified).getLsbD i = if i = 15 then on else specified.getLsbD i := by
  have hbit : avtabEnabled.getLsbD i = decide (i = 15) := by
    have : avtabEnabled = BitVec.twoPow 16 15 := by decide
    rw [this, BitVec.getLsbD_twoPow]
    simp [eq_comm]
  cases on with
  | true =>
      rw [flagged, if_pos rfl, BitVec.getLsbD_or, hbit]
      split
      next h15 => rw [h15, decide_eq_true rfl, Bool.or_true]
      next h15 => rw [decide_eq_false h15, Bool.or_false]
  | false =>
      rw [flagged, if_neg Bool.false_ne_true, BitVec.getLsbD_and, BitVec.getLsbD_not, hbit, decide_eq_true hi,
        Bool.true_and]
      split
      next h15 => rw [h15, decide_eq_true rfl, Bool.not_true, Bool.and_false]
      next h15 => rw [decide_eq_false h15, Bool.not_false, Bool.and_true]

theorem flagged_flagged (on on' : Bool) (specified : U16) : flagged on (flagged on' specified) = flagged on specified := by
  apply BitVec.eq_of_getLsbD_eq
  intro i hi
  rw [getLsbD_flagged on _ hi, getLsbD_flagged on _ hi, getLsbD_flagged on' _ hi]
  split
  · rfl
  · rfl

theorem flagged_self (specified : U16) : flagged (specified.getLsbD 15) specified = specified := by
  apply BitVec.eq_of_getLsbD_eq
  intro i hi
  rw [getLsbD_flagged _ _ hi]
  split
  next h15 => rw [h15]
  next => rfl

def flaggedKey (on : Bool) (key : AvtabKey) : AvtabKey := { key with specified := flagged on key.specified }

def nodesOf (rules : List (AvtabKey × U32)) (flags : Nat → Bool) : List AvtabNode :=
  rules.mapIdx fun i r => ⟨i, flaggedKey (flags i) r.1, r.2⟩

theorem map_setFlag (on : Bool) (addr : Nat) :
    (nodesOf rules flags).map (setFlag on addr) = nodesOf rules (Function.update flags addr on) := by
  apply List.ext_getElem?
  intro i
  rw [List.getElem?_map, nodesOf, nodesOf, List.getElem?_mapIdx, List.getElem?_mapIdx, Option.map_map]
  congr 1
  funext r
  rw [Function.comp, setFlag]
  split
  next hi =>
    obtain rfl : i = addr := hi
    rw [Function.update_self]
    simp only [flaggedKey, flagged_flagged]
  next hi => rw [Function.update_of_ne hi]

theorem mapNodes_holds {f : AvtabNode → AvtabNode} (hf : ∀ n, nodeTriple (f n) = nodeTriple n) (hh : Holds h rs) :
    Holds (mapNodes f h) (rs.map f) := by
  have hchain : ∀ i, chain (mapNodes f h) i = (chain h i).map f := by
    intro i
    rw [chain, chain, mapNodes]
    cases h.htable with
    | none => rfl
    | some tab => rfl
  refine ⟨?_, fun i => ?_, fun i => ?_, ?_⟩
  · rw [mapNodes, Option.isSome_map]
    exact hh.ready
  · rw [hchain]
    refine List.pairwise_map.mpr ((hh.sorted i).imp ?_)
    intro a b hab
    rwa [hf, hf]
  · rw [hchain, List.filter_map]
    refine (hh.content i).map f |>.trans (List.Perm.of_eq ?_)
    congr 1
    apply List.filter_congr
    intro n _
    change _ = decide (avtabHash (f n).key h.mask = i)
    rw [hash_of_triple (hf n)]
  · rw [List.length_map]
    exact hh.nel

theorem nodeTriple_setFlag (on : Bool) (addr : Nat) (n : AvtabNode) : nodeTriple (setFlag on addr n) = nodeTriple n := by
  rw [setFlag]
  split
  · rfl
  · rfl

theorem switchRules_holds (hh : Holds h (nodesOf rules flags)) (on : Bool) (addrs : List Nat) :
    Holds (switchRules on addrs h) (nodesOf rules fun a => if a ∈ addrs then on else flags a) := by
  induction addrs generalizing h flags with
  | nil => simpa [switchRules] using hh
  | cons addr addrs ih =>
      have hstep := mapNodes_holds (nodeTriple_setFlag on addr) hh
      rw [map_setFlag] at hstep
      have hflags : (fun a => if a ∈ addr :: addrs then on else flags a) =
          fun a => if a ∈ addrs then on else Function.update flags addr on a := by
        funext a
        by_cases ha : a = addr
        · subst ha
          simp
        · simp [ha]
      rw [hflags]
      exact ih hstep

/-- The rules of a block obey a value: those of the branch that it selects are
on, the others are off. -/
structure Obeys (v : Int) (node : CondNode) (flags : Nat → Bool) : Prop where
  ifTrue : ∀ a ∈ node.trueList, flags a = decide (0 < v)
  ifFalse : ∀ a ∈ node.falseList, flags a = decide (v = 0)

def settle (v : Int) (node : CondNode) (flags : Nat → Bool) : Nat → Bool :=
  if v ≠ node.curState then
    fun a => if a ∈ node.falseList then decide (v = 0) else if a ∈ node.trueList then decide (0 < v) else flags a
  else flags

def settleAll (val : CondNode → Int) (nodes : List CondNode) (flags : Nat → Bool) : Nat → Bool :=
  nodes.foldl (fun flags node => settle (val node) node flags) flags

theorem evaluateNodes_holds {bools : List (Option Bool)} {val : CondNode → Int} {nodes : List CondNode}
    (hval : ∀ node ∈ nodes, condEvaluateExpr bools node.expr = some (val node)) (hh : Holds h (nodesOf rules flags)) :
    ∃ h', evaluateNodes bools nodes h = some (nodes.map fun node => { node with curState := val node }, h') ∧
      Holds h' (nodesOf rules (settleAll val nodes flags)) := by
  induction nodes generalizing h flags with
  | nil => exact ⟨h, rfl, hh⟩
  | cons node nodes ih =>
      obtain ⟨hnode, hnodes⟩ := List.forall_mem_cons.mp hval
      obtain ⟨h₁, heval, hh₁⟩ : ∃ h₁, evaluateCondNode bools node h = some ({ node with curState := val node }, h₁) ∧
          Holds h₁ (nodesOf rules (settle (val node) node flags)) := by
        rw [evaluateCondNode, hnode, settle]
        by_cases hne : val node ≠ node.curState
        · refine ⟨_, by rw [Option.map_some, if_pos hne], ?_⟩
          rw [if_pos hne]
          exact switchRules_holds (switchRules_holds hh _ _) _ _
        · have hcur : node.curState = val node := (not_not.mp hne).symm
          refine ⟨h, ?_, by rw [if_neg hne]; exact hh⟩
          rw [Option.map_some, if_neg hne, ← hcur]
      obtain ⟨h', hrest, hh'⟩ := ih hnodes hh₁
      refine ⟨h', ?_, hh'⟩
      rw [evaluateNodes, heval, Option.bind_some]
      dsimp only
      rw [hrest]
      rfl

def lists (node : CondNode) : List Nat := node.trueList ++ node.falseList

theorem settle_of_not_mem {v : Int} {node : CondNode} {a : Nat} (ha : a ∉ lists node) : settle v node flags a = flags a := by
  obtain ⟨htrue, hfalse⟩ := not_or.mp (mt List.mem_append.mpr ha)
  rw [settle]
  split
  · dsimp only
    rw [if_neg hfalse, if_neg htrue]
  · rfl

theorem settle_obeys {v : Int} {node : CondNode} (hnodup : (lists node).Nodup) :
    Obeys v node (settle v node flags) ↔ v ≠ node.curState ∨ Obeys v node flags := by
  rw [settle]
  by_cases hne : v ≠ node.curState
  · refine iff_of_true ?_ (Or.inl hne)
    obtain ⟨-, -, hdisjoint⟩ := List.nodup_append.mp hnodup
    rw [if_pos hne]
    constructor
    · intro a ha
      rw [if_neg (fun hfalse => hdisjoint a ha a hfalse rfl), if_pos ha]
    · intro a ha
      rw [if_pos ha]
  · rw [if_neg hne]
    exact (or_iff_right hne).symm

theorem settle_congr {v : Int} {node : CondNode} {flags' : Nat → Bool} {a : Nat} (h : flags a = flags' a) :
    settle v node flags a = settle v node flags' a := by
  rw [settle, settle]
  split
  · dsimp only
    rw [h]
  · exact h

theorem settleAll_of_not_mem {val : CondNode → Int} {nodes : List CondNode} {a : Nat} (ha : a ∉ nodes.flatMap lists) :
    settleAll val nodes flags a = flags a := by
  induction nodes generalizing flags with
  | nil => rfl
  | cons node nodes ih =>
      rw [List.flatMap_cons] at ha
      obtain ⟨hnode, hnodes⟩ := not_or.mp (mt List.mem_append.mpr ha)
      exact (ih hnodes).trans (settle_of_not_mem hnode)

theorem settleAll_eq {val : CondNode → Int} {nodes : List CondNode} (hnodup : (nodes.flatMap lists).Nodup) :
    ∀ node ∈ nodes, ∀ a ∈ lists node, settleAll val nodes flags a = settle (val node) node flags a := by
  induction nodes generalizing flags with
  | nil => exact fun node hnode => absurd hnode List.not_mem_nil
  | cons first nodes ih =>
      rw [List.flatMap_cons] at hnodup
      obtain ⟨-, hrest, hdisjoint⟩ := List.nodup_append.mp hnodup
      intro node hnode a ha
      rcases List.mem_cons.mp hnode with rfl | hnode
      · exact settleAll_of_not_mem fun hmem => hdisjoint a ha a hmem rfl
      · have hfirst : a ∉ lists first := fun hmem =>
          hdisjoint a hmem a (List.mem_flatMap.mpr ⟨node, hnode, ha⟩) rfl
        exact (ih hrest node hnode a ha).trans (settle_congr (settle_of_not_mem hfirst))

theorem obeys_congr {v : Int} {node : CondNode} {flags' : Nat → Bool} (h : ∀ a ∈ lists node, flags a = flags' a) :
    Obeys v node flags ↔ Obeys v node flags' := by
  have htrue : ∀ a ∈ node.trueList, flags a = flags' a := fun a ha => h a (List.mem_append_left _ ha)
  have hfalse : ∀ a ∈ node.falseList, flags a = flags' a := fun a ha => h a (List.mem_append_right _ ha)
  constructor
  · rintro ⟨hifTrue, hifFalse⟩
    exact ⟨fun a ha => htrue a ha ▸ hifTrue a ha, fun a ha => hfalse a ha ▸ hifFalse a ha⟩
  · rintro ⟨hifTrue, hifFalse⟩
    exact ⟨fun a ha => (htrue a ha).trans (hifTrue a ha), fun a ha => (hfalse a ha).trans (hifFalse a ha)⟩

theorem settleAll_obeys {val : CondNode → Int} {nodes : List CondNode} (hnodup : (nodes.flatMap lists).Nodup)
    {node : CondNode} (hnode : node ∈ nodes) :
    Obeys (val node) node (settleAll val nodes flags) ↔ val node ≠ node.curState ∨ Obeys (val node) node flags := by
  rw [obeys_congr (settleAll_eq hnodup node hnode)]
  exact settle_obeys ((List.nodup_flatMap.mp hnodup).1 node hnode)

end flags

/-- A policy whose conditional table holds some rules, each of them in one list
of one block, with some flags. -/
structure Wired (p : CondPolicy) (rules : List (AvtabKey × U32)) (flags : Nat → Bool) : Prop where
  holds : Holds p.teCondAvtab (nodesOf rules flags)
  lists : p.condList.flatMap lists = List.range rules.length

/-- What the reader does not check: the booleans are all there, and expressions evaluate, whatever they are. -/
structure Evaluable (p : CondPolicy) : Prop where
  filled : none ∉ p.bools
  nodes : ∀ node ∈ p.condList, ∀ bools : List Bool, bools.length = p.bools.length →
    (condEvaluateExpr (bools.map some) node.expr).isSome = true

def valueOf (bools : List (Option Bool)) (node : CondNode) : Int := (condEvaluateExpr bools node.expr).getD 0

/-- A call that is made while others may follow; it can be refused. -/
def setBools (p : CondPolicy) (values : List Int) : Option CondPolicy := (securitySetBools p values).map Prod.snd

def setAll (p : CondPolicy) (calls : List (List Int)) : Option CondPolicy := calls.foldlM setBools p

section runs

variable {p : CondPolicy} {rules : List (AvtabKey × U32)} {flags : Nat → Bool} {values : List Int}

theorem Wired.nodup (hw : Wired p rules flags) : (p.condList.flatMap Conditional.lists).Nodup := by
  rw [hw.lists]
  exact List.nodup_range

theorem setBools_refused (h : values.length ≠ p.bools.length) : setBools p values = some p := by
  rw [setBools, securitySetBools, if_pos h]
  rfl

/-- A call that is taken: the blocks get their values, and the flags follow. -/
theorem Wired.setBools (hw : Wired p rules flags) (he : Evaluable p) (h : values.length = p.bools.length) :
    ∃ p', setBools p values = some p' ∧ p'.bools = boolsOf values ∧
      p'.condList = p.condList.map (fun node => { node with curState := valueOf (boolsOf values) node }) ∧
      Wired p' rules (settleAll (valueOf (boolsOf values)) p.condList flags) := by
  have hval : ∀ node ∈ p.condList, condEvaluateExpr (boolsOf values) node.expr =
      some (valueOf (boolsOf values) node) := by
    intro node hnode
    have hsome := he.nodes node hnode (values.map fun value => decide (value ≠ 0)) (by rw [List.length_map, h])
    rw [List.map_map] at hsome
    rw [valueOf]
    obtain ⟨v, hv⟩ := Option.isSome_iff_exists.mp hsome
    rw [boolsOf]
    exact hv.trans (congrArg some (congrArg (·.getD 0) hv).symm)
  have hfilled : ¬ p.bools.contains none = true := fun hmem => he.filled (List.contains_iff_mem.mp hmem)
  obtain ⟨h', heval, hh'⟩ := evaluateNodes_holds hval hw.holds
  refine ⟨_, by
    rw [Conditional.setBools, securitySetBools, if_neg (not_not.mpr h), if_neg hfilled, heval]
    rfl, rfl, rfl, ⟨hh', ?_⟩⟩
  rw [← hw.lists, List.flatMap_map]
  rfl

def Settled (p : CondPolicy) (flags : Nat → Bool) : Prop :=
  ∀ node ∈ p.condList, node.curState = valueOf p.bools node ∧ Obeys node.curState node flags

/-- A block whose rules do not obey its state is repaired by the first call, if
its state is not a value that its expression can have. -/
def Repairable (p : CondPolicy) (flags : Nat → Bool) : Prop :=
  ∀ node ∈ p.condList, Obeys node.curState node flags ∨
    ∀ bools : List Bool, bools.length = p.bools.length → valueOf (bools.map some) node ≠ node.curState

theorem Settled.repairable (h : Settled p flags) : Repairable p flags := fun node hnode => Or.inl (h node hnode).2

theorem settled_iff (hw : Wired p rules flags) {p' : CondPolicy} (hbools : p'.bools = boolsOf values)
    (hlist : p'.condList = p.condList.map fun node => { node with curState := valueOf (boolsOf values) node }) :
    Settled p' (settleAll (valueOf (boolsOf values)) p.condList flags) ↔
      ∀ node ∈ p.condList, valueOf (boolsOf values) node ≠ node.curState ∨ Obeys node.curState node flags := by
  rw [Settled, hlist, List.forall_mem_map, hbools]
  apply forall_congr'
  intro node
  apply forall_congr'
  intro hnode
  have hobeys : Obeys (valueOf (boolsOf values) node) node (settleAll (valueOf (boolsOf values)) p.condList flags) ↔
      valueOf (boolsOf values) node ≠ node.curState ∨ Obeys (valueOf (boolsOf values) node) node flags :=
    settleAll_obeys hw.nodup hnode
  have hsame : Obeys (valueOf (boolsOf values) node) { node with curState := valueOf (boolsOf values) node }
        (settleAll (valueOf (boolsOf values)) p.condList flags) ↔
      Obeys (valueOf (boolsOf values) node) node (settleAll (valueOf (boolsOf values)) p.condList flags) :=
    ⟨fun h => ⟨h.ifTrue, h.ifFalse⟩, fun h => ⟨h.ifTrue, h.ifFalse⟩⟩
  rw [hsame, hobeys]
  refine (and_iff_right rfl).trans ?_
  by_cases hcur : valueOf (boolsOf values) node = node.curState
  · rw [hcur]
  · exact iff_of_true (Or.inl hcur) (Or.inl hcur)

theorem Evaluable.setBools {p' : CondPolicy} (he : Evaluable p) (hlen : values.length = p.bools.length)
    (hbools : p'.bools = boolsOf values)
    (hlist : p'.condList = p.condList.map fun node => { node with curState := valueOf (boolsOf values) node }) :
    Evaluable p' where
  filled hmem := by
    rw [hbools, boolsOf] at hmem
    obtain ⟨value, -, hvalue⟩ := List.mem_map.mp hmem
    exact Option.some_ne_none _ hvalue
  nodes := by
    rw [hlist, List.forall_mem_map, hbools, boolsOf, List.length_map, hlen]
    exact he.nodes

theorem setAll_settled (hw : Wired p rules flags) (he : Evaluable p) (hr : Repairable p flags) (calls : List (List Int)) :
    ∃ p' flags', setAll p calls = some p' ∧ Wired p' rules flags' ∧ Evaluable p' ∧
      (Settled p flags ∨ (∃ values ∈ calls, values.length = p.bools.length) → Settled p' flags') := by
  induction calls generalizing p flags with
  | nil =>
      refine ⟨p, flags, rfl, hw, he, ?_⟩
      rintro (hs | ⟨values, hvalues, -⟩)
      · exact hs
      · exact absurd hvalues List.not_mem_nil
  | cons values calls ih =>
      by_cases hlen : values.length = p.bools.length
      · obtain ⟨p₁, hset, hbools, hlist, hw₁⟩ := hw.setBools he hlen
        have hlen₁ : p₁.bools.length = p.bools.length := by rw [hbools, boolsOf, List.length_map, hlen]
        have hs₁ := (settled_iff hw hbools hlist).mpr (by
          intro node hnode
          rcases hr node hnode with hobeys | hnever
          · exact Or.inr hobeys
          · have hne := hnever (values.map fun value => decide (value ≠ 0)) (by rw [List.length_map, hlen])
            rw [List.map_map] at hne
            exact Or.inl hne)
        obtain ⟨p', flags', hall, hw', he', hs'⟩ := ih hw₁ (he.setBools hlen hbools hlist) hs₁.repairable
        refine ⟨p', flags', ?_, hw', he', fun _ => hs' (Or.inl hs₁)⟩
        rw [setAll, List.foldlM_cons, hset]
        exact hall
      · obtain ⟨p', flags', hall, hw', he', hs'⟩ := ih hw he hr
        refine ⟨p', flags', ?_, hw', he', fun hor => hs' (hor.imp_right ?_)⟩
        · rw [setAll, List.foldlM_cons, setBools_refused hlen]
          exact hall
        · rintro ⟨taken, hmem, htaken⟩
          rcases List.mem_cons.mp hmem with rfl | hmem
          · exact absurd htaken hlen
          · exact ⟨taken, hmem, htaken⟩

end runs

end PigaLinux.Conditional
