import PigaLinux.Conditional

namespace PigaLinux.ConditionalRuns

open Kernel Bytes Rpn RuleTable RuleFormat Conditional
open ExtensibleBitmap (u32)

section reading

variable {p : Symbols} {teAvtab h h' : Avtab} {other pre : List Nat} {memory : Allocation → Bool}
variable {rs : List AvtabNode} {fp rest : List Byte} {st st' : Avtab × List Nat}

/-- A table whose nodes are numbered in the order in which they came, each of
them in one of the lists so far. -/
structure Listed (h : Avtab) (rs : List AvtabNode) (all : List Nat) : Prop where
  holds : Holds h rs
  addrs : rs.map AvtabNode.addr = List.range rs.length
  lists : all = List.range rs.length

theorem condInsertf_listed {key : AvtabKey} {data : U32} (hl : Listed st.1 rs (pre ++ st.2))
    (hinsert : condInsertf teAvtab other memory key data st = .ok st') :
    ∃ rs', Listed st'.1 rs' (pre ++ st'.2) := by
  obtain ⟨hholds, haddr⟩ := hl.holds.insertNonunique (memory (.rule st.1.nel)) key data
  rw [condInsertf] at hinsert
  split at hinsert
  · cases hinsert
  · split at hinsert
    · cases hinsert
    next addr h' hout =>
      split at hinsert
      · obtain rfl := Except.ok.inj hinsert
        rw [hout] at hholds haddr
        cases hmemory : memory (.rule st.1.nel) with
        | false =>
            rw [hmemory] at haddr
            cases haddr
        | true =>
            rw [hmemory] at haddr hholds
            obtain rfl : addr = rs.length := Option.some.inj haddr
            refine ⟨_, hholds, ?_, ?_⟩
            · change (rs ++ [_]).map AvtabNode.addr = List.range (rs ++ [_]).length
              rw [List.map_append, hl.addrs, List.length_append, List.length_singleton, List.range_succ]
              rfl
            · change pre ++ (st.2 ++ [rs.length]) = List.range (rs ++ [_]).length
              rw [← List.append_assoc, hl.lists, List.length_append, List.length_singleton, List.range_succ]
      · cases hinsert

theorem readRules_listed {n : Nat} (hl : Listed st.1 rs (pre ++ st.2))
    (hread : readRules p teAvtab other memory n st fp = .ok (st', rest)) : ∃ rs', Listed st'.1 rs' (pre ++ st'.2) := by
  induction n generalizing st rs fp with
  | zero =>
      obtain ⟨rfl, -⟩ := Prod.mk.inj (Except.ok.inj hread)
      exact ⟨rs, hl⟩
  | succ n ih =>
      rw [readRules] at hread
      obtain ⟨⟨st₁, fp₁⟩, hitem, hread⟩ := bind_eq_ok hread
      obtain ⟨key, data, -, hinsert⟩ := avtabReadItem_cases hitem
      obtain ⟨rs₁, hl₁⟩ := condInsertf_listed hl hinsert
      exact ih hl₁ hread

theorem condReadAvList_listed {addrs : List Nat} (hl : Listed h rs pre)
    (hread : condReadAvList p teAvtab other memory h fp = .ok ((h', addrs), rest)) :
    ∃ rs', Listed h' rs' (pre ++ addrs) := by
  rw [condReadAvList] at hread
  obtain ⟨⟨buf, fp₁⟩, -, hread⟩ := bind_eq_ok hread
  have hstart : Listed (h, ([] : List Nat)).1 rs (pre ++ (h, ([] : List Nat)).2) := by
    rw [List.append_nil]
    exact hl
  exact readRules_listed hstart hread

theorem readExpr_bounded {nbools n : Nat} {expr expr' : List CondExpr} (hexpr : ∀ x ∈ expr, x.bool ≤ nbools)
    (hread : readExpr nbools memory n expr fp = .ok (expr', rest)) : ∀ x ∈ expr', x.bool ≤ nbools := by
  induction n generalizing expr fp with
  | zero =>
      obtain ⟨rfl, -⟩ := Prod.mk.inj (Except.ok.inj hread)
      exact hexpr
  | succ n ih =>
      rw [readExpr] at hread
      obtain ⟨⟨buf, fp₁⟩, -, hread⟩ := bind_eq_ok hread
      dsimp only at hread
      split at hread
      · cases hread
      · split at hread
        · cases hread
        · split at hread
          · cases hread
          next hle =>
            apply ih _ hread
            exact List.forall_mem_append.mpr ⟨hexpr, fun x hx => List.mem_singleton.mp hx ▸ Nat.le_of_not_gt hle⟩

theorem condReadNode_listed {nbools : Nat} {node : CondNode} (hl : Listed h rs pre)
    (hread : condReadNode p nbools teAvtab memory h fp = .ok (node, h', rest)) :
    (∃ rs', Listed h' rs' (pre ++ lists node)) ∧ ∀ x ∈ node.expr, x.bool ≤ nbools := by
  rw [condReadNode] at hread
  obtain ⟨⟨buf, fp₁⟩, -, hread⟩ := bind_eq_ok hread
  obtain ⟨⟨len, fp₂⟩, -, hread⟩ := bind_eq_ok hread
  obtain ⟨⟨expr, fp₃⟩, hexpr, hread⟩ := bind_eq_ok hread
  obtain ⟨⟨⟨h₁, trueList⟩, fp₄⟩, htrue, hread⟩ := bind_eq_ok hread
  obtain ⟨⟨⟨h₂, falseList⟩, fp₅⟩, hfalse, hread⟩ := bind_eq_ok hread
  obtain ⟨rs₁, hl₁⟩ := condReadAvList_listed hl htrue
  obtain ⟨rs₂, hl₂⟩ := condReadAvList_listed hl₁ hfalse
  obtain ⟨rfl, hrest⟩ := Prod.mk.inj (Except.ok.inj hread)
  obtain ⟨rfl, -⟩ := Prod.mk.inj hrest
  refine ⟨⟨rs₂, ?_⟩, readExpr_bounded (fun x hx => absurd hx List.not_mem_nil) hexpr⟩
  rw [lists, ← List.append_assoc]
  exact hl₂

theorem readNodes_listed {nbools n : Nat} {nodes nodes' : List CondNode} (hl : Listed h rs (nodes.flatMap lists))
    (hnodes : ∀ node ∈ nodes, ∀ x ∈ node.expr, x.bool ≤ nbools)
    (hread : readNodes p nbools teAvtab memory n nodes h fp = .ok (nodes', h', rest)) :
    (∃ rs', Listed h' rs' (nodes'.flatMap lists)) ∧ ∀ node ∈ nodes', ∀ x ∈ node.expr, x.bool ≤ nbools := by
  induction n generalizing nodes h rs fp with
  | zero =>
      obtain ⟨rfl, hrest⟩ := Prod.mk.inj (Except.ok.inj hread)
      obtain ⟨rfl, -⟩ := Prod.mk.inj hrest
      exact ⟨⟨rs, hl⟩, hnodes⟩
  | succ n ih =>
      rw [readNodes] at hread
      split at hread
      · cases hread
      · obtain ⟨⟨node, h₁, fp₁⟩, hnode, hread⟩ := bind_eq_ok hread
        obtain ⟨⟨rs₁, hl₁⟩, hbound⟩ := condReadNode_listed hl hnode
        have hnext : Listed h₁ rs₁ ((nodes ++ [node]).flatMap lists) := by
          rw [List.flatMap_append, List.flatMap_singleton]
          exact hl₁
        apply ih hnext _ hread
        exact List.forall_mem_append.mpr ⟨hnodes, fun x hx => List.mem_singleton.mp hx ▸ hbound⟩

end reading

/-- A policy as it is loaded. Its flags and the states of its blocks are those of the file. -/
def Loaded (p : CondPolicy) : Prop :=
  ∃ symbols teAvtab memory fp rest, teAvtab.nel ≠ 0 ∧
    condReadList symbols p.bools.length teAvtab memory fp = .ok (p.condList, p.teCondAvtab, rest)

/-- What the reader does not ask for: every number up to the largest has its
boolean, and no expression is empty or has the number 0. -/
structure Named (p : CondPolicy) : Prop where
  filled : none ∉ p.bools
  nodes : ∀ node ∈ p.condList, node.expr ≠ [] ∧ ∀ x ∈ node.expr, ∀ u, x.exprType = .leaf u → x.bool ≠ 0

/-- Whether the rule at an address is switched on. -/
def EnabledAt (h : Avtab) (addr : Nat) : Prop :=
  ∃ i, ∃ n ∈ chain h i, n.addr = addr ∧ n.key.specified.getLsbD 15 = true

def Follows (p : CondPolicy) (node : CondNode) (v : Int) : Prop :=
  (∀ a ∈ node.trueList, EnabledAt p.teCondAvtab a ↔ 0 < v) ∧ ∀ a ∈ node.falseList, EnabledAt p.teCondAvtab a ↔ v = 0

/-- The rules of every block are on or off as its expression says. -/
def Faithful (p : CondPolicy) : Prop :=
  ∀ node ∈ p.condList, ∃ v, condEvaluateExpr p.bools node.expr = some v ∧ Follows p node v

section loaded

variable {p : CondPolicy} {rules : List (AvtabKey × U32)} {flags : Nat → Bool}

theorem mem_nodesOf {n : AvtabNode} : n ∈ nodesOf rules flags ↔
    ∃ i r, rules[i]? = some r ∧ n = ⟨i, flaggedKey (flags i) r.1, r.2⟩ := by
  rw [nodesOf, List.mem_mapIdx]
  constructor
  · rintro ⟨i, hi, rfl⟩
    exact ⟨i, rules[i], List.getElem?_eq_getElem hi, rfl⟩
  · rintro ⟨i, r, hr, rfl⟩
    obtain ⟨hi, rfl⟩ := List.getElem?_eq_some_iff.mp hr
    exact ⟨i, hi, rfl⟩

theorem mem_chain {h : Avtab} {rs : List AvtabNode} (hh : Holds h rs) {n : AvtabNode} :
    (∃ i, n ∈ chain h i) ↔ n ∈ rs := by
  constructor
  · rintro ⟨i, hn⟩
    exact (List.mem_filter.mp ((hh.content i).mem_iff.mp hn)).1
  · intro hn
    refine ⟨avtabHash n.key h.mask, (hh.content _).mem_iff.mpr (List.mem_filter.mpr ⟨hn, decide_eq_true rfl⟩)⟩

theorem enabledAt_iff (hw : Wired p rules flags) {a : Nat} (ha : a < rules.length) :
    EnabledAt p.teCondAvtab a ↔ flags a = true := by
  have hflag : ∀ r : AvtabKey × U32, (flaggedKey (flags a) r.1).specified.getLsbD 15 = flags a := fun r =>
    getLsbD_flagged _ _ (by decide)
  constructor
  · rintro ⟨i, n, hn, haddr, hbit⟩
    obtain ⟨j, r, hr, rfl⟩ := mem_nodesOf.mp ((mem_chain hw.holds).mp ⟨i, hn⟩)
    obtain rfl : j = a := haddr
    rw [← hflag r]
    exact hbit
  · intro hon
    have hn : ⟨a, flaggedKey (flags a) rules[a].1, rules[a].2⟩ ∈ nodesOf rules flags :=
      mem_nodesOf.mpr ⟨a, rules[a], List.getElem?_eq_getElem ha, rfl⟩
    obtain ⟨i, hi⟩ := (mem_chain hw.holds).mpr hn
    exact ⟨i, _, hi, rfl, (hflag _).trans hon⟩

theorem Wired.lt (hw : Wired p rules flags) {node : CondNode} (hnode : node ∈ p.condList) :
    ∀ a ∈ lists node, a < rules.length := by
  intro a ha
  rw [← List.mem_range, ← hw.lists]
  exact List.mem_flatMap.mpr ⟨node, hnode, ha⟩

theorem follows_iff (hw : Wired p rules flags) {node : CondNode} (hnode : node ∈ p.condList) (v : Int) :
    Follows p node v ↔ Obeys v node flags := by
  have henabled : ∀ a ∈ lists node, EnabledAt p.teCondAvtab a ↔ flags a = true := fun a ha =>
    enabledAt_iff hw (Wired.lt hw hnode a ha)
  constructor
  · rintro ⟨htrue, hfalse⟩
    constructor
    · intro a ha
      rw [Bool.eq_iff_iff, ← henabled a (List.mem_append_left _ ha), htrue a ha, decide_eq_true_iff]
    · intro a ha
      rw [Bool.eq_iff_iff, ← henabled a (List.mem_append_right _ ha), hfalse a ha, decide_eq_true_iff]
  · rintro ⟨htrue, hfalse⟩
    constructor
    · intro a ha
      rw [henabled a (List.mem_append_left _ ha), htrue a ha, decide_eq_true_iff]
    · intro a ha
      rw [henabled a (List.mem_append_right _ ha), hfalse a ha, decide_eq_true_iff]

theorem nodesOf_rules {rs : List AvtabNode} (haddrs : rs.map AvtabNode.addr = List.range rs.length) :
    nodesOf (rs.map rule) (fun a => (rs[a]?).any fun n => n.key.specified.getLsbD 15) = rs := by
  apply List.ext_getElem?
  intro i
  rw [nodesOf, List.getElem?_mapIdx, List.getElem?_map]
  cases hn : rs[i]? with
  | none => rfl
  | some n =>
      have haddr : n.addr = i := by
        have hget := congrArg (fun as => as[i]?) haddrs
        have hlt := (List.getElem?_eq_some_iff.mp hn).1
        simp only [List.getElem?_map, hn, Option.map_some, List.getElem?_range hlt] at hget
        exact Option.some.inj hget
      simp only [Option.map_some, rule, flaggedKey, Option.any_some, flagged_self, ← haddr]

theorem Loaded.wired (hp : Loaded p) :
    (∃ rules flags, Wired p rules flags) ∧ ∀ node ∈ p.condList, ∀ x ∈ node.expr, x.bool ≤ p.bools.length := by
  obtain ⟨symbols, teAvtab, memory, fp, rest, hnel, hread⟩ := hp
  rw [condReadList] at hread
  obtain ⟨⟨buf, fp₁⟩, -, hread⟩ := bind_eq_ok hread
  obtain ⟨h₀, halloc, hread⟩ := bind_eq_ok hread
  have hempty : Listed h₀ [] (([] : List CondNode).flatMap lists) := by
    refine ⟨?_, rfl, rfl⟩
    rw [avtabAlloc, if_neg hnel] at halloc
    split at halloc
    · obtain rfl := Except.ok.inj halloc
      exact ⟨rfl, fun _ => .nil, fun _ => .nil, rfl⟩
    · cases halloc
  obtain ⟨⟨rs, hl⟩, hbound⟩ := readNodes_listed hempty (fun node hnode => absurd hnode List.not_mem_nil) hread
  refine ⟨⟨rs.map rule, fun a => (rs[a]?).any fun n => n.key.specified.getLsbD 15, ?_, ?_⟩, hbound⟩
  · rw [nodesOf_rules hl.addrs]
    exact hl.holds
  · rw [List.length_map]
    exact hl.lists

theorem run_cases {bools : List Bool} {expr : List CondExpr}
    (hexpr : ∀ x ∈ expr, x.bool ≤ bools.length ∧ ∀ u, x.exprType = .leaf u → x.bool ≠ 0) (st : List Bool) :
    (condMachine (bools.map some)).run (expr.map CondExpr.token) st = .error .minusOne ∨
      ∃ st', (condMachine (bools.map some)).run (expr.map CondExpr.token) st = .ok st' ∧ (st ≠ [] ∨ expr ≠ [] → st' ≠ []) := by
  induction expr generalizing st with
  | nil => exact Or.inr ⟨st, rfl, fun h => h.resolve_right fun hne => hne rfl⟩
  | cons x expr ih =>
      obtain ⟨hx, hexpr⟩ := List.forall_mem_cons.mp hexpr
      have hstep : (condMachine (bools.map some)).step st x.token = .error .minusOne ∨
          ∃ st₁, (condMachine (bools.map some)).step st x.token = .ok st₁ ∧ st₁ ≠ [] := by
        obtain ⟨exprType, bool⟩ := x
        cases exprType with
        | leaf u =>
            rw [CondExpr.token, Machine.step]
            split
            · exact Or.inl rfl
            · have hindex : u32 (bool + 2 ^ 32 - 1) < bools.length := by
                have hpos : bool ≠ 0 := hx.2 u rfl
                have hle : bool ≤ bools.length := hx.1
                have hmod := Nat.mod_le (bool - 1) (2 ^ 32)
                have hsplit : bool + 2 ^ 32 - 1 = bool - 1 + 2 ^ 32 := by omega
                rw [u32, hsplit, Nat.add_mod_right]
                omega
              refine Or.inr ⟨bools[u32 (bool + 2 ^ 32 - 1)] :: st, ?_, List.cons_ne_nil _ _⟩
              change (boolState (bools.map some) bool).map _ = _
              rw [boolState, List.getElem?_map, List.getElem?_eq_getElem hindex]
              rfl
        | unary u =>
            cases st with
            | nil => exact Or.inl rfl
            | cons v st => exact Or.inr ⟨_, rfl, List.cons_ne_nil _ _⟩
        | binary b =>
            rcases st with _ | ⟨y, _ | ⟨x, st⟩⟩
            · exact Or.inl rfl
            · exact Or.inl rfl
            · exact Or.inr ⟨_, rfl, List.cons_ne_nil _ _⟩
      rw [List.map_cons, Machine.run, List.foldlM_cons]
      rcases hstep with herr | ⟨st₁, hok, hne⟩
      · rw [herr]
        exact Or.inl rfl
      · rw [hok]
        rcases ih hexpr st₁ with herr | ⟨st', hrun, hkeep⟩
        · exact Or.inl herr
        · exact Or.inr ⟨st', hrun, fun _ => hkeep (Or.inl hne)⟩

theorem Loaded.evaluable (hp : Loaded p) (hn : Named p) : Evaluable p := by
  refine ⟨hn.filled, fun node hnode bools hlen => ?_⟩
  obtain ⟨hne, hnamed⟩ := hn.nodes node hnode
  have hexpr : ∀ x ∈ node.expr, x.bool ≤ bools.length ∧ ∀ u, x.exprType = .leaf u → x.bool ≠ 0 := fun x hx =>
    ⟨hlen ▸ hp.wired.2 node hnode x hx, hnamed x hx⟩
  rw [condEvaluateExpr]
  rcases run_cases hexpr [] with herr | ⟨st, hrun, hkeep⟩
  · rw [herr]
    rfl
  · rw [hrun]
    dsimp only
    rw [Option.isSome_map, List.getLast?_isSome]
    exact hkeep (Or.inr hne)

theorem valueOf_eq_iff {bools : List (Option Bool)} {node : CondNode}
    (he : (condEvaluateExpr bools node.expr).isSome = true) (v : Int) :
    valueOf bools node = v ↔ condEvaluateExpr bools node.expr = some v := by
  obtain ⟨w, hw⟩ := Option.isSome_iff_exists.mp he
  rw [valueOf, hw, Option.getD_some, Option.some_inj]

theorem Evaluable.bools (he : Evaluable p) : ∃ bools : List Bool, p.bools = bools.map some ∧ bools.length = p.bools.length := by
  refine ⟨p.bools.map (·.getD false), ?_, List.length_map _⟩
  rw [List.map_map]
  refine ((List.map_congr_left fun b hb => ?_).trans (List.map_id _)).symm
  cases b with
  | none => exact absurd hb he.filled
  | some b => rfl

theorem faithful_iff (hw : Wired p rules flags) (he : Evaluable p)
    (hcur : ∀ node ∈ p.condList, node.curState = valueOf p.bools node) : Faithful p ↔ Settled p flags := by
  apply forall_congr'
  intro node
  apply forall_congr'
  intro hnode
  obtain ⟨bools, hbools, hlen⟩ := Evaluable.bools he
  have hvalue := (valueOf_eq_iff (hbools ▸ he.nodes node hnode bools hlen) _).mp rfl
  rw [hvalue]
  constructor
  · rintro ⟨v, hv, hfollows⟩
    obtain rfl := Option.some.inj hv
    refine ⟨hcur node hnode, ?_⟩
    rw [hcur node hnode]
    exact (follows_iff hw hnode _).mp hfollows
  · rintro ⟨-, hobeys⟩
    rw [hcur node hnode] at hobeys
    exact ⟨_, rfl, (follows_iff hw hnode _).mpr hobeys⟩

theorem repairable_iff (hw : Wired p rules flags) (he : Evaluable p) :
    (∀ node ∈ p.condList, Follows p node node.curState ∨
      ∀ bools : List Bool, bools.length = p.bools.length → condEvaluateExpr (bools.map some) node.expr ≠ some node.curState) ↔
      Repairable p flags := by
  apply forall_congr'
  intro node
  apply forall_congr'
  intro hnode
  rw [follows_iff hw hnode]
  apply or_congr_right
  apply forall_congr'
  intro bools
  apply forall_congr'
  intro hlen
  exact not_congr (valueOf_eq_iff (he.nodes node hnode bools hlen) _).symm

/-- The calls that security_set_bools takes and refuses, in any number and order,
leave the rules of a loaded policy on and off as its expressions say, exactly
when each block was loaded with rules that match its state, or with a state
that its expression never has. -/
theorem alwaysFaithful_iff (p : CondPolicy) (hp : Loaded p) (hn : Named p) :
    (∀ calls, (∃ values ∈ calls, values.length = p.bools.length) → ∃ p', setAll p calls = some p' ∧ Faithful p') ↔
      ∀ node ∈ p.condList, Follows p node node.curState ∨
        ∀ bools : List Bool, bools.length = p.bools.length → condEvaluateExpr (bools.map some) node.expr ≠ some node.curState := by
  obtain ⟨⟨rules, flags, hw⟩, -⟩ := hp.wired
  have he := hp.evaluable hn
  rw [repairable_iff hw he]
  constructor
  · intro halways node hnode
    by_contra hno
    obtain ⟨hdiffers, hoccurs⟩ := not_or.mp hno
    simp only [not_forall, not_not] at hoccurs
    obtain ⟨bools, hlen, hvalue⟩ := hoccurs
    -- one call with the booleans of the recorded state changes nothing
    have hbools : boolsOf (bools.map fun b => if b then 1 else 0) = bools.map some := by
      rw [boolsOf, List.map_map]
      apply List.map_congr_left
      intro b _
      cases b with
      | false => rfl
      | true => rfl
    have hlen' : (bools.map fun b => if b then (1 : Int) else 0).length = p.bools.length := by rw [List.length_map, hlen]
    obtain ⟨p₁, hset, hbools₁, hlist, hw₁⟩ := hw.setBools he hlen'
    obtain ⟨p', hall, hfaithful⟩ := halways [_] ⟨_, List.mem_singleton_self _, hlen'⟩
    obtain rfl : p₁ = p' := by
      rw [setAll, List.foldlM_cons, hset] at hall
      exact Option.some.inj hall
    have hcur : ∀ node ∈ p₁.condList, node.curState = valueOf p₁.bools node := by
      rw [hlist, List.forall_mem_map, hbools₁]
      exact fun _ _ => rfl
    have hsettled := (faithful_iff hw₁ (he.setBools hlen' hbools₁ hlist) hcur).mp hfaithful
    rcases (settled_iff hw hbools₁ hlist).mp hsettled node hnode with hne | hobeys
    · rw [hbools] at hne
      exact hne hvalue
    · exact hdiffers hobeys
  · intro hr calls htaken
    obtain ⟨p', flags', hall, hw', he', hs⟩ := setAll_settled hw he hr calls
    have hsettled := hs (Or.inr htaken)
    exact ⟨p', hall, (faithful_iff hw' he' fun node hnode => (hsettled node hnode).1).mpr hsettled⟩

/-- One block over one boolean, with one rule. Its state is no truth value, so
that the first call sets it right. -/
def oneBlock : List Byte :=
  leBytes 4 1 ++ (leBytes 4 5 ++ leBytes 4 1 ++ (leBytes 4 1 ++ leBytes 4 1) ++
    (leBytes 4 1 ++ avtabWriteItem ⟨0, ⟨1, 2, 6, avtabAllowed⟩, 2⟩) ++ leBytes 4 0)

theorem oneBlock_loaded : ∃ p : CondPolicy, Loaded p ∧ Named p ∧ p.bools = [some false] ∧
    p.condList = [⟨5, [⟨.leaf (), 1⟩], [0], []⟩] ∧ ∀ node ∈ p.condList, ∀ bools : List Bool,
      bools.length = p.bools.length → condEvaluateExpr (bools.map some) node.expr ≠ some node.curState := by
  obtain ⟨nodes, h, hread, hnodes⟩ : ∃ nodes h,
      condReadList ⟨3, 6⟩ 1 { avtabInit with nel := 1 } (fun _ => true) oneBlock = .ok (nodes, h, []) ∧
        nodes = [⟨5, [⟨.leaf (), 1⟩], [0], []⟩] := ⟨_, _, rfl, rfl⟩
  subst hnodes
  refine ⟨⟨[some false], _, h, 1⟩, ⟨_, _, _, _, _, by decide, hread⟩, ⟨?_, ?_⟩, rfl, rfl, ?_⟩
  · exact fun hmem => Option.some_ne_none _ (List.mem_singleton.mp hmem).symm
  · rw [List.forall_mem_singleton]
    refine ⟨List.cons_ne_nil _ _, ?_⟩
    rw [List.forall_mem_singleton]
    exact fun _ _ => Nat.one_ne_zero
  · rw [List.forall_mem_singleton]
    intro bools hlen
    obtain ⟨b, rfl⟩ := List.length_eq_one_iff.mp hlen
    cases b with
    | false => decide
    | true => decide

theorem alwaysFaithful_iff_oneBlock :
    ∃ p : CondPolicy, p.condList.length = 1 ∧ ∀ calls, (∃ values ∈ calls, values.length = p.bools.length) →
      ∃ p', setAll p calls = some p' ∧ Faithful p' := by
  obtain ⟨p, hp, hn, -, hlist, hnever⟩ := oneBlock_loaded
  refine ⟨p, by rw [hlist]; rfl, (alwaysFaithful_iff p hp hn).mpr fun node hnode => Or.inr (hnever node hnode)⟩

end loaded

end PigaLinux.ConditionalRuns
