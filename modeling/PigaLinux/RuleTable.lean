import PigaLinux.Kernel
import PigaLinux.SortedLists
import Mathlib.Algebra.Ring.Nat
import Mathlib.Data.Prod.Lex
import Mathlib.Logic.Function.Basic

namespace PigaLinux.RuleTable

open Kernel SortedLists

def avtabAllowed : U16 := 0x0001

def avtabAuditallow : U16 := 0x0002

def avtabAuditdeny : U16 := 0x0004

def avtabTransition : U16 := 0x0010

def avtabMember : U16 := 0x0020

def avtabChange : U16 := 0x0040

def avtabType : U16 := avtabTransition ||| avtabMember ||| avtabChange

def avtabEnabled : U16 := 0x8000

def maxAvtabHashBuckets : Nat := 2048

structure AvtabKey where
  sourceType : Nat
  targetType : Nat
  targetClass : Nat
  specified : U16
deriving DecidableEq, Repr

/-- A node. Its address tells apart nodes that are otherwise the same. -/
structure AvtabNode where
  addr : Nat
  key : AvtabKey
  data : U32
deriving DecidableEq, Repr

structure Avtab where
  htable : Option (Nat → List AvtabNode)
  nel : Nat
  nslot : Nat
  mask : Nat

def avtabInit : Avtab := ⟨none, 0, 0, 0⟩

def avtabHash (key : AvtabKey) (mask : Nat) : Nat :=
  (key.targetClass + key.targetType <<< 2 + key.sourceType <<< 9) &&& mask

def plain (specified : U16) : U16 := specified &&& ~~~avtabEnabled

def hits (key : AvtabKey) (specified : U16) (cur : AvtabNode) : Bool :=
  key.sourceType = cur.key.sourceType && key.targetType = cur.key.targetType && key.targetClass = cur.key.targetClass &&
    specified &&& cur.key.specified != 0

def passed (key : AvtabKey) (cur : AvtabNode) : Bool :=
  key.sourceType < cur.key.sourceType ||
    (key.sourceType = cur.key.sourceType && key.targetType < cur.key.targetType) ||
    (key.sourceType = cur.key.sourceType && key.targetType = cur.key.targetType &&
      key.targetClass < cur.key.targetClass)

/-- The walk to the place of a new node. At a node that it hits, a table of
unique rules refuses and the conditional table inserts. -/
def insertLoop (unique : Bool) (specified : U16) (new : AvtabNode) : List AvtabNode → Option (List AvtabNode)
  | [] => some [new]
  | cur :: rest =>
      if hits new.key specified cur then if unique then none else some (new :: cur :: rest)
      else if passed new.key cur then some (new :: cur :: rest)
      else (insertLoop unique specified new rest).map (cur :: ·)

def avtabInsert (allocated : Bool) (h : Avtab) (key : AvtabKey) (data : U32) : Int × Avtab :=
  match h.htable with
  | none => (-einval, h)
  | some tab =>
      match insertLoop true (plain key.specified) ⟨h.nel, key, data⟩ (tab (avtabHash key h.mask)) with
      | none => (-eexist, h)
      | some chain =>
          if allocated then
            (0, { h with htable := some (Function.update tab (avtabHash key h.mask) chain), nel := h.nel + 1 })
          else (-enomem, h)

/-- The node that was inserted, or NULL. -/
def avtabInsertNonunique (allocated : Bool) (h : Avtab) (key : AvtabKey) (data : U32) : Option Nat × Avtab :=
  match h.htable with
  | none => (none, h)
  | some tab =>
      match insertLoop false (plain key.specified) ⟨h.nel, key, data⟩ (tab (avtabHash key h.mask)) with
      | none => (none, h)
      | some chain =>
          if allocated then
            (some h.nel, { h with htable := some (Function.update tab (avtabHash key h.mask) chain), nel := h.nel + 1 })
          else (none, h)

def searchLoop (specified : U16) (key : AvtabKey) : List AvtabNode → List AvtabNode
  | [] => []
  | cur :: rest =>
      if hits key specified cur then cur :: rest else if passed key cur then [] else searchLoop specified key rest

/-- The node that is found, with those behind it in its chain. -/
def avtabSearchNode (h : Avtab) (key : AvtabKey) : List AvtabNode :=
  match h.htable with
  | none => []
  | some tab => searchLoop (plain key.specified) key (tab (avtabHash key h.mask))

def avtabSearch (h : Avtab) (key : AvtabKey) : Option U32 := (avtabSearchNode h key).head?.map AvtabNode.data

def avtabSearchNodeNext (node : List AvtabNode) (specified : U16) : List AvtabNode :=
  match node with
  | [] => []
  | n :: rest => searchLoop (plain specified) n.key rest

/-- The nodes that a loop over a search sees: for (node = avtab_search_node; node;
node = avtab_search_node_next). -/
def visitLoop (specified : U16) : Nat → List AvtabNode → List AvtabNode
  | 0, _ => []
  | _ + 1, [] => []
  | fuel + 1, n :: rest => n :: visitLoop specified fuel (avtabSearchNodeNext (n :: rest) specified)

def visited (h : Avtab) (key : AvtabKey) : List AvtabNode :=
  visitLoop key.specified (avtabSearchNode h key).length (avtabSearchNode h key)

def shiftLoop : Nat → Nat → Nat → Nat
  | 0, _, shift => shift
  | fuel + 1, work, shift => if work = 0 then shift else shiftLoop fuel (work / 2) (shift + 1)

def slotsFor (nrules : Nat) : Nat :=
  let shift := shiftLoop 32 nrules 0
  let nslot := 2 ^ (if shift > 2 then shift - 2 else shift)
  if nslot > maxAvtabHashBuckets then maxAvtabHashBuckets else nslot

def avtabAlloc (allocated : Bool) (h : Avtab) (nrules : Nat) : Except Int Avtab :=
  if nrules = 0 then .ok { h with nel := 0, nslot := 0, mask := 0 }
  else if allocated then .ok ⟨some fun _ => [], 0, slotsFor nrules, slotsFor nrules - 1⟩
  else .error (-enomem)

section walks

variable {key : AvtabKey} {specified : U16} {new cur : AvtabNode} {ns : List AvtabNode}

def triple (key : AvtabKey) : ℕ ×ₗ ℕ ×ₗ ℕ := toLex (key.sourceType, toLex (key.targetType, key.targetClass))

abbrev nodeTriple (n : AvtabNode) : ℕ ×ₗ ℕ ×ₗ ℕ := triple n.key

def shares (specified : U16) (cur : AvtabNode) : Bool := specified &&& cur.key.specified != 0

theorem triple_eq_iff {k c : AvtabKey} : triple k = triple c ↔
    k.sourceType = c.sourceType ∧ k.targetType = c.targetType ∧ k.targetClass = c.targetClass := by
  rw [triple, triple, toLex_inj, Prod.mk.injEq, toLex_inj, Prod.mk.injEq]

theorem hits_iff : hits key specified cur = true ↔ nodeTriple cur = triple key ∧ shares specified cur = true := by
  rw [eq_comm (a := nodeTriple cur), triple_eq_iff, hits, shares]
  simp only [Bool.and_eq_true, decide_eq_true_eq, and_assoc]

theorem passed_iff : passed key cur = true ↔ triple key < nodeTriple cur := by
  rw [nodeTriple, triple, triple, Prod.Lex.toLex_lt_toLex, Prod.Lex.toLex_lt_toLex, passed]
  simp only [Bool.or_eq_true, Bool.and_eq_true, decide_eq_true_eq]
  omega

theorem searchLoop_eq : searchLoop specified key ns = seek nodeTriple (triple key) (shares specified) ns := by
  induction ns with
  | nil => rfl
  | cons cur ns ih => simp only [searchLoop, seek, hits_iff, passed_iff, ih]

theorem insertLoop_false : insertLoop false specified new ns = some (place nodeTriple (shares specified) new ns) := by
  induction ns with
  | nil => rfl
  | cons cur ns ih =>
      rw [insertLoop, place]
      simp only [hits_iff, passed_iff, ih]
      by_cases hhit : nodeTriple cur = triple new.key ∧ shares specified cur = true
      · rw [if_pos hhit, if_pos (Or.inl hhit)]
        rfl
      · rw [if_neg hhit]
        by_cases hlt : triple new.key < nodeTriple cur
        · rw [if_pos hlt, if_pos (Or.inr hlt)]
        · rw [if_neg hlt, if_neg (not_or.mpr ⟨hhit, hlt⟩)]
          rfl

abbrev wants (key : AvtabKey) (specified : U16) : AvtabNode → Bool :=
  wanted nodeTriple (triple key) (shares specified)

/-- A table of unique rules refuses exactly a rule that it would find. -/
theorem insertLoop_true (h : Sorted nodeTriple ns) :
    insertLoop true specified new ns =
      if ns.any (wants new.key specified) then none else some (place nodeTriple (shares specified) new ns) := by
  induction ns with
  | nil => rfl
  | cons cur ns ih =>
      rw [insertLoop, place, List.any_cons]
      by_cases hhit : hits new.key specified cur = true
      · have hwants : wants new.key specified cur = true := wanted_iff.mpr (hits_iff.mp hhit)
        rw [if_pos hhit, hwants]
        rfl
      · have hwants : wants new.key specified cur = false :=
          Bool.eq_false_iff.mpr fun hw => hhit (hits_iff.mpr (wanted_iff.mp hw))
        rw [if_neg hhit, hwants, Bool.false_or]
        by_cases hpassed : passed new.key cur = true
        · have hlt := passed_iff.mp hpassed
          have hnone : ns.any (wants new.key specified) = false := by
            have hnil := filter_eq_nil_of_lt (p := shares specified) h hlt
            rw [List.filter_cons_of_neg (by rw [← Bool.not_eq_false, not_not]; exact hwants), List.filter_eq_nil_iff] at hnil
            exact List.any_eq_false.mpr hnil
          rw [if_pos hpassed, hnone, if_pos (Or.inr hlt)]
          rfl
        · have hplace : ¬ ((nodeTriple cur = nodeTriple new ∧ shares specified cur = true) ∨ nodeTriple new < nodeTriple cur) := by
            rintro (hboth | hlt)
            · exact hhit (hits_iff.mpr hboth)
            · exact hpassed (passed_iff.mpr hlt)
          rw [if_neg hpassed, ih h.tail, if_neg hplace]
          split <;> rfl

theorem insertLoop_snoc (unique : Bool) (hle : ∀ m ∈ ns, nodeTriple m ≤ nodeTriple new)
    (hmiss : ∀ m ∈ ns, wants new.key specified m = false) : insertLoop unique specified new ns = some (ns ++ [new]) := by
  induction ns with
  | nil => rfl
  | cons cur ns ih =>
      obtain ⟨hcur, hle⟩ := List.forall_mem_cons.mp hle
      obtain ⟨hno, hmiss⟩ := List.forall_mem_cons.mp hmiss
      rw [insertLoop, if_neg, if_neg, ih hle hmiss]
      · rfl
      · exact fun hpassed => not_lt.mpr hcur (passed_iff.mp hpassed)
      · exact fun hhit => Bool.eq_false_iff.mp hno (wanted_iff.mpr (hits_iff.mp hhit))

theorem visitLoop_eq (h : Sorted nodeTriple ns) {fuel : Nat} (hfuel : (searchLoop (plain specified) key ns).length ≤ fuel) :
    visitLoop specified fuel (searchLoop (plain specified) key ns) = ns.filter (wants key (plain specified)) := by
  induction fuel generalizing ns with
  | zero =>
      rw [searchLoop_eq] at hfuel
      rcases seek_cases (triple key) (shares (plain specified)) h with ⟨-, hnil⟩ | ⟨n, rest, hseek, -⟩
      · rw [hnil]
        rfl
      · rw [hseek] at hfuel
        cases hfuel
  | succ fuel ih =>
      rw [searchLoop_eq] at hfuel ⊢
      rcases seek_cases (triple key) (shares (plain specified)) h with ⟨hseek, hnil⟩ | ⟨n, rest, hseek, hn, hrest, hfilter⟩
      · rw [hseek, hnil]
        rfl
      · rw [hseek] at hfuel ⊢
        have hnext : searchLoop (plain specified) n.key rest = searchLoop (plain specified) key rest := by
          rw [searchLoop_eq, searchLoop_eq, ← hn]
        rw [hfilter, visitLoop, avtabSearchNodeNext, hnext]
        congr 1
        apply ih hrest
        rw [searchLoop_eq]
        exact Nat.le_trans (seek_suffix _ _ rest).length_le (Nat.le_of_succ_le_succ hfuel)

end walks

def chain (h : Avtab) (i : Nat) : List AvtabNode :=
  match h.htable with
  | none => []
  | some tab => tab i

/-- The rules of a table, in the order in which they came. -/
structure Holds (h : Avtab) (rs : List AvtabNode) : Prop where
  ready : h.htable.isSome = true
  sorted : ∀ i, Sorted nodeTriple (chain h i)
  content : ∀ i, (chain h i).Perm (rs.filter fun n => avtabHash n.key h.mask = i)
  nel : h.nel = rs.length

structure Insertion where
  unique : Bool
  allocated : Bool
  key : AvtabKey
  data : U32
deriving DecidableEq, Repr

def step (h : Avtab) (op : Insertion) : Avtab :=
  if op.unique then (avtabInsert op.allocated h op.key op.data).2
  else (avtabInsertNonunique op.allocated h op.key op.data).2

abbrev matching (key : AvtabKey) : AvtabNode → Bool := wants key (plain key.specified)

def specStep (rs : List AvtabNode) (op : Insertion) : List AvtabNode :=
  if op.unique && rs.any (matching op.key) then rs
  else if op.allocated then rs ++ [⟨rs.length, op.key, op.data⟩]
  else rs

section tables

variable {h : Avtab} {rs : List AvtabNode} {key : AvtabKey} {op : Insertion}

theorem hash_of_triple {k c : AvtabKey} (heq : triple k = triple c) (mask : Nat) : avtabHash k mask = avtabHash c mask := by
  obtain ⟨hs, ht, hc⟩ := triple_eq_iff.mp heq
  rw [avtabHash, avtabHash, hs, ht, hc]

theorem Holds.filter_matching (hh : Holds h rs) (specified : U16) :
    ((chain h (avtabHash key h.mask)).filter (wants key specified)).Perm (rs.filter (wants key specified)) := by
  refine ((hh.content _).filter _).trans (List.Perm.of_eq ?_)
  rw [List.filter_filter]
  apply List.filter_congr
  intro n _
  cases hw : wants key specified n with
  | false => rfl
  | true =>
      rw [Bool.true_and, decide_eq_true_iff]
      exact hash_of_triple (wanted_iff.mp hw).1 h.mask

theorem avtabSearchNode_eq (h : Avtab) (key : AvtabKey) :
    avtabSearchNode h key = searchLoop (plain key.specified) key (chain h (avtabHash key h.mask)) := by
  rw [avtabSearchNode, chain]
  cases h.htable with
  | none => rfl
  | some tab => rfl

theorem Holds.visited (hh : Holds h rs) (key : AvtabKey) : (visited h key).Perm (rs.filter (matching key)) := by
  rw [RuleTable.visited, avtabSearchNode_eq, visitLoop_eq (hh.sorted _) (Nat.le_refl _)]
  exact hh.filter_matching _

theorem Holds.any_matching (hh : Holds h rs) (key : AvtabKey) :
    (chain h (avtabHash key h.mask)).any (matching key) = rs.any (matching key) := by
  rw [Bool.eq_iff_iff, List.any_eq_true, List.any_eq_true]
  apply exists_congr
  intro n
  rw [← List.mem_filter, ← List.mem_filter]
  exact (hh.filter_matching _).mem_iff

theorem Holds.placed {tab : Nat → List AvtabNode} (hh : Holds h rs) (htab : h.htable = some tab) (key : AvtabKey) (data : U32)
    (specified : U16) :
    Holds { h with
      htable := some (Function.update tab (avtabHash key h.mask)
        (place nodeTriple (shares specified) ⟨h.nel, key, data⟩ (tab (avtabHash key h.mask))))
      nel := h.nel + 1 } (rs ++ [⟨rs.length, key, data⟩]) where
  ready := rfl
  sorted i := by
    have hsorted := hh.sorted i
    rw [chain, htab] at hsorted
    change Sorted nodeTriple (Function.update tab _ _ i)
    by_cases hi : i = avtabHash key h.mask
    · subst hi
      rw [Function.update_self]
      exact place_sorted hsorted _ _
    · rw [Function.update_of_ne hi]
      exact hsorted
  content i := by
    have hcontent := hh.content i
    rw [chain, htab] at hcontent
    change (Function.update tab _ _ i).Perm _
    rw [List.filter_append, hh.nel]
    by_cases hi : i = avtabHash key h.mask
    · subst hi
      rw [Function.update_self, List.filter_cons_of_pos (by simp), List.filter_nil]
      refine (place_perm _ _ _).trans ((hcontent.cons _).trans ?_)
      exact (List.perm_append_singleton _ _).symm
    · rw [Function.update_of_ne hi, List.filter_cons_of_neg (by simpa using Ne.symm hi), List.filter_nil, List.append_nil]
      exact hcontent
  nel := by
    rw [List.length_append, List.length_singleton, hh.nel]

theorem Holds.insert (hh : Holds h rs) (allocated : Bool) (key : AvtabKey) (data : U32) :
    Holds (avtabInsert allocated h key data).2 (specStep rs ⟨true, allocated, key, data⟩) ∧
      (avtabInsert allocated h key data).1 =
        if rs.any (matching key) then -eexist else if allocated then 0 else -enomem := by
  obtain ⟨tab, htab⟩ := Option.isSome_iff_exists.mp hh.ready
  have hsorted := hh.sorted (avtabHash key h.mask)
  have hany := hh.any_matching key
  rw [chain, htab] at hsorted hany
  rw [avtabInsert, htab, specStep]
  dsimp only
  rw [insertLoop_true hsorted, hany]
  cases rs.any (matching key) with
  | true => exact ⟨hh, rfl⟩
  | false =>
      cases allocated with
      | true => exact ⟨hh.placed htab key data _, rfl⟩
      | false => exact ⟨hh, rfl⟩

theorem Holds.insertNonunique (hh : Holds h rs) (allocated : Bool) (key : AvtabKey) (data : U32) :
    Holds (avtabInsertNonunique allocated h key data).2 (specStep rs ⟨false, allocated, key, data⟩) ∧
      (avtabInsertNonunique allocated h key data).1 = if allocated then some rs.length else none := by
  obtain ⟨tab, htab⟩ := Option.isSome_iff_exists.mp hh.ready
  rw [avtabInsertNonunique, htab, specStep]
  dsimp only
  rw [insertLoop_false]
  cases allocated with
  | true => exact ⟨hh.placed htab key data _, by rw [← hh.nel]; rfl⟩
  | false => exact ⟨hh, rfl⟩

theorem Holds.step (hh : Holds h rs) (op : Insertion) : Holds (step h op) (specStep rs op) := by
  obtain ⟨unique, allocated, key, data⟩ := op
  cases unique with
  | true => exact (hh.insert allocated key data).1
  | false => exact (hh.insertNonunique allocated key data).1

theorem Holds.run (hh : Holds h rs) (ops : List Insertion) : Holds (ops.foldl RuleTable.step h) (ops.foldl specStep rs) := by
  induction ops generalizing h rs with
  | nil => exact hh
  | cons op ops ih => exact ih (hh.step op)

theorem holds_alloc {nrules : Nat} (hpos : nrules ≠ 0) {h : Avtab} (halloc : avtabAlloc true avtabInit nrules = .ok h) :
    Holds h [] := by
  rw [avtabAlloc, if_neg hpos] at halloc
  obtain rfl := Except.ok.inj halloc
  exact ⟨rfl, fun _ => .nil, fun _ => .nil, rfl⟩

/-- Whatever rules were inserted, in whatever order, with and without memory,
into a table of whatever size: a loop over a search sees each rule for its
types and class that shares a bit of its mask once, and nothing else; the
table of unique rules refuses exactly those that such a loop would see. -/
theorem run_visits (nrules : Nat) (hpos : nrules ≠ 0) (h : Avtab) (halloc : avtabAlloc true avtabInit nrules = .ok h)
    (ops : List Insertion) (key : AvtabKey) :
    (visited (ops.foldl step h) key).Perm ((ops.foldl specStep []).filter (matching key)) ∧
    (ops.foldl step h).nel = (ops.foldl specStep []).length ∧
    ∀ allocated data,
      (avtabInsert allocated (ops.foldl step h) key data).1 =
          (if visited (ops.foldl step h) key ≠ [] then -eexist else if allocated then 0 else -enomem) ∧
        (avtabInsertNonunique allocated (ops.foldl step h) key data).1 =
          if allocated then some (ops.foldl specStep []).length else none := by
  have hrun := (holds_alloc hpos halloc).run ops
  refine ⟨hrun.visited key, hrun.nel, fun allocated data => ⟨?_, (hrun.insertNonunique allocated key data).2⟩⟩
  rw [(hrun.insert allocated key data).2]
  have hiff : (ops.foldl specStep []).any (matching key) = true ↔ visited (ops.foldl step h) key ≠ [] := by
    rw [List.any_eq_true, ne_eq, List.eq_nil_iff_forall_not_mem, not_forall_not]
    apply exists_congr
    intro n
    rw [(hrun.visited key).mem_iff, List.mem_filter]
  simp only [hiff]

theorem run_visits_twoRules :
    ∃ h, avtabAlloc true avtabInit 3 = .ok h ∧
      (visited ([⟨false, true, ⟨1, 2, 6, avtabAllowed⟩, 2⟩,
        ⟨false, true, ⟨1, 2, 6, avtabAllowed ||| avtabEnabled⟩, 4⟩].foldl step h) ⟨1, 2, 6, avtabAllowed⟩).length = 2 := by
  refine ⟨_, rfl, ?_⟩
  rw [(run_visits 3 (by decide) _ rfl _ _).1.length_eq]
  decide

end tables

end PigaLinux.RuleTable
