import PigaLinux.BitmapFormat
import PigaLinux.Contexts
import PigaLinux.Rpn

namespace PigaLinux.Constraints

open Kernel Bytes Rpn ExtensibleBitmap Contexts
open BitmapFormat (ebitmapRead ebitmapWrite Held exists_read_write)

def cexprMaxdepth : Nat := 5

def cexprUser : U32 := 1

def cexprRole : U32 := 2

def cexprType : U32 := 4

def cexprTarget : U32 := 8

def cexprXtarget : U32 := 16

inductive Attr
  | user
  | role
  | type
  | l1l2
  | l1h2
  | h1l2
  | h1h2
  | l1h1
  | l2h2
deriving DecidableEq, Repr

def attrOf : Nat → Option Attr
  | 1 => some .user
  | 2 => some .role
  | 4 => some .type
  | 32 => some .l1l2
  | 64 => some .l1h2
  | 128 => some .h1l2
  | 256 => some .h1h2
  | 512 => some .l1h1
  | 1024 => some .l2h2
  | _ => none

inductive Relation
  | eq
  | neq
  | dom
  | domby
  | incomp
deriving DecidableEq, Repr

def relationOf : Nat → Option Relation
  | 1 => some .eq
  | 2 => some .neq
  | 3 => some .dom
  | 4 => some .domby
  | 5 => some .incomp
  | _ => none

inductive Kind
  | attr
  | names
deriving DecidableEq, Repr

inductive Junction
  | and
  | or
deriving DecidableEq, Repr

def Junction.apply : Junction → Bool → Bool → Bool
  | .and, x, y => x && y
  | .or, x, y => x || y

/-- An element of an expression. Only operands use the other fields. -/
structure ConstraintExpr where
  exprType : Token Kind Unit Junction
  attr : U32
  op : U32
  names : Ebitmap

def ConstraintExpr.token (x : ConstraintExpr) : Token ConstraintExpr Unit Junction :=
  match x.exprType with
  | .leaf _ => .leaf x
  | .unary u => .unary u
  | .binary j => .binary j

structure ConstraintNode where
  permissions : U32
  expr : List ConstraintExpr

/-- The ways in which an evaluation ends early: with the value 0, in BUG(), or
with a role that is not in the array of roles, of which nothing is known. -/
inductive Stop
  | zero
  | bug
  | wild
deriving DecidableEq, Repr

def compareValues (op : Option Relation) (val1 val2 : U32) : Except Stop Bool :=
  match op with
  | some .eq => .ok (val1 == val2)
  | some .neq => .ok (val1 != val2)
  | _ => .error .bug

/-- Roles count from 1, and the array of their data has gaps. Both are looked up before the operator is. -/
def compareRoles (roles : Nat → Option Ebitmap) (op : Option Relation) (val1 val2 : U32) : Except Stop Bool :=
  match roles (val1 - 1).toNat, roles (val2 - 1).toNat with
  | some r1, some r2 =>
      match op with
      | some .dom => .ok (ebitmapGetBit r1 (val2 - 1).toNat)
      | some .domby => .ok (ebitmapGetBit r2 (val1 - 1).toNat)
      | some .incomp => .ok (!ebitmapGetBit r1 (val2 - 1).toNat && !ebitmapGetBit r2 (val1 - 1).toNat)
      | op => compareValues op val1 val2
  | _, _ => .error .wild

def compareLevels (op : Option Relation) (l1 l2 : MlsLevel) : Except Stop Bool :=
  match op with
  | some .eq => .ok (mlsLevelEq l1 l2)
  | some .neq => .ok (!mlsLevelEq l1 l2)
  | some .dom => .ok (mlsLevelDom l1 l2)
  | some .domby => .ok (mlsLevelDom l2 l1)
  | some .incomp => .ok (mlsLevelIncomp l2 l1)
  | none => .error .bug

def evalAttr (roles : Nat → Option Ebitmap) (s t : Context) (attr : Option Attr) (op : Option Relation) : Except Stop Bool :=
  match attr with
  | some .user => compareValues op s.user t.user
  | some .type => compareValues op s.type t.type
  | some .role => compareRoles roles op s.role t.role
  | some .l1l2 => compareLevels op s.low t.low
  | some .l1h2 => compareLevels op s.low t.high
  | some .h1l2 => compareLevels op s.high t.low
  | some .h1h2 => compareLevels op s.high t.high
  | some .l1h1 => compareLevels op s.low s.high
  | some .l2h2 => compareLevels op t.low t.high
  | none => .error .bug

/-- The context that names are looked up for; the third one may be missing. -/
def namedContext (s t : Context) (x : Option Context) (attr : U32) : Option Context :=
  if attr &&& cexprTarget ≠ 0 then some t else if attr &&& cexprXtarget ≠ 0 then x else some s

def namedValue (c : Context) (attr : U32) : Option U32 :=
  if attr &&& cexprUser ≠ 0 then some c.user
  else if attr &&& cexprRole ≠ 0 then some c.role
  else if attr &&& cexprType ≠ 0 then some c.type
  else none

def evalNames (s t : Context) (x : Option Context) (attr : U32) (op : Option Relation) (names : Ebitmap) : Except Stop Bool :=
  match (namedContext s t x attr).bind fun c => namedValue c attr with
  | none => .error .bug
  | some val =>
      match op with
      | some .eq => .ok (ebitmapGetBit names (val - 1).toNat)
      | some .neq => .ok (!ebitmapGetBit names (val - 1).toNat)
      | _ => .error .bug

def evalOperand (roles : Nat → Option Ebitmap) (s t : Context) (x : Option Context) (e : ConstraintExpr) : Except Stop Bool :=
  match e.exprType with
  | .leaf .attr => evalAttr roles s t (attrOf e.attr.toNat) (relationOf e.op.toNat)
  | _ => evalNames s t x e.attr (relationOf e.op.toNat) e.names

def constraintMachine (roles : Nat → Option Ebitmap) (s t : Context) (x : Option Context) :
    Machine ConstraintExpr Unit Junction Bool Stop where
  cap := cexprMaxdepth
  overflow := .zero
  underflow := .bug
  leaf := evalOperand roles s t x
  unary _ v := !v
  binary := Junction.apply

/-- One value has to be left at the end. -/
def constraintExprEval (roles : Nat → Option Ebitmap) (s t : Context) (x : Option Context) (cexpr : List ConstraintExpr) :
    Except Stop Bool :=
  match (constraintMachine roles s t x).run (cexpr.map ConstraintExpr.token) [] with
  | .error .zero => .ok false
  | .error stop => .error stop
  | .ok [v] => .ok v
  | .ok _ => .error .bug

inductive Allocation
  | node (i : Nat)
  | expr (i j : Nat)
  | names (i j k : Nat)

def exprTypeOf : Nat → Option (Token Kind Unit Junction)
  | 1 => some (.unary ())
  | 2 => some (.binary .and)
  | 3 => some (.binary .or)
  | 4 => some (.leaf .attr)
  | 5 => some (.leaf .names)
  | _ => none

def newDepth (depth : Int) : Token Kind Unit Junction → Option Int
  | .unary _ => if depth < 0 then none else some depth
  | .binary _ => if depth < 1 then none else some (depth - 1)
  | .leaf _ => if depth = cexprMaxdepth - 1 then none else some (depth + 1)

def readElement (allowxtarget : Bool) (allocated : Nat → Bool) (depth : Int) (fp : List Byte) :
    Except Int ((ConstraintExpr × Int) × List Byte) :=
  (nextEntry 12 fp).bind fun (buf, fp) =>
    let attr := BitVec.ofNat 32 (leValue ((buf.drop 4).take 4))
    let op := BitVec.ofNat 32 (leValue (buf.drop 8))
    match exprTypeOf (leValue (buf.take 4)) with
    | none => .error (-einval)
    | some exprType =>
        if exprType = .leaf .names ∧ allowxtarget = false ∧ attr &&& cexprXtarget ≠ 0 then .error (-einval)
        else
          match newDepth depth exprType with
          | none => .error (-einval)
          | some depth =>
              if exprType = .leaf .names then
                (ebitmapRead allocated fp).bind fun (names, fp) => .ok ((⟨exprType, attr, op, names⟩, depth), fp)
              else .ok ((⟨exprType, attr, op, ebitmapInit⟩, depth), fp)

def readElements (allowxtarget : Bool) (memory : Allocation → Bool) (i : Nat) :
    Nat → List ConstraintExpr → Int → List Byte → Except Int ((List ConstraintExpr × Int) × List Byte)
  | 0, expr, depth, fp => .ok ((expr, depth), fp)
  | n + 1, expr, depth, fp =>
      if memory (.expr i expr.length) = false then .error (-enomem)
      else (readElement allowxtarget (fun k => memory (.names i expr.length k)) depth fp).bind fun ((e, depth), fp) =>
        readElements allowxtarget memory i n (expr ++ [e]) depth fp

def readConstraint (allowxtarget : Bool) (memory : Allocation → Bool) (i : Nat) (fp : List Byte) :
    Except Int (ConstraintNode × List Byte) :=
  if memory (.node i) = false then .error (-enomem)
  else (nextEntry 8 fp).bind fun (buf, fp) =>
    (readElements allowxtarget memory i (leValue (buf.drop 4)) [] (-1) fp).bind fun ((expr, depth), fp) =>
      if depth ≠ 0 then .error (-einval) else .ok (⟨BitVec.ofNat 32 (leValue (buf.take 4)), expr⟩, fp)

def readConsLoop (allowxtarget : Bool) (memory : Allocation → Bool) :
    Nat → List ConstraintNode → List Byte → Except Int (List ConstraintNode × List Byte)
  | 0, nodes, fp => .ok (nodes, fp)
  | n + 1, nodes, fp =>
      (readConstraint allowxtarget memory nodes.length fp).bind fun (c, fp) =>
        readConsLoop allowxtarget memory n (nodes ++ [c]) fp

def readConsHelper (memory : Allocation → Bool) (ncons : Int) (allowxtarget : Bool) (fp : List Byte) :
    Except Int (List ConstraintNode × List Byte) :=
  readConsLoop allowxtarget memory ncons.toNat [] fp

def exprTypeNumber : Token Kind Unit Junction → Nat
  | .unary _ => 1
  | .binary .and => 2
  | .binary .or => 3
  | .leaf .attr => 4
  | .leaf .names => 5

def writeElement (e : ConstraintExpr) : List Byte :=
  leBytes 4 (exprTypeNumber e.exprType) ++ leBytes 4 e.attr.toNat ++ leBytes 4 e.op.toNat ++
    if e.exprType = .leaf .names then ebitmapWrite e.names else []

def writeConstraint (c : ConstraintNode) : List Byte :=
  leBytes 4 c.permissions.toNat ++ leBytes 4 c.expr.length ++ c.expr.flatMap writeElement

def writeConsHelper (nodes : List ConstraintNode) : List Byte := nodes.flatMap writeConstraint

section operands

variable {roles : Nat → Option Ebitmap} {s t : Context} {x : Option Context} {y : ConstraintExpr}

/-- An operand that the evaluation knows; the reader does not ask for it. -/
def Sane (y : ConstraintExpr) : Prop :=
  match y.exprType with
  | .leaf .attr =>
      match attrOf y.attr.toNat with
      | some .user | some .type => relationOf y.op.toNat = some .eq ∨ relationOf y.op.toNat = some .neq
      | some _ => relationOf y.op.toNat ≠ none
      | none => False
  | .leaf .names =>
      (y.attr &&& cexprUser ≠ 0 ∨ y.attr &&& cexprRole ≠ 0 ∨ y.attr &&& cexprType ≠ 0) ∧
        (relationOf y.op.toNat = some .eq ∨ relationOf y.op.toNat = some .neq)
  | _ => True

/-- The roles of both contexts are roles of the policy. -/
def RolesKnown (roles : Nat → Option Ebitmap) (s t : Context) : Prop :=
  (roles (s.role - 1).toNat).isSome = true ∧ (roles (t.role - 1).toNat).isSome = true

theorem compareValues_cases (op : Option Relation) (val1 val2 : U32) :
    (∃ v, compareValues op val1 val2 = .ok v) ∧ (op = some .eq ∨ op = some .neq) ∨
      compareValues op val1 val2 = .error .bug ∧ ¬ (op = some .eq ∨ op = some .neq) := by
  rcases op with _ | op
  · simp [compareValues]
  · cases op <;> simp [compareValues]

theorem compareLevels_cases (op : Option Relation) (l1 l2 : MlsLevel) :
    (∃ v, compareLevels op l1 l2 = .ok v) ∧ op ≠ none ∨ compareLevels op l1 l2 = .error .bug ∧ ¬ op ≠ none := by
  rcases op with _ | op
  · simp [compareLevels]
  · cases op <;> simp [compareLevels]

theorem compareRoles_cases (hroles : RolesKnown roles s t) (op : Option Relation) :
    (∃ v, compareRoles roles op s.role t.role = .ok v) ∧ op ≠ none ∨
      compareRoles roles op s.role t.role = .error .bug ∧ ¬ op ≠ none := by
  obtain ⟨r1, hr1⟩ := Option.isSome_iff_exists.mp hroles.1
  obtain ⟨r2, hr2⟩ := Option.isSome_iff_exists.mp hroles.2
  rw [compareRoles, hr1, hr2]
  rcases op with _ | op
  · simp [compareValues]
  · cases op <;> simp [compareValues]

theorem evalNames_cases {attr : U32} (hx : attr &&& cexprXtarget ≠ 0 → x.isSome = true) (op : Option Relation) (names : Ebitmap) :
    (∃ v, evalNames s t x attr op names = .ok v) ∧
        ((attr &&& cexprUser ≠ 0 ∨ attr &&& cexprRole ≠ 0 ∨ attr &&& cexprType ≠ 0) ∧ (op = some .eq ∨ op = some .neq)) ∨
      evalNames s t x attr op names = .error .bug ∧
        ¬ ((attr &&& cexprUser ≠ 0 ∨ attr &&& cexprRole ≠ 0 ∨ attr &&& cexprType ≠ 0) ∧
          (op = some .eq ∨ op = some .neq)) := by
  obtain ⟨c, hc⟩ : ∃ c, namedContext s t x attr = some c := by
    rw [namedContext]
    split
    · exact ⟨t, rfl⟩
    · split
      next hxtarget => exact Option.isSome_iff_exists.mp (hx hxtarget)
      next => exact ⟨s, rfl⟩
  have hvalue : (∃ val, namedValue c attr = some val) ∧ (attr &&& cexprUser ≠ 0 ∨ attr &&& cexprRole ≠ 0 ∨ attr &&& cexprType ≠ 0) ∨
      namedValue c attr = none ∧ ¬ (attr &&& cexprUser ≠ 0 ∨ attr &&& cexprRole ≠ 0 ∨ attr &&& cexprType ≠ 0) := by
    rw [namedValue]
    split
    next h => exact Or.inl ⟨⟨_, rfl⟩, Or.inl h⟩
    next h =>
      split
      next h' => exact Or.inl ⟨⟨_, rfl⟩, Or.inr (Or.inl h')⟩
      next h' =>
        split
        next h'' => exact Or.inl ⟨⟨_, rfl⟩, Or.inr (Or.inr h'')⟩
        next h'' => exact Or.inr ⟨rfl, not_or.mpr ⟨h, not_or.mpr ⟨h', h''⟩⟩⟩
  rw [evalNames, hc, Option.bind_some]
  rcases hvalue with ⟨⟨val, hval⟩, hattr⟩ | ⟨hnone, hattr⟩
  · rw [hval]
    rcases op with _ | op
    · simp
    · cases op with
      | eq => exact Or.inl ⟨⟨_, rfl⟩, hattr, Or.inl rfl⟩
      | neq => exact Or.inl ⟨⟨_, rfl⟩, hattr, Or.inr rfl⟩
      | dom => simp
      | domby => simp
      | incomp => simp
  · rw [hnone]
    exact Or.inr ⟨rfl, fun h => hattr h.1⟩

theorem evalOperand_cases (hroles : RolesKnown roles s t) {k : Kind} (hy : y.exprType = .leaf k)
    (hx : y.exprType = .leaf .names → y.attr &&& cexprXtarget ≠ 0 → x.isSome = true) :
    (∃ v, evalOperand roles s t x y = .ok v) ∧ Sane y ∨ evalOperand roles s t x y = .error .bug ∧ ¬ Sane y := by
  cases k with
  | attr =>
      rw [evalOperand, Sane, hy]
      dsimp only
      rcases attrOf y.attr.toNat with _ | attr
      · exact Or.inr ⟨rfl, id⟩
      · cases attr with
        | user => exact compareValues_cases _ _ _
        | type => exact compareValues_cases _ _ _
        | role => exact compareRoles_cases hroles _
        | l1l2 => exact compareLevels_cases _ _ _
        | l1h2 => exact compareLevels_cases _ _ _
        | h1l2 => exact compareLevels_cases _ _ _
        | h1h2 => exact compareLevels_cases _ _ _
        | l1h1 => exact compareLevels_cases _ _ _
        | l2h2 => exact compareLevels_cases _ _ _
  | names =>
      have hcases := evalNames_cases (s := s) (t := t) (hx hy) (relationOf y.op.toNat) y.names
      rw [evalOperand, Sane, hy]
      exact hcases

end operands

section reading

variable {allowxtarget : Bool} {memory : Allocation → Bool} {fp rest : List Byte} {depth depth' : Int} {d : Nat}

theorem newDepth_scan (d : Nat) (t : Token Kind Unit Junction) :
    newDepth ((d : Int) - 1) t = (scan cexprMaxdepth d t).map fun d' : Nat => (d' : Int) - 1 := by
  cases t with
  | leaf k =>
      rw [newDepth, scan, cexprMaxdepth]
      by_cases hd : d = 5
      · subst hd
        rfl
      · rw [if_neg (by omega), if_neg hd, Option.map_some]
        congr 1
        omega
  | unary u =>
      rw [newDepth, scan]
      by_cases hd : d = 0
      · subst hd
        rfl
      · rw [if_neg (by omega), if_neg hd, Option.map_some]
  | binary j =>
      rw [newDepth, scan]
      by_cases hd : d < 2
      · rw [if_pos (by omega), if_pos hd, Option.map_none]
      · rw [if_neg (by omega), if_neg hd, Option.map_some]
        congr 1
        omega

theorem scan_token (e : ConstraintExpr) (d : Nat) : scan cexprMaxdepth d e.token = scan cexprMaxdepth d e.exprType := by
  rw [ConstraintExpr.token]
  cases e.exprType with
  | leaf k => rfl
  | unary u => rfl
  | binary j => rfl

theorem readElement_cases {allocated : Nat → Bool} {e : ConstraintExpr}
    (h : readElement allowxtarget allocated depth fp = .ok ((e, depth'), rest)) :
    newDepth depth e.exprType = some depth' ∧
      (e.exprType = .leaf .names → allowxtarget = true ∨ e.attr &&& cexprXtarget = 0) := by
  rw [readElement] at h
  obtain ⟨⟨buf, fp'⟩, -, h⟩ := bind_eq_ok h
  dsimp only at h
  split at h
  · cases h
  next exprType htype =>
    split at h
    · cases h
    next hnames =>
      split at h
      · cases h
      next depth₁ hdepth =>
        have hx : exprType = .leaf .names → allowxtarget = true ∨
            BitVec.ofNat 32 (leValue ((buf.drop 4).take 4)) &&& cexprXtarget = 0 := by
          intro hleaf
          by_contra hno
          obtain ⟨hallow, hattr⟩ := not_or.mp hno
          exact hnames ⟨hleaf, Bool.eq_false_iff.mpr hallow, hattr⟩
        split at h
        · obtain ⟨⟨names, fp''⟩, -, h⟩ := bind_eq_ok h
          obtain ⟨hpair, -⟩ := Prod.mk.inj (Except.ok.inj h)
          obtain ⟨rfl, rfl⟩ := Prod.mk.inj hpair
          exact ⟨hdepth, hx⟩
        · obtain ⟨hpair, -⟩ := Prod.mk.inj (Except.ok.inj h)
          obtain ⟨rfl, rfl⟩ := Prod.mk.inj hpair
          exact ⟨hdepth, hx⟩

structure Scanned (allowxtarget : Bool) (expr : List ConstraintExpr) (depth : Int) : Prop where
  scan : ∃ d : Nat, (expr.map ConstraintExpr.token).foldlM (scan cexprMaxdepth) 0 = some d ∧ depth = (d : Int) - 1
  xtarget : ∀ e ∈ expr, e.exprType = .leaf .names → allowxtarget = true ∨ e.attr &&& cexprXtarget = 0

theorem Scanned.snoc {expr : List ConstraintExpr} {e : ConstraintExpr} (h : Scanned allowxtarget expr depth)
    (hdepth : newDepth depth e.exprType = some depth')
    (hx : e.exprType = .leaf .names → allowxtarget = true ∨ e.attr &&& cexprXtarget = 0) :
    Scanned allowxtarget (expr ++ [e]) depth' := by
  obtain ⟨d, hscan, rfl⟩ := h.scan
  rw [newDepth_scan] at hdepth
  obtain ⟨d', hd', rfl⟩ := Option.map_eq_some_iff.mp hdepth
  refine ⟨⟨d', ?_, rfl⟩, List.forall_mem_append.mpr ⟨h.xtarget, ?_⟩⟩
  · rw [List.map_append, List.foldlM_append, hscan]
    change (List.foldlM (Rpn.scan cexprMaxdepth) d [e.token]) = some d'
    rw [List.foldlM_cons, scan_token, hd']
    rfl
  · rw [List.forall_mem_singleton]
    exact hx

theorem readElements_scanned {i n : Nat} {expr expr' : List ConstraintExpr} (h : Scanned allowxtarget expr depth)
    (hread : readElements allowxtarget memory i n expr depth fp = .ok ((expr', depth'), rest)) :
    Scanned allowxtarget expr' depth' := by
  induction n generalizing expr depth fp with
  | zero =>
      obtain ⟨hpair, -⟩ := Prod.mk.inj (Except.ok.inj hread)
      obtain ⟨rfl, rfl⟩ := Prod.mk.inj hpair
      exact h
  | succ n ih =>
      rw [readElements] at hread
      split at hread
      · cases hread
      · obtain ⟨⟨⟨e, depth₁⟩, fp₁⟩, helement, hread⟩ := bind_eq_ok hread
        obtain ⟨hdepth, hx⟩ := readElement_cases helement
        exact ih (h.snoc hdepth hx) hread

/-- A constraint that can be evaluated. -/
structure Fits (allowxtarget : Bool) (expr : List ConstraintExpr) : Prop where
  spelled : ∃ e : Expr ConstraintExpr Unit Junction, e.tokens = expr.map ConstraintExpr.token ∧ e.need ≤ cexprMaxdepth
  xtarget : ∀ e ∈ expr, e.exprType = .leaf .names → allowxtarget = true ∨ e.attr &&& cexprXtarget = 0

theorem Scanned.fits_iff {expr : List ConstraintExpr} (h : Scanned allowxtarget expr depth) :
    Fits allowxtarget expr ↔ depth = 0 := by
  obtain ⟨d, hscan, rfl⟩ := h.scan
  have hiff : (expr.map ConstraintExpr.token).foldlM (Rpn.scan cexprMaxdepth) 0 = some 1 ↔
      ∃ e : Expr ConstraintExpr Unit Junction, e.tokens = expr.map ConstraintExpr.token ∧ e.need ≤ cexprMaxdepth :=
    foldlM_scan_iff _
  rw [hscan, Option.some_inj] at hiff
  constructor
  · intro hfits
    have := hiff.mpr hfits.spelled
    omega
  · intro hzero
    exact ⟨hiff.mp (by omega), h.xtarget⟩

theorem readConstraint_fits {i : Nat} {c : ConstraintNode} (h : readConstraint allowxtarget memory i fp = .ok (c, rest)) :
    Fits allowxtarget c.expr := by
  rw [readConstraint] at h
  split at h
  · cases h
  · obtain ⟨⟨buf, fp₁⟩, -, h⟩ := bind_eq_ok h
    obtain ⟨⟨⟨expr, depth⟩, fp₂⟩, hread, h⟩ := bind_eq_ok h
    dsimp only at h
    split at h
    · cases h
    next hdepth =>
      obtain ⟨rfl, -⟩ := Prod.mk.inj (Except.ok.inj h)
      have hempty : Scanned allowxtarget [] (-1) := ⟨⟨0, rfl, rfl⟩, fun e he => absurd he List.not_mem_nil⟩
      exact (readElements_scanned hempty hread).fits_iff.mpr (not_not.mp hdepth)

theorem readConsLoop_fits {n : Nat} {nodes nodes' : List ConstraintNode} (h : ∀ c ∈ nodes, Fits allowxtarget c.expr)
    (hread : readConsLoop allowxtarget memory n nodes fp = .ok (nodes', rest)) : ∀ c ∈ nodes', Fits allowxtarget c.expr := by
  induction n generalizing nodes fp with
  | zero =>
      obtain ⟨rfl, -⟩ := Prod.mk.inj (Except.ok.inj hread)
      exact h
  | succ n ih =>
      rw [readConsLoop] at hread
      obtain ⟨⟨c, fp₁⟩, hc, hread⟩ := bind_eq_ok hread
      apply ih _ hread
      rw [List.forall_mem_append, List.forall_mem_singleton]
      exact ⟨h, readConstraint_fits hc⟩

end reading

section evaluation

variable {roles : Nat → Option Ebitmap} {s t : Context} {x : Option Context} {allowxtarget : Bool}

def operandValue (roles : Nat → Option Ebitmap) (s t : Context) (x : Option Context) (y : ConstraintExpr) : Bool :=
  match evalOperand roles s t x y with
  | .ok v => v
  | .error _ => false

def truth (roles : Nat → Option Ebitmap) (s t : Context) (x : Option Context) (e : Expr ConstraintExpr Unit Junction) : Bool :=
  (constraintMachine roles s t x).value (operandValue roles s t x) e

theorem mem_tokens_iff {expr : List ConstraintExpr} {y : ConstraintExpr} :
    Token.leaf y ∈ expr.map ConstraintExpr.token ↔ y ∈ expr ∧ ∃ k, y.exprType = .leaf k := by
  rw [List.mem_map]
  constructor
  · rintro ⟨z, hz, htoken⟩
    rw [ConstraintExpr.token] at htoken
    split at htoken
    next k hk =>
      obtain rfl := Token.leaf.inj htoken
      exact ⟨hz, k, hk⟩
    next => cases htoken
    next => cases htoken
  · rintro ⟨hy, k, hk⟩
    exact ⟨y, hy, by rw [ConstraintExpr.token, hk]⟩

theorem sane_of_not_leaf {y : ConstraintExpr} (h : ¬ ∃ k, y.exprType = .leaf k) : Sane y := by
  rw [Sane]
  cases hy : y.exprType with
  | leaf k => exact absurd ⟨k, hy⟩ h
  | unary u => trivial
  | binary j => trivial

/-- The machine has room for an expression that fits, and one value is left. -/
theorem constraintExprEval_tokens {expr : List ConstraintExpr} {e : Expr ConstraintExpr Unit Junction}
    (he : e.tokens = expr.map ConstraintExpr.token) (hneed : e.need ≤ cexprMaxdepth) :
    constraintExprEval roles s t x expr =
      match (constraintMachine roles s t x).eval e with
      | .error .zero => .ok false
      | out => out := by
  have hcap : ([] : List Bool).length + e.need ≤ (constraintMachine roles s t x).cap := by
    rw [List.length_nil, Nat.zero_add]
    exact hneed
  rw [constraintExprEval, ← he, run_tokens e [] hcap]
  cases (constraintMachine roles s t x).eval e with
  | ok v => rfl
  | error stop =>
      cases stop with
      | zero => rfl
      | bug => rfl
      | wild => rfl

theorem constraintExprEval_fits (hroles : RolesKnown roles s t) (hx : allowxtarget = true → x.isSome = true)
    {expr : List ConstraintExpr} (hfits : Fits allowxtarget expr) {e : Expr ConstraintExpr Unit Junction}
    (he : e.tokens = expr.map ConstraintExpr.token) (hneed : e.need ≤ cexprMaxdepth) :
    ((∀ y ∈ expr, Sane y) → constraintExprEval roles s t x expr = .ok (truth roles s t x e)) ∧
      ((∃ y ∈ expr, ¬ Sane y) → constraintExprEval roles s t x expr = .error .bug) := by
  have hcases : ∀ y, Token.leaf y ∈ e.tokens →
      (∃ v, evalOperand roles s t x y = .ok v) ∧ Sane y ∨ evalOperand roles s t x y = .error .bug ∧ ¬ Sane y := by
    intro y hy
    rw [he] at hy
    obtain ⟨hmem, k, hk⟩ := mem_tokens_iff.mp hy
    refine evalOperand_cases hroles hk fun hnames hattr => ?_
    exact hx ((hfits.xtarget y hmem hnames).resolve_right hattr)
  rw [constraintExprEval_tokens he hneed]
  constructor
  · intro hsane
    have heval : (constraintMachine roles s t x).eval e = .ok (truth roles s t x e) := by
      apply eval_value
      intro y hy
      rcases hcases y hy with ⟨⟨v, hv⟩, -⟩ | ⟨-, hinsane⟩
      · change evalOperand roles s t x y = _
        rw [operandValue, hv]
      · rw [he] at hy
        exact absurd (hsane y (mem_tokens_iff.mp hy).1) hinsane
    rw [heval]
  · rintro ⟨y, hy, hinsane⟩
    have hleaf : Token.leaf y ∈ e.tokens := by
      rw [he]
      exact mem_tokens_iff.mpr ⟨hy, not_not.mp fun hno => hinsane (sane_of_not_leaf hno)⟩
    have heval : (constraintMachine roles s t x).eval e = .error .bug := by
      apply eval_error
      · intro y hy
        exact (hcases y hy).imp And.left And.left
      · refine ⟨y, hleaf, ?_⟩
        rcases hcases y hleaf with ⟨-, hsane⟩ | ⟨hbug, -⟩
        · exact absurd hsane hinsane
        · exact hbug
    rw [heval]

/-- Whatever was read as a constraint spells one expression and no other, and its evaluation
neither overflows its stack of five cells nor trips over it. It gives the truth of the
expression if every operand is sane, and ends in BUG() otherwise: the reader does not ask. -/
theorem readConsHelper_evaluates (memory : Allocation → Bool) (ncons : Int) (allowxtarget : Bool) (fp rest : List Byte)
    (nodes : List ConstraintNode) (hread : readConsHelper memory ncons allowxtarget fp = .ok (nodes, rest)) :
    ∀ c ∈ nodes, ∃ e : Expr ConstraintExpr Unit Junction,
      e.tokens = c.expr.map ConstraintExpr.token ∧ (∀ e', e'.tokens = c.expr.map ConstraintExpr.token → e' = e) ∧
        e.need ≤ cexprMaxdepth ∧
        ∀ roles s t x, RolesKnown roles s t → (allowxtarget = true → x.isSome = true) →
          ((∀ y ∈ c.expr, Sane y) → constraintExprEval roles s t x c.expr = .ok (truth roles s t x e)) ∧
            ((∃ y ∈ c.expr, ¬ Sane y) → constraintExprEval roles s t x c.expr = .error .bug) := by
  intro c hc
  have hfits := readConsLoop_fits (fun c hc => absurd hc List.not_mem_nil) hread c hc
  obtain ⟨e, he, hneed⟩ := hfits.spelled
  exact ⟨e, he, fun e' he' => tokens_injective (he'.trans he.symm), hneed,
    fun roles s t x hroles hx => constraintExprEval_fits hroles hx hfits he hneed⟩

def sameUserOrUnnamed : ConstraintNode :=
  ⟨6, [⟨.leaf .attr, 1, 1, ebitmapInit⟩, ⟨.leaf .names, cexprType ||| cexprTarget, 2, run [⟨true, 2, true⟩]⟩,
    ⟨.binary .or, 0, 0, ebitmapInit⟩]⟩

theorem sameUserOrUnnamed_sane : ∀ y ∈ sameUserOrUnnamed.expr, Sane y := by
  intro y hy
  rcases List.mem_cons.mp hy with rfl | hy
  · exact Or.inl rfl
  · rcases List.mem_cons.mp hy with rfl | hy
    · exact ⟨Or.inr (Or.inr (by decide)), Or.inr rfl⟩
    · obtain rfl := List.mem_singleton.mp hy
      trivial

theorem readConsHelper_sameUserOrUnnamed :
    readConsHelper (fun _ => true) 1 false (writeConsHelper [sameUserOrUnnamed]) = .ok ([sameUserOrUnnamed], []) := rfl

def oneRole : Nat → Option Ebitmap := fun i => if i = 0 then some ebitmapInit else none

theorem readConsHelper_evaluates_sameUser :
    ∃ e, ∀ s t, s.role = 1 → t.role = 1 →
      constraintExprEval oneRole s t none sameUserOrUnnamed.expr = .ok (truth oneRole s t none e) := by
  obtain ⟨e, -, -, -, heval⟩ := readConsHelper_evaluates _ _ _ _ _ _ readConsHelper_sameUserOrUnnamed sameUserOrUnnamed
    (List.mem_singleton_self _)
  refine ⟨e, fun s t hs ht => (heval _ s t none ?_ (fun h => absurd h Bool.false_ne_true)).1 sameUserOrUnnamed_sane⟩
  rw [RolesKnown, hs, ht]
  decide

end evaluation

end PigaLinux.Constraints
