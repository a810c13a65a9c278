import PigaLinux.Constraints

namespace PigaLinux.ConstraintFormat

open Kernel Bytes Rpn ExtensibleBitmap Contexts Constraints
open BitmapFormat (ebitmapRead ebitmapWrite Held exists_read_write)

variable {allowxtarget : Bool}

structure Alike (e e' : ConstraintExpr) : Prop where
  exprType : e'.exprType = e.exprType
  attr : e'.attr = e.attr
  op : e'.op = e.op
  names : e.exprType = .leaf .names → ∀ b, ebitmapGetBit e'.names b = ebitmapGetBit e.names b

def Writable (e : ConstraintExpr) : Prop := e.exprType = .leaf .names → Held e.names ∧ e.names.highbit < 2 ^ 31

section evaluation

variable {roles : Nat → Option Ebitmap} {s t : Context} {x : Option Context} {e e' : ConstraintExpr}

theorem Alike.evalOperand (h : Alike e e') {k : Kind} (hk : e.exprType = .leaf k) :
    evalOperand roles s t x e' = evalOperand roles s t x e := by
  cases k with
  | attr => rw [Constraints.evalOperand, Constraints.evalOperand, h.exprType, h.attr, h.op, hk]
  | names =>
      rw [Constraints.evalOperand, Constraints.evalOperand, h.exprType, h.attr, h.op, hk]
      simp only [evalNames, h.names hk]

theorem Alike.step (h : Alike e e') (st : List Bool) :
    (constraintMachine roles s t x).step st e'.token = (constraintMachine roles s t x).step st e.token := by
  rw [ConstraintExpr.token, ConstraintExpr.token, h.exprType]
  cases hk : e.exprType with
  | leaf k =>
      change (if _ then _ else (Constraints.evalOperand roles s t x e').map _) =
        (if _ then _ else (Constraints.evalOperand roles s t x e).map _)
      rw [h.evalOperand hk]
  | unary u => rfl
  | binary j => rfl

theorem run_alike {expr expr' : List ConstraintExpr} (h : List.Forall₂ Alike expr expr') (st : List Bool) :
    (constraintMachine roles s t x).run (expr'.map ConstraintExpr.token) st =
      (constraintMachine roles s t x).run (expr.map ConstraintExpr.token) st := by
  induction h generalizing st with
  | nil => rfl
  | cons h hs ih =>
      rw [List.map_cons, List.map_cons, Machine.run, Machine.run, List.foldlM_cons, List.foldlM_cons, h.step]
      congr 1
      funext st'
      exact ih st'

/-- Constraints that no decision can tell apart. -/
structure SameConstraint (c c' : ConstraintNode) : Prop where
  permissions : c'.permissions = c.permissions
  eval : ∀ roles s t x, constraintExprEval roles s t x c'.expr = constraintExprEval roles s t x c.expr

end evaluation

abbrev Refused (allowxtarget : Bool) (e : ConstraintExpr) : Prop :=
  e.exprType = .leaf .names ∧ allowxtarget = false ∧ e.attr &&& cexprXtarget ≠ 0

def advance (allowxtarget : Bool) (depth : Int) (e : ConstraintExpr) : Option Int :=
  if Refused allowxtarget e then none else newDepth depth e.exprType

theorem exprTypeOf_exprTypeNumber (t : Token Kind Unit Junction) : exprTypeOf (exprTypeNumber t) = some t := by
  cases t with
  | leaf k => cases k <;> rfl
  | unary u => rfl
  | binary j => cases j <;> rfl

theorem exprTypeNumber_lt (t : Token Kind Unit Junction) : exprTypeNumber t < 256 ^ 4 := by
  cases t with
  | leaf k => cases k <;> decide
  | unary u => cases u; decide
  | binary j => cases j <;> decide

theorem leValue_word (w : U32) : BitVec.ofNat 32 (leValue (leBytes 4 w.toNat)) = w := by
  have hlt : w.toNat < 256 ^ 4 := w.isLt
  rw [leValue_leBytes_of_lt hlt, BitVec.ofNat_toNat, BitVec.setWidth_eq]

theorem fields_of_three {a b c : List Byte} (ha : a.length = 4) (hb : b.length = 4) :
    (a ++ b ++ c).take 4 = a ∧ ((a ++ b ++ c).drop 4).take 4 = b ∧ (a ++ b ++ c).drop 8 = c := by
  refine ⟨?_, ?_, List.drop_left' (by simp [ha, hb])⟩
  · rw [List.append_assoc, List.take_left' ha]
  · rw [List.append_assoc, List.drop_left' ha, List.take_left' hb]

theorem readElement_writeElement (allowxtarget : Bool) (depth : Int) (e : ConstraintExpr) (he : Writable e) (rest : List Byte) :
    match advance allowxtarget depth e with
    | none => readElement allowxtarget (fun _ => true) depth (writeElement e ++ rest) = .error (-einval)
    | some depth' => ∃ e', readElement allowxtarget (fun _ => true) depth (writeElement e ++ rest) = .ok ((e', depth'), rest) ∧
        Alike e e' := by
  obtain ⟨hone, htwo, hthree⟩ := fields_of_three (c := leBytes 4 e.op.toNat)
    (length_leBytes 4 (exprTypeNumber e.exprType)) (length_leBytes 4 e.attr.toNat)
  have hlen : (leBytes 4 (exprTypeNumber e.exprType) ++ leBytes 4 e.attr.toNat ++ leBytes 4 e.op.toNat).length = 12 := by
    simp [length_leBytes]
  rw [readElement, writeElement, List.append_assoc, nextEntry_append hlen]
  simp only [Except.bind, hone, htwo, hthree, leValue_word, leValue_leBytes_of_lt (exprTypeNumber_lt _),
    exprTypeOf_exprTypeNumber]
  rw [advance]
  split_ifs with hrefused hnames
  · rfl
  · cases newDepth depth e.exprType with
    | none => rfl
    | some depth' =>
        obtain ⟨hheld, hhigh⟩ := he hnames
        obtain ⟨names, hread, hcanonical, hbits⟩ := exists_read_write hheld.laid hhigh rest
        dsimp only
        rw [hread]
        refine ⟨_, rfl, rfl, rfl, rfl, fun _ b => ?_⟩
        rw [Bool.eq_iff_iff, hcanonical.laid.getBit, hheld.laid.getBit, hbits]
  · cases newDepth depth e.exprType with
    | none => rfl
    | some depth' => exact ⟨_, rfl, rfl, rfl, rfl, fun hleaf => absurd hleaf hnames⟩

theorem foldlM_advance {expr : List ConstraintExpr} (h : ∀ e ∈ expr, ¬ Refused allowxtarget e) (d : Nat) :
    expr.foldlM (advance allowxtarget) ((d : Int) - 1) =
      ((expr.map ConstraintExpr.token).foldlM (scan cexprMaxdepth) d).map fun d' : Nat => (d' : Int) - 1 := by
  induction expr generalizing d with
  | nil => rfl
  | cons e expr ih =>
      obtain ⟨he, h⟩ := List.forall_mem_cons.mp h
      rw [List.map_cons, List.foldlM_cons, List.foldlM_cons, advance, if_neg he, newDepth_scan, scan_token]
      cases scan cexprMaxdepth d e.exprType with
      | none => rfl
      | some d' => exact ih h d'

theorem foldlM_advance_of_refused {expr : List ConstraintExpr} (h : ∃ e ∈ expr, Refused allowxtarget e) (depth : Int) :
    expr.foldlM (advance allowxtarget) depth = none := by
  induction expr generalizing depth with
  | nil =>
      obtain ⟨e, he, -⟩ := h
      exact absurd he List.not_mem_nil
  | cons first expr ih =>
      rw [List.foldlM_cons]
      by_cases hfirst : Refused allowxtarget first
      · rw [advance, if_pos hfirst]
        rfl
      · obtain ⟨e, he, hrefused⟩ := h
        have hrest : ∃ e ∈ expr, Refused allowxtarget e := by
          rcases List.mem_cons.mp he with rfl | he
          · exact absurd hrefused hfirst
          · exact ⟨e, he, hrefused⟩
        cases advance allowxtarget depth first with
        | none => rfl
        | some depth' => exact ih hrest depth'

theorem not_refused_iff {e : ConstraintExpr} : ¬ Refused allowxtarget e ↔
    (e.exprType = .leaf .names → allowxtarget = true ∨ e.attr &&& cexprXtarget = 0) := by
  rw [Refused, not_and, not_and]
  apply forall_congr'
  intro _
  rw [ne_eq, not_not, or_iff_not_imp_left, Bool.not_eq_true]

theorem fits_iff_advance {expr : List ConstraintExpr} :
    Fits allowxtarget expr ↔ expr.foldlM (advance allowxtarget) (-1) = some 0 := by
  by_cases hgood : ∀ e ∈ expr, ¬ Refused allowxtarget e
  · have hscan : expr.foldlM (advance allowxtarget) (-1) =
        ((expr.map ConstraintExpr.token).foldlM (scan cexprMaxdepth) 0).map fun d' : Nat => (d' : Int) - 1 :=
      foldlM_advance hgood 0
    have hone : expr.foldlM (advance allowxtarget) (-1) = some 0 ↔
        (expr.map ConstraintExpr.token).foldlM (scan cexprMaxdepth) 0 = some 1 := by
      rw [hscan, Option.map_eq_some_iff]
      constructor
      · rintro ⟨d, hd, hdepth⟩
        obtain rfl : d = 1 := by omega
        exact hd
      · intro hd
        exact ⟨1, hd, rfl⟩
    rw [hone, foldlM_scan_iff]
    exact ⟨Fits.spelled, fun hspelled => ⟨hspelled, fun e he => not_refused_iff.mp (hgood e he)⟩⟩
  · have hbad : ∃ e ∈ expr, Refused allowxtarget e := by
      simpa only [not_forall, exists_prop, not_not] using hgood
    rw [foldlM_advance_of_refused hbad]
    refine iff_of_false (fun hfits => ?_) (fun h => by cases h)
    exact hgood fun e he => not_refused_iff.mpr (hfits.xtarget e he)

theorem readElements_writeElements (allowxtarget : Bool) (depth : Int) (i : Nat) (expr : List ConstraintExpr)
    (hw : ∀ e ∈ expr, Writable e) (acc : List ConstraintExpr) (rest : List Byte) :
    match expr.foldlM (advance allowxtarget) depth with
    | none => readElements allowxtarget (fun _ => true) i expr.length acc depth (expr.flatMap writeElement ++ rest) =
        .error (-einval)
    | some depth' => ∃ expr', readElements allowxtarget (fun _ => true) i expr.length acc depth
        (expr.flatMap writeElement ++ rest) = .ok ((acc ++ expr', depth'), rest) ∧ List.Forall₂ Alike expr expr' := by
  induction expr generalizing depth acc with
  | nil => exact ⟨[], by rw [List.append_nil]; rfl, .nil⟩
  | cons e expr ih =>
      obtain ⟨he, hw⟩ := List.forall_mem_cons.mp hw
      have helement := readElement_writeElement allowxtarget depth e he
        (expr.flatMap writeElement ++ rest)
      rw [List.foldlM_cons, List.length_cons, List.flatMap_cons, List.append_assoc, readElements,
        if_neg (Bool.noConfusion : ¬ true = false)]
      cases hstep : advance allowxtarget depth e with
      | none =>
          rw [hstep] at helement
          change Except.bind _ _ = _
          rw [helement]
          rfl
      | some depth₁ =>
          rw [hstep] at helement
          obtain ⟨e', hread, halike⟩ := helement
          have hrest := ih depth₁ hw (acc ++ [e'])
          rw [hread]
          change match expr.foldlM (advance allowxtarget) depth₁ with
            | none => readElements allowxtarget (fun _ => true) i expr.length (acc ++ [e']) depth₁ _ = .error (-einval)
            | some depth' => ∃ expr', readElements allowxtarget (fun _ => true) i expr.length (acc ++ [e']) depth₁ _ =
                .ok ((acc ++ expr', depth'), rest) ∧ List.Forall₂ Alike (e :: expr) expr'
          cases hfold : expr.foldlM (advance allowxtarget) depth₁ with
          | none =>
              rw [hfold] at hrest
              exact hrest
          | some depth' =>
              rw [hfold] at hrest
              obtain ⟨expr', hread', halike'⟩ := hrest
              refine ⟨e' :: expr', ?_, .cons halike halike'⟩
              rw [List.append_assoc] at hread'
              exact hread'

/-- A constraint whose names can be written, with not too many elements. -/
structure WritableNode (c : ConstraintNode) : Prop where
  names : ∀ e ∈ c.expr, Writable e
  short : c.expr.length < 2 ^ 32

theorem readConstraint_writeConstraint (allowxtarget : Bool) (i : Nat) (c : ConstraintNode) (hw : WritableNode c)
    (rest : List Byte) :
    (Fits allowxtarget c.expr → ∃ c', readConstraint allowxtarget (fun _ => true) i (writeConstraint c ++ rest) = .ok (c', rest) ∧
      SameConstraint c c') ∧
    (¬ Fits allowxtarget c.expr →
      readConstraint allowxtarget (fun _ => true) i (writeConstraint c ++ rest) = .error (-einval)) := by
  have hlen : (leBytes 4 c.permissions.toNat ++ leBytes 4 c.expr.length).length = 8 := by simp [length_leBytes]
  have hcount : leValue (leBytes 4 c.expr.length) = c.expr.length := leValue_leBytes_of_lt hw.short
  have hread : readConstraint allowxtarget (fun _ => true) i (writeConstraint c ++ rest) =
      (readElements allowxtarget (fun _ => true) i c.expr.length [] (-1) (c.expr.flatMap writeElement ++ rest)).bind
        fun out => if out.1.2 ≠ 0 then .error (-einval) else .ok (⟨c.permissions, out.1.1⟩, out.2) := by
    rw [readConstraint, if_neg (Bool.noConfusion : ¬ true = false), writeConstraint, List.append_assoc, nextEntry_append hlen]
    simp only [Except.bind, List.drop_left' (length_leBytes 4 _), List.take_left' (length_leBytes 4 _), leValue_word, hcount]
  have helements := readElements_writeElements allowxtarget (-1) i c.expr hw.names [] rest
  rw [hread, fits_iff_advance]
  cases hfold : c.expr.foldlM (advance allowxtarget) (-1) with
  | none =>
      rw [hfold] at helements
      rw [helements]
      exact ⟨fun h => absurd h.symm (Option.some_ne_none _), fun _ => rfl⟩
  | some depth' =>
      rw [hfold] at helements
      obtain ⟨expr', hread', halike⟩ := helements
      rw [hread', Option.some_inj]
      constructor
      · rintro rfl
        refine ⟨⟨c.permissions, expr'⟩, rfl, rfl, fun roles s t x => ?_⟩
        rw [constraintExprEval, constraintExprEval, run_alike halike]
      · intro hne
        exact if_pos hne

theorem readConsLoop_writeConsHelper (nodes acc : List ConstraintNode) (hw : ∀ c ∈ nodes, WritableNode c) (rest : List Byte) :
    ((∀ c ∈ nodes, Fits allowxtarget c.expr) → ∃ nodes',
      readConsLoop allowxtarget (fun _ => true) nodes.length acc (writeConsHelper nodes ++ rest) = .ok (acc ++ nodes', rest) ∧
        List.Forall₂ SameConstraint nodes nodes') ∧
    ((∃ c ∈ nodes, ¬ Fits allowxtarget c.expr) →
      readConsLoop allowxtarget (fun _ => true) nodes.length acc (writeConsHelper nodes ++ rest) = .error (-einval)) := by
  induction nodes generalizing acc with
  | nil =>
      refine ⟨fun _ => ⟨[], by rw [List.append_nil]; rfl, .nil⟩, ?_⟩
      rintro ⟨c, hc, -⟩
      exact absurd hc List.not_mem_nil
  | cons c nodes ih =>
      obtain ⟨hc, hw⟩ := List.forall_mem_cons.mp hw
      obtain ⟨hfits, hnot⟩ := readConstraint_writeConstraint allowxtarget acc.length c hc
        (writeConsHelper nodes ++ rest)
      have hbytes : writeConsHelper (c :: nodes) ++ rest = writeConstraint c ++ (writeConsHelper nodes ++ rest) := by
        rw [writeConsHelper, List.flatMap_cons, List.append_assoc]
        rfl
      rw [hbytes, List.length_cons, readConsLoop]
      constructor
      · intro hall
        obtain ⟨hfirst, hall⟩ := List.forall_mem_cons.mp hall
        obtain ⟨c', hread, hsame⟩ := hfits hfirst
        obtain ⟨nodes', hread', hsame'⟩ := (ih (acc ++ [c']) hw).1 hall
        refine ⟨c' :: nodes', ?_, .cons hsame hsame'⟩
        rw [hread]
        rw [List.append_assoc] at hread'
        exact hread'
      · rintro ⟨bad, hmem, hbad⟩
        by_cases hfirst : Fits allowxtarget c.expr
        · obtain ⟨c', hread, -⟩ := hfits hfirst
          rw [hread]
          refine (ih (acc ++ [c']) hw).2 ⟨bad, ?_, hbad⟩
          rcases List.mem_cons.mp hmem with rfl | hmem
          · exact absurd hfirst hbad
          · exact hmem
        · rw [hnot hfirst]
          rfl

/-- Constraints that were written are read again, with the same effect on
every decision, exactly when each of them is one expression that needs no
more than five cells and names the third context only where that is allowed;
all others are refused. -/
theorem readConsHelper_writeConsHelper (nodes : List ConstraintNode) (hw : ∀ c ∈ nodes, WritableNode c) (allowxtarget : Bool)
    (rest : List Byte) :
    ((∀ c ∈ nodes, Fits allowxtarget c.expr) → ∃ nodes',
      readConsHelper (fun _ => true) nodes.length allowxtarget (writeConsHelper nodes ++ rest) = .ok (nodes', rest) ∧
        List.Forall₂ SameConstraint nodes nodes') ∧
    ((∃ c ∈ nodes, ¬ Fits allowxtarget c.expr) →
      readConsHelper (fun _ => true) nodes.length allowxtarget (writeConsHelper nodes ++ rest) = .error (-einval)) :=
  readConsLoop_writeConsHelper nodes [] hw rest

theorem sameUserOrUnnamed_writable : WritableNode sameUserOrUnnamed := by
  refine ⟨fun e he => ?_, by decide⟩
  rcases List.mem_cons.mp he with rfl | he
  · exact fun h => by cases h
  · rcases List.mem_cons.mp he with rfl | he
    · refine fun _ => ⟨.built _ ?_, by decide⟩
      simp [InRange, block, ebitmapSize]
    · obtain rfl := List.mem_singleton.mp he
      exact fun h => by cases h

theorem readConsHelper_writeConsHelper_sameUser :
    ∃ nodes', readConsHelper (fun _ => true) 1 false (writeConsHelper [sameUserOrUnnamed] ++ [7]) = .ok (nodes', [7]) ∧
      List.Forall₂ SameConstraint [sameUserOrUnnamed] nodes' := by
  refine (readConsHelper_writeConsHelper [sameUserOrUnnamed] ?_ false [7]).1 ?_
  · rw [List.forall_mem_singleton]
    exact sameUserOrUnnamed_writable
  · rw [List.forall_mem_singleton, fits_iff_advance]
    rfl

end PigaLinux.ConstraintFormat
