import Mathlib.Data.List.Basic
import Mathlib.Order.Lattice

namespace PigaLinux.Rpn

inductive Expr (α υ β : Type)
  | leaf (a : α)
  | unary (u : υ) (e : Expr α υ β)
  | binary (b : β) (l r : Expr α υ β)

inductive Token (α υ β : Type)
  | leaf (a : α)
  | unary (u : υ)
  | binary (b : β)
deriving DecidableEq, Repr

variable {α υ β σ ε : Type}

def Expr.tokens : Expr α υ β → List (Token α υ β)
  | .leaf a => [.leaf a]
  | .unary u e => e.tokens ++ [.unary u]
  | .binary b l r => l.tokens ++ (r.tokens ++ [.binary b])

/-- The cells of the stack that an expression is evaluated in. -/
def Expr.need : Expr α υ β → Nat
  | .leaf _ => 1
  | .unary _ e => e.need
  | .binary _ l r => max l.need (r.need + 1)

/-- A stack of bounded height, with its top in front, and what its operators do. -/
structure Machine (α υ β σ ε : Type) where
  cap : Nat
  overflow : ε
  underflow : ε
  leaf : α → Except ε σ
  unary : υ → σ → σ
  binary : β → σ → σ → σ

def Machine.eval (M : Machine α υ β σ ε) : Expr α υ β → Except ε σ
  | .leaf a => M.leaf a
  | .unary u e => do
      let x ← M.eval e
      return M.unary u x
  | .binary b l r => do
      let x ← M.eval l
      let y ← M.eval r
      return M.binary b x y

section machine

variable (M : Machine α υ β σ ε)

def Machine.step (st : List σ) : Token α υ β → Except ε (List σ)
  | .leaf a => if st.length = M.cap then .error M.overflow else (M.leaf a).map (· :: st)
  | .unary u =>
      match st with
      | x :: st => .ok (M.unary u x :: st)
      | [] => .error M.underflow
  | .binary b =>
      match st with
      | y :: x :: st => .ok (M.binary b x y :: st)
      | _ => .error M.underflow

def Machine.run (ts : List (Token α υ β)) (st : List σ) : Except ε (List σ) := ts.foldlM M.step st

theorem run_append (ts us : List (Token α υ β)) (st : List σ) : M.run (ts ++ us) st = M.run ts st >>= M.run us :=
  List.foldlM_append

theorem run_singleton (t : Token α υ β) (st : List σ) : M.run [t] st = M.step st t := by
  rw [Machine.run, List.foldlM_cons]
  cases M.step st t with
  | ok st' => rfl
  | error err => rfl

theorem Expr.need_pos (e : Expr α υ β) : 0 < e.need := by
  induction e with
  | leaf a => exact Nat.one_pos
  | unary u e ih => exact ih
  | binary b l r ihl ihr => exact lt_of_lt_of_le ihl (le_max_left _ _)

variable {M}

/-- In a stack that is high enough the machine leaves the value of the expression on top. -/
theorem run_tokens (e : Expr α υ β) (st : List σ) (h : st.length + e.need ≤ M.cap) :
    M.run e.tokens st = (M.eval e).map (· :: st) := by
  induction e generalizing st with
  | leaf a =>
      rw [Expr.need] at h
      rw [Expr.tokens, run_singleton, Machine.step, if_neg (by omega)]
      rfl
  | unary u e ih =>
      rw [Expr.tokens, run_append, ih st h, Machine.eval]
      cases M.eval e with
      | error err => rfl
      | ok x => exact run_singleton M (.unary u) (x :: st)
  | binary b l r ihl ihr =>
      rw [Expr.need] at h
      have hl : st.length + l.need ≤ M.cap := by omega
      rw [Expr.tokens, run_append, ihl st hl, Machine.eval]
      cases M.eval l with
      | error err => rfl
      | ok x =>
          have hr : (x :: st).length + r.need ≤ M.cap := by rw [List.length_cons]; omega
          change M.run (r.tokens ++ [.binary b]) (x :: st) = _
          rw [run_append, ihr (x :: st) hr]
          cases M.eval r with
          | error err => rfl
          | ok y => exact run_singleton M (.binary b) (y :: x :: st)

theorem eval_total {e : Expr α υ β} (hleaf : ∀ a, Token.leaf a ∈ e.tokens → ∃ x, M.leaf a = .ok x) :
    ∃ x, M.eval e = .ok x := by
  induction e with
  | leaf a => exact hleaf a (List.mem_singleton_self _)
  | unary u e ih =>
      obtain ⟨x, hx⟩ := ih fun a ha => hleaf a (List.mem_append_left _ ha)
      exact ⟨M.unary u x, by rw [Machine.eval, hx]; rfl⟩
  | binary b l r ihl ihr =>
      obtain ⟨x, hx⟩ := ihl fun a ha => hleaf a (List.mem_append_left _ ha)
      obtain ⟨y, hy⟩ := ihr fun a ha => hleaf a (List.mem_append_right _ (List.mem_append_left _ ha))
      exact ⟨M.binary b x y, by rw [Machine.eval, hx, hy]; rfl⟩

def Machine.value (M : Machine α υ β σ ε) (val : α → σ) : Expr α υ β → σ
  | .leaf a => val a
  | .unary u e => M.unary u (M.value val e)
  | .binary b l r => M.binary b (M.value val l) (M.value val r)

theorem eval_value {val : α → σ} {e : Expr α υ β} (hleaf : ∀ a, Token.leaf a ∈ e.tokens → M.leaf a = .ok (val a)) :
    M.eval e = .ok (M.value val e) := by
  induction e with
  | leaf a => exact hleaf a (List.mem_singleton_self _)
  | unary u e ih =>
      rw [Machine.eval, ih fun a ha => hleaf a (List.mem_append_left _ ha)]
      rfl
  | binary b l r ihl ihr =>
      rw [Machine.eval, ihl fun a ha => hleaf a (List.mem_append_left _ ha),
        ihr fun a ha => hleaf a (List.mem_append_right _ (List.mem_append_left _ ha))]
      rfl

theorem eval_error {err : ε} {e : Expr α υ β}
    (hleaf : ∀ a, Token.leaf a ∈ e.tokens → (∃ x, M.leaf a = .ok x) ∨ M.leaf a = .error err)
    (hfail : ∃ a, Token.leaf a ∈ e.tokens ∧ M.leaf a = .error err) : M.eval e = .error err := by
  induction e with
  | leaf a =>
      obtain ⟨a', ha, hfail⟩ := hfail
      obtain rfl : a' = a := Token.leaf.inj (List.mem_singleton.mp ha)
      exact hfail
  | unary u e ih =>
      obtain ⟨a, ha, hfail⟩ := hfail
      have hmem : Token.leaf a ∈ e.tokens := by simpa [Expr.tokens] using ha
      rw [Machine.eval, ih (fun a ha => hleaf a (List.mem_append_left _ ha)) ⟨a, hmem, hfail⟩]
      rfl
  | binary b l r ihl ihr =>
      obtain ⟨a, ha, hfail⟩ := hfail
      have hleafl : ∀ a, Token.leaf a ∈ l.tokens → (∃ x, M.leaf a = .ok x) ∨ M.leaf a = .error err := fun a ha =>
        hleaf a (List.mem_append_left _ ha)
      rw [Machine.eval]
      by_cases hl : ∃ a, Token.leaf a ∈ l.tokens ∧ M.leaf a = .error err
      · rw [ihl hleafl hl]
        rfl
      · obtain ⟨x, hx⟩ : ∃ x, M.eval l = .ok x :=
          eval_total fun a ha => (hleafl a ha).resolve_right fun herr => hl ⟨a, ha, herr⟩
        have hmem : Token.leaf a ∈ l.tokens ∨ Token.leaf a ∈ r.tokens := by simpa [Expr.tokens] using ha
        have hr : Token.leaf a ∈ r.tokens := hmem.resolve_left fun ha => hl ⟨a, ha, hfail⟩
        rw [hx, ihr (fun a ha => hleaf a (List.mem_append_right _ (List.mem_append_left _ ha))) ⟨a, hr, hfail⟩]
        rfl

theorem run_overflow {e : Expr α υ β} (hleaf : ∀ a, Token.leaf a ∈ e.tokens → ∃ x, M.leaf a = .ok x) (st : List σ)
    (hst : st.length ≤ M.cap) (h : M.cap < st.length + e.need) : M.run e.tokens st = .error M.overflow := by
  induction e generalizing st with
  | leaf a =>
      rw [Expr.need] at h
      rw [Expr.tokens, run_singleton, Machine.step, if_pos (by omega)]
  | unary u e ih =>
      rw [Expr.tokens, run_append, ih (fun a ha => hleaf a (List.mem_append_left _ ha)) st hst h]
      rfl
  | binary b l r ihl ihr =>
      have hleafl : ∀ a, Token.leaf a ∈ l.tokens → ∃ x, M.leaf a = .ok x := fun a ha => hleaf a (List.mem_append_left _ ha)
      have hleafr : ∀ a, Token.leaf a ∈ r.tokens → ∃ x, M.leaf a = .ok x := fun a ha =>
        hleaf a (List.mem_append_right _ (List.mem_append_left _ ha))
      rw [Expr.need] at h
      have hpos := l.need_pos
      rw [Expr.tokens, run_append]
      by_cases hl : st.length + l.need ≤ M.cap
      · obtain ⟨x, hx⟩ := eval_total hleafl
        rw [run_tokens l st hl, hx]
        change M.run (r.tokens ++ [.binary b]) (x :: st) = _
        rw [run_append, ihr hleafr (x :: st) (by rw [List.length_cons]; omega) (by rw [List.length_cons]; omega)]
        rfl
      · rw [ihl hleafl st hst (by omega)]
        rfl

end machine

section shape

def scan (cap d : Nat) : Token α υ β → Option Nat
  | .leaf _ => if d = cap then none else some (d + 1)
  | .unary _ => if d = 0 then none else some d
  | .binary _ => if d < 2 then none else some (d - 1)

/-- The machine that builds the expression itself. -/
def trees (α υ β : Type) (cap : Nat) : Machine α υ β (Expr α υ β) Unit where
  cap := cap
  overflow := ()
  underflow := ()
  leaf a := .ok (.leaf a)
  unary := .unary
  binary := .binary

variable {cap : Nat}

def spell : List (Expr α υ β) → List (Token α υ β)
  | [] => []
  | e :: st => spell st ++ e.tokens

def Fits (cap : Nat) : List (Expr α υ β) → Prop
  | [] => True
  | e :: st => Fits cap st ∧ st.length + e.need ≤ cap

theorem scan_trees (st : List (Expr α υ β)) (t : Token α υ β) :
    scan cap st.length t = ((trees α υ β cap).step st t).toOption.map List.length := by
  cases t with
  | leaf a =>
      rw [scan, Machine.step]
      change _ = (if st.length = cap then _ else _ : Except Unit _).toOption.map List.length
      split
      · rfl
      · rfl
  | unary u =>
      cases st with
      | nil => rfl
      | cons e st => rfl
  | binary b =>
      match st with
      | [] => rfl
      | [_] => rfl
      | _ :: _ :: st => rfl

theorem foldlM_scan_trees (ts : List (Token α υ β)) (st : List (Expr α υ β)) :
    ts.foldlM (scan cap) st.length = ((trees α υ β cap).run ts st).toOption.map List.length := by
  induction ts generalizing st with
  | nil => rfl
  | cons t ts ih =>
      rw [List.foldlM_cons, scan_trees, Machine.run, List.foldlM_cons]
      cases (trees α υ β cap).step st t with
      | error err => rfl
      | ok st' => exact ih st'

theorem step_trees {st st' : List (Expr α υ β)} {t : Token α υ β} (h : (trees α υ β cap).step st t = .ok st')
    (hlen : st.length ≤ cap) : spell st' = spell st ++ [t] ∧ (Fits cap st → Fits cap st') ∧ st'.length ≤ cap := by
  cases t with
  | leaf a =>
      rw [Machine.step] at h
      split at h
      · cases h
      next hne =>
        obtain rfl : Expr.leaf a :: st = st' := Except.ok.inj h
        have hlt : st.length + 1 ≤ cap := Nat.lt_of_le_of_ne hlen hne
        exact ⟨rfl, fun hfits => ⟨hfits, hlt⟩, hlt⟩
  | unary u =>
      cases st with
      | nil => cases h
      | cons e st =>
          obtain rfl : Expr.unary u e :: st = st' := Except.ok.inj h
          exact ⟨(List.append_assoc ..).symm, id, hlen⟩
  | binary b =>
      match st, h with
      | [], h => cases h
      | [_], h => cases h
      | r :: l :: st, h =>
          obtain rfl : Expr.binary b l r :: st = st' := Except.ok.inj h
          refine ⟨?_, ?_, Nat.le_of_succ_le hlen⟩
          · simp only [spell, Expr.tokens, List.append_assoc]
          · rintro ⟨⟨hfits, hl⟩, hr⟩
            rw [List.length_cons] at hr
            refine ⟨hfits, ?_⟩
            rw [Expr.need]
            omega

theorem run_trees {st st' : List (Expr α υ β)} {ts : List (Token α υ β)} (h : (trees α υ β cap).run ts st = .ok st')
    (hlen : st.length ≤ cap) (hfits : Fits cap st) : spell st' = spell st ++ ts ∧ Fits cap st' := by
  induction ts generalizing st with
  | nil =>
      obtain rfl := Except.ok.inj h
      exact ⟨(List.append_nil _).symm, hfits⟩
  | cons t ts ih =>
      rw [Machine.run, List.foldlM_cons] at h
      cases hstep : (trees α υ β cap).step st t with
      | error err =>
          rw [hstep] at h
          cases h
      | ok st₁ =>
          rw [hstep] at h
          obtain ⟨hspell, hkeep, hlen₁⟩ := step_trees hstep hlen
          obtain ⟨hrest, hfits'⟩ := ih h hlen₁ (hkeep hfits)
          refine ⟨?_, hfits'⟩
          rw [hrest, hspell, List.append_assoc]
          rfl

theorem eval_trees (e : Expr α υ β) : (trees α υ β cap).eval e = .ok e := by
  induction e with
  | leaf a => rfl
  | unary u e ih =>
      rw [Machine.eval, ih]
      rfl
  | binary b l r ihl ihr =>
      rw [Machine.eval, ihl, ihr]
      rfl

/-- A sequence of tokens goes through the scan with one value left exactly
when it spells an expression that needs no more than the stack has. -/
theorem foldlM_scan_iff (ts : List (Token α υ β)) :
    ts.foldlM (scan cap) 0 = some 1 ↔ ∃ e : Expr α υ β, e.tokens = ts ∧ e.need ≤ cap := by
  have hscan : ts.foldlM (scan cap) 0 = ((trees α υ β cap).run ts []).toOption.map List.length := foldlM_scan_trees ts []
  constructor
  · intro h
    rw [hscan] at h
    cases hrun : (trees α υ β cap).run ts [] with
    | error err =>
        rw [hrun] at h
        cases h
    | ok st =>
        rw [hrun] at h
        obtain ⟨hspell, hfits⟩ := run_trees hrun (Nat.zero_le _) trivial
        obtain ⟨e, rfl⟩ := List.length_eq_one_iff.mp (Option.some.inj h)
        have hneed := hfits.2
        rw [List.length_nil, Nat.zero_add] at hneed
        exact ⟨e, hspell, hneed⟩
  · rintro ⟨e, rfl, hneed⟩
    rw [hscan, run_tokens e [] (by rw [List.length_nil, Nat.zero_add]; exact hneed), eval_trees]
    rfl

theorem tokens_injective : Function.Injective (Expr.tokens : Expr α υ β → List (Token α υ β)) := by
  intro e e' h
  have hrun : ∀ x : Expr α υ β, x.need ≤ max e.need e'.need →
      (trees α υ β (max e.need e'.need)).run x.tokens [] = .ok [x] := by
    intro x hx
    rw [run_tokens x [] (by rw [List.length_nil, Nat.zero_add]; exact hx), eval_trees]
    rfl
  have he := hrun e (le_max_left _ _)
  rw [h, hrun e' (le_max_right _ _)] at he
  exact (List.cons.inj (Except.ok.inj he)).1.symm

end shape

end PigaLinux.Rpn
