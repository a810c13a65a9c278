import PigaLinux.ConditionalMeaning
import PigaLinux.PolicyDatabase

namespace PigaLinux.Decisions

open Kernel Bits RuleTable Conditional ConditionalRuns ConditionalMeaning Contexts Constraints ExtensibleBitmap
open PolicyDatabase
open Bytes (bind_eq_ok)

/-- The ways in which a decision is not made: BUG(), a read outside of an
array, or bounds without end. -/
inductive Halt
  | bug
  | wild
  | deep
deriving DecidableEq, Repr

def typeDatum (p : Policydb) (type : U32) : Option TypeDatum := p.types.valToStruct (type - 1).toNat

def dominated (p : Policydb) (i : Nat) : Option Ebitmap := (p.roles.valToStruct i).map RoleDatum.dominates

section bounds

variable (compute : Context → Context → Except Halt AvDecision)

end bounds

def policydbBoundsMaxdepth : Nat := 4

/-- The walk of type_bounds_sanity_check, with the number of steps that it may still make. -/
def sanityWalk (p : Policydb) : Nat → TypeDatum → Except Halt Int
  | 0, upper => .ok (if upper.bounds = 0 then 0 else -einval)
  | n + 1, upper =>
      if upper.bounds = 0 then .ok 0
      else
        match typeDatum p upper.bounds with
        | none => .error .bug
        | some upper => if upper.isAttribute then .ok (-einval) else sanityWalk p n upper

def typeBoundsSanityCheck (p : Policydb) (datum : TypeDatum) : Except Halt Int :=
  sanityWalk p (policydbBoundsMaxdepth - 1) datum

section rules

variable {p : Policydb} {s t : Context} {tclass : U16} {avd : AvDecision}

def InTable (h : Avtab) (n : AvtabNode) : Prop := ∃ i, n ∈ chain h i

def Rule (p : Policydb) (kind : U16) (key : AvtabKey) (data : U32) : Prop :=
  (∃ n, InTable p.teAvtab n ∧ triple n.key = triple key ∧ n.key.specified = kind ∧ n.data = data) ∨
    ∃ n, InTable p.teCondAvtab n ∧ triple n.key = triple key ∧ n.key.specified &&& kind ≠ 0 ∧
      n.key.specified.getLsbD 15 = true ∧ n.data = data

def counts (x : Bool × AvtabNode) (kind : U16) : Bool := if x.1 then enabledFor kind x.2 else x.2.key.specified == kind

/-- The tables of a policy that was loaded. -/
structure Tables (p : Policydb) : Prop where
  rules : ∃ rs, Holds p.teAvtab rs
  condRules : ∃ rs, Holds p.teCondAvtab rs

end rules

/-- The bounds that type_bounds_sanity_check let through. -/
def Checked (p : Policydb) : Prop := ∀ i d, p.types.valToStruct i = some d → typeBoundsSanityCheck p d = .ok 0

/-- A policy as it is loaded, with constraints that name what there is. -/
structure Sound (p : Policydb) : Prop extends Tables p where
  attrs : ∀ e ∈ p.typeAttrMap, Laid e
  typeMap : ∀ i d, p.types.valToStruct i = some d → i < p.typeAttrMap.length
  constraints : ∀ i cls, p.classes.valToStruct i = some cls → ∀ c ∈ cls.constraints, Fits false c.expr ∧ ∀ y ∈ c.expr, Sane y
  bounds : Checked p

/-- A context of the policy. -/
structure Known (p : Policydb) (c : Context) : Prop where
  type : ∃ d, typeDatum p c.type = some d
  role : (dominated p (c.role - 1).toNat).isSome = true

section decisions

variable {p : Policydb} {s t : Context} {tclass : U16} {avd : AvDecision} {roles : Nat → Option Ebitmap} {cls : ClassDatum}
variable {logs : Context → Context → Bool}

section bounds

variable {compute : Context → Context → Except Halt AvDecision} {sd td : TypeDatum}

end bounds

/-- A type and the types that bound it, one above the other. -/
def ancestors (p : Policydb) : Nat → U32 → List U32
  | 0, type => [type]
  | n + 1, type =>
      match typeDatum p type with
      | none => [type]
      | some d => if d.bounds = 0 then [type] else type :: ancestors p n d.bounds

theorem ancestors_free (n : Nat) {type : U32} {d : TypeDatum} (hd : typeDatum p type = some d) (hzero : d.bounds = 0) :
    ancestors p n type = [type] := by
  cases n with
  | zero => rfl
  | succ n =>
      rw [ancestors, hd]
      exact if_pos hzero

/-- A type whose bounds end after so many steps. -/
def Rooted (p : Policydb) (n : Nat) (type : U32) : Prop := ∃ d, typeDatum p type = some d ∧ sanityWalk p n d = .ok 0

theorem Rooted.step {n : Nat} {type : U32} (h : Rooted p n type) {d : TypeDatum} (hd : typeDatum p type = some d)
    (hne : d.bounds ≠ 0) : ∃ m, n = m + 1 ∧ Rooted p m d.bounds := by
  obtain ⟨d', hd', hwalk⟩ := h
  obtain rfl := Option.some.inj (hd.symm.trans hd')
  have hfail : -einval ≠ 0 := by decide
  cases n with
  | zero =>
      rw [sanityWalk, if_neg hne] at hwalk
      exact absurd (Except.ok.inj hwalk) hfail
  | succ m =>
      rw [sanityWalk, if_neg hne] at hwalk
      split at hwalk
      · cases hwalk
      next upper hupper =>
        split at hwalk
        · exact absurd (Except.ok.inj hwalk) hfail
        · exact ⟨m, rfl, upper, hupper, hwalk⟩

theorem Rooted.known {n : Nat} {c : Context} (h : Rooted p n c.type) (hrole : (dominated p (c.role - 1).toNat).isSome = true) :
    Known p c :=
  ⟨h.imp fun _ hd => hd.1, hrole⟩

section records

end records

def contextOf (type : U32) : Context :=
  { user := 1, role := 1, type := type, low := ⟨0, ebitmapInit⟩, high := ⟨0, ebitmapInit⟩ }

theorem ancestors_step {n : Nat} {type : U32} {d : TypeDatum} (hd : typeDatum p type = some d) (hne : d.bounds ≠ 0) :
    ancestors p (n + 1) type = type :: ancestors p n d.bounds := by
  rw [ancestors, hd]
  exact if_neg hne

theorem Rooted.subset {n : Nat} {type u : U32} (h : Rooted p n type) (hu : u ∈ ancestors p n type) :
    ∃ k ≤ n, Rooted p k u ∧ ancestors p k u ⊆ ancestors p n type := by
  induction n generalizing type with
  | zero =>
      obtain rfl := List.mem_singleton.mp hu
      exact ⟨0, Nat.le_refl 0, h, List.Subset.refl _⟩
  | succ n ih =>
      obtain ⟨d, hd, -⟩ := id h
      by_cases hzero : d.bounds = 0
      · rw [ancestors_free (n + 1) hd hzero] at hu
        obtain rfl := List.mem_singleton.mp hu
        exact ⟨n + 1, Nat.le_refl _, h, List.Subset.refl _⟩
      · obtain ⟨k, hk, hup⟩ := h.step hd hzero
        obtain rfl : n = k := by omega
        rw [ancestors_step hd hzero] at hu ⊢
        rcases List.mem_cons.mp hu with rfl | hu
        · refine ⟨n + 1, Nat.le_refl _, h, ?_⟩
          rw [ancestors_step hd hzero]
          exact List.Subset.refl _
        · obtain ⟨k, hle, hrooted, hsub⟩ := ih hup hu
          exact ⟨k, by omega, hrooted, fun v hv => List.mem_cons_of_mem _ (hsub hv)⟩

end decisions

end PigaLinux.Decisions
