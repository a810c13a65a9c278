import Mathlib.Data.List.Infix
import Mathlib.Data.List.Perm.Basic

namespace PigaLinux.Interleaving

/-- Calls that run in indivisible steps over a shared state. A step goes on
or returns; one that is not marked as writing leaves the shared state alone. -/
structure Machine (σ κ τ ρ : Type) where
  init : κ → τ
  step : σ → τ → (σ × τ) ⊕ ρ
  writes : σ → τ → Bool
  kept : ∀ s l s' l', writes s l = false → step s l = .inl (s', l') → s' = s

variable {σ κ τ ρ : Type} (M : Machine σ κ τ ρ)

structure Thread (κ τ : Type) where
  call : κ
  loc : τ
  wrote : Bool

structure Config (σ κ τ ρ : Type) where
  shared : σ
  flight : List (Thread κ τ)
  returned : List (κ × ρ)

inductive Event (κ : Type)
  | start (c : κ)
  | step (i : Nat)

def stepThread (k : Config σ κ τ ρ) (i : Nat) (t : Thread κ τ) : Config σ κ τ ρ :=
  match M.step k.shared t.loc with
  | .inr r => ⟨k.shared, k.flight.eraseIdx i, k.returned ++ [(t.call, r)]⟩
  | .inl (s, l) => ⟨s, k.flight.set i ⟨t.call, l, t.wrote || M.writes k.shared t.loc⟩, k.returned⟩

def next (k : Config σ κ τ ρ) : Event κ → Config σ κ τ ρ
  | .start c => { k with flight := k.flight ++ [⟨c, M.init c, false⟩] }
  | .step i =>
      match k.flight[i]? with
      | none => k
      | some t => stepThread M k i t

def run (k : Config σ κ τ ρ) (es : List (Event κ)) : Config σ κ τ ρ := es.foldl (next M) k

def idle (s : σ) : Config σ κ τ ρ := ⟨s, [], []⟩

def started : List (Event κ) → List κ
  | [] => []
  | .start c :: es => c :: started es
  | .step _ :: es => started es

def Exclusive (k : Config σ κ τ ρ) : Prop := 2 ≤ k.flight.length → ∀ t ∈ k.flight, t.wrote = false

instance (k : Config σ κ τ ρ) : Decidable (Exclusive k) :=
  inferInstanceAs (Decidable (2 ≤ k.flight.length → ∀ t ∈ k.flight, t.wrote = false))

def ExclusiveRun (k : Config σ κ τ ρ) (es : List (Event κ)) : Prop :=
  ∀ past rest, es = past ++ rest → Exclusive (run M k past)

instance (k : Config σ κ τ ρ) : DecidablePred (ExclusiveRun M k) := fun es =>
  decidable_of_iff (∀ past ∈ es.inits, Exclusive (run M k past))
    ⟨fun h past rest hes => h past ((List.mem_inits _ _).mpr ⟨rest, hes.symm⟩), fun h past hpast => by
      obtain ⟨rest, hes⟩ := (List.mem_inits _ _).mp hpast
      exact h past rest hes.symm⟩

inductive Runs (s : σ) (l : τ) : σ → τ → Prop
  | refl : Runs s l s l
  | step {s₁ s₂ : σ} {l₁ l₂ : τ} : Runs s l s₁ l₁ → M.step s₁ l₁ = .inl (s₂, l₂) → Runs s l s₂ l₂

inductive Completes : σ → τ → σ → ρ → Prop
  | ret {s : σ} {l : τ} {r : ρ} : M.step s l = .inr r → Completes s l s r
  | step {s s₁ s' : σ} {l l₁ : τ} {r : ρ} : M.step s l = .inl (s₁, l₁) → Completes s₁ l₁ s' r → Completes s l s' r

inductive Serial (s : σ) : List (κ × ρ) → σ → Prop
  | nil : Serial s [] s
  | snoc {crs : List (κ × ρ)} {s₁ s₂ : σ} {c : κ} {r : ρ} : Serial s crs s₁ → Completes M s₁ (M.init c) s₂ r →
      Serial s (crs ++ [(c, r)]) s₂

def serially (perform : σ → κ → ρ × σ) (s : σ) : List κ → List ρ × σ
  | [] => ([], s)
  | c :: cs =>
      let rest := serially perform (perform s c).2 cs
      ((perform s c).1 :: rest.1, rest.2)

/-- What holds between the steps: `base` is where the returned calls leave the
shared state, and each call in flight has so far gone its own way from there. -/
structure Serialised (s₀ : σ) (k : Config σ κ τ ρ) (base : σ) : Prop where
  serial : Serial M s₀ k.returned base
  flight : ∀ t ∈ k.flight, Runs M base (M.init t.call) k.shared t.loc
  unwritten : (∀ t ∈ k.flight, t.wrote = false) → k.shared = base

variable {M} {s₀ base : σ} {k : Config σ κ τ ρ}

theorem Runs.completes {s s₁ s' : σ} {l l₁ : τ} {r : ρ} (h : Runs M s l s₁ l₁) (hc : Completes M s₁ l₁ s' r) :
    Completes M s l s' r := by
  induction h with
  | refl => exact hc
  | step _ hstep ih => exact ih (.step hstep hc)

theorem Completes.unique {s s₁ s₂ : σ} {l : τ} {r₁ r₂ : ρ} (h₁ : Completes M s l s₁ r₁)
    (h₂ : Completes M s l s₂ r₂) : s₁ = s₂ ∧ r₁ = r₂ := by
  induction h₁ with
  | ret hr =>
      cases h₂ with
      | ret hr' =>
          rw [hr] at hr'
          exact ⟨rfl, Sum.inr.inj hr'⟩
      | step hs _ =>
          rw [hr] at hs
          exact absurd hs (by simp)
  | step hs _ ih =>
      cases h₂ with
      | ret hr =>
          rw [hs] at hr
          exact absurd hr (by simp)
      | step hs' h₂ =>
          rw [hs] at hs'
          obtain ⟨rfl, rfl⟩ := Prod.mk.inj (Sum.inl.inj hs')
          exact ih h₂

theorem serially_snoc (perform : σ → κ → ρ × σ) (s : σ) (cs : List κ) (c : κ) :
    serially perform s (cs ++ [c]) =
      ((serially perform s cs).1 ++ [(perform (serially perform s cs).2 c).1],
        (perform (serially perform s cs).2 c).2) := by
  induction cs generalizing s with
  | nil => rfl
  | cons d cs ih => simp [serially, ih]

theorem Serial.eq_serially {perform : σ → κ → ρ × σ}
    (hsolo : ∀ s c, Completes M s (M.init c) (perform s c).2 (perform s c).1) {s s' : σ} {crs : List (κ × ρ)}
    (h : Serial M s crs s') : serially perform s (crs.map Prod.fst) = (crs.map Prod.snd, s') := by
  induction h with
  | nil => rfl
  | snoc _ hc ih =>
      obtain ⟨hs, hr⟩ := hc.unique (hsolo _ _)
      rw [List.map_append, List.map_append, List.map_singleton, List.map_singleton, serially_snoc, ih, hs, hr]

theorem serialised_idle (s₀ : σ) : Serialised M s₀ (idle s₀) s₀ where
  serial := .nil
  flight _ ht := absurd ht List.not_mem_nil
  unwritten _ := rfl

theorem Serialised.start (h : Serialised M s₀ k base) (c : κ) (hx : Exclusive (next M k (.start c))) :
    Serialised M s₀ (next M k (.start c)) base := by
  -- nobody in flight has written, or the new call would not be alone with it
  have hclean : ∀ t ∈ k.flight, t.wrote = false := by
    intro t ht
    have hpos := List.length_pos_of_mem ht
    apply hx
    · change 2 ≤ (k.flight ++ [_]).length
      rw [List.length_append, List.length_singleton]
      omega
    · exact List.mem_append_left _ ht
  have hbase := h.unwritten hclean
  refine ⟨h.serial, ?_, fun _ => hbase⟩
  intro t ht
  rcases List.mem_append.mp ht with ht | ht
  · exact h.flight t ht
  · rw [List.mem_singleton.mp ht]
    change Runs M base (M.init c) k.shared (M.init c)
    rw [hbase]
    exact .refl

theorem mem_set_cases {ts : List (Thread κ τ)} {i : Nat} {t u v : Thread κ τ} (ht : ts[i]? = some t)
    (hv : v ∈ ts) : v = t ∨ v ∈ ts.set i u := by
  obtain ⟨j, hj⟩ := List.mem_iff_getElem?.mp hv
  by_cases hij : i = j
  · subst hij
    exact .inl (Option.some.inj (hj.symm.trans ht))
  · exact .inr (List.mem_of_getElem? ((List.getElem?_set_ne hij).trans hj))

theorem eq_singleton {ts : List (Thread κ τ)} {i : Nat} {t : Thread κ τ} (ht : ts[i]? = some t)
    (h : ts.length < 2) : ts = [t] ∧ i = 0 := by
  obtain ⟨hi, -⟩ := List.getElem?_eq_some_iff.mp ht
  obtain ⟨u, rfl⟩ := List.length_eq_one_iff.mp (by omega : ts.length = 1)
  obtain rfl : i = 0 := Nat.lt_one_iff.mp hi
  exact ⟨congrArg (fun v => [v]) (Option.some.inj ht), rfl⟩

theorem alone_of_writes {i : Nat} {t u : Thread κ τ} {s : σ} {crs : List (κ × ρ)} (ht : k.flight[i]? = some t)
    (hu : u.wrote = true) (hx : Exclusive ⟨s, k.flight.set i u, crs⟩) : k.flight = [t] ∧ i = 0 := by
  apply eq_singleton ht
  by_contra hlen
  have hi := (List.getElem?_eq_some_iff.mp ht).1
  have hclean := hx (by change 2 ≤ (k.flight.set i u).length; rw [List.length_set]; omega) u (List.mem_set hi _)
  rw [hu] at hclean
  exact absurd hclean (by decide)

theorem Serialised.goesOn (h : Serialised M s₀ k base) {i : Nat} {t : Thread κ τ} {s : σ} {l : τ}
    (ht : k.flight[i]? = some t) (hstep : M.step k.shared t.loc = .inl (s, l))
    (hx : Exclusive (stepThread M k i t)) : Serialised M s₀ (stepThread M k i t) base := by
  have hk : stepThread M k i t =
      ⟨s, k.flight.set i ⟨t.call, l, t.wrote || M.writes k.shared t.loc⟩, k.returned⟩ := by
    rw [stepThread, hstep]
  rw [hk] at hx ⊢
  have hi := (List.getElem?_eq_some_iff.mp ht).1
  have hown : Runs M base (M.init t.call) s l := .step (h.flight t (List.mem_of_getElem? ht)) hstep
  cases hw : M.writes k.shared t.loc with
  | true =>
      rw [hw, Bool.or_true] at hx
      obtain ⟨hone, rfl⟩ := alone_of_writes ht rfl hx
      rw [hone, Bool.or_true]
      refine ⟨h.serial, ?_, ?_⟩
      · intro u hu
        rw [List.mem_singleton.mp hu]
        exact hown
      · intro hclean
        exact Bool.noConfusion (hclean ⟨t.call, l, true⟩ List.mem_cons_self)
  | false =>
      obtain rfl := M.kept _ _ _ _ hw hstep
      rw [Bool.or_false]
      refine ⟨h.serial, ?_, ?_⟩
      · intro u hu
        rcases List.mem_or_eq_of_mem_set hu with hu | rfl
        · exact h.flight u hu
        · exact hown
      · intro hclean
        apply h.unwritten
        intro v hv
        rcases mem_set_cases ht hv with rfl | hv
        · exact hclean ⟨v.call, l, v.wrote⟩ (List.mem_set hi _)
        · exact hclean v hv

theorem Serialised.returns (h : Serialised M s₀ k base) (hx : Exclusive k) {i : Nat} {t : Thread κ τ} {r : ρ}
    (ht : k.flight[i]? = some t) (hstep : M.step k.shared t.loc = .inr r) :
    Serialised M s₀ (stepThread M k i t) k.shared := by
  have hk : stepThread M k i t = ⟨k.shared, k.flight.eraseIdx i, k.returned ++ [(t.call, r)]⟩ := by
    rw [stepThread, hstep]
  have hi := (List.getElem?_eq_some_iff.mp ht).1
  rw [hk]
  have hcompletes := (h.flight t (List.mem_of_getElem? ht)).completes (.ret hstep)
  refine ⟨.snoc h.serial hcompletes, ?_, fun _ => rfl⟩
  intro u hu
  have htwo : 2 ≤ k.flight.length := by
    have hpos := List.length_pos_of_mem hu
    rw [List.length_eraseIdx_of_lt hi] at hpos
    omega
  have hbase := h.unwritten (hx htwo)
  have hrun := h.flight u (List.mem_of_mem_eraseIdx hu)
  rw [← hbase] at hrun
  exact hrun

theorem Serialised.next (h : Serialised M s₀ k base) (hx : Exclusive k) (e : Event κ)
    (hx' : Exclusive (next M k e)) : ∃ base', Serialised M s₀ (Interleaving.next M k e) base' := by
  cases e with
  | start c => exact ⟨base, h.start c hx'⟩
  | step i =>
      rw [Interleaving.next] at hx' ⊢
      cases ht : k.flight[i]? with
      | none => exact ⟨base, h⟩
      | some t =>
          rw [ht] at hx'
          dsimp only at hx' ⊢
          cases hstep : M.step k.shared t.loc with
          | inr r => exact ⟨k.shared, h.returns hx ht hstep⟩
          | inl sl => exact ⟨base, h.goesOn ht hstep hx'⟩

theorem Serialised.run (h : Serialised M s₀ k base) (es : List (Event κ)) (hx : ExclusiveRun M k es) :
    ∃ base', Serialised M s₀ (run M k es) base' := by
  induction es generalizing k base with
  | nil => exact ⟨base, h⟩
  | cons e es ih =>
      obtain ⟨base', h'⟩ := h.next (hx [] (e :: es) rfl) e (hx [e] es rfl)
      refine ih h' ?_
      rintro past rest rfl
      exact hx (e :: past) rest rfl

/-- Calls that do not overlap with one that has written are serialisable, in
the order in which they return. -/
theorem serial_of_exclusive (s₀ : σ) (es : List (Event κ)) (hx : ExclusiveRun M (idle s₀) es)
    (hend : (run M (idle s₀) es).flight = []) :
    Serial M s₀ (run M (idle s₀) es).returned (run M (idle s₀) es).shared := by
  obtain ⟨base, h⟩ := (serialised_idle s₀).run es hx
  have hbase := h.unwritten (fun t ht => by rw [hend] at ht; exact absurd ht List.not_mem_nil)
  rw [hbase]
  exact h.serial

variable (M)

theorem stepThread_perm (k : Config σ κ τ ρ) {i : Nat} {t : Thread κ τ} (ht : k.flight[i]? = some t) :
    ((stepThread M k i t).returned.map Prod.fst ++ (stepThread M k i t).flight.map Thread.call).Perm
      (k.returned.map Prod.fst ++ k.flight.map Thread.call) := by
  obtain ⟨hi, hget⟩ := List.getElem?_eq_some_iff.mp ht
  rw [stepThread]
  cases M.step k.shared t.loc with
  | inl sl =>
      have hset : (k.flight.set i ⟨t.call, sl.2, t.wrote || M.writes k.shared t.loc⟩).map Thread.call =
          k.flight.map Thread.call := by
        have hcall : (k.flight.map Thread.call)[i]? = some t.call := by rw [List.getElem?_map, ht]; rfl
        obtain ⟨hlt, hc⟩ := List.getElem?_eq_some_iff.mp hcall
        rw [List.map_set, ← hc]
        exact List.set_getElem_self hlt
      dsimp only
      rw [hset]
  | inr r =>
      have herase := (List.getElem_cons_eraseIdx_perm hi).map Thread.call
      rw [hget, List.map_cons] at herase
      dsimp only
      rw [List.map_append, List.append_assoc]
      exact List.Perm.append_left _ herase

theorem run_perm (k : Config σ κ τ ρ) (es : List (Event κ)) :
    ((run M k es).returned.map Prod.fst ++ (run M k es).flight.map Thread.call).Perm
      (k.returned.map Prod.fst ++ k.flight.map Thread.call ++ started es) := by
  induction es generalizing k with
  | nil => simp [run, started]
  | cons e es ih =>
      refine (ih (next M k e)).trans ?_
      cases e with
      | start c => simp [next, started]
      | step i =>
          rw [next, started]
          cases ht : k.flight[i]? with
          | none => exact List.Perm.refl _
          | some t => exact (stepThread_perm M k ht).append_right _

end PigaLinux.Interleaving
