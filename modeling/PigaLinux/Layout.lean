import PigaLinux.Runs
import Mathlib.Data.Multiset.MapFold

namespace PigaLinux.Layout

open Kernel Trace Greedy Piga Monitor Runs

/-- The loaded signatures, without the way they are laid out. -/
def signatures (p : Policy) : Multiset (List Link) := ↑(p.seq.map (links p))

def contents (p : Policy) : Multiset (List Link × Nat) :=
  ↑(p.seq.map fun s => (links p s, s.currentPosition.toNat))

def Completes (ls : List Link) (as : List Access) (a : Access) : Prop :=
  ls.length - 1 ≤ greedy Link.Matches ls as ∧ ∃ l, ls.getLast? = some l ∧ l.Matches a

/-- The access a is refused once the accesses as have been examined. -/
def Denies (p : Policy) (as : List Access) (a : Access) : Prop :=
  ∃ s ∈ p.seq, Refuses p a (passes p as s)

def SameSwitches (k k' : State) : Prop := k.status = k'.status ∧ k.auditOnlyMode = k'.auditOnlyMode

variable {p : Policy} {k k' : State}

theorem denies_iff (h : AllFresh p) (as : List Access) (a : Access) :
    Denies p as a ↔ ∃ ls ∈ signatures p, Completes ls as a := by
  have hone (s : Sequence) (hs : s ∈ p.seq) :
      Refuses p a (passes p as s) ↔ Completes (links p s) as a := by
    rw [(h s hs).refuses_passes, Completes, links_length (h s hs).safe]
  simp only [Denies, signatures, Multiset.mem_coe, List.mem_map]
  constructor
  · rintro ⟨s, hs, hr⟩
    exact ⟨_, ⟨s, hs, rfl⟩, (hone s hs).mp hr⟩
  · rintro ⟨ls, ⟨s, hs, rfl⟩, hc⟩
    exact ⟨s, hs, (hone s hs).mpr hc⟩

theorem contents_sweeps (h : AllFresh p) (as : List Access) :
    contents (sweeps p as) =
      (signatures p).map fun ls => (ls, min (greedy Link.Matches ls as) (ls.length - 1)) := by
  have hseq : (sweeps p as).seq = p.seq.map (passes p as) := rfl
  rw [contents, signatures, Multiset.map_coe, hseq, List.map_map, List.map_map]
  congr 1
  apply List.map_congr_left
  intro s hs
  have hp := (h s hs).passes_position as
  have hl := passes_links p as s
  rw [Function.comp_apply, Function.comp_apply, hp, links_length (h s hs).safe]
  exact Prod.ext hl rfl

theorem denies_sweeps (p : Policy) (seen as : List Access) (a : Access) :
    Denies (sweeps p seen) as a ↔ Denies p (seen ++ as) a :=
  exists_refuses_sweeps p seen as a

theorem SameSwitches.examines_iff (h : SameSwitches k k') (c : Call) : Examines k c ↔ Examines k' c := by
  have hskip : auditOnlySkips k c = auditOnlySkips k' c := by
    rw [auditOnlySkips, auditOnlySkips, h.2]
  rw [Examines, Examines, h.1, hskip]

theorem SameSwitches.accesses (h : SameSwitches k k') (e : Event) :
    (answered k e).map Prod.fst = (answered k' e).map Prod.fst := by
  cases e with
  | hasPerm c =>
      rw [answered, answered]
      by_cases hx : Examines k c
      · rw [if_pos hx, if_pos ((h.examines_iff c).mp hx)]; rfl
      · rw [if_neg hx, if_neg fun hx' => hx ((h.examines_iff c).mpr hx')]
  | statusWrite buffer count => rfl
  | modeWrite buffer count => rfl

theorem switchWrite_congr (set : State → Bool → State)
    (hset : ∀ {k k'}, SameSwitches k k' → ∀ b, SameSwitches (set k b) (set k' b))
    (h : SameSwitches k k') (buffer : List Char) (count : Nat) :
    (procSwitchWrite set k buffer count).1 = (procSwitchWrite set k' buffer count).1 ∧
      SameSwitches (procSwitchWrite set k buffer count).2 (procSwitchWrite set k' buffer count).2 := by
  rw [procSwitchWrite, procSwitchWrite]
  cases copyFromUser buffer count with
  | none => exact ⟨rfl, h⟩
  | some tmp =>
      refine ⟨rfl, ?_⟩
      dsimp only
      split
      · exact hset h false
      · split
        · exact hset h true
        · exact h

theorem SameSwitches.step (h : SameSwitches k k') (e : Event) :
    SameSwitches (step k e).value.2 (step k' e).value.2 := by
  cases e with
  | hasPerm c =>
      rw [Runs.step, Runs.step, pigaHasPerm_value, pigaHasPerm_value]
      by_cases hx : Examines k c
      · rw [if_pos hx, if_pos ((h.examines_iff c).mp hx)]; exact h
      · rw [if_neg hx, if_neg fun hx' => hx ((h.examines_iff c).mpr hx')]; exact h
  | statusWrite buffer count =>
      exact (switchWrite_congr (fun k b => { k with status := b }) (fun h _ => ⟨rfl, h.2⟩) h buffer count).2
  | modeWrite buffer count =>
      exact (switchWrite_congr (fun k b => { k with auditOnlyMode := b }) (fun h _ => ⟨h.1, rfl⟩) h buffer count).2

theorem SameSwitches.examined (h : SameSwitches k k') (es : List Event) :
    examined k es = examined k' es := by
  induction es generalizing k k' with
  | nil => rfl
  | cons e es ih =>
      rw [Runs.examined, Runs.examined, history, history, List.map_append, List.map_append, h.accesses e]
      exact congrArg _ (ih (h.step e))

theorem SameSwitches.answer (h : SameSwitches k k') (e : Event) :
    (∃ a, (answered k e).map Prod.fst = [a] ∧
      ((Runs.step k e).value.1 = if Refused k.pol a k.pol.seq then -eacces else 0) ∧
      ((Runs.step k' e).value.1 = if Refused k'.pol a k'.pol.seq then -eacces else 0)) ∨
    ((answered k e).map Prod.fst = [] ∧ (Runs.step k e).value.1 = (Runs.step k' e).value.1) := by
  cases e with
  | hasPerm c =>
      by_cases hx : Examines k c
      · have hx' := (h.examines_iff c).mp hx
        refine Or.inl ⟨c.access, by rw [answered, if_pos hx]; rfl, ?_, ?_⟩
        · rw [Runs.step, pigaHasPerm_value, if_pos hx]; rfl
        · rw [Runs.step, pigaHasPerm_value, if_pos hx']; rfl
      · have hx' : ¬Examines k' c := fun hx' => hx ((h.examines_iff c).mpr hx')
        refine Or.inr ⟨by rw [answered, if_neg hx]; rfl, ?_⟩
        rw [Runs.step, Runs.step, pigaHasPerm_value, pigaHasPerm_value, if_neg hx, if_neg hx']
  | statusWrite buffer count =>
      exact Or.inr ⟨rfl,
        (switchWrite_congr (fun k b => { k with status := b }) (fun h _ => ⟨rfl, h.2⟩) h buffer count).1⟩
  | modeWrite buffer count =>
      exact Or.inr ⟨rfl,
        (switchWrite_congr (fun k b => { k with auditOnlyMode := b }) (fun h _ => ⟨h.1, rfl⟩) h buffer count).1⟩

theorem refused_iff_denies (p : Policy) (a : Access) : Refused p a p.seq ↔ Denies p [] a := Iff.rfl

theorem denies_step (k : State) (e : Event) (as : List Access) (a : Access) :
    Denies (step k e).value.2.pol as a ↔ Denies k.pol ((answered k e).map Prod.fst ++ as) a := by
  rw [step_pol, denies_sweeps]

theorem answers_eq (h : SameSwitches k k') (hd : ∀ as a, Denies k.pol as a ↔ Denies k'.pol as a)
    (es : List Event) : (run k es).value.1 = (run k' es).value.1 := by
  induction es generalizing k k' with
  | nil => rfl
  | cons e es ih =>
      have hnext : ∀ as a, Denies (step k e).value.2.pol as a ↔ Denies (step k' e).value.2.pol as a := by
        intro as a
        rw [denies_step, denies_step, h.accesses e, hd]
      have hhead : (step k e).value.1 = (step k' e).value.1 := by
        rcases h.answer e with ⟨a, -, he, he'⟩ | ⟨-, he⟩
        · rw [he, he']
          exact if_congr (hd [] a) rfl rfl
        · exact he
      rw [run_cons, run_cons, hhead, ih (h.step e) hnext]

theorem denied_iff_either {k₁ k₂ : State} (h₁ : SameSwitches k k₁) (h₂ : SameSwitches k k₂)
    (hd : ∀ as a, Denies k.pol as a ↔ Denies k₁.pol as a ∨ Denies k₂.pol as a)
    (es : List Event) (n : Nat) :
    (run k es).value.1[n]? = some (-eacces) ↔
      (run k₁ es).value.1[n]? = some (-eacces) ∨ (run k₂ es).value.1[n]? = some (-eacces) := by
  induction es generalizing k k₁ k₂ n with
  | nil => simp [run]
  | cons e es ih =>
      rw [run_cons, run_cons, run_cons]
      cases n with
      | zero =>
          simp only [List.getElem?_cons_zero, Option.some.injEq]
          rcases h₁.answer e with ⟨a, ha, he, he₁⟩ | ⟨hnil, he₁⟩
          · rcases h₂.answer e with ⟨b, hb, he', he₂⟩ | ⟨hnil, -⟩
            · have hab : b = a := by
                rw [ha] at hb
                exact (List.cons.inj hb).1.symm
              subst hab
              have hda := hd [] b
              rw [← refused_iff_denies, ← refused_iff_denies, ← refused_iff_denies] at hda
              rw [he, he₁, he₂]
              split <;> split <;> split <;> simp_all [eacces]
            · rw [ha] at hnil; cases hnil
          · rcases h₂.answer e with ⟨b, hb, -, -⟩ | ⟨-, he₂⟩
            · rw [hnil] at hb; cases hb
            · rw [← he₁, ← he₂, or_self]
      | succ n =>
          simp only [List.getElem?_cons_succ]
          refine ih (h₁.step e) (h₂.step e) ?_ n
          intro as a
          rw [denies_step, denies_step, denies_step, ← h₁.accesses e, ← h₂.accesses e, hd]

/-- Runs depend on the multiset of loaded signatures only, and what the union
of two policies denies is what one of the two denies. -/
theorem layout_irrelevant :
    (∀ k k' : State, AllFresh k.pol → AllFresh k'.pol → SameSwitches k k' →
      signatures k.pol = signatures k'.pol → ∀ es : List Event,
        (run k es).value.1 = (run k' es).value.1 ∧
          contents (run k es).value.2.pol = contents (run k' es).value.2.pol) ∧
    (∀ k k₁ k₂ : State, AllFresh k.pol → AllFresh k₁.pol → AllFresh k₂.pol →
      SameSwitches k k₁ → SameSwitches k k₂ →
      signatures k.pol = signatures k₁.pol + signatures k₂.pol → ∀ (es : List Event) (n : Nat),
        ((run k es).value.1[n]? = some (-eacces) ↔
          (run k₁ es).value.1[n]? = some (-eacces) ∨ (run k₂ es).value.1[n]? = some (-eacces))) := by
  constructor
  · intro k k' hf hf' hsw hsig es
    constructor
    · apply answers_eq hsw
      intro as a
      rw [denies_iff hf, denies_iff hf', hsig]
    · rw [run_pol, run_pol, contents_sweeps hf, contents_sweeps hf', hsig, hsw.examined es]
  · intro k k₁ k₂ hf hf₁ hf₂ hsw₁ hsw₂ hsig es n
    apply denied_iff_either hsw₁ hsw₂
    intro as a
    rw [denies_iff hf, denies_iff hf₁, denies_iff hf₂, hsig]
    simp only [Multiset.mem_add, or_and_right, exists_or]

def unsharedState : State where
  status := true
  auditOnlyMode := false
  pol :=
    { sLen := 2
      lLen := 5
      seq := [⟨2, 0, 1⟩, ⟨1, 0, 4⟩]
      link := [⟨0, 0, 0, 0⟩, ⟨10, 20, 6, 2⟩, ⟨10, 30, 10, 4⟩, ⟨0, 0, 0, 0⟩, ⟨10, 20, 6, 2⟩]
      behind := fun _ => ⟨0, 0, 0, 0⟩
      seq_length := rfl
      link_length := rfl }

def partState (ss : List Sequence) (sLen : U32) (h : ss.length = sLen.toNat) : State :=
  { shadowState with pol := { shadowPolicy with sLen := sLen, seq := ss, seq_length := h } }

theorem layout_irrelevant_shadow :
    (run shadowState [.hasPerm ⟨readShadow, 0, none⟩, .hasPerm ⟨writeTty, 0, none⟩]).value.1 =
        (run unsharedState [.hasPerm ⟨readShadow, 0, none⟩, .hasPerm ⟨writeTty, 0, none⟩]).value.1 ∧
      ((run shadowState [.hasPerm ⟨readShadow, 0, none⟩]).value.1[0]? = some (-eacces) ↔
        (run (partState [⟨1, 0, 0⟩] 1 rfl) [.hasPerm ⟨readShadow, 0, none⟩]).value.1[0]? = some (-eacces) ∨
          (run (partState [⟨2, 0, 0⟩] 1 rfl) [.hasPerm ⟨readShadow, 0, none⟩]).value.1[0]? = some (-eacces)) :=
  ⟨(layout_irrelevant.1 shadowState unsharedState (by decide) (by decide) ⟨rfl, rfl⟩ (by decide) _).1,
    layout_irrelevant.2 shadowState (partState [⟨1, 0, 0⟩] 1 rfl) (partState [⟨2, 0, 0⟩] 1 rfl)
      (by decide) (by decide) (by decide) ⟨rfl, rfl⟩ ⟨rfl, rfl⟩ (by decide) _ 0⟩

end PigaLinux.Layout
