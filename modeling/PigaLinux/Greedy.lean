import Mathlib.Data.List.Forall2
import Mathlib.Data.List.Infix

namespace PigaLinux.Greedy

open List

variable {α β : Type} (R : β → α → Prop) [DecidableRel R]

/-- The number of patterns matched when the patterns are matched greedily, in
order, against a sequence of events. -/
def greedy : List β → List α → Nat
  | [], _ => 0
  | _ :: _, [] => 0
  | b :: bs, a :: as => if R b a then greedy bs as + 1 else greedy (b :: bs) as

/-- What one more event does to the greedy count. -/
def advance (bs : List β) (g : Nat) (a : α) : Nat :=
  match bs[g]? with
  | some b => if R b a then g + 1 else g
  | none => g

@[simp] theorem greedy_nil (bs : List β) : greedy R bs [] = 0 := by
  cases bs <;> rfl

theorem greedy_le_length (bs : List β) (as : List α) : greedy R bs as ≤ bs.length := by
  induction as generalizing bs with
  | nil => simp
  | cons a as ih =>
      cases bs with
      | nil => simp [greedy]
      | cons b bs =>
          rw [greedy]
          split
          · simpa using ih bs
          · exact ih (b :: bs)

theorem greedy_le_events (bs : List β) (as : List α) : greedy R bs as ≤ as.length := by
  induction as generalizing bs with
  | nil => simp
  | cons a as ih =>
      cases bs with
      | nil => simp [greedy]
      | cons b bs =>
          rw [greedy]
          split
          · simpa using ih bs
          · exact (ih (b :: bs)).trans (Nat.le_succ _)

theorem advance_cons_succ (b : β) (bs : List β) (g : Nat) (a : α) :
    advance R (b :: bs) (g + 1) a = advance R bs g a + 1 := by
  unfold advance
  rw [getElem?_cons_succ]
  split
  · split <;> rfl
  · rfl

theorem greedy_snoc (bs : List β) (as : List α) (a : α) :
    greedy R bs (as ++ [a]) = advance R bs (greedy R bs as) a := by
  induction as generalizing bs with
  | nil =>
      cases bs with
      | nil => simp [greedy, advance]
      | cons b bs => simp [greedy, advance]
  | cons c as ih =>
      cases bs with
      | nil => simp [greedy, advance]
      | cons b bs =>
          rw [cons_append, greedy, greedy]
          split
          · rw [ih bs, advance_cons_succ]
          · exact ih (b :: bs)

section embeddings

variable {R} {a : α} {b : β} {as : List α} {bs : List β}

omit [DecidableRel R]

theorem sublistForall₂_cons_of_rel (hab : R b a) : SublistForall₂ R (b :: bs) (a :: as) ↔ SublistForall₂ R bs as := by
  constructor
  · intro h
    cases h with
    | cons _ ht => exact ht
    | cons_right h =>
        obtain ⟨l, hl, hs⟩ := sublistForall₂_iff.mp h
        cases hl with
        | cons _ hl => exact sublistForall₂_iff.mpr ⟨_, hl, (sublist_cons_self _ _).trans hs⟩
  · exact fun h => SublistForall₂.cons hab h

theorem sublistForall₂_cons_of_not_rel (hab : ¬R b a) :
    SublistForall₂ R (b :: bs) (a :: as) ↔ SublistForall₂ R (b :: bs) as := by
  constructor
  · intro h
    cases h with
    | cons hba _ => exact absurd hba hab
    | cons_right h => exact h
  · exact fun h => SublistForall₂.cons_right h

end embeddings

/-- Greedy matching is optimal: it reaches every prefix of the patterns that
some choice of events embeds. -/
theorem sublistForall₂_take_iff (bs : List β) (as : List α) (k : Nat) (hk : k ≤ bs.length) :
    SublistForall₂ R (bs.take k) as ↔ k ≤ greedy R bs as := by
  induction as generalizing bs k with
  | nil =>
      rw [greedy_nil, Nat.le_zero]
      constructor
      · intro h
        cases k with
        | zero => rfl
        | succ k =>
            cases bs with
            | nil => simp at hk
            | cons b bs => rw [take_succ_cons] at h; cases h
      · rintro rfl
        exact SublistForall₂.nil
  | cons a as ih =>
      cases k with
      | zero => simp only [take_zero, Nat.zero_le, iff_true]; exact SublistForall₂.nil
      | succ k =>
          cases bs with
          | nil => simp at hk
          | cons b bs =>
              rw [greedy, take_succ_cons]
              split
              next hab =>
                rw [Nat.add_le_add_iff_right, sublistForall₂_cons_of_rel hab]
                exact ih bs k (by simpa using hk)
              next hab =>
                rw [sublistForall₂_cons_of_not_rel hab, ← take_succ_cons]
                exact ih (b :: bs) (k + 1) hk

theorem sublistForall₂_iff_length_le (bs : List β) (as : List α) :
    SublistForall₂ R bs as ↔ bs.length ≤ greedy R bs as := by
  have h := sublistForall₂_take_iff R bs as bs.length le_rfl
  rwa [take_length] at h

theorem greedy_mono (bs : List β) {as as' : List α} (h : as <+ as') :
    greedy R bs as ≤ greedy R bs as' := by
  have hg := greedy_le_length R bs as
  obtain ⟨l, hl, hs⟩ := sublistForall₂_iff.mp ((sublistForall₂_take_iff R bs as _ hg).mpr le_rfl)
  exact (sublistForall₂_take_iff R bs as' _ hg).mp (sublistForall₂_iff.mpr ⟨l, hl, hs.trans h⟩)

theorem last_of_completes {bs : List β} {as : List α} {a : α}
    (hlt : greedy R bs as < bs.length) (h : bs.length ≤ greedy R bs (as ++ [a])) :
    bs.length - 1 ≤ greedy R bs as ∧ ∃ b, bs.getLast? = some b ∧ R b a := by
  rw [greedy_snoc, advance, getElem?_eq_getElem hlt] at h
  dsimp only at h
  split at h
  next hr =>
    have hlast : greedy R bs as = bs.length - 1 := by omega
    refine ⟨hlast.ge, _, ?_, hr⟩
    rw [getLast?_eq_getElem?, ← hlast, getElem?_eq_getElem hlt]
  next hr => omega

end PigaLinux.Greedy
