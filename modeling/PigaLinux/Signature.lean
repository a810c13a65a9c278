import PigaLinux.Greedy

namespace PigaLinux.Signature

open Greedy

variable {α β : Type} (R : β → α → Prop) [DecidableRel R]

/-- A token on a signature. It always points at one of the links, so a
signature without links has no token. -/
@[ext] structure Token (β : Type) where
  links : List β
  position : Nat
  inside : position < links.length

def Token.current (t : Token β) : β := t.links.get ⟨t.position, t.inside⟩

def Token.AtEnd (t : Token β) : Prop := t.position + 1 = t.links.length

instance (t : Token β) : Decidable t.AtEnd := inferInstanceAs (Decidable (_ = _))

def Token.Refuses (t : Token β) (a : α) : Prop := R t.current a ∧ t.AtEnd

/-- A matching event moves the token to the next link; on the last link the
event is refused and the token stays. -/
def Token.step (t : Token β) (a : α) : Token β :=
  if R t.current a then
    if h : t.position + 1 < t.links.length then ⟨t.links, t.position + 1, h⟩ else t
  else t

def Token.run (t : Token β) (as : List α) : Token β := as.foldl (Token.step R) t

def start (bs : List β) (h : 0 < bs.length) : Token β := ⟨bs, 0, h⟩

@[simp] theorem step_links (t : Token β) (a : α) : (t.step R a).links = t.links := by
  unfold Token.step
  split
  · split <;> rfl
  · rfl

@[simp] theorem run_links (t : Token β) (as : List α) : (t.run R as).links = t.links := by
  induction as generalizing t with
  | nil => rfl
  | cons a as ih => exact (ih (t.step R a)).trans (step_links R t a)

theorem run_snoc (t : Token β) (as : List α) (a : α) :
    t.run R (as ++ [a]) = (t.run R as).step R a := by
  simp [Token.run]

theorem current_eq {t : Token β} {bs : List β} (hl : t.links = bs) (g : Nat) (hg : g < bs.length)
    (hp : t.position = g) : t.current = bs.get ⟨g, hg⟩ := by
  subst hl hp
  rfl

/-- The token is where greedy matching of the whole history puts it, held
back to the last link. -/
theorem position_run_start (bs : List β) (h : 0 < bs.length) (as : List α) :
    ((start bs h).run R as).position = min (greedy R bs as) (bs.length - 1) := by
  induction as using List.reverseRecOn with
  | nil => simp [Token.run, start]
  | append_singleton as a ih =>
      have hl : ((start bs h).run R as).links = bs := run_links R _ as
      rw [run_snoc, greedy_snoc, Token.step]
      by_cases hg : greedy R bs as < bs.length
      · by_cases hlast : greedy R bs as + 1 = bs.length
        · -- on the last link the count may still rise, the token cannot
          have hp : ((start bs h).run R as).position = bs.length - 1 := by omega
          have hadv : bs.length - 1 ≤ advance R bs (greedy R bs as) a := by
            unfold advance
            split
            · split <;> omega
            · omega
          rw [Nat.min_eq_right hadv]
          split
          · rw [dif_neg (by rw [hl]; omega), hp]
          · exact hp
        · have hp : ((start bs h).run R as).position = greedy R bs as := by omega
          rw [current_eq hl _ hg hp, advance, List.getElem?_eq_getElem hg]
          simp only [List.get_eq_getElem]
          split
          · rw [dif_pos (by rw [hl]; omega)]
            simp only [hp]
            omega
          · rw [hp]
            omega
      · have hp : ((start bs h).run R as).position = bs.length - 1 := by omega
        have hg' := greedy_le_length R bs as
        have hadv : advance R bs (greedy R bs as) a = greedy R bs as := by
          rw [advance, List.getElem?_eq_none (by omega)]
        rw [hadv, ← ih]
        split
        · rw [dif_neg (by rw [hl]; omega)]
        · rfl

/-- An event is refused exactly when all links but the last are matched by
the history and the event matches the last one. -/
theorem refuses_run_start (bs : List β) (h : 0 < bs.length) (as : List α) (a : α) :
    ((start bs h).run R as).Refuses R a ↔
      bs.length - 1 ≤ greedy R bs as ∧ R (bs.get ⟨bs.length - 1, by omega⟩) a := by
  have hl : ((start bs h).run R as).links = bs := run_links R _ as
  have hp := position_run_start R bs h as
  unfold Token.Refuses Token.AtEnd
  rw [hl]
  constructor
  · rintro ⟨hm, he⟩
    refine ⟨by omega, ?_⟩
    rwa [current_eq hl (bs.length - 1) (by omega) (by omega)] at hm
  · rintro ⟨hle, hm⟩
    refine ⟨?_, by omega⟩
    rwa [current_eq hl (bs.length - 1) (by omega) (by omega)]

end PigaLinux.Signature
