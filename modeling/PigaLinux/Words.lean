import Mathlib.Data.List.Flatten
import Mathlib.Data.Nat.Digits.Defs

namespace PigaLinux.Words

section blanks

def spaced (ws : List (List Char)) : List Char := ws.flatMap fun w => ' ' :: w

def unspaced (cs : List Char) : List (List Char) := (cs.splitOn ' ').tail

theorem spaced_cons (w : List Char) (ws : List (List Char)) : spaced (w :: ws) = ' ' :: w ++ spaced ws :=
  List.flatMap_cons

theorem spaced_append (ws vs : List (List Char)) : spaced (ws ++ vs) = spaced ws ++ spaced vs := List.flatMap_append

theorem length_spaced_le {ws vs : List (List Char)} (h : ws.Sublist vs) : (spaced ws).length ≤ (spaced vs).length :=
  (h.flatMap _).length_le

theorem intercalate_eq (w : List Char) (ws : List (List Char)) : [' '].intercalate (w :: ws) = w ++ spaced ws := by
  induction ws generalizing w with
  | nil =>
      rw [List.intercalate_singleton]
      exact (List.append_nil w).symm
  | cons v vs ih =>
      rw [List.intercalate_cons_cons, ih, spaced_cons, List.append_assoc]
      rfl

theorem unspaced_spaced {ws : List (List Char)} (h : ∀ w ∈ ws, ' ' ∉ w) : unspaced (spaced ws) = ws := by
  have hblank : ∀ w ∈ [] :: ws, ' ' ∉ w := List.forall_mem_cons.mpr ⟨List.not_mem_nil, h⟩
  have hsplit := List.splitOn_intercalate ' ' hblank (List.cons_ne_nil _ _)
  rw [intercalate_eq, List.nil_append] at hsplit
  rw [unspaced, hsplit, List.tail_cons]

end blanks

section hexadecimal

def hexDigit (c : Char) : Nat := if c.isDigit then c.toNat - 48 else c.toNat - 87

def hexValue (cs : List Char) : Nat := cs.foldl (fun n c => 16 * n + hexDigit c) 0

theorem hexDigit_digitChar : ∀ d < 16, hexDigit d.digitChar = d := by
  decide

theorem hexValue_toDigits (n : Nat) : hexValue (Nat.toDigits 16 n) = n := by
  induction n using Nat.strongRecOn with
  | ind n ih =>
      rw [Nat.toDigits_eq_if (by decide)]
      split
      · next h => exact (Nat.zero_add _).trans (hexDigit_digitChar n h)
      · next h =>
        have hdiv : hexValue (Nat.toDigits 16 (n / 16)) = n / 16 := ih _ (by omega)
        rw [hexValue] at hdiv ⊢
        rw [List.foldl_append, hdiv, List.foldl_cons, List.foldl_nil, hexDigit_digitChar _ (Nat.mod_lt n (by decide))]
        exact Nat.div_add_mod n 16

theorem exists_of_mem_toDigits {n : Nat} {c : Char} (h : c ∈ Nat.toDigits 16 n) : ∃ d < 16, c = d.digitChar := by
  induction n using Nat.strongRecOn with
  | ind n ih =>
      rw [Nat.toDigits_eq_if (by decide)] at h
      split at h
      · next hn => exact ⟨n, hn, List.mem_singleton.mp h⟩
      · next hn =>
        rcases List.mem_append.mp h with h | h
        · exact ih _ (by omega) h
        · exact ⟨n % 16, Nat.mod_lt n (by decide), List.mem_singleton.mp h⟩

theorem digitChar_ne : ∀ d < 16, d.digitChar ≠ ' ' ∧ d.digitChar ≠ '\x00' := by
  decide

end hexadecimal

end PigaLinux.Words
