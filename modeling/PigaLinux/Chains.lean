import Mathlib.Data.List.TakeWhile
import Mathlib.Data.List.FinRange
import Mathlib.Logic.Function.Basic
import Mathlib.Order.Defs.LinearOrder

namespace PigaLinux.Chains

variable {κ α : Type} [LinearOrder κ] {m : Nat} {key : α → κ} {hash : κ → Fin m}

/-- A hash table of chains that are sorted by their keys. -/
structure Table (key : α → κ) (hash : κ → Fin m) where
  chain : Fin m → List α
  sorted : ∀ i, (chain i).Pairwise (fun a b => key a < key b)
  hashed : ∀ i, ∀ a ∈ chain i, hash (key a) = i

def empty : Table key hash where
  chain _ := []
  sorted _ := .nil
  hashed _ _ h := absurd h List.not_mem_nil

def entries (t : Table key hash) : List α := (List.finRange m).flatMap t.chain

/-- Walk down the key's chain past the smaller ones, and see who stands there. -/
def has (t : Table key hash) (k : κ) : Bool :=
  ((t.chain (hash k)).dropWhile (fun a => key a < k)).head?.any (fun a => key a = k)

theorem mem_entries {t : Table key hash} {a : α} : a ∈ entries t ↔ a ∈ t.chain (hash (key a)) := by
  rw [entries, List.mem_flatMap]
  constructor
  · rintro ⟨i, -, ha⟩
    rw [t.hashed i a ha]
    exact ha
  · intro ha
    exact ⟨hash (key a), List.mem_finRange _, ha⟩

theorem eq_of_pairwise {as : List α} (h : as.Pairwise (fun a b => key a < key b)) {a b : α} (ha : a ∈ as)
    (hb : b ∈ as) (hk : key a = key b) : a = b := by
  induction as with
  | nil => exact absurd ha List.not_mem_nil
  | cons c as ih =>
      obtain ⟨hc, has⟩ := List.pairwise_cons.mp h
      rcases List.mem_cons.mp ha with hac | hac <;> rcases List.mem_cons.mp hb with hbc | hbc
      · rw [hac, hbc]
      · rw [hac] at hk
        exact absurd hk (ne_of_lt (hc b hbc))
      · rw [hbc] at hk
        exact absurd hk.symm (ne_of_lt (hc a hac))
      · exact ih has hac hbc

theorem eq_of_key_eq {t : Table key hash} {a b : α} (ha : a ∈ entries t) (hb : b ∈ entries t)
    (hk : key a = key b) : a = b := by
  rw [mem_entries] at ha hb
  rw [← hk] at hb
  exact eq_of_pairwise (t.sorted _) ha hb hk

theorem head_dropWhile {as : List α} (h : as.Pairwise (fun a b => key a < key b)) {a : α} (ha : a ∈ as) :
    (as.dropWhile (fun b => key b < key a)).head? = some a := by
  induction as with
  | nil => exact absurd ha List.not_mem_nil
  | cons c as ih =>
      obtain ⟨hc, has⟩ := List.pairwise_cons.mp h
      rcases List.mem_cons.mp ha with rfl | ha
      · rw [List.dropWhile_cons_of_neg (by simp)]
        rfl
      · rw [List.dropWhile_cons_of_pos (by simpa using hc a ha)]
        exact ih has ha

theorem has_iff {t : Table key hash} {k : κ} : has t k = true ↔ ∃ a ∈ entries t, key a = k := by
  constructor
  · intro h
    rw [has, Option.any_eq_true] at h
    obtain ⟨a, ha, hk⟩ := h
    rw [decide_eq_true_eq] at hk
    subst hk
    exact ⟨a, mem_entries.mpr (List.dropWhile_sublist _ |>.subset (List.mem_of_mem_head? ha)), rfl⟩
  · rintro ⟨a, ha, rfl⟩
    rw [has, head_dropWhile (t.sorted _) (mem_entries.mp ha)]
    simp

def insertChain (key : α → κ) (a : α) (as : List α) : List α :=
  as.takeWhile (fun b => key b < key a) ++ a :: as.dropWhile (fun b => key b < key a)

theorem insertChain_cons (a c : α) (as : List α) :
    insertChain key a (c :: as) = if key c < key a then c :: insertChain key a as else a :: c :: as := by
  by_cases h : key c < key a
  · simp [insertChain, h]
  · simp [insertChain, h]

theorem mem_insertChain {a b : α} {as : List α} : b ∈ insertChain key a as ↔ b = a ∨ b ∈ as := by
  have hsplit : b ∈ as ↔ b ∈ as.takeWhile (fun b => key b < key a) ∨ b ∈ as.dropWhile (fun b => key b < key a) := by
    rw [← List.mem_append, List.takeWhile_append_dropWhile]
  rw [insertChain, List.mem_append, List.mem_cons, hsplit, or_left_comm]

theorem insertChain_sorted {as : List α} (h : as.Pairwise (fun a b => key a < key b)) {a : α}
    (ha : ∀ b ∈ as, key b ≠ key a) : (insertChain key a as).Pairwise (fun a b => key a < key b) := by
  induction as with
  | nil => exact List.pairwise_singleton _ a
  | cons c as ih =>
      obtain ⟨hc, has⟩ := List.pairwise_cons.mp h
      rw [insertChain_cons]
      by_cases hlt : key c < key a
      · rw [if_pos hlt]
        refine List.pairwise_cons.mpr ⟨?_, ih has (fun b hb => ha b (List.mem_cons_of_mem _ hb))⟩
        intro b hb
        rcases mem_insertChain.mp hb with rfl | hb
        · exact hlt
        · exact hc b hb
      · have hgt : key a < key c := lt_of_le_of_ne (not_lt.mp hlt) (ha c List.mem_cons_self).symm
        rw [if_neg hlt]
        refine List.pairwise_cons.mpr ⟨?_, h⟩
        intro b hb
        rcases List.mem_cons.mp hb with rfl | hb
        · exact hgt
        · exact lt_trans hgt (hc b hb)

def insert (t : Table key hash) (a : α) (h : has t (key a) = false) : Table key hash where
  chain := Function.update t.chain (hash (key a)) (insertChain key a (t.chain (hash (key a))))
  sorted i := by
    by_cases hi : i = hash (key a)
    · subst hi
      rw [Function.update_self]
      apply insertChain_sorted (t.sorted _)
      intro b hb hk
      have hmem : b ∈ entries t := mem_entries.mpr (by rwa [hk])
      rw [has_iff.mpr ⟨b, hmem, hk⟩] at h
      exact absurd h (by decide)
    · rw [Function.update_of_ne hi]
      exact t.sorted i
  hashed i b hb := by
    by_cases hi : i = hash (key a)
    · subst hi
      rw [Function.update_self] at hb
      rcases mem_insertChain.mp hb with rfl | hb
      · rfl
      · exact t.hashed _ b hb
    · rw [Function.update_of_ne hi] at hb
      exact t.hashed i b hb

theorem flatMap_update {ι : Type} [DecidableEq ι] (f : ι → List α) {is : List ι} (his : is.Nodup) {i : ι}
    (hi : i ∈ is) : ∃ pre post, ∀ as, is.flatMap (Function.update f i as) = pre ++ as ++ post := by
  obtain ⟨js, ks, rfl⟩ := List.append_of_mem hi
  refine ⟨js.flatMap f, ks.flatMap f, ?_⟩
  intro as
  rw [List.nodup_append] at his
  obtain ⟨-, hks, hdisj⟩ := his
  have hjs : ∀ j ∈ js, Function.update f i as j = f j := fun j hj =>
    Function.update_of_ne (hdisj j hj i List.mem_cons_self) _ _
  have hk : ∀ k ∈ ks, Function.update f i as k = f k := by
    intro k hkm
    rw [Function.update_of_ne]
    rintro rfl
    exact (List.nodup_cons.mp hks).1 hkm
  rw [List.flatMap_append, List.flatMap_cons, Function.update_self, List.append_assoc]
  rw [List.flatMap_congr hjs, List.flatMap_congr hk]

theorem entries_insert (t : Table key hash) (a : α) (h : has t (key a) = false) :
    ∃ pre post, entries t = pre ++ post ∧ entries (insert t a h) = pre ++ a :: post := by
  obtain ⟨pre, post, hscan⟩ := flatMap_update t.chain (List.nodup_finRange m) (List.mem_finRange (hash (key a)))
  have hold := hscan (t.chain (hash (key a)))
  rw [Function.update_eq_self] at hold
  refine ⟨pre ++ (t.chain (hash (key a))).takeWhile (fun b => key b < key a),
    (t.chain (hash (key a))).dropWhile (fun b => key b < key a) ++ post, ?_, ?_⟩
  · rw [entries, hold, List.append_assoc, List.append_assoc, ← List.append_assoc (List.takeWhile _ _),
      List.takeWhile_append_dropWhile]
  · refine (hscan _).trans ?_
    simp [insertChain]

theorem mem_entries_insert {t : Table key hash} {a b : α} {h : has t (key a) = false} :
    b ∈ entries (insert t a h) ↔ b = a ∨ b ∈ entries t := by
  obtain ⟨pre, post, hold, hnew⟩ := entries_insert t a h
  rw [hold, hnew, List.mem_append, List.mem_cons, List.mem_append, or_left_comm]

theorem find?_entries_insert {t : Table key hash} {a : α} {h : has t (key a) = false} {p : α → Bool}
    (hp : p a = false) : (entries (insert t a h)).find? p = (entries t).find? p := by
  obtain ⟨pre, post, hold, hnew⟩ := entries_insert t a h
  rw [hold, hnew, List.find?_append, List.find?_append, List.find?_cons_of_neg (by rw [hp]; decide)]

end PigaLinux.Chains
