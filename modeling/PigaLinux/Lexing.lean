import Mathlib.Data.List.Basic

namespace PigaLinux.Lexing

variable {α τ : Type}

/-- The patterns of a lexer's rules: a character of a class, any number of
them, and one pattern after another. -/
inductive Pattern (α : Type)
  | one (p : α → Bool)
  | many (p : α → Bool)
  | seq (r s : Pattern α)

namespace Pattern

def plus (p : α → Bool) : Pattern α := .seq (.one p) (.many p)

def Matches : Pattern α → List α → Prop
  | .one p, xs => ∃ a, p a = true ∧ xs = [a]
  | .many p, xs => ∀ a ∈ xs, p a = true
  | .seq r s, xs => ∃ ys zs, r.Matches ys ∧ s.Matches zs ∧ xs = ys ++ zs

def lengths : Pattern α → List α → List Nat
  | .one p, xs => if xs.head?.any p then [1] else []
  | .many p, xs => List.range ((xs.takeWhile p).length + 1)
  | .seq r s, xs => (r.lengths xs).flatMap fun n => (s.lengths (xs.drop n)).map (n + ·)

def nullable : Pattern α → Bool
  | .one _ => false
  | .many _ => true
  | .seq r s => r.nullable && s.nullable

def first : Pattern α → α → Bool
  | .one p, a => p a
  | .many p, a => p a
  | .seq r s, a => r.first a || r.nullable && s.first a

theorem matches_plus {p : α → Bool} {xs : List α} : (plus p).Matches xs ↔ xs ≠ [] ∧ ∀ a ∈ xs, p a = true := by
  constructor
  · rintro ⟨ys, zs, ⟨a, ha, rfl⟩, hzs, rfl⟩
    refine ⟨List.cons_ne_nil _ _, ?_⟩
    rw [List.singleton_append, List.forall_mem_cons]
    exact ⟨ha, hzs⟩
  · rintro ⟨hne, hall⟩
    cases xs with
    | nil => exact absurd rfl hne
    | cons a xs =>
        rw [List.forall_mem_cons] at hall
        exact ⟨[a], xs, ⟨a, hall.1, rfl⟩, hall.2, rfl⟩

theorem takeWhile_length_ge {p : α → Bool} {xs : List α} {n : Nat} (hn : n ≤ xs.length) :
    n ≤ (xs.takeWhile p).length ↔ ∀ a ∈ xs.take n, p a = true := by
  induction xs generalizing n with
  | nil =>
      obtain rfl := Nat.le_zero.mp hn
      simp
  | cons x xs ih =>
      cases n with
      | zero => simp
      | succ n =>
          rw [List.takeWhile_cons, List.take_succ_cons, List.forall_mem_cons]
          cases hx : p x with
          | true => simp [ih (Nat.le_of_succ_le_succ hn)]
          | false => simp

theorem mem_lengths {r : Pattern α} {xs : List α} {n : Nat} :
    n ∈ r.lengths xs ↔ n ≤ xs.length ∧ r.Matches (xs.take n) := by
  induction r generalizing xs n with
  | one p =>
      rw [lengths, Matches]
      constructor
      · intro h
        split at h
        · next hp =>
          obtain rfl := List.mem_singleton.mp h
          obtain ⟨a, ha, hpa⟩ := (Option.any_eq_true _ _).mp hp
          obtain ⟨ys, rfl⟩ := List.head?_eq_some_iff.mp ha
          exact ⟨Nat.succ_le_succ (Nat.zero_le _), a, hpa, rfl⟩
        · cases h
      · rintro ⟨hle, a, hpa, heq⟩
        have hlen : n = 1 := by
          rw [← List.length_take_of_le hle, heq, List.length_singleton]
        have hhead : xs.head? = some a := by
          rw [← List.take_append_drop n xs, heq]
          rfl
        rw [hhead, Option.any_some, if_pos hpa, hlen]
        exact List.mem_singleton_self 1
  | many p =>
      rw [lengths, Matches, List.mem_range, Nat.lt_succ_iff]
      constructor
      · intro h
        have hle := Nat.le_trans h (List.takeWhile_sublist p).length_le
        exact ⟨hle, (takeWhile_length_ge hle).mp h⟩
      · rintro ⟨hle, h⟩
        exact (takeWhile_length_ge hle).mpr h
  | seq r s ihr ihs =>
      rw [lengths, Matches, List.mem_flatMap]
      constructor
      · rintro ⟨i, hi, hn⟩
        obtain ⟨j, hj, rfl⟩ := List.mem_map.mp hn
        obtain ⟨hi, hr⟩ := ihr.mp hi
        obtain ⟨hj, hs⟩ := ihs.mp hj
        rw [List.length_drop] at hj
        exact ⟨by omega, _, _, hr, hs, List.take_add⟩
      · rintro ⟨hn, ys, zs, hr, hs, heq⟩
        have hsplit : xs = ys ++ (zs ++ xs.drop n) := by
          rw [← List.append_assoc, ← heq, List.take_append_drop]
        have hlen : n = ys.length + zs.length := by
          rw [← List.length_append, ← heq, List.length_take_of_le hn]
        refine ⟨ys.length, ihr.mpr ⟨by omega, ?_⟩, List.mem_map.mpr ⟨zs.length, ihs.mpr ⟨?_, ?_⟩, hlen.symm⟩⟩
        · rw [hsplit, List.take_left]
          exact hr
        · rw [List.length_drop]
          omega
        · rw [hsplit, List.drop_left, List.take_left]
          exact hs

theorem nullable_of_matches {r : Pattern α} (h : r.Matches []) : r.nullable = true := by
  induction r with
  | one p =>
      obtain ⟨a, -, ha⟩ := h
      cases ha
  | many p => rfl
  | seq r s ihr ihs =>
      obtain ⟨ys, zs, hr, hs, heq⟩ := h
      obtain ⟨rfl, rfl⟩ := List.append_eq_nil_iff.mp heq.symm
      rw [nullable, ihr hr, ihs hs, Bool.and_self]

theorem first_of_matches {r : Pattern α} {a : α} {xs : List α} (h : r.Matches (a :: xs)) : r.first a = true := by
  induction r generalizing xs with
  | one p =>
      obtain ⟨b, hb, heq⟩ := h
      obtain ⟨rfl, rfl⟩ := List.cons.inj heq
      exact hb
  | many p => exact h a List.mem_cons_self
  | seq r s ihr ihs =>
      obtain ⟨ys, zs, hr, hs, heq⟩ := h
      rw [first]
      cases ys with
      | nil =>
          rw [List.nil_append] at heq
          rw [nullable_of_matches hr, ihs (heq ▸ hs), Bool.and_self, Bool.or_true]
      | cons y ys =>
          obtain ⟨rfl, -⟩ := List.cons.inj heq
          rw [ihr hr, Bool.true_or]

end Pattern

/-- A rule is tried everywhere, or at the beginning of lines only. An action
hands over a token or nothing. -/
structure Rule (α τ : Type) where
  bol : Bool
  pattern : Pattern α
  action : List α → Option τ

structure Rule.Takes (r : Rule α τ) (bol : Bool) (xs ys : List α) : Prop where
  anchor : r.bol = true → bol = true
  nonempty : ys ≠ []
  front : ys <+: xs
  pattern : r.pattern.Matches ys

def Rule.longest (r : Rule α τ) (bol : Bool) (xs : List α) : Option Nat :=
  if r.bol && !bol then none else ((r.pattern.lengths xs).filter (0 < ·)).max?

def longer : Option (Nat × Rule α τ) → Option (Nat × Rule α τ) → Option (Nat × Rule α τ)
  | none, d => d
  | some c, none => some c
  | some c, some d => if d.1 ≤ c.1 then some c else some d

def choose (bol : Bool) (xs : List α) : List (Rule α τ) → Option (Nat × Rule α τ)
  | [] => none
  | r :: rs => longer ((r.longest bol xs).map fun n => (n, r)) (choose bol xs rs)

section choice

variable {r : Rule α τ} {rs before after : List (Rule α τ)} {bol : Bool} {xs ys : List α}

theorem takes_take {n : Nat} (hanchor : r.bol = true → bol = true) (hn : n ∈ (r.pattern.lengths xs).filter (0 < ·)) :
    r.Takes bol xs (xs.take n) ∧ (xs.take n).length = n := by
  obtain ⟨hmem, hpos⟩ := List.mem_filter.mp hn
  obtain ⟨hle, hmatch⟩ := Pattern.mem_lengths.mp hmem
  have hlen : (xs.take n).length = n := List.length_take_of_le hle
  refine ⟨⟨hanchor, ?_, List.take_prefix n xs, hmatch⟩, hlen⟩
  rw [← List.length_pos_iff, hlen]
  exact of_decide_eq_true hpos

theorem Rule.Takes.mem_lengths (h : r.Takes bol xs ys) : ys.length ∈ (r.pattern.lengths xs).filter (0 < ·) := by
  obtain ⟨rest, rfl⟩ := h.front
  apply List.mem_filter.mpr
  refine ⟨Pattern.mem_lengths.mpr ⟨by simp, ?_⟩, decide_eq_true (List.length_pos_iff.mpr h.nonempty)⟩
  rw [List.take_left]
  exact h.pattern

theorem longest_takes {n : Nat} (h : r.longest bol xs = some n) : ∃ ys, r.Takes bol xs ys ∧ ys.length = n := by
  rw [Rule.longest] at h
  split at h
  · cases h
  next hanchor =>
    have hmem := List.max?_mem h
    refine ⟨xs.take n, takes_take ?_ hmem⟩
    intro hr
    by_contra hbol
    simp [hr, hbol] at hanchor

theorem Rule.Takes.not_barred (h : r.Takes bol xs ys) : ¬(r.bol && !bol) = true := by
  have hanchor := h.anchor
  cases hr : r.bol <;> simp_all

theorem longest_eq_some (h : r.Takes bol xs ys) (hmax : ∀ zs, r.Takes bol xs zs → zs.length ≤ ys.length) :
    r.longest bol xs = some ys.length := by
  rw [Rule.longest, if_neg h.not_barred, List.max?_eq_some_iff]
  refine ⟨h.mem_lengths, ?_⟩
  intro n hn
  obtain ⟨htakes, hlen⟩ := takes_take h.anchor hn
  rw [← hlen]
  exact hmax _ htakes

theorem longest_ne_none (h : r.Takes bol xs ys) : r.longest bol xs ≠ none := by
  rw [Rule.longest, if_neg h.not_barred, ne_eq, List.max?_eq_none_iff]
  exact List.ne_nil_of_mem h.mem_lengths

theorem length_le_longest {n : Nat} (h : r.longest bol xs = some n) (hys : r.Takes bol xs ys) : ys.length ≤ n := by
  rw [Rule.longest] at h
  split at h
  · cases h
  · exact (List.max?_eq_some_iff.mp h).2 _ hys.mem_lengths

theorem longest_eq_none (h : ∀ ys, ¬r.Takes bol xs ys) : r.longest bol xs = none := by
  cases hlong : r.longest bol xs with
  | none => rfl
  | some n =>
      obtain ⟨ys, htakes, -⟩ := longest_takes hlong
      exact absurd htakes (h ys)

theorem longer_cases (c d : Option (Nat × Rule α τ)) : longer c d = c ∨ longer c d = d := by
  rw [longer.eq_def]
  split
  · exact .inr rfl
  · exact .inl rfl
  · split
    · exact .inl rfl
    · exact .inr rfl

theorem choose_takes {n : Nat} (h : choose bol xs rs = some (n, r)) :
    r ∈ rs ∧ ∃ ys, r.Takes bol xs ys ∧ ys.length = n := by
  induction rs with
  | nil => cases h
  | cons r' rs ih =>
      rw [choose] at h
      rcases longer_cases ((r'.longest bol xs).map fun n => (n, r')) (choose bol xs rs) with hc | hc
      · rw [hc] at h
        obtain ⟨m, hm, heq⟩ := Option.map_eq_some_iff.mp h
        obtain ⟨rfl, rfl⟩ := Prod.mk.inj heq
        exact ⟨List.mem_cons_self, longest_takes hm⟩
      · rw [hc] at h
        obtain ⟨hmem, htakes⟩ := ih h
        exact ⟨List.mem_cons_of_mem _ hmem, htakes⟩

theorem longer_ge {c d : Option (Nat × Rule α τ)} {x : Nat × Rule α τ} (hx : c = some x ∨ d = some x) :
    ∃ y, longer c d = some y ∧ x.1 ≤ y.1 := by
  cases c with
  | none => exact ⟨x, hx.resolve_left (by simp), Nat.le_refl _⟩
  | some c =>
      cases d with
      | none =>
          obtain rfl := Option.some.inj (hx.resolve_right (by simp))
          exact ⟨c, rfl, Nat.le_refl _⟩
      | some d =>
          rw [longer]
          split
          next hle =>
            refine ⟨c, rfl, ?_⟩
            rcases hx with hx | hx
            · exact Nat.le_of_eq (congrArg Prod.fst (Option.some.inj hx)).symm
            · rw [← Option.some.inj hx]
              exact hle
          next hgt =>
            refine ⟨d, rfl, ?_⟩
            rcases hx with hx | hx
            · rw [← Option.some.inj hx]
              omega
            · exact Nat.le_of_eq (congrArg Prod.fst (Option.some.inj hx)).symm

theorem choose_ge {r' : Rule α τ} (hr' : r' ∈ rs) (hys : r'.Takes bol xs ys) :
    ∃ c, choose bol xs rs = some c ∧ ys.length ≤ c.1 := by
  induction rs with
  | nil => exact absurd hr' List.not_mem_nil
  | cons r rs ih =>
      rw [choose]
      rcases List.mem_cons.mp hr' with rfl | hr'
      · cases hlong : r'.longest bol xs with
        | none => exact absurd hlong (longest_ne_none hys)
        | some n =>
            obtain ⟨c, hc, hle⟩ := longer_ge (d := choose bol xs rs) (x := (n, r')) (.inl rfl)
            exact ⟨c, hc, Nat.le_trans (length_le_longest hlong hys) hle⟩
      · obtain ⟨d, hd, hle⟩ := ih hr'
        obtain ⟨c, hc, hle'⟩ := longer_ge (c := (r.longest bol xs).map fun n => (n, r)) (x := d) (.inr hd)
        exact ⟨c, hc, Nat.le_trans hle hle'⟩

theorem choose_cons_of_longest (h : r.Takes bol xs ys)
    (hmax : ∀ r' ∈ r :: rs, ∀ zs, r'.Takes bol xs zs → zs.length ≤ ys.length) :
    choose bol xs (r :: rs) = some (ys.length, r) := by
  rw [choose, longest_eq_some h (hmax r List.mem_cons_self)]
  cases hrest : choose bol xs rs with
  | none => rfl
  | some d =>
      obtain ⟨hmem, zs, htakes, hlen⟩ := choose_takes hrest
      exact if_pos (hlen ▸ hmax _ (List.mem_cons_of_mem _ hmem) zs htakes)

theorem choose_append_of_longest (h : r.Takes bol xs ys)
    (hbefore : ∀ r' ∈ before, ∀ zs, r'.Takes bol xs zs → zs.length < ys.length)
    (hafter : ∀ r' ∈ r :: after, ∀ zs, r'.Takes bol xs zs → zs.length ≤ ys.length) :
    choose bol xs (before ++ r :: after) = some (ys.length, r) := by
  induction before with
  | nil => exact choose_cons_of_longest h hafter
  | cons r' before ih =>
      rw [List.cons_append, choose, ih fun r'' hr'' => hbefore r'' (List.mem_cons_of_mem _ hr'')]
      cases hlong : r'.longest bol xs with
      | none => rfl
      | some n =>
          obtain ⟨zs, htakes, rfl⟩ := longest_takes hlong
          have hlt := hbefore r' List.mem_cons_self zs htakes
          exact if_neg (Nat.not_le.mpr hlt)

theorem choose_filter_first (bol : Bool) (a : α) (xs : List α) (rs : List (Rule α τ)) :
    choose bol (a :: xs) (rs.filter fun r => r.pattern.first a) = choose bol (a :: xs) rs := by
  induction rs with
  | nil => rfl
  | cons r rs ih =>
      rw [List.filter_cons]
      split
      · rw [choose, choose, ih]
      next hfirst =>
        rw [ih, choose, longest_eq_none]
        · rfl
        · intro ys htakes
          obtain ⟨rest, hrest⟩ := htakes.front
          cases ys with
          | nil => exact htakes.nonempty rfl
          | cons y ys =>
              obtain ⟨rfl, -⟩ := List.cons.inj hrest
              exact hfirst (Pattern.first_of_matches htakes.pattern)

end choice

structure Lexer (α τ : Type) where
  rules : List (Rule α τ)
  newline : α → Bool

def Lexer.after (L : Lexer α τ) (bol : Bool) (xs : List α) : Bool := (xs.getLast?.map L.newline).getD bol

/-- The tokens of the input. What no rule takes is passed over. -/
def Lexer.scan (L : Lexer α τ) : Nat → Bool → List α → List τ
  | 0, _, _ => []
  | _ + 1, _, [] => []
  | fuel + 1, bol, x :: xs =>
      match choose bol (x :: xs) L.rules with
      | none => L.scan fuel (L.newline x) xs
      | some (n, r) =>
          (r.action ((x :: xs).take n)).toList ++
            L.scan fuel (L.after bol ((x :: xs).take n)) ((x :: xs).drop n)

def Lexer.lex (L : Lexer α τ) (bol : Bool) (xs : List α) : List τ := L.scan xs.length bol xs

theorem choose_pos {n : Nat} {bol : Bool} {xs : List α} {r : Rule α τ} {rs : List (Rule α τ)}
    (h : choose bol xs rs = some (n, r)) : 0 < n := by
  obtain ⟨-, ys, htakes, rfl⟩ := choose_takes h
  exact List.length_pos_iff.mpr htakes.nonempty

theorem scan_congr (L : Lexer α τ) {n m : Nat} (bol : Bool) {xs : List α} (hn : xs.length ≤ n) (hm : xs.length ≤ m) :
    L.scan n bol xs = L.scan m bol xs := by
  induction n generalizing m bol xs with
  | zero =>
      obtain rfl := List.length_eq_zero_iff.mp (Nat.le_zero.mp hn)
      cases m <;> rfl
  | succ n ih =>
      cases xs with
      | nil => cases m <;> rfl
      | cons x xs =>
          rw [List.length_cons] at hn hm
          obtain ⟨m, rfl⟩ := Nat.exists_eq_add_of_le' (Nat.le_trans (Nat.succ_le_succ (Nat.zero_le _)) hm)
          rw [Lexer.scan, Lexer.scan]
          cases hc : choose bol (x :: xs) L.rules with
          | none => exact ih _ (by omega) (by omega)
          | some c =>
              have hpos : 0 < c.1 := choose_pos hc
              have hlen : ((x :: xs).drop c.1).length ≤ xs.length := by
                rw [List.length_drop, List.length_cons]
                omega
              dsimp only
              rw [ih _ (by omega) (by omega : _ ≤ m)]

@[simp] theorem lex_nil (L : Lexer α τ) (bol : Bool) : L.lex bol [] = [] := rfl

theorem lex_of_choose (L : Lexer α τ) {bol : Bool} {ys rest : List α} {r : Rule α τ} (hys : ys ≠ [])
    (h : choose bol (ys ++ rest) L.rules = some (ys.length, r)) :
    L.lex bol (ys ++ rest) = (r.action ys).toList ++ L.lex (L.after bol ys) rest := by
  cases ys with
  | nil => exact absurd rfl hys
  | cons y ys =>
      rw [Lexer.lex, List.cons_append, List.length_cons, Lexer.scan, ← List.cons_append, h]
      dsimp only
      rw [List.take_left, List.drop_left, scan_congr L _ (by simp) (Nat.le_refl rest.length)]
      rfl

theorem mem_lex {L : Lexer α τ} {bol : Bool} {xs : List α} {t : τ} (h : t ∈ L.lex bol xs) :
    ∃ r ∈ L.rules, ∃ ys, r.pattern.Matches ys ∧ r.action ys = some t := by
  have hscan : ∀ fuel bol xs, t ∈ L.scan fuel bol xs →
      ∃ r ∈ L.rules, ∃ ys, r.pattern.Matches ys ∧ r.action ys = some t := by
    intro fuel
    induction fuel with
    | zero => exact fun bol xs hmem => absurd hmem List.not_mem_nil
    | succ fuel ih =>
        intro bol xs hmem
        cases xs with
        | nil => exact absurd hmem List.not_mem_nil
        | cons x xs =>
            rw [Lexer.scan] at hmem
            cases hc : choose bol (x :: xs) L.rules with
            | none =>
                rw [hc] at hmem
                exact ih _ _ hmem
            | some c =>
                rw [hc] at hmem
                rcases List.mem_append.mp hmem with hmem | hmem
                · obtain ⟨hrule, ys, htakes, hlen⟩ := choose_takes hc
                  obtain ⟨rest, hrest⟩ := htakes.front
                  rw [← hrest, ← hlen, List.take_left, Option.mem_toList] at hmem
                  exact ⟨c.2, hrule, ys, htakes.pattern, hmem⟩
                · exact ih _ _ hmem
  exact hscan _ _ _ h

theorem lex_of_candidates (L : Lexer α τ) {bol : Bool} {a : α} {ys rest : List α} (before : List (Rule α τ))
    {r : Rule α τ} {after : List (Rule α τ)} (ha : ys.head? = some a)
    (hc : L.rules.filter (fun r => r.pattern.first a) = before ++ r :: after) (hr : r.bol = true → bol = true)
    (hm : r.pattern.Matches ys)
    (hbefore : ∀ r' ∈ before, ∀ zs, r'.Takes bol (ys ++ rest) zs → zs.length < ys.length)
    (hafter : ∀ r' ∈ r :: after, ∀ zs, r'.Takes bol (ys ++ rest) zs → zs.length ≤ ys.length) :
    L.lex bol (ys ++ rest) = (r.action ys).toList ++ L.lex (L.after bol ys) rest := by
  cases ys with
  | nil => cases ha
  | cons y ys =>
      obtain rfl : y = a := Option.some.inj ha
      have htakes : r.Takes bol (y :: ys ++ rest) (y :: ys) :=
        ⟨hr, List.cons_ne_nil y ys, List.prefix_append _ rest, hm⟩
      apply lex_of_choose L (List.cons_ne_nil y ys)
      rw [List.cons_append, ← choose_filter_first, hc]
      exact choose_append_of_longest htakes hbefore hafter

section append

variable {L : Lexer α τ} {rest : List α} {P : Bool → List α → Prop}

theorem takes_append_iff {r : Rule α τ} {bol : Bool} {xs ys : List α}
    (h : r.Takes bol (xs ++ rest) ys → ys <+: xs) : r.Takes bol (xs ++ rest) ys ↔ r.Takes bol xs ys :=
  ⟨fun ht => ⟨ht.anchor, ht.nonempty, h ht, ht.pattern⟩,
    fun ht => ⟨ht.anchor, ht.nonempty, ht.front.trans (List.prefix_append xs rest), ht.pattern⟩⟩

theorem longest_of_takes_iff {r : Rule α τ} {bol : Bool} {xs xs' : List α}
    (h : ∀ ys, r.Takes bol xs ys ↔ r.Takes bol xs' ys) {n : Nat} (hn : r.longest bol xs = some n) :
    r.longest bol xs' = some n := by
  obtain ⟨ys, hys, rfl⟩ := longest_takes hn
  exact longest_eq_some ((h ys).mp hys) fun zs hzs => length_le_longest hn ((h zs).mpr hzs)

theorem longest_congr {r : Rule α τ} {bol : Bool} {xs xs' : List α}
    (h : ∀ ys, r.Takes bol xs ys ↔ r.Takes bol xs' ys) : r.longest bol xs = r.longest bol xs' :=
  Option.ext fun _ => ⟨longest_of_takes_iff h, longest_of_takes_iff fun ys => (h ys).symm⟩

theorem choose_congr {rs : List (Rule α τ)} {bol : Bool} {xs xs' : List α}
    (h : ∀ r ∈ rs, ∀ ys, r.Takes bol xs ys ↔ r.Takes bol xs' ys) : choose bol xs rs = choose bol xs' rs := by
  induction rs with
  | nil => rfl
  | cons r rs ih =>
      rw [List.forall_mem_cons] at h
      rw [choose, choose, longest_congr h.1, ih h.2]

theorem after_append (L : Lexer α τ) (bol : Bool) (xs ys : List α) :
    L.after bol (xs ++ ys) = L.after (L.after bol xs) ys := by
  rw [Lexer.after, Lexer.after, Lexer.after, List.getLast?_append]
  cases ys.getLast? <;> rfl

theorem lex_of_none (L : Lexer α τ) {bol : Bool} {x : α} {xs : List α} (h : choose bol (x :: xs) L.rules = none) :
    L.lex bol (x :: xs) = L.lex (L.after bol [x]) xs := by
  rw [Lexer.lex, List.length_cons, Lexer.scan, h]
  rfl

/-- A text is read on its own when no rule reaches over its end, at any of
the places that the lexer comes to in it. -/
theorem lex_append (L : Lexer α τ)
    (hend : ∀ bol xs, xs ≠ [] → P bol xs → ∀ r ∈ L.rules, ∀ ys, r.Takes bol (xs ++ rest) ys → ys <+: xs)
    (hnext : ∀ bol xs ys, P bol (xs ++ ys) → xs ≠ [] → P (L.after bol xs) ys)
    {bol : Bool} {xs : List α} (hP : P bol xs) :
    L.lex bol (xs ++ rest) = L.lex bol xs ++ L.lex (L.after bol xs) rest := by
  -- a rule may take more than one character, so the induction is on the length
  induction hlen : xs.length using Nat.strongRecOn generalizing bol xs with
  | ind n ih =>
      subst hlen
      cases xs with
      | nil => rfl
      | cons x xs =>
          have hne := List.cons_ne_nil x xs
          have hchoose := choose_congr fun r hr ys => takes_append_iff (hend bol _ hne hP r hr ys)
          cases hc : choose bol (x :: xs) L.rules with
          | none =>
              have hrest := ih _ (Nat.lt_succ_self _) (hnext bol [x] xs hP (List.cons_ne_nil x [])) rfl
              rw [hc, List.cons_append] at hchoose
              rw [List.cons_append, lex_of_none L hchoose, lex_of_none L hc, hrest, ← after_append]
              rfl
          | some c =>
              obtain ⟨m, r⟩ := c
              obtain ⟨-, ys, htakes, rfl⟩ := choose_takes hc
              obtain ⟨zs, hzs⟩ := htakes.front
              have hlt : zs.length < (x :: xs).length := by
                have hpos := List.length_pos_iff.mpr htakes.nonempty
                rw [← hzs, List.length_append]
                omega
              rw [← hzs] at hP hc hchoose ⊢
              have hrest := ih _ hlt (hnext bol ys zs hP htakes.nonempty) rfl
              rw [hc, List.append_assoc] at hchoose
              rw [List.append_assoc, lex_of_choose L htakes.nonempty hchoose, lex_of_choose L htakes.nonempty hc, hrest,
                after_append, List.append_assoc]

end append

theorem after_eq_false {L : Lexer α τ} {bol : Bool} {xs : List α} (hne : xs ≠ []) (h : ∀ a ∈ xs, L.newline a = false) :
    L.after bol xs = false := by
  rw [Lexer.after, List.getLast?_eq_some_getLast hne]
  exact h _ (List.getLast_mem hne)

section runs

variable {p : α → Bool} {bol : Bool} {r : Rule α τ}

def Stops (p : α → Bool) (rest : List α) : Prop := ∀ a, rest.head? = some a → p a = false

theorem stops_cons {a : α} {rest : List α} : Stops p (a :: rest) ↔ p a = false := by
  simp [Stops]

theorem run_unique {us vs xs ys : List α} (hus : ∀ a ∈ us, p a = true) (hvs : ∀ a ∈ vs, p a = true)
    (hxs : Stops p xs) (hys : Stops p ys) (h : us ++ xs = vs ++ ys) : us = vs ∧ xs = ys := by
  induction us generalizing vs with
  | nil =>
      cases vs with
      | nil => exact ⟨rfl, h⟩
      | cons v vs =>
          have hv := hxs v (by rw [show xs = v :: vs ++ ys from h]; rfl)
          rw [hvs v List.mem_cons_self] at hv
          cases hv
  | cons u us ih =>
      cases vs with
      | nil =>
          have hu := hys u (by rw [← show u :: us ++ xs = ys from h]; rfl)
          rw [hus u List.mem_cons_self] at hu
          cases hu
      | cons v vs =>
          rw [List.forall_mem_cons] at hus hvs
          obtain ⟨rfl, htail⟩ := List.cons.inj h
          obtain ⟨rfl, rfl⟩ := ih hus.2 hvs.2 htail
          exact ⟨rfl, rfl⟩

theorem length_le_of_stops {zs ys rest : List α} (hzs : ∀ a ∈ zs, p a = true) (hrest : Stops p rest)
    (h : zs <+: ys ++ rest) : zs.length ≤ ys.length := by
  rcases Nat.lt_or_ge ys.length zs.length with hlt | hge
  · obtain ⟨us, rfl⟩ := List.prefix_of_prefix_length_le (List.prefix_append ys rest) h (Nat.le_of_lt hlt)
    rw [List.prefix_append_right_inj] at h
    cases us with
    | nil => simp at hlt
    | cons u us =>
        obtain ⟨ws, rfl⟩ := h
        have hu := hrest u rfl
        rw [hzs u (by simp)] at hu
        cases hu
  · exact hge

theorem Rule.Takes.length_of_one {xs zs : List α} (h : r.Takes bol xs zs) (hr : r.pattern = .one p) :
    zs.length = 1 := by
  have hp := h.pattern
  rw [hr] at hp
  obtain ⟨a, -, rfl⟩ := hp
  rfl

theorem unanchored (h : r.bol = false) : r.bol = true → bol = true := by
  intro htrue
  rw [h] at htrue
  cases htrue

theorem lex_one (L : Lexer α τ) {a : α} {rest : List α} (before : List (Rule α τ)) {after : List (Rule α τ)}
    (hc : L.rules.filter (fun r => r.pattern.first a) = before ++ r :: after) (hr : r.bol = true → bol = true)
    (hp : r.pattern = .one p) (ha : p a = true) (hbefore : ∀ r' ∈ before, ∀ zs, ¬r'.Takes bol (a :: rest) zs)
    (hafter : ∀ r' ∈ after, ∃ q, r'.pattern = .one q) :
    L.lex bol (a :: rest) = (r.action [a]).toList ++ L.lex (L.newline a) rest := by
  have hm : r.pattern.Matches [a] := by
    rw [hp]
    exact ⟨a, ha, rfl⟩
  change L.lex bol ([a] ++ rest) = _
  refine lex_of_candidates L before rfl hc hr hm ?_ ?_
  · exact fun r' hr' zs hzs => absurd hzs (hbefore r' hr' zs)
  · rw [List.forall_mem_cons]
    refine ⟨fun zs hzs => Nat.le_of_eq (hzs.length_of_one hp), ?_⟩
    intro r' hr' zs hzs
    obtain ⟨q, hq⟩ := hafter r' hr'
    exact Nat.le_of_eq (hzs.length_of_one hq)

theorem Rule.Takes.length_le_of_plus {zs ys rest : List α} (h : r.Takes bol (ys ++ rest) zs)
    (hr : r.pattern = .plus p) (hrest : Stops p rest) : zs.length ≤ ys.length := by
  have hp := h.pattern
  rw [hr, Pattern.matches_plus] at hp
  exact length_le_of_stops hp.2 hrest h.front

end runs

end PigaLinux.Lexing
