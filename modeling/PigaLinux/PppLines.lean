import PigaLinux.PppPrint

namespace PigaLinux.PppLines

open Lexing PppSyntax Ppp PppLex PppParse
open PppPrint (lineTokens_ne_nil lines_ne_nil)

section rules

variable {ys : List Char}

theorem not_separator_of_run {p : Char → Bool} (hp : ∀ a, isSeparator a = true → p a = false)
    (h : ∀ a ∈ ys, p a = true) : ∀ a ∈ ys, isSeparator a = false := by
  intro a ha
  by_contra hsep
  have hfalse := hp a (by simpa using hsep)
  rw [h a ha] at hfalse
  cases hfalse

def HandsOver (r : Rule Char Token) (ys : List Char) : Prop :=
  ∃ t, r.action ys = some t ∧ t.text = ys ∧ (ys.length = 1 ∨ ∀ a ∈ ys, isSeparator a = false)

theorem typeRule_handsOver (h : typeRule.pattern.Matches ys) : HandsOver typeRule ys := by
  have hrun := Pattern.matches_plus.mp h
  refine ⟨.type ⟨_, run_ofList.mpr hrun⟩, dif_pos _, String.toList_ofList, .inr (not_separator_of_run ?_ hrun.2)⟩
  intro a ha
  rcases isSeparator_cases ha with rfl | rfl | rfl <;> decide

theorem boolRule_handsOver (h : boolRule.pattern.Matches ys) : HandsOver boolRule ys := by
  have hrun := Pattern.matches_plus.mp h
  refine ⟨.bool ⟨_, run_ofList.mpr hrun⟩, dif_pos _, String.toList_ofList, .inr (not_separator_of_run ?_ hrun.2)⟩
  intro a ha
  rcases isSeparator_cases ha with rfl | rfl | rfl <;> decide

theorem wordRule_handsOver (h : wordRule.pattern.Matches ys) : HandsOver wordRule ys := by
  have hrun := Pattern.matches_plus.mp h
  refine ⟨.word ⟨_, run_ofList.mpr hrun⟩, dif_pos _, String.toList_ofList, .inr (not_separator_of_run ?_ hrun.2)⟩
  intro a ha
  rcases isSeparator_cases ha with rfl | rfl | rfl <;> decide

theorem sidRule_handsOver (h : sidRule.pattern.Matches ys) : HandsOver sidRule ys := by
  obtain ⟨us, rs, ts, hus, hrs, hts, rfl⟩ := matches_sid.mp h
  let c : Context := ⟨String.ofList us, String.ofList rs, String.ofList ts, run_ofList.mpr hus, run_ofList.mpr hrs,
    run_ofList.mpr hts⟩
  have htext : c.text.toList = us ++ ':' :: (rs ++ ':' :: ts) := by
    rw [Context.text_toList, String.toList_ofList, String.toList_ofList, String.toList_ofList]
  rw [← htext]
  refine ⟨.sid c, sidRule_action c, rfl, .inr (not_separator_of_run ?_ fun a ha => mem_context_text ha)⟩
  intro a ha
  rcases isSeparator_cases ha with rfl | rfl | rfl <;> decide

theorem action_cases {r : Rule Char Token} (hr : r ∈ lexer.rules) (h : r.pattern.Matches ys) :
    HandsOver r ys ∨ (∃ a, ys = [a] ∧ isBlank a = true ∧ r.action ys = none) ∨
      (r.bol = true ∧ (ys.head? = some '\n' ∨ ys.head? = some '#')) := by
  simp only [lexer, List.mem_cons, List.not_mem_nil, or_false] at hr
  rcases hr with rfl | rfl | rfl | rfl | rfl | rfl | rfl | rfl | rfl | rfl | rfl | rfl
  · exact .inl (typeRule_handsOver h)
  · exact .inl (boolRule_handsOver h)
  · exact .inl (sidRule_handsOver h)
  · exact .inl (wordRule_handsOver h)
  · obtain ⟨a, ha, rfl⟩ := h
    exact .inr (.inl ⟨a, rfl, ha, rfl⟩)
  · obtain ⟨a, ha, rfl⟩ := h
    exact .inr (.inr ⟨rfl, .inl (congrArg some (beq_iff_eq.mp ha))⟩)
  · obtain ⟨xs, zs, ⟨a, ha, rfl⟩, -, rfl⟩ := h
    exact .inr (.inr ⟨rfl, .inr (congrArg some (beq_iff_eq.mp ha))⟩)
  · obtain ⟨a, ha, rfl⟩ := h
    obtain rfl := beq_iff_eq.mp ha
    exact .inl ⟨.eol, rfl, rfl, .inl rfl⟩
  · obtain ⟨xs, zs, ⟨a, ha, rfl⟩, ⟨b, hb, rfl⟩, rfl⟩ := h
    obtain rfl := beq_iff_eq.mp ha
    obtain rfl := beq_iff_eq.mp hb
    exact .inl ⟨.avpermstart, rfl, rfl, .inr (by simp [isSeparator, isBlank])⟩
  · obtain ⟨xs, zs, ⟨a, ha, rfl⟩, ⟨us, vs, ⟨b, hb, rfl⟩, ⟨c, hc, rfl⟩, rfl⟩, rfl⟩ := h
    obtain rfl := beq_iff_eq.mp ha
    obtain rfl := beq_iff_eq.mp hb
    obtain rfl := beq_iff_eq.mp hc
    exact .inl ⟨.avpermend, rfl, rfl, .inr (by simp [isSeparator, isBlank])⟩
  · obtain ⟨a, -, rfl⟩ := h
    exact .inl ⟨.char a, rfl, rfl, .inl rfl⟩
  · obtain ⟨a, -, rfl⟩ := h
    exact .inl ⟨.char a, rfl, rfl, .inl rfl⟩

end rules

section pieces

variable {bol : Bool} {xs rest : List Char}

theorem after_of_not_mem (hne : xs ≠ []) (h : '\n' ∉ xs) : lexer.after bol xs = false := by
  apply after_eq_false hne
  intro a ha
  rw [lexer, beq_eq_false_iff_ne]
  rintro rfl
  exact h ha

theorem lex_append_separated (hxs : '\n' ∉ xs) (hhash : bol = true → xs.head? ≠ some '#') (h : Separated rest) :
    lexer.lex bol (xs ++ rest) = lexer.lex bol xs ++ lexer.lex (lexer.after bol xs) rest := by
  refine lex_append (P := fun bol xs => '\n' ∉ xs ∧ (bol = true → xs.head? ≠ some '#')) lexer ?_ ?_ ⟨hxs, hhash⟩
  · rintro bol xs hne ⟨hxs, hhash⟩ r hr ys htakes
    rcases Nat.lt_or_ge xs.length ys.length with hlt | hge
    · -- the rule would reach over a separator
      obtain ⟨us, rfl⟩ := List.prefix_of_prefix_length_le (List.prefix_append xs rest) htakes.front (Nat.le_of_lt hlt)
      have hpos := List.length_pos_iff.mpr hne
      have hfront := (List.prefix_append_right_inj xs).mp htakes.front
      rw [List.length_append] at hlt
      obtain ⟨u, us, rfl⟩ := List.exists_cons_of_length_pos (by omega : 0 < us.length)
      obtain ⟨vs, rfl⟩ := hfront
      have hsep := h u rfl
      rcases action_cases hr htakes.pattern with ⟨t, -, -, hlen | hall⟩ | ⟨a, ha, -, -⟩ | ⟨hbol, hhead⟩
      · rw [List.length_append, List.length_cons] at hlen
        omega
      · rw [hall u (by simp)] at hsep
        cases hsep
      · have hlen := congrArg List.length ha
        rw [List.length_append, List.length_cons, List.length_singleton] at hlen
        omega
      · rw [List.head?_append_of_ne_nil _ hne] at hhead
        rcases hhead with hhead | hhead
        · exact absurd (List.mem_of_head? hhead) hxs
        · exact absurd hhead (hhash (htakes.anchor hbol))
    · exact List.prefix_of_prefix_length_le htakes.front (List.prefix_append xs rest) hge
  · rintro bol xs ys ⟨hxs, -⟩ hne
    rw [List.mem_append, not_or] at hxs
    refine ⟨hxs.2, ?_⟩
    rw [after_of_not_mem hne hxs.1]
    exact fun hfalse => by cases hfalse

theorem lex_step (bol : Bool) {x : Char} (hx : isBlank x = false) (hxs : '\n' ∉ x :: xs) (hhash : bol = true → x ≠ '#') :
    ∃ t zs, x :: xs = t.text ++ zs ∧ t.text ≠ [] ∧ (∀ a ∈ t.text, isBlank a = false) ∧
      lexer.lex bol (x :: xs) = t :: lexer.lex false zs ∧
      ∀ r ∈ lexer.rules, ∀ us, r.Takes bol (x :: xs) us → us.length ≤ t.text.length := by
  have hother : otherRule.Takes bol (x :: xs) [x] := by
    refine ⟨unanchored rfl, List.cons_ne_nil x [], ⟨xs, rfl⟩, x, ?_, rfl⟩
    rw [bne_iff_ne]
    rintro rfl
    exact hxs List.mem_cons_self
  have hmem : otherRule ∈ lexer.rules := by simp [lexer]
  obtain ⟨⟨n, r⟩, hc, -⟩ := choose_ge hmem hother
  obtain ⟨hr, ys, htakes, rfl⟩ := choose_takes hc
  obtain ⟨zs, hzs⟩ := htakes.front
  have hmax : ∀ r' ∈ lexer.rules, ∀ us, r'.Takes bol (x :: xs) us → us.length ≤ ys.length := by
    intro r' hr' us hus
    obtain ⟨c, hc', hle⟩ := choose_ge hr' hus
    rw [hc] at hc'
    rwa [← Option.some.inj hc'] at hle
  have hhead : ys.head? = some x := by
    rw [← List.head?_append_of_ne_nil _ htakes.nonempty, hzs]
    rfl
  rcases action_cases hr htakes.pattern with ⟨t, haction, rfl, hblank⟩ | ⟨a, rfl, ha, -⟩ | ⟨hbol, hnew⟩
  · refine ⟨t, zs, hzs.symm, htakes.nonempty, ?_, ?_, hmax⟩
    · rcases hblank with hone | hall
      · obtain ⟨a, ha⟩ := List.length_eq_one_iff.mp hone
        rw [ha] at hhead ⊢
        obtain rfl : a = x := Option.some.inj hhead
        exact List.forall_mem_singleton.mpr hx
      · intro a ha
        exact (Bool.or_eq_false_iff.mp (hall a ha)).1
    · have hnot : '\n' ∉ t.text := fun hmem => hxs (hzs ▸ List.mem_append_left _ hmem)
      rw [← hzs] at hc ⊢
      rw [lex_of_choose lexer htakes.nonempty hc, haction, after_of_not_mem htakes.nonempty hnot]
      rfl
  · obtain rfl : a = x := Option.some.inj hhead
    rw [ha] at hx
    cases hx
  · rw [hhead] at hnew
    rcases hnew with hnew | hnew
    · obtain rfl := Option.some.inj hnew
      exact absurd List.mem_cons_self hxs
    · exact absurd (Option.some.inj hnew) (hhash (htakes.anchor hbol))

theorem lex_blanks (h : ∀ a ∈ xs, isBlank a = true) (hne : xs ≠ []) :
    lexer.lex bol (xs ++ rest) = lexer.lex false rest := by
  induction xs generalizing bol with
  | nil => exact absurd rfl hne
  | cons x xs ih =>
      rw [List.forall_mem_cons] at h
      rw [List.cons_append, lex_blank h.1]
      cases xs with
      | nil => rfl
      | cons y ys => exact ih h.2 (List.cons_ne_nil y ys)

def spread : List (List Char × Token) → List Char → List Char
  | [], tail => tail
  | p :: ps, tail => p.1 ++ (p.2.text ++ spread ps tail)

theorem mem_spread {ps : List (List Char × Token)} {tail : List Char} {a : Char} :
    a ∈ spread ps tail ↔ (∃ p ∈ ps, a ∈ p.1 ∨ a ∈ p.2.text) ∨ a ∈ tail := by
  induction ps with
  | nil => simp [spread]
  | cons p ps ih =>
      rw [spread, List.mem_append, List.mem_append, ih]
      simp [or_assoc]

def Blanks (xs : List Char) : Prop := ∀ a ∈ xs, isBlank a = true

def Spreads (bol : Bool) (xs : List Char) : Prop :=
  ∃ ps tail, xs = spread ps tail ∧ lexer.lex bol xs = ps.map Prod.snd ∧ Blanks tail ∧
    ∀ p ∈ ps, Blanks p.1 ∧ ∀ a ∈ p.2.text, isBlank a = false

theorem spreads_nil : Spreads bol [] := ⟨[], [], rfl, rfl, by simp [Blanks], by simp⟩

theorem spreads_blank {x : Char} (hx : isBlank x = true) (h : Spreads false xs) : Spreads bol (x :: xs) := by
  obtain ⟨ps, tail, rfl, hlex, htail, hps⟩ := h
  rw [Spreads, lex_blank hx, hlex]
  cases ps with
  | nil => exact ⟨[], x :: tail, rfl, rfl, List.forall_mem_cons.mpr ⟨hx, htail⟩, by simp⟩
  | cons p ps =>
      rw [List.forall_mem_cons] at hps
      refine ⟨(x :: p.1, p.2) :: ps, tail, rfl, rfl, htail, ?_⟩
      exact List.forall_mem_cons.mpr ⟨⟨List.forall_mem_cons.mpr ⟨hx, hps.1.1⟩, hps.1.2⟩, hps.2⟩

theorem spreads_token {t : Token} (hlex : lexer.lex bol (t.text ++ xs) = t :: lexer.lex false xs)
    (hblank : ∀ a ∈ t.text, isBlank a = false) (h : Spreads false xs) : Spreads bol (t.text ++ xs) := by
  obtain ⟨ps, tail, rfl, hrest, htail, hps⟩ := h
  refine ⟨([], t) :: ps, tail, rfl, ?_, htail, ?_⟩
  · rw [hlex, hrest]
    rfl
  · exact List.forall_mem_cons.mpr ⟨⟨by simp [Blanks], hblank⟩, hps⟩

theorem exists_spread (hxs : '\n' ∉ xs) (hhash : bol = true → xs.head? ≠ some '#') : Spreads bol xs := by
  -- a step takes off a whole token, so the induction is on the length
  induction hlen : xs.length using Nat.strongRecOn generalizing bol xs with
  | ind n ih =>
      subst hlen
      cases xs with
      | nil => exact spreads_nil
      | cons x xs =>
          cases hx : isBlank x with
          | true =>
              have hrest : '\n' ∉ xs := fun hmem => hxs (List.mem_cons_of_mem x hmem)
              exact spreads_blank hx (ih _ (Nat.lt_succ_self _) hrest (fun h => by cases h) rfl)
          | false =>
              obtain ⟨t, zs, hsplit, hne, hblank, hlex, -⟩ :=
                lex_step bol hx hxs fun hbol hx => hhash hbol (by rw [hx]; rfl)
              rw [hsplit] at hxs hlex ⊢
              have hrest : '\n' ∉ zs := fun hmem => hxs (List.mem_append_right _ hmem)
              have hlt : zs.length < (x :: xs).length := by
                have hpos := List.length_pos_iff.mpr hne
                rw [hsplit, List.length_append]
                omega
              exact spreads_token hlex hblank (ih _ hlt hrest (fun h => by cases h) rfl)

theorem exists_mem_lex (hxs : '\n' ∉ xs) (hhash : bol = true → xs.head? ≠ some '#') {a : Char} (ha : a ∈ xs)
    (hblank : isBlank a = false) : ∃ t ∈ lexer.lex bol xs, a ∈ t.text := by
  have hnot {g : List Char} (hg : Blanks g) : a ∉ g := by
    intro hmem
    rw [hg a hmem] at hblank
    cases hblank
  obtain ⟨ps, tail, rfl, hlex, htail, hps⟩ := exists_spread hxs hhash
  rcases mem_spread.mp ha with ⟨p, hp, hgap | htext⟩ | hmem
  · exact absurd hgap (hnot (hps p hp).1)
  · exact ⟨p.2, hlex ▸ List.mem_map_of_mem hp, htext⟩
  · exact absurd hmem (hnot htail)

theorem mem_of_mem_lex (hxs : '\n' ∉ xs) (hhash : bol = true → xs.head? ≠ some '#') {t : Token} (ht : t ∈ lexer.lex bol xs)
    {a : Char} (ha : a ∈ t.text) : a ∈ xs := by
  obtain ⟨ps, tail, rfl, hlex, -, -⟩ := exists_spread hxs hhash
  rw [hlex] at ht
  obtain ⟨p, hp, rfl⟩ := List.mem_map.mp ht
  exact mem_spread.mpr (.inl ⟨p, hp, .inr ha⟩)

theorem lex_eq_nil_iff (hxs : '\n' ∉ xs) (hhash : bol = true → xs.head? ≠ some '#') :
    lexer.lex bol xs = [] ↔ Blanks xs := by
  constructor
  · intro h
    obtain ⟨ps, tail, rfl, hlex, htail, -⟩ := exists_spread hxs hhash
    rw [h] at hlex
    rw [List.map_eq_nil_iff.mp hlex.symm]
    exact htail
  · intro h
    cases xs with
    | nil => rfl
    | cons x xs =>
        have hblanks : lexer.lex bol (x :: xs ++ []) = lexer.lex false [] := lex_blanks h (List.cons_ne_nil x xs)
        rwa [List.append_nil] at hblanks

end pieces

section lines

variable {l rest : List Char}

theorem candidates_hash :
    lexer.rules.filter (fun r => r.pattern.first '#') = [commentRule, otherRule] := rfl

theorem comment_takes {bol : Bool} {xs zs : List Char} (h : commentRule.Takes bol xs zs) :
    ∃ ys ws, (∀ a ∈ ys, a ≠ '\n') ∧ zs = '#' :: ys ++ ['\n'] ∧ xs = '#' :: ys ++ '\n' :: ws := by
  obtain ⟨us, vs, ⟨a, ha, rfl⟩, ⟨ys, ns, hys, ⟨b, hb, rfl⟩, rfl⟩, rfl⟩ := h.pattern
  obtain rfl := beq_iff_eq.mp ha
  obtain rfl := beq_iff_eq.mp hb
  obtain ⟨ws, rfl⟩ := h.front
  exact ⟨ys, ws, fun a ha => by simpa using hys a ha, rfl, by simp⟩

theorem lex_comment (hl : '\n' ∉ l) : lexer.lex true ('#' :: l ++ '\n' :: rest) = lexer.lex true rest := by
  have hline : ∀ a ∈ l, (a != '\n') = true := by
    intro a ha
    rw [bne_iff_ne]
    rintro rfl
    exact hl ha
  have hmatch : commentRule.pattern.Matches ('#' :: l ++ ['\n']) :=
    ⟨['#'], l ++ ['\n'], ⟨'#', rfl, rfl⟩, ⟨l, ['\n'], hline, ⟨'\n', rfl, rfl⟩, rfl⟩, rfl⟩
  have htext : '#' :: l ++ '\n' :: rest = '#' :: l ++ ['\n'] ++ rest := by simp
  have hafter : lexer.after true ('#' :: l ++ ['\n']) = true := by
    rw [after_append]
    rfl
  rw [htext, lex_of_candidates lexer [] rfl candidates_hash (fun _ => rfl) hmatch, hafter]
  · rfl
  · exact fun r' hr' => absurd hr' List.not_mem_nil
  · rw [List.forall_mem_cons, List.forall_mem_singleton]
    refine ⟨fun zs hzs => ?_, fun zs hzs => ?_⟩
    · obtain ⟨ys, ws, hys, rfl, heq⟩ := comment_takes hzs
      have hstop {xs : List Char} : Stops (fun a => a != '\n') ('\n' :: xs) := stops_cons.mpr (by decide)
      rw [← htext] at heq
      obtain ⟨rfl, -⟩ := run_unique hline (fun a ha => by simpa using hys a ha) hstop hstop (List.cons.inj heq).2
      exact Nat.le_refl _
    · rw [otherRule_length hzs]
      simp

theorem lex_hash {bol : Bool} (hl : '\n' ∉ l) : lexer.lex bol ('#' :: l) = .char '#' :: lexer.lex false l := by
  rw [lex_one lexer [commentRule] candidates_hash (unanchored rfl) rfl (by decide)]
  · rfl
  · rw [List.forall_mem_singleton]
    intro zs hzs
    obtain ⟨ys, ws, -, -, heq⟩ := comment_takes hzs
    obtain ⟨-, rfl⟩ := List.cons.inj heq
    exact hl (by simp)
  · exact fun r' hr' => absurd hr' List.not_mem_nil

theorem lex_line (hne : l ≠ []) (hhash : l.head? ≠ some '#') (hl : '\n' ∉ l) :
    lexer.lex true (l ++ '\n' :: rest) = lexer.lex true l ++ .eol :: lexer.lex true rest := by
  rw [lex_append_separated hl (fun _ => hhash) (separated_cons (by decide)), after_of_not_mem hne hl, lex_eol]

end lines

section places

def openFile : Place → Option File
  | .line f | .type f _ | .dash f _ => f
  | .bool h | .signature h _ | .signatureEnd h _ => h.file
  | .source o | .vector o | .tclass o _ | .brace o _ | .request o _ _ | .vectorEnd o _ | .target o _ => o.head.file
  | .accepted w => some w.file

def Token.onLine : Token → Prop
  | .eol | .endf => False
  | _ => True

theorem next_onLine {p p' : Place} {t : Token} (ht : Token.onLine t) (h : next p t = some p') :
    openFile p' = openFile p ∧ (∀ f, p' ≠ .line f) ∧ ∀ w, p' ≠ .accepted w := by
  rw [next.eq_def] at h
  split at h <;> cases h
  all_goals first
    | exact ht.elim
    | refine ⟨rfl, ?_, ?_⟩ <;> intro _ h <;> cases h

theorem outcome_of_none {t : Token} {us : List Token} {p : Place} (hp : ∀ w, p ≠ .accepted w) (h : next p t = none) :
    outcome (reached (t :: us) p) = none := by
  rw [reached, h]
  dsimp only
  rw [outcome_settle]
  cases p with
  | accepted w => exact absurd rfl (hp w)
  | _ => rfl

theorem reached_onLine {ts us : List Token} {p : Place} (hts : ∀ t ∈ ts, Token.onLine t) (hp : ∀ w, p ≠ .accepted w) :
    outcome (reached (ts ++ us) p) = none ∨
      ∃ p', reached (ts ++ us) p = reached us p' ∧ read p' = read p ++ ts ∧ openFile p' = openFile p ∧
        (ts = [] ∧ p' = p ∨ ∀ f, p' ≠ .line f) ∧ ∀ w, p' ≠ .accepted w := by
  induction ts generalizing p with
  | nil => exact .inr ⟨p, rfl, (List.append_nil _).symm, rfl, .inl ⟨rfl, rfl⟩, hp⟩
  | cons t ts ih =>
      rw [List.forall_mem_cons] at hts
      cases hnext : next p t with
      | none => exact .inl (outcome_of_none hp hnext)
      | some p₁ =>
          obtain ⟨hfile, hline, hacc⟩ := next_onLine hts.1 hnext
          have hcons : reached (t :: ts ++ us) p = reached (ts ++ us) p₁ := reached_cons _ hnext
          rw [hcons]
          refine (ih hts.2 hacc).imp_right ?_
          rintro ⟨p', hreached, hread, hfile', hline', hacc'⟩
          refine ⟨p', hreached, ?_, hfile'.trans hfile, .inr ?_, hacc'⟩
          · rw [hread, read_next hnext, List.append_assoc]
            rfl
          · rcases hline' with ⟨-, rfl⟩ | hline'
            · exact hline
            · exact hline'

theorem next_eol {p p' : Place} (h : next p .eol = some p') :
    ∃ h g, p = .signatureEnd h g ∧ p' = .line (some (h.reduce g)) := by
  cases p with
  | signatureEnd h' g => exact ⟨h', g, rfl, (Option.some.inj h).symm⟩
  | _ => cases h

theorem next_endf {p p' : Place} (h : next p .endf = some p') :
    (∃ f, p = .line (some f) ∧ p' = .accepted ⟨f, true⟩) ∨
      ∃ h g, p = .signatureEnd h g ∧ p' = .accepted ⟨h.reduce g, false⟩ := by
  cases p with
  | line f =>
      cases f with
      | none => cases h
      | some f => exact .inl ⟨f, rfl, (Option.some.inj h).symm⟩
  | signatureEnd h' g => exact .inr ⟨h', g, rfl, (Option.some.inj h).symm⟩
  | _ => cases h

def extend (f : Option File) (n : Line) : File := Head.reduce ⟨f, n.type, n.bool⟩ n.signature

theorem exists_line {f : Option File} {h : Head} {g : Signature} {ts : List Token} (hfile : h.file = f)
    (hread : read (.signatureEnd h g) = fileRead f ++ ts) : ∃ n, ts = lineTokens n ∧ h.reduce g = extend f n := by
  refine ⟨⟨h.type, h.bool, g⟩, ?_, ?_⟩
  · change headRead h ++ signatureTokens g = _ at hread
    rw [headRead, hfile, List.append_assoc] at hread
    exact (List.append_cancel_left hread).symm
  · rw [extend, ← hfile]

variable {f : Option File} {ts us : List Token} {w : Wholefile}

theorem outcome_eol (hts : ∀ t ∈ ts, Token.onLine t) :
    outcome (reached (ts ++ .eol :: us) (.line f)) = some w ↔
      ∃ n, ts = lineTokens n ∧ outcome (reached us (.line (some (extend f n)))) = some w := by
  constructor
  · intro h
    have hline : ∀ w, Place.line f ≠ .accepted w := fun w h => by cases h
    rcases reached_onLine hts hline with hnone | ⟨p', hreached, hread, hfile, -, hacc⟩
    · rw [hnone] at h
      cases h
    · rw [hreached] at h
      cases hnext : next p' .eol with
      | none =>
          rw [outcome_of_none hacc hnext] at h
          cases h
      | some p'' =>
          rw [reached_cons _ hnext] at h
          obtain ⟨h', g, rfl, rfl⟩ := next_eol hnext
          obtain ⟨n, rfl, hreduce⟩ := exists_line hfile hread
          rw [hreduce] at h
          exact ⟨n, rfl, h⟩
  · rintro ⟨n, rfl, h⟩
    rw [reached_line]
    exact h

theorem outcome_endf (hts : ∀ t ∈ ts, Token.onLine t) (hne : ts ≠ []) :
    outcome (reached (ts ++ [.endf]) (.line f)) = some w ↔ ∃ n, ts = lineTokens n ∧ w = ⟨extend f n, false⟩ := by
  constructor
  · intro h
    have hline : ∀ w, Place.line f ≠ .accepted w := fun w h => by cases h
    rcases reached_onLine hts hline with hnone | ⟨p', hreached, hread, hfile, ⟨hnil, -⟩ | hnot, hacc⟩
    · rw [hnone] at h
      cases h
    · exact absurd hnil hne
    · rw [hreached] at h
      cases hnext : next p' .endf with
      | none =>
          rw [outcome_of_none hacc hnext] at h
          cases h
      | some p'' =>
          rw [reached_cons _ hnext] at h
          rcases next_endf hnext with ⟨f', rfl, -⟩ | ⟨h', g, rfl, rfl⟩
          · exact absurd rfl (hnot _)
          · obtain ⟨n, rfl, hreduce⟩ := exists_line hfile hread
            rw [hreduce] at h
            exact ⟨n, rfl, (Option.some.inj h).symm⟩
  · rintro ⟨n, rfl, rfl⟩
    rw [reached_line]
    rfl

end places

section texts

def isCode (l : List Char) : Bool := !l.all isBlank && l.head? != some '#'

/-- The only lines without code that the grammar lets pass: the empty ones and the comments, and blanks
at the very end. A comment needs its newline. -/
def Tidy (ls : List (List Char)) : Prop :=
  (∀ l ∈ ls.dropLast, Blanks l → l = []) ∧ ∀ l, ls.getLast? = some l → l.head? ≠ some '#'

def extendAll (f : Option File) (ns : List Line) : Option File := ns.foldl (fun f n => some (extend f n)) f

variable {l l' : List Char} {ls : List (List Char)}

theorem line_cases (l : List Char) :
    (Blanks l ∧ isCode l = false) ∨ (∃ xs, l = '#' :: xs ∧ isCode l = false) ∨
      (¬Blanks l ∧ l.head? ≠ some '#' ∧ isCode l = true) := by
  by_cases hblanks : Blanks l
  · refine .inl ⟨hblanks, ?_⟩
    rw [isCode, List.all_eq_true.mpr hblanks]
    rfl
  · by_cases hhash : l.head? = some '#'
    · obtain ⟨xs, rfl⟩ := List.head?_eq_some_iff.mp hhash
      exact .inr (.inl ⟨xs, rfl, by simp [isCode]⟩)
    · have hall : l.all isBlank = false := by
        rw [← Bool.not_eq_true]
        exact fun h => hblanks (List.all_eq_true.mp h)
      exact .inr (.inr ⟨hblanks, hhash, by simpa [isCode, hall] using hhash⟩)

theorem not_blanks_hash (xs : List Char) : ¬Blanks ('#' :: xs) := fun h => absurd (h '#' List.mem_cons_self) (by decide)

theorem head_ne_hash_of_blanks (h : Blanks l) : l.head? ≠ some '#' := by
  intro hhash
  obtain ⟨xs, rfl⟩ := List.head?_eq_some_iff.mp hhash
  exact not_blanks_hash xs h

theorem tidy_cons : Tidy (l :: l' :: ls) ↔ (Blanks l → l = []) ∧ Tidy (l' :: ls) := by
  simp [Tidy, and_assoc]

theorem onLine_of_lex {bol : Bool} (hl : '\n' ∉ l) (hhash : bol = true → l.head? ≠ some '#') :
    ∀ t ∈ lexer.lex bol l, Token.onLine t := by
  intro t ht
  cases t with
  | eol => exact absurd (mem_of_mem_lex hl hhash ht (List.mem_singleton_self _)) hl
  | endf => exact endf_not_mem_lex _ _ ht
  | _ => trivial

theorem tidy_singleton : Tidy [l] ↔ l.head? ≠ some '#' := by
  simp [Tidy]

theorem exists_map_cons {ts : List Token} {tss : List (List Token)} {P : List Line → Prop} :
    (∃ ns, ts :: tss = ns.map lineTokens ∧ P ns) ↔
      ∃ n, ts = lineTokens n ∧ ∃ ns, tss = ns.map lineTokens ∧ P (n :: ns) := by
  constructor
  · rintro ⟨ns, hns, hP⟩
    obtain ⟨n, ns, rfl, rfl, rfl⟩ := List.map_eq_cons_iff.mp hns.symm
    exact ⟨n, rfl, ns, rfl, hP⟩
  · rintro ⟨n, rfl, ns, rfl, hP⟩
    exact ⟨n :: ns, rfl, hP⟩

theorem outcome_lastLine {f : Option File} {F : File} (hl : '\n' ∉ l) :
    (∃ w, outcome (reached (lexer.lex true l ++ [.endf]) (.line f)) = some w ∧ w.file = F) ↔
      Tidy [l] ∧ ∃ ns, ([l].filter isCode).map (lexer.lex true) = ns.map lineTokens ∧ extendAll f ns = some F := by
  rw [tidy_singleton]
  rcases line_cases l with ⟨hblanks, hcode⟩ | ⟨xs, rfl, hcode⟩ | ⟨hblanks, hhash, hcode⟩
  · have hhash := head_ne_hash_of_blanks hblanks
    rw [(lex_eq_nil_iff hl fun _ => hhash).mpr hblanks, List.filter_cons_of_neg (by simp [hcode])]
    cases f with
    | none => simp [reached, next, outcome, settle, extendAll, hhash]
    | some f => simp [reached, next, outcome, extendAll, hhash]
  · rw [lex_hash fun hmem => hl (List.mem_cons_of_mem _ hmem)]
    simp [reached, next, outcome, settle]
  · have hne : lexer.lex true l ≠ [] := fun h => hblanks ((lex_eq_nil_iff hl fun _ => hhash).mp h)
    rw [List.filter_cons_of_pos hcode, List.filter_nil, List.map_singleton, exists_map_cons]
    simp only [outcome_endf (onLine_of_lex hl fun _ => hhash) hne]
    constructor
    · rintro ⟨w, ⟨n, hn, rfl⟩, hfile⟩
      exact ⟨hhash, n, hn, [], rfl, congrArg some hfile⟩
    · rintro ⟨-, n, hn, ns, hns, hfile⟩
      obtain rfl := List.map_eq_nil_iff.mp hns.symm
      exact ⟨_, ⟨n, hn, rfl⟩, Option.some.inj hfile⟩

theorem outcome_lines {f : Option File} {F : File} (hls : ∀ x ∈ l :: ls, '\n' ∉ x) :
    (∃ w, outcome (reached (lexer.lex true (['\n'].intercalate (l :: ls)) ++ [.endf]) (.line f)) = some w ∧ w.file = F) ↔
      Tidy (l :: ls) ∧ ∃ ns, ((l :: ls).filter isCode).map (lexer.lex true) = ns.map lineTokens ∧
        extendAll f ns = some F := by
  induction ls generalizing l f with
  | nil =>
      rw [List.intercalate_singleton]
      exact outcome_lastLine (hls l List.mem_cons_self)
  | cons l' ls ih =>
      rw [List.forall_mem_cons] at hls
      have htext : ['\n'].intercalate (l :: l' :: ls) = l ++ '\n' :: ['\n'].intercalate (l' :: ls) := by
        simp [List.intercalate]
      rw [htext, tidy_cons]
      rcases line_cases l with ⟨hblanks, hcode⟩ | ⟨xs, rfl, hcode⟩ | ⟨hblanks, hhash, hcode⟩
      · rw [List.filter_cons_of_neg (by simp [hcode])]
        by_cases hnil : l = []
        · subst hnil
          rw [List.nil_append, lex_emptyLine, ih hls.2]
          simp
        · -- the newline of a line of blanks is handed over
          have hhash := head_ne_hash_of_blanks hblanks
          rw [lex_line hnil hhash hls.1, (lex_eq_nil_iff hls.1 fun _ => hhash).mpr hblanks]
          simp [reached, next, outcome, settle, hblanks, hnil]
      · -- a comment goes with its newline
        rw [List.filter_cons_of_neg (by simp [hcode]), lex_comment fun hmem => hls.1 (List.mem_cons_of_mem _ hmem), ih hls.2]
        simp [not_blanks_hash]
      · have hne : l ≠ [] := by
          rintro rfl
          exact hblanks fun _ h => by cases h
        rw [List.filter_cons_of_pos hcode, List.map_cons, exists_map_cons, lex_line hne hhash hls.1, List.append_assoc]
        simp only [List.cons_append, outcome_eol (onLine_of_lex hls.1 fun _ => hhash)]
        constructor
        · rintro ⟨w, ⟨n, hn, hw⟩, hfile⟩
          obtain ⟨htidy, hns⟩ := (ih hls.2).mp ⟨w, hw, hfile⟩
          exact ⟨⟨fun h => absurd h hblanks, htidy⟩, n, hn, hns⟩
        · rintro ⟨⟨-, htidy⟩, n, hn, hns⟩
          obtain ⟨w, hw, hfile⟩ := (ih hls.2).mpr ⟨htidy, hns⟩
          exact ⟨w, ⟨n, hn, hw⟩, hfile⟩

def lines (text : List Char) : List (List Char) := text.splitOn '\n'

def codeLines (text : List Char) : List (List Char) := (lines text).filter isCode

theorem newline_not_mem (text : List Char) : ∀ l ∈ lines text, '\n' ∉ l := by
  induction text with
  | nil => simp [lines]
  | cons x xs ih =>
      rw [lines, List.splitOn_eq_splitOnP] at ih ⊢
      rw [List.splitOnP_cons_eq_if_modifyHead]
      split
      · exact List.forall_mem_cons.mpr ⟨List.not_mem_nil, ih⟩
      · rename_i hx
        obtain ⟨y, ys, hys⟩ := List.exists_cons_of_ne_nil (List.splitOnP_ne_nil (· == '\n') xs)
        rw [hys, List.forall_mem_cons] at ih
        rw [hys, List.modifyHead_cons, List.forall_mem_cons, List.mem_cons, not_or]
        exact ⟨⟨fun heq => hx (beq_iff_eq.mpr heq.symm), ih.1⟩, ih.2⟩

/-- A text is accepted with the lines of its code, if its other lines are let pass. -/
theorem accepts_lines_iff (env : Env) (text : List Char) (k : Loader) (F : File) :
    (∃ w, (parseText env text k).value.1 = some w ∧ w.file = F) ↔
      Tidy (lines text) ∧ ∃ ns, (codeLines text).map (lexer.lex true) = ns.map lineTokens ∧ extendAll none ns = some F := by
  obtain ⟨l, ls, hlines⟩ := List.exists_cons_of_ne_nil (List.splitOn_ne_nil '\n' text)
  have htext : ['\n'].intercalate (l :: ls) = text := hlines ▸ List.intercalate_splitOn '\n'
  have hmem : ∀ x ∈ l :: ls, '\n' ∉ x := by
    rw [← hlines]
    exact newline_not_mem text
  have hiff := outcome_lines (f := none) (F := F) hmem
  rw [htext] at hiff
  rw [codeLines, lines, hlines, ← hiff, parseText_eq]
  rfl

end texts

end PigaLinux.PppLines
