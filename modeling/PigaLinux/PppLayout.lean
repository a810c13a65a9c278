import PigaLinux.PppLines
import PigaLinux.PppCompile
import Mathlib.Data.List.Chain

namespace PigaLinux.PppLayout

open Lexing PppSyntax Ppp PppLex PppParse PppPrint PppLines
open PppCompile (shadowFile shadowEnv)

def isMark : Token → Bool
  | .char _ | .avpermstart | .avpermend => true
  | _ => false

def Regap : Bool → List (List Char × Token) → List (List Char × Token) → Prop
  | _, [], [] => True
  | after, p :: ps, q :: qs =>
      q.2 = p.2 ∧ (q.1 = p.1 ∨ after = true ∨ isMark p.2 = true) ∧ Regap (isMark p.2) ps qs
  | _, _, _ => False

def SameLine (l l' : List Char) : Prop :=
  ∃ ps qs tail, l = spread ps tail ∧ l' = spread qs tail ∧ lexer.lex true l = ps.map Prod.snd ∧ Regap false ps qs ∧
    Blanks tail ∧ (∀ p ∈ ps, Blanks p.1) ∧ ∀ q ∈ qs, Blanks q.1

section follows

def Follows (t t' : Token) : Prop :=
  ((∃ w, t = .word w) ∧ ∃ w, t' = .word w) ∨ ∀ rest, t.Ends (t'.text ++ rest)

theorem follows_mark {t t' : Token} (h : ∀ rest, t.Ends rest) : Follows t t' := .inr fun _ => h _

theorem follows_sid {t : Token} (c : Context) (h : ∃ a as, t.text = a :: as ∧ isSidChar a = false) : Follows (.sid c) t := by
  obtain ⟨a, as, htext, ha⟩ := h
  refine .inr fun rest => ?_
  rw [htext]
  exact stops_cons.mpr ha

theorem follows_word {t : Token} (w : Word) (h : ∃ a as, t.text = a :: as ∧ (isSidChar a || a == ':') = false) :
    Follows (.word w) t := by
  obtain ⟨a, as, htext, ha⟩ := h
  refine .inr fun rest => ?_
  rw [htext]
  exact stops_cons.mpr ha

variable {us : List Token}

theorem chain_request (r : Request) (h : ∀ w, List.IsChain Follows (.word w :: us)) :
    List.IsChain Follows (.char '{' :: (requestTokens r ++ us)) := by
  have hbrace {t : Token} : Follows (.char '{') t := follows_mark fun _ => .inl (by simp)
  induction r generalizing us with
  | word w => exact List.isChain_cons_cons.mpr ⟨hbrace, h w⟩
  | snoc r w ih =>
      rw [requestTokens, List.append_assoc]
      apply ih
      intro v
      exact List.isChain_cons_cons.mpr ⟨.inl ⟨⟨v, rfl⟩, w, rfl⟩, h w⟩

theorem chain_transition (t : Transition) (h : ∀ c, List.IsChain Follows (.sid c :: us)) :
    List.IsChain Follows (transitionTokens t ++ us) := by
  have hrequest : List.IsChain Follows
      (.char '{' :: (requestTokens t.vector.request ++ .char '}' :: .avpermend :: .sid t.target :: us)) := by
    apply chain_request
    intro w
    simp only [List.isChain_cons_cons]
    exact ⟨follows_word w ⟨'}', [], rfl, by decide⟩, follows_mark fun _ => .inl (by simp), follows_mark fun _ => trivial,
      h t.target⟩
  simp only [transitionTokens, vectorTokens, List.cons_append, List.append_assoc, List.nil_append, List.isChain_cons_cons]
  exact ⟨follows_sid _ ⟨'-', ['('], rfl, by decide⟩, follows_mark fun _ => trivial,
    follows_word _ ⟨'{', [], rfl, by decide⟩, hrequest⟩

theorem chain_signature (g : Signature) (h : ∀ c, List.IsChain Follows (.sid c :: us)) :
    List.IsChain Follows (signatureTokens g ++ us) := by
  induction g generalizing us with
  | transition t => exact chain_transition t h
  | snoc g t ih =>
      rw [signatureTokens, List.append_assoc]
      apply ih
      intro c
      refine List.isChain_cons_cons.mpr ⟨follows_sid c ⟨';', [], rfl, by decide⟩, ?_⟩
      exact List.isChain_cons_cons.mpr ⟨follows_mark fun _ => .inl (by simp), chain_transition t h⟩

end follows

section gaps

variable {ps qs : List (List Char × Token)} {tail : List Char} {bol : Bool}

def Parted (ps : List (List Char × Token)) : Prop :=
  ps.IsChain fun p q => (∃ w, p.2 = .word w) → (∃ w, q.2 = .word w) → q.1 ≠ []

theorem separated_of_blanks {g : List Char} (h : Blanks g) : Separated g := by
  intro a ha
  rw [isSeparator, h a (List.mem_of_head? ha)]
  rfl

theorem separated_append {g rest : List Char} (h : Blanks g) (hne : g ≠ []) : Separated (g ++ rest) := by
  intro a ha
  rw [List.head?_append_of_ne_nil _ hne] at ha
  exact separated_of_blanks h a ha

theorem lex_gap {g rest : List Char} {t : Token} (hg : Blanks g) (h : t.Ends rest) :
    lexer.lex bol (g ++ (t.text ++ rest)) = t :: lexer.lex false rest := by
  by_cases hnil : g = []
  · rw [hnil, List.nil_append, lex_token h]
  · rw [lex_blanks hg hnil, lex_token h]

theorem lex_spread (hchain : (ps.map Prod.snd).IsChain Follows) (hplain : ∀ t ∈ ps.map Prod.snd, Token.Plain t)
    (hgaps : ∀ p ∈ ps, Blanks p.1) (hparted : Parted ps) (htail : Blanks tail) :
    lexer.lex bol (spread ps tail) = ps.map Prod.snd := by
  induction ps generalizing bol with
  | nil =>
      have hnew : '\n' ∉ tail := fun h => absurd (htail _ h) (by decide)
      exact (lex_eq_nil_iff hnew fun _ => head_ne_hash_of_blanks htail).mpr htail
  | cons p ps ih =>
      rw [List.map_cons, List.forall_mem_cons] at hplain
      rw [List.forall_mem_cons] at hgaps
      have hends : p.2.Ends (spread ps tail) := by
        cases ps with
        | nil => exact ends_of_separated hplain.1 (separated_of_blanks htail)
        | cons q ps =>
            have hq := hgaps.2 q List.mem_cons_self
            rw [spread]
            by_cases hnil : q.1 = []
            · rw [hnil, List.nil_append]
              rcases (List.isChain_cons_cons.mp hchain).1 with ⟨hp, hw⟩ | hends
              · exact absurd hnil ((List.isChain_cons_cons.mp hparted).1 hp hw)
              · exact hends _
            · exact ends_of_separated hplain.1 (separated_append hq hnil)
      rw [spread, lex_gap hgaps.1 hends, ih hchain.tail hplain.2 hgaps.2 hparted.tail]
      rfl

theorem word_not_longest (w v : Word) (rest : List Char) :
    ¬∀ r ∈ lexer.rules, ∀ us, r.Takes bol (w.text.toList ++ (v.text.toList ++ rest)) us → us.length ≤ w.text.toList.length := by
  intro hmax
  have hwrun := run_toList w.lexed
  have hvrun := run_toList v.lexed
  have htakes : wordRule.Takes bol (w.text.toList ++ (v.text.toList ++ rest)) (w.text.toList ++ v.text.toList) := by
    refine ⟨unanchored rfl, by simp [hwrun.1], ⟨rest, List.append_assoc _ _ _⟩, ?_⟩
    exact Pattern.matches_plus.mpr ⟨by simp [hwrun.1], List.forall_mem_append.mpr ⟨hwrun.2, hvrun.2⟩⟩
  have hle := hmax wordRule (by simp [lexer]) _ htakes
  have hpos := List.length_pos_iff.mpr hvrun.1
  rw [List.length_append] at hle
  omega

theorem parted_of_lex (hlex : lexer.lex bol (spread ps tail) = ps.map Prod.snd)
    (hplain : ∀ t ∈ ps.map Prod.snd, Token.Plain t) (hgaps : ∀ p ∈ ps, Blanks p.1) (hnew : '\n' ∉ spread ps tail) :
    Parted ps := by
  induction ps generalizing bol with
  | nil => exact List.isChain_nil
  | cons p ps ih =>
      rw [List.map_cons, List.forall_mem_cons] at hplain
      rw [List.forall_mem_cons] at hgaps
      rw [spread, List.mem_append, not_or] at hnew
      have hvisible := visible_plain hplain.1
      obtain ⟨x, xs, htext⟩ := List.exists_cons_of_ne_nil hvisible.1
      have hblank : isBlank x = false := hvisible.not_blank x (by simp [htext])
      have hhash : x ≠ '#' := fun hx => hvisible.head_ne_hash (by rw [htext, hx]; rfl)
      obtain ⟨bol', hlex'⟩ : ∃ bol', lexer.lex bol' (p.2.text ++ spread ps tail) = p.2 :: ps.map Prod.snd := by
        rw [spread] at hlex
        by_cases hnil : p.1 = []
        · exact ⟨bol, by rw [← List.map_cons, ← hlex, hnil, List.nil_append]⟩
        · exact ⟨false, by rw [← List.map_cons, ← hlex, lex_blanks hgaps.1 hnil]⟩
      have hcons : p.2.text ++ spread ps tail = x :: (xs ++ spread ps tail) := by rw [htext, List.cons_append]
      obtain ⟨t, zs, hsplit, -, -, hstep, hmax⟩ := lex_step bol' hblank (hcons ▸ hnew.2) fun _ => hhash
      rw [← hcons] at hsplit hstep hmax
      rw [hlex'] at hstep
      obtain ⟨rfl, hrest⟩ := List.cons.inj hstep
      obtain rfl := List.append_cancel_left hsplit
      have hparted := ih hrest.symm hplain.2 hgaps.2 fun h => hnew.2 (List.mem_append_right _ h)
      cases ps with
      | nil => exact List.isChain_singleton _
      | cons q ps =>
          refine List.isChain_cons_cons.mpr ⟨?_, hparted⟩
          rintro ⟨w, hw⟩ ⟨v, hv⟩ hnil
          rw [spread, hw, hv, hnil] at hmax
          exact word_not_longest w v (spread ps tail) hmax

theorem Regap.tokens {after : Bool} (h : Regap after ps qs) : qs.map Prod.snd = ps.map Prod.snd := by
  induction ps generalizing after qs with
  | nil =>
      cases qs with
      | nil => rfl
      | cons q qs => cases h
  | cons p ps ih =>
      cases qs with
      | nil => cases h
      | cons q qs => rw [List.map_cons, List.map_cons, h.1, ih h.2.2]

theorem Regap.parted {after : Bool} (h : Regap after ps qs) (hparted : Parted ps) : Parted qs := by
  induction ps generalizing after qs with
  | nil =>
      cases qs with
      | nil => exact hparted
      | cons q qs => cases h
  | cons p ps ih =>
      cases qs with
      | nil => cases h
      | cons q qs =>
          have hrest := ih h.2.2 hparted.tail
          cases ps with
          | nil =>
              cases qs with
              | nil => exact List.isChain_singleton _
              | cons q' qs => cases h.2.2
          | cons p' ps =>
              cases qs with
              | nil => cases h.2.2
              | cons q' qs =>
                  refine List.isChain_cons_cons.mpr ⟨?_, hrest⟩
                  rintro ⟨w, hw⟩ ⟨v, hv⟩
                  rw [h.1] at hw
                  rw [h.2.2.1] at hv
                  rcases h.2.2.2.1 with heq | hmark | hmark
                  · rw [heq]
                    exact (List.isChain_cons_cons.mp hparted).1 ⟨w, hw⟩ ⟨v, hv⟩
                  · rw [hw] at hmark
                    cases hmark
                  · rw [hv] at hmark
                    cases hmark

end gaps

section heads

/-- The identifier is a number, and no blank stands between it, the colon and the context. The lexer takes it for the
user of a context then. -/
def isGlued (l : List Char) : Bool :=
  let ident := (l.takeWhile notColon).reverse.takeWhile isBoolChar
  !ident.isEmpty && ident.all isDigit && (l.dropWhile notColon).tail.head?.any isSidChar

variable {qs : List (List Char × Token)} {n : Line}

theorem exists_sid (g : Signature) : ∃ c us, signatureTokens g = .sid c :: us := by
  induction g with
  | transition t => exact ⟨t.source, _, rfl⟩
  | snoc g t ih =>
      obtain ⟨c, us, hus⟩ := ih
      exact ⟨c, _, by rw [signatureTokens, hus]; rfl⟩

structure Opens (n : Line) (pre : List Char) : Prop where
  noColon : ∀ a ∈ pre, notColon a = true
  ends : ∀ a, pre.getLast? = some a → isBoolChar a = false
  lexed : ∀ rest, ∃ bol, lexer.lex true (pre ++ (n.bool.text.toList ++ rest)) =
    typeTokens n.type ++ lexer.lex bol (n.bool.text.toList ++ rest)

theorem lex_skip {g xs : List Char} (h : Blanks g) : lexer.lex false (g ++ xs) = lexer.lex false xs := by
  by_cases hnil : g = []
  · rw [hnil, List.nil_append]
  · exact lex_blanks h hnil

theorem stops_gap {p : Char → Bool} {g rest : List Char} (hg : Blanks g) (hp : ∀ a, isBlank a = true → p a = false)
    (h : Stops p rest) : Stops p (g ++ rest) := by
  cases g with
  | nil => exact h
  | cons a g => exact stops_cons.mpr (hp a (hg a List.mem_cons_self))

theorem blank_cases {a : Char} (h : isBlank a = true) : a = ' ' ∨ a = '\t' := by
  simpa [isBlank] using h

theorem notColon_of_blank {a : Char} (h : isBlank a = true) : notColon a = true := by
  rcases blank_cases h with rfl | rfl <;> decide

theorem not_isBoolChar_of_blank {a : Char} (h : isBlank a = true) : isBoolChar a = false := by
  rcases blank_cases h with rfl | rfl <;> decide

theorem opens_bool {g : List Char} (hg : Blanks g) (htype : n.type = none) : Opens n g := by
  refine ⟨fun a ha => notColon_of_blank (hg a ha), ?_, ?_⟩
  · intro a ha
    exact not_isBoolChar_of_blank (hg a (List.mem_of_getLast? ha))
  · intro rest
    rw [htype]
    by_cases hnil : g = []
    · exact ⟨true, by rw [hnil]; rfl⟩
    · exact ⟨false, lex_blanks hg hnil⟩

theorem ends_dash (b : BoolToken) {g : List Char} (hg : Blanks g) (rest : List Char) :
    Token.Ends (.char '-') (g ++ (b.text.toList ++ rest)) := by
  have hstops : Stops (· == '(') (g ++ (b.text.toList ++ rest)) := by
    apply stops_gap hg
    · intro a ha
      rcases blank_cases ha with rfl | rfl <;> decide
    · obtain ⟨a, ha, hbool⟩ := head_of_run b.lexed
      obtain ⟨as, has⟩ := List.head?_eq_some_iff.mp ha
      rw [has, List.cons_append, stops_cons, beq_eq_false_iff_ne]
      rintro rfl
      exact absurd hbool (by decide)
  exact .inr ⟨rfl, fun h => absurd (hstops '(' h) (by decide)⟩

theorem opens_type {g₀ g₁ g₂ : List Char} {t : TypeToken} (hg₀ : Blanks g₀) (hg₁ : Blanks g₁) (hg₂ : Blanks g₂)
    (htype : n.type = some t) : Opens n (g₀ ++ (t.text.toList ++ (g₁ ++ '-' :: g₂))) := by
  refine ⟨?_, ?_, ?_⟩
  · simp only [List.forall_mem_append, List.forall_mem_cons]
    refine ⟨fun a ha => notColon_of_blank (hg₀ a ha), ?_, fun a ha => notColon_of_blank (hg₁ a ha), by decide,
      fun a ha => notColon_of_blank (hg₂ a ha)⟩
    intro a ha
    have hupper := isTypeChar_iff.mp ((run_toList t.lexed).2 a ha)
    rw [notColon, bne_iff_ne]
    rintro rfl
    exact absurd hupper.1 (by decide)
  · intro a ha
    rw [← List.append_assoc, ← List.append_assoc, List.getLast?_append_of_ne_nil _ (List.cons_ne_nil _ _)] at ha
    rcases List.mem_cons.mp (List.mem_of_getLast? ha) with rfl | ha
    · decide
    · exact not_isBoolChar_of_blank (hg₂ a ha)
  · intro rest
    have hends : Token.Ends (.type t) (g₁ ++ ((Token.char '-').text ++ (g₂ ++ (n.bool.text.toList ++ rest)))) := by
      apply stops_gap hg₁
      · intro a ha
        rcases blank_cases ha with rfl | rfl <;> decide
      · exact stops_cons.mpr (by decide)
    refine ⟨false, ?_⟩
    have htext : g₀ ++ (t.text.toList ++ (g₁ ++ '-' :: g₂)) ++ (n.bool.text.toList ++ rest) =
        g₀ ++ ((Token.type t).text ++ (g₁ ++ ((Token.char '-').text ++ (g₂ ++ (n.bool.text.toList ++ rest))))) := by
      simp [Token.text]
    rw [htext, lex_gap hg₀ hends, lex_gap hg₁ (ends_dash n.bool hg₂ rest), lex_skip hg₂, htype]
    rfl

theorem exists_opens (tail : List Char) (hq : qs.map Prod.snd = lineTokens n) (hgaps : ∀ q ∈ qs, Blanks q.1) :
    ∃ pre gap ss, spread qs tail = pre ++ (n.bool.text.toList ++ (gap ++ ':' :: spread ss tail)) ∧ Opens n pre ∧
      Blanks gap ∧ ss.map Prod.snd = signatureTokens n.signature ∧ ss <:+ qs := by
  cases htype : n.type with
  | none =>
      rw [lineTokens, headTokens, htype] at hq
      obtain ⟨q₁, qs, rfl, hq₁, hq⟩ := List.map_eq_cons_iff.mp hq
      obtain ⟨q₂, qs, rfl, hq₂, hq⟩ := List.map_eq_cons_iff.mp hq
      simp only [List.forall_mem_cons] at hgaps
      refine ⟨q₁.1, q₂.1, qs, ?_, opens_bool hgaps.1 htype, hgaps.2.1, hq, [q₁, q₂], rfl⟩
      simp [spread, hq₁, hq₂, Token.text]
  | some t =>
      rw [lineTokens, headTokens, htype] at hq
      obtain ⟨q₁, qs, rfl, hq₁, hq⟩ := List.map_eq_cons_iff.mp hq
      obtain ⟨q₂, qs, rfl, hq₂, hq⟩ := List.map_eq_cons_iff.mp hq
      obtain ⟨q₃, qs, rfl, hq₃, hq⟩ := List.map_eq_cons_iff.mp hq
      obtain ⟨q₄, qs, rfl, hq₄, hq⟩ := List.map_eq_cons_iff.mp hq
      simp only [List.forall_mem_cons] at hgaps
      refine ⟨_, q₄.1, qs, ?_, opens_type hgaps.1 hgaps.2.1 hgaps.2.2.1 htype, hgaps.2.2.2.1, hq, [q₁, q₂, q₃, q₄], rfl⟩
      simp [spread, hq₁, hq₂, hq₃, hq₄, Token.text]

theorem takeWhile_of_stops {p : Char → Bool} {us rest : List Char} (hus : ∀ a ∈ us, p a = true) (h : Stops p rest) :
    (us ++ rest).takeWhile p = us := by
  rw [List.takeWhile_append_of_pos hus]
  cases rest with
  | nil => simp
  | cons a rest => rw [List.takeWhile_cons_of_neg (by rw [stops_cons.mp h]; decide), List.append_nil]

theorem isGlued_eq {pre gap rest : List Char} (hpre : Opens n pre) (hgap : Blanks gap) :
    isGlued (pre ++ (n.bool.text.toList ++ (gap ++ ':' :: rest))) =
      (gap.isEmpty && n.bool.text.toList.all isDigit && rest.head?.any isSidChar) := by
  have hrun := run_toList n.bool.lexed
  have hcolon : ∀ a ∈ pre ++ (n.bool.text.toList ++ gap), notColon a = true := by
    simp only [List.forall_mem_append]
    refine ⟨hpre.noColon, ?_, fun a ha => notColon_of_blank (hgap a ha)⟩
    intro a ha
    rw [notColon, bne_iff_ne]
    rintro rfl
    exact absurd (hrun.2 _ ha) (by decide)
  have htext : pre ++ (n.bool.text.toList ++ (gap ++ ':' :: rest)) = pre ++ (n.bool.text.toList ++ gap) ++ ':' :: rest := by
    simp
  have htake : (pre ++ (n.bool.text.toList ++ gap) ++ ':' :: rest).takeWhile notColon =
      pre ++ (n.bool.text.toList ++ gap) := takeWhile_of_stops hcolon (stops_cons.mpr (by decide))
  have hdrop : (pre ++ (n.bool.text.toList ++ gap) ++ ':' :: rest).dropWhile notColon = ':' :: rest := by
    rw [List.dropWhile_append_of_pos hcolon]
    rfl
  rw [isGlued, htext, htake, hdrop]
  by_cases hnil : gap = []
  · have hident : (pre ++ (n.bool.text.toList ++ gap)).reverse.takeWhile isBoolChar = n.bool.text.toList.reverse := by
      rw [hnil, List.append_nil, List.reverse_append]
      apply takeWhile_of_stops
      · intro a ha
        exact hrun.2 a (List.mem_reverse.mp ha)
      · intro a ha
        rw [List.head?_reverse] at ha
        exact hpre.ends a ha
    have hempty : n.bool.text.toList.isEmpty = false := List.isEmpty_eq_false_iff.mpr hrun.1
    rw [hident, hnil]
    simp [hempty]
  · obtain ⟨gap, a, rfl⟩ := (List.eq_nil_or_concat gap).resolve_left hnil
    have ha : isBoolChar a = false := not_isBoolChar_of_blank (hgap a (by simp))
    simp [ha]

theorem typeTokens_sid_ne (o : Option TypeToken) (c : Context) (us : List Token) (n : Line) :
    typeTokens o ++ .sid c :: us ≠ lineTokens n := by
  rw [lineTokens, headTokens]
  cases o <;> cases n.type <;> simp [typeTokens]

/-- A number that is glued to a context makes one with its user and its role. -/
theorem lex_glued (bol : Bool) {b : BoolToken} (c : Context) (rest : List Char) (hb : ∀ a ∈ b.text.toList, isDigit a = true) :
    ∃ d us, lexer.lex bol (b.text.toList ++ ':' :: (c.text.toList ++ rest)) = .sid d :: us := by
  have hrun : Run isSidChar b.text :=
    ⟨b.lexed.1, List.all_eq_true.mpr fun a ha => isSidChar_of_isDigit (hb a ha)⟩
  let d : Context := ⟨b.text, c.user, c.role, hrun, c.user_lexed, c.role_lexed⟩
  have htext : b.text.toList ++ ':' :: (c.text.toList ++ rest) = d.text.toList ++ ':' :: (c.type.toList ++ rest) := by
    rw [Context.text_toList, Context.text_toList]
    simp [d]
  exact ⟨d, _, by rw [htext, lex_sid d stops_colon]⟩

theorem eq_nil_of_any {g rest : List Char} (hg : Blanks g) (h : (g ++ rest).head?.any isSidChar = true) : g = [] := by
  by_contra hne
  obtain ⟨a, ha, hsid⟩ := (Option.any_eq_true _ _).mp h
  rcases isSeparator_cases (separated_append hg hne a ha) with rfl | rfl | rfl <;> cases hsid

theorem ends_of_not_glued {b : BoolToken} {gap rest : List Char} (hgap : Blanks gap)
    (h : (gap.isEmpty && b.text.toList.all isDigit && rest.head?.any isSidChar) = false) :
    Token.Ends (.bool b) (gap ++ ':' :: rest) := by
  by_cases hnil : gap = []
  · subst hnil
    refine ⟨stops_cons.mpr (by decide), ?_⟩
    rintro hdigits ys ⟨⟩ a ha
    rw [List.all_eq_true.mpr hdigits, ha] at h
    exact h
  · have hbool : Token.Plain (.bool b) := trivial
    exact ends_of_separated hbool (separated_append hgap hnil)

variable {l l' : List Char}

theorem relaid_line (hnew : '\n' ∉ l) (h : lexer.lex true l = lineTokens n) (hsame : SameLine l l') :
    (isGlued l' = false ∧ lexer.lex true l' = lineTokens n) ∨ (isGlued l' = true ∧ ∀ n', lexer.lex true l' ≠ lineTokens n') := by
  obtain ⟨ps, qs, tail, rfl, rfl, hps, hregap, htail, hpgaps, hqgaps⟩ := hsame
  have hqs : qs.map Prod.snd = lineTokens n := by rw [hregap.tokens, ← hps, h]
  have hplain : ∀ t ∈ ps.map Prod.snd, Token.Plain t := by
    rw [← hps, h]
    exact plain_lineTokens n
  have hparted := hregap.parted (parted_of_lex hps hplain hpgaps hnew)
  obtain ⟨pre, gap, ss, htext, hpre, hgap, hss, hsuffix⟩ := exists_opens tail hqs hqgaps
  have hsgaps : ∀ s ∈ ss, Blanks s.1 := fun s hs => hqgaps s (hsuffix.subset hs)
  have hsignature : lexer.lex false (spread ss tail) = signatureTokens n.signature := by
    rw [← hss]
    apply lex_spread _ _ hsgaps (hparted.suffix hsuffix) htail
    · rw [hss, ← List.append_nil (signatureTokens _)]
      exact chain_signature n.signature fun c => List.isChain_singleton _
    · rw [hss]
      exact plain_signatureTokens n.signature
  obtain ⟨c, us, hc⟩ := exists_sid n.signature
  rw [hc] at hss
  obtain ⟨s, ss, rfl, hs, -⟩ := List.map_eq_cons_iff.mp hss
  have hspread : spread (s :: ss) tail = s.1 ++ (c.text.toList ++ spread ss tail) := by
    rw [spread, hs]
    rfl
  obtain ⟨bol, hlex⟩ := hpre.lexed (gap ++ ':' :: spread (s :: ss) tail)
  rw [htext, isGlued_eq hpre hgap, hlex]
  cases hglue : gap.isEmpty && n.bool.text.toList.all isDigit && (spread (s :: ss) tail).head?.any isSidChar with
  | true =>
      -- the number, the user and the role make a context
      rw [Bool.and_eq_true, Bool.and_eq_true, List.isEmpty_iff, List.all_eq_true, hspread] at hglue
      obtain ⟨⟨rfl, hdigits⟩, hany⟩ := hglue
      have hnil := eq_nil_of_any (hsgaps s List.mem_cons_self) hany
      obtain ⟨d, vs, hd⟩ := lex_glued bol c (spread ss tail) hdigits
      refine .inr ⟨rfl, fun n' => ?_⟩
      rw [hspread, hnil, List.nil_append, List.nil_append, hd]
      exact typeTokens_sid_ne n.type d vs n'
  | false =>
      have hcolon : lexer.lex false (gap ++ ':' :: spread (s :: ss) tail) = .char ':' :: signatureTokens n.signature := by
        rw [lex_skip hgap, lex_punctuation (.inl rfl), hsignature]
      have hbool : lexer.lex bol (n.bool.text.toList ++ (gap ++ ':' :: spread (s :: ss) tail)) =
          .bool n.bool :: lexer.lex false (gap ++ ':' :: spread (s :: ss) tail) := lex_token (ends_of_not_glued hgap hglue)
      refine .inl ⟨rfl, ?_⟩
      rw [hbool, hcolon, lineTokens, headTokens, List.append_assoc]
      rfl

end heads

section texts

/-- The layouts that the lexer copes with: see `Tidy` for the lines without code, `isGlued` for the others. -/
def Friendly (text : List Char) : Prop := Tidy (lines text) ∧ ∀ l ∈ codeLines text, isGlued l = false

variable {text text' : List Char}

theorem regap_refl (after : Bool) (ps : List (List Char × Token)) : Regap after ps ps := by
  induction ps generalizing after with
  | nil => trivial
  | cons p ps ih => exact ⟨rfl, .inl rfl, ih _⟩

theorem sameLine_refl {l : List Char} (hnew : '\n' ∉ l) (hhash : l.head? ≠ some '#') : SameLine l l := by
  obtain ⟨ps, tail, hl, hlex, htail, hps⟩ := exists_spread hnew fun _ => hhash
  exact ⟨ps, ps, tail, hl, hl, hlex, regap_refl false ps, htail, fun p hp => (hps p hp).1, fun p hp => (hps p hp).1⟩

theorem sameLine_codeLine {l : List Char} (hl : l ∈ codeLines text) : SameLine l l := by
  obtain ⟨hmem, hcode⟩ := List.mem_filter.mp hl
  apply sameLine_refl (newline_not_mem text l hmem)
  intro hhash
  simp [isCode, hhash] at hcode

theorem friendly_of_accepts {env : Env} {k : Loader} {w : Wholefile} (h : (parseText env text k).value.1 = some w) :
    Friendly text := by
  obtain ⟨htidy, ns, hns, -⟩ := (accepts_lines_iff env text k w.file).mp ⟨w, h, rfl⟩
  refine ⟨htidy, ?_⟩
  intro l hl
  obtain ⟨n, -, hn⟩ : ∃ n ∈ ns, lineTokens n = lexer.lex true l := by
    rw [← List.mem_map, ← hns]
    exact List.mem_map_of_mem hl
  rcases relaid_line (newline_not_mem text l (List.mem_of_mem_filter hl)) hn.symm (sameLine_codeLine hl) with
    ⟨hglued, -⟩ | ⟨-, hne⟩
  · exact hglued
  · exact absurd hn.symm (hne n)

theorem lexed_of_not_glued {ls ls' : List (List Char)} (hsame : List.Forall₂ SameLine ls ls') (hnew : ∀ l ∈ ls, '\n' ∉ l)
    {ns : List Line} (h : ls.map (lexer.lex true) = ns.map lineTokens) (hglued : ∀ l ∈ ls', isGlued l = false) :
    ls'.map (lexer.lex true) = ns.map lineTokens := by
  induction hsame generalizing ns with
  | nil => exact h
  | @cons l l' ls ls' hl _ ih =>
      rw [List.forall_mem_cons] at hnew hglued
      obtain ⟨n, ns, rfl, hn, h⟩ := List.map_eq_cons_iff.mp h.symm
      rw [List.map_cons, List.map_cons, ih hnew.2 h.symm hglued.2]
      rcases relaid_line hnew.1 hn.symm hl with ⟨-, hlex⟩ | ⟨hglue, -⟩
      · rw [hlex]
      · rw [hglue] at hglued
        cases hglued.1

theorem value_of_file {env : Env} {k : Loader} {w : Wholefile} (h : (parseText env text k).value.1 = some w) :
    (parseText env text k).value.2 = (parseFile env w.file k).value := by
  rw [parseText_of_tokens env ((accepts_iff env text k w).mp h)]
  rfl

/-- A text that was laid out anew is compiled as before if and only if its layout is a friendly one. -/
theorem relaid_iff (env : Env) (k : Loader) {w : Wholefile} (h : (parseText env text k).value.1 = some w)
    (hsame : List.Forall₂ SameLine (codeLines text) (codeLines text')) :
    ((∃ w', (parseText env text' k).value.1 = some w') ∧
      (parseText env text' k).value.2 = (parseText env text k).value.2) ↔ Friendly text' := by
  obtain ⟨-, ns, hns, hfile⟩ := (accepts_lines_iff env text k w.file).mp ⟨w, h, rfl⟩
  have hnew : ∀ l ∈ codeLines text, '\n' ∉ l := fun l hl => newline_not_mem text l (List.mem_of_mem_filter hl)
  constructor
  · rintro ⟨⟨w', hw'⟩, -⟩
    exact friendly_of_accepts hw'
  · rintro ⟨htidy, hglued⟩
    have hns' := lexed_of_not_glued hsame hnew hns hglued
    obtain ⟨w', hw', hsame⟩ := (accepts_lines_iff env text' k w.file).mpr ⟨htidy, ns, hns', hfile⟩
    refine ⟨⟨w', hw'⟩, ?_⟩
    rw [value_of_file hw', value_of_file h, hsame]

theorem lines_cons {l : List Char} (hl : '\n' ∉ l) : lines (l ++ '\n' :: text) = l :: lines text := by
  have htext : l ++ '\n' :: text = ['\n'].intercalate (l :: lines text) := by
    obtain ⟨x, xs, hxs⟩ := List.exists_cons_of_ne_nil (List.splitOn_ne_nil '\n' text)
    have hrest : text = ['\n'].intercalate (x :: xs) := by rw [← hxs, List.intercalate_splitOn]
    rw [lines, hxs, List.intercalate_cons_cons, ← hrest]
    simp
  rw [htext]
  exact List.splitOn_intercalate '\n' (List.forall_mem_cons.mpr ⟨hl, newline_not_mem text⟩) (List.cons_ne_nil _ _)

theorem sameLines_insert {l : List Char} (hl : '\n' ∉ l) (hcode : isCode l = false) :
    List.Forall₂ SameLine (codeLines text) (codeLines (l ++ '\n' :: text)) := by
  rw [codeLines, codeLines, lines_cons hl, List.filter_cons_of_neg (by simp [hcode])]
  exact List.forall₂_same.mpr fun l hl => sameLine_codeLine hl

theorem accepts_shadowFile : (parseText shadowEnv (print shadowFile) zeroed).value.1 = some shadowFile :=
  (accepts_iff shadowEnv _ zeroed shadowFile).mpr (yylex_print shadowFile)

theorem friendly_insert {l : List Char} (hl : '\n' ∉ l) (hcode : isCode l = false) (hblanks : Blanks l → l = [])
    (h : Friendly text) : Friendly (l ++ '\n' :: text) := by
  obtain ⟨htidy, hglued⟩ := h
  refine ⟨?_, ?_⟩
  · rw [lines_cons hl]
    obtain ⟨x, xs, hxs⟩ := List.exists_cons_of_ne_nil (List.splitOn_ne_nil '\n' text)
    rw [lines, hxs] at htidy ⊢
    exact tidy_cons.mpr ⟨hblanks, htidy⟩
  · rw [codeLines, lines_cons hl, List.filter_cons_of_neg (by simp [hcode])]
    exact hglued

theorem relaid_comment :
    (∃ w', (parseText shadowEnv (['#', '1'] ++ '\n' :: print shadowFile) zeroed).value.1 = some w') ∧
      (parseText shadowEnv (['#', '1'] ++ '\n' :: print shadowFile) zeroed).value.2 =
        (parseText shadowEnv (print shadowFile) zeroed).value.2 :=
  (relaid_iff shadowEnv zeroed accepts_shadowFile (sameLines_insert (by decide) (by decide))).mpr
    (friendly_insert (by decide) (by decide) (fun h => absurd h (not_blanks_hash _)) (friendly_of_accepts accepts_shadowFile))

/-- A blank on an empty line, and the policy is rejected. -/
theorem blank_line_rejected :
    (parseText shadowEnv (print shadowFile) zeroed).value.1 = some shadowFile ∧
      List.Forall₂ SameLine (codeLines (print shadowFile)) (codeLines ([' '] ++ '\n' :: print shadowFile)) ∧
      (parseText shadowEnv ([' '] ++ '\n' :: print shadowFile) zeroed).value.1 = none := by
  refine ⟨accepts_shadowFile, sameLines_insert (by decide) (by decide), ?_⟩
  rw [parseText_eq, yylex, List.cons_append, List.nil_append, lex_blank (by decide), lex_eol]
  rfl

end texts

end PigaLinux.PppLayout
