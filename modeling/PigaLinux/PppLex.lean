import PigaLinux.Lexing
import PigaLinux.PppSyntax
import Mathlib.Data.List.TakeWhile

namespace PigaLinux.PppLex

open Lexing PppSyntax

inductive Token
  | type (t : TypeToken)
  | bool (b : BoolToken)
  | sid (c : Context)
  | word (w : Word)
  | eol
  | endf
  | avpermstart
  | avpermend
  | char (c : Char)

def isBlank (c : Char) : Bool := c == ' ' || c == '\t'

def isPunctuation (c : Char) : Bool :=
  c == '-' || c == ':' || c == '{' || c == '}' || c == '(' || c == ')' || c == ';'

def notColon (c : Char) : Bool := c != ':'

def contextOf (text : List Char) : Option Context :=
  let rest := (text.dropWhile notColon).tail
  let user := String.ofList (text.takeWhile notColon)
  let role := String.ofList (rest.takeWhile notColon)
  let type := String.ofList (rest.dropWhile notColon).tail
  if h : Run isSidChar user ∧ Run isSidChar role ∧ Run isSidChar type then
    some ⟨user, role, type, h.1, h.2.1, h.2.2⟩
  else none

def typeRule : Rule Char Token where
  bol := false
  pattern := .plus isTypeChar
  action text := if h : Run isTypeChar (String.ofList text) then some (.type ⟨_, h⟩) else none

def boolRule : Rule Char Token where
  bol := false
  pattern := .plus isBoolChar
  action text := if h : Run isBoolChar (String.ofList text) then some (.bool ⟨_, h⟩) else none

def fieldPattern : Pattern Char := .seq (.plus isSidChar) (.one (· == ':'))

def sidRule : Rule Char Token where
  bol := false
  pattern := .seq (.seq fieldPattern fieldPattern) (.plus isSidChar)
  action text := (contextOf text).map .sid

def wordRule : Rule Char Token where
  bol := false
  pattern := .plus isWordChar
  action text := if h : Run isWordChar (String.ofList text) then some (.word ⟨_, h⟩) else none

def blankRule : Rule Char Token := ⟨false, .one isBlank, fun _ => none⟩

def emptyLineRule : Rule Char Token := ⟨true, .one (· == '\n'), fun _ => none⟩

def commentRule : Rule Char Token where
  bol := true
  pattern := .seq (.one (· == '#')) (.seq (.many (· != '\n')) (.one (· == '\n')))
  action _ := none

def eolRule : Rule Char Token := ⟨false, .one (· == '\n'), fun _ => some .eol⟩

def avpermstartRule : Rule Char Token :=
  ⟨false, .seq (.one (· == '-')) (.one (· == '(')), fun _ => some .avpermstart⟩

def avpermendRule : Rule Char Token :=
  ⟨false, .seq (.one (· == ')')) (.seq (.one (· == '-')) (.one (· == '>'))), fun _ => some .avpermend⟩

def punctuationRule : Rule Char Token := ⟨false, .one isPunctuation, fun text => text.head?.map .char⟩

/-- Any other character is reported, and handed over all the same. -/
def otherRule : Rule Char Token := ⟨false, .one (· != '\n'), fun text => text.head?.map .char⟩

def lexer : Lexer Char Token where
  rules := [typeRule, boolRule, sidRule, wordRule, blankRule, emptyLineRule, commentRule, eolRule, avpermstartRule,
    avpermendRule, punctuationRule, otherRule]
  newline c := c == '\n'

/-- The tokens of a text, with the one for its end. -/
def yylex (text : List Char) : List Token := lexer.lex true text ++ [.endf]

section classes

variable {a : Char}

theorem le_iff_toNat (c d : Char) : c ≤ d ↔ c.toNat ≤ d.toNat := Iff.rfl

theorem isTypeChar_iff : isTypeChar a = true ↔ 65 ≤ a.toNat ∧ a.toNat ≤ 90 := by
  simp [isTypeChar, le_iff_toNat]

theorem isDigit_iff : isDigit a = true ↔ 48 ≤ a.toNat ∧ a.toNat ≤ 57 := by
  simp [isDigit, le_iff_toNat]

theorem isBoolChar_iff : isBoolChar a = true ↔ (48 ≤ a.toNat ∧ a.toNat ≤ 57) ∨ a.toNat = 33 ∨ a.toNat = 36 := by
  simp [isBoolChar, isDigit_iff, ← Char.toNat_inj, or_assoc]

theorem isWordChar_iff : isWordChar a = true ↔ (97 ≤ a.toNat ∧ a.toNat ≤ 122) ∨ a.toNat = 95 := by
  simp [isWordChar, isLower, le_iff_toNat, ← Char.toNat_inj]

theorem isSidChar_iff : isSidChar a = true ↔
    (97 ≤ a.toNat ∧ a.toNat ≤ 122) ∨ (48 ≤ a.toNat ∧ a.toNat ≤ 57) ∨ a.toNat = 95 := by
  simp [isSidChar, isLower, isDigit_iff, le_iff_toNat, ← Char.toNat_inj, or_assoc]

theorem isBlank_iff : isBlank a = true ↔ a.toNat = 32 ∨ a.toNat = 9 := by
  simp [isBlank, ← Char.toNat_inj]

theorem isPunctuation_iff : isPunctuation a = true ↔ a.toNat = 45 ∨ a.toNat = 58 ∨ a.toNat = 123 ∨ a.toNat = 125 ∨
    a.toNat = 40 ∨ a.toNat = 41 ∨ a.toNat = 59 := by
  simp [isPunctuation, ← Char.toNat_inj, or_assoc]

end classes

section candidates

variable {a : Char}

theorem filter_eq_zip {α : Type} (p : α → Bool) (xs : List α) :
    xs.filter p = ((xs.zip (xs.map p)).filter Prod.snd).map Prod.fst := by
  induction xs with
  | nil => rfl
  | cons x xs ih =>
      rw [List.map_cons, List.zip_cons_cons, List.filter_cons, List.filter_cons, ih]
      split <;> rfl

theorem first_rules (a : Char) : lexer.rules.map (fun r => r.pattern.first a) =
    [isTypeChar a, isBoolChar a, isSidChar a, isWordChar a, isBlank a, a == '\n', a == '#', a == '\n', a == '-', a == ')',
      isPunctuation a, a != '\n'] := by
  simp [lexer, typeRule, boolRule, sidRule, wordRule, blankRule, emptyLineRule, commentRule, eolRule, avpermstartRule,
    avpermendRule, punctuationRule, otherRule, fieldPattern, Pattern.plus, Pattern.first, Pattern.nullable]

theorem candidates_of_first (flags : List Bool) (h : lexer.rules.map (fun r => r.pattern.first a) = flags) :
    lexer.rules.filter (fun r => r.pattern.first a) =
      ((lexer.rules.zip flags).filter Prod.snd).map Prod.fst := by
  rw [filter_eq_zip, h]

theorem candidates_upper (h : isTypeChar a = true) :
    lexer.rules.filter (fun r => r.pattern.first a) = [typeRule, otherRule] := by
  refine candidates_of_first [true, false, false, false, false, false, false, false, false, false, false, true]
    ((first_rules a).trans ?_)
  rw [isTypeChar_iff] at h
  simp only [List.cons.injEq, ← Bool.not_eq_true, isTypeChar_iff, isBoolChar_iff, isSidChar_iff, isWordChar_iff,
    isBlank_iff, isPunctuation_iff, beq_iff_eq, bne_iff_ne, ne_eq, ← Char.toNat_inj, Char.reduceToNat, and_true]
  omega

theorem candidates_word (h : isWordChar a = true) :
    lexer.rules.filter (fun r => r.pattern.first a) = [sidRule, wordRule, otherRule] := by
  refine candidates_of_first [false, false, true, true, false, false, false, false, false, false, false, true]
    ((first_rules a).trans ?_)
  rw [isWordChar_iff] at h
  simp only [List.cons.injEq, ← Bool.not_eq_true, isTypeChar_iff, isBoolChar_iff, isSidChar_iff, isWordChar_iff,
    isBlank_iff, isPunctuation_iff, beq_iff_eq, bne_iff_ne, ne_eq, ← Char.toNat_inj, Char.reduceToNat, and_true]
  omega

theorem candidates_digit (h : isDigit a = true) :
    lexer.rules.filter (fun r => r.pattern.first a) = [boolRule, sidRule, otherRule] := by
  refine candidates_of_first [false, true, true, false, false, false, false, false, false, false, false, true]
    ((first_rules a).trans ?_)
  rw [isDigit_iff] at h
  simp only [List.cons.injEq, ← Bool.not_eq_true, isTypeChar_iff, isBoolChar_iff, isSidChar_iff, isWordChar_iff,
    isBlank_iff, isPunctuation_iff, beq_iff_eq, bne_iff_ne, ne_eq, ← Char.toNat_inj, Char.reduceToNat, and_true]
  omega

end candidates

section contexts

theorem run_ofList {p : Char → Bool} {xs : List Char} :
    Run p (String.ofList xs) ↔ xs ≠ [] ∧ ∀ a ∈ xs, p a = true := by
  rw [Run, String.toList_ofList, List.all_eq_true]

theorem notColon_of_isSidChar {a : Char} (h : isSidChar a = true) : notColon a = true := by
  rw [notColon, bne_iff_ne]
  rintro rfl
  exact absurd h (by decide)

theorem isSidChar_colon : isSidChar ':' = false := by decide

theorem matches_field {xs : List Char} :
    fieldPattern.Matches xs ↔ ∃ ys, (ys ≠ [] ∧ ∀ a ∈ ys, isSidChar a = true) ∧ xs = ys ++ [':'] := by
  constructor
  · rintro ⟨ys, zs, hys, ⟨a, ha, rfl⟩, rfl⟩
    rw [beq_iff_eq] at ha
    exact ⟨ys, Pattern.matches_plus.mp hys, by rw [ha]⟩
  · rintro ⟨ys, hys, rfl⟩
    exact ⟨ys, [':'], Pattern.matches_plus.mpr hys, ⟨':', rfl, rfl⟩, rfl⟩

theorem matches_sid {xs : List Char} : sidRule.pattern.Matches xs ↔
    ∃ us rs ts, (us ≠ [] ∧ ∀ a ∈ us, isSidChar a = true) ∧ (rs ≠ [] ∧ ∀ a ∈ rs, isSidChar a = true) ∧
      (ts ≠ [] ∧ ∀ a ∈ ts, isSidChar a = true) ∧ xs = us ++ ':' :: (rs ++ ':' :: ts) := by
  constructor
  · rintro ⟨ys, ts, ⟨us, rs, hus, hrs, rfl⟩, hts, rfl⟩
    obtain ⟨us, hus', rfl⟩ := matches_field.mp hus
    obtain ⟨rs, hrs', rfl⟩ := matches_field.mp hrs
    exact ⟨us, rs, ts, hus', hrs', Pattern.matches_plus.mp hts, by simp⟩
  · rintro ⟨us, rs, ts, hus, hrs, hts, rfl⟩
    exact ⟨us ++ [':'] ++ (rs ++ [':']), ts, ⟨us ++ [':'], rs ++ [':'], matches_field.mpr ⟨us, hus, rfl⟩,
      matches_field.mpr ⟨rs, hrs, rfl⟩, rfl⟩, Pattern.matches_plus.mpr hts, by simp⟩

theorem Context.text_toList (c : Context) :
    c.text.toList = c.user.toList ++ ':' :: (c.role.toList ++ ':' :: c.type.toList) := by
  simp [Context.text]

theorem run_toList {p : Char → Bool} {s : String} (h : Run p s) : s.toList ≠ [] ∧ ∀ a ∈ s.toList, p a = true := by
  rwa [Run, List.all_eq_true] at h

theorem mem_context_text {c : Context} {a : Char} (h : a ∈ c.text.toList) : (isSidChar a || a == ':') = true := by
  rw [Context.text_toList, List.mem_append, List.mem_cons, List.mem_append, List.mem_cons] at h
  rw [Bool.or_eq_true, beq_iff_eq]
  rcases h with h | h | h | h | h
  · exact .inl ((run_toList c.user_lexed).2 a h)
  · exact .inr h
  · exact .inl ((run_toList c.role_lexed).2 a h)
  · exact .inr h
  · exact .inl ((run_toList c.type_lexed).2 a h)

theorem matches_context (c : Context) : sidRule.pattern.Matches c.text.toList :=
  matches_sid.mpr ⟨_, _, _, run_toList c.user_lexed, run_toList c.role_lexed, run_toList c.type_lexed,
    Context.text_toList c⟩

theorem takeWhile_field {us xs : List Char} (h : ∀ a ∈ us, isSidChar a = true) :
    (us ++ ':' :: xs).takeWhile notColon = us := by
  rw [List.takeWhile_append_of_pos fun a ha => notColon_of_isSidChar (h a ha)]
  simp [notColon]

theorem dropWhile_field {us xs : List Char} (h : ∀ a ∈ us, isSidChar a = true) :
    (us ++ ':' :: xs).dropWhile notColon = ':' :: xs := by
  rw [List.dropWhile_append_of_pos fun a ha => notColon_of_isSidChar (h a ha)]
  simp [notColon]

theorem contextOf_text (c : Context) : contextOf c.text.toList = some c := by
  have hus := (run_toList c.user_lexed).2
  have hrs := (run_toList c.role_lexed).2
  simp only [contextOf, Context.text_toList, takeWhile_field hus, dropWhile_field hus, List.tail_cons,
    takeWhile_field hrs, dropWhile_field hrs, String.ofList_toList]
  exact dif_pos ⟨c.user_lexed, c.role_lexed, c.type_lexed⟩

end contexts

def Token.text : Token → List Char
  | .type t => t.text.toList
  | .bool b => b.text.toList
  | .sid c => c.text.toList
  | .word w => w.text.toList
  | .eol => ['\n']
  | .endf => []
  | .avpermstart => ['-', '(']
  | .avpermend => [')', '-', '>']
  | .char c => [c]

section tokens

variable {bol : Bool} {rest : List Char}

theorem otherRule_length {xs zs : List Char} (h : otherRule.Takes bol xs zs) : zs.length = 1 := h.length_of_one rfl

theorem typeRule_action (t : TypeToken) : typeRule.action t.text.toList = some (.type t) := by
  simp only [typeRule, String.ofList_toList]
  exact dif_pos t.lexed

theorem boolRule_action (b : BoolToken) : boolRule.action b.text.toList = some (.bool b) := by
  simp only [boolRule, String.ofList_toList]
  exact dif_pos b.lexed

theorem wordRule_action (w : Word) : wordRule.action w.text.toList = some (.word w) := by
  simp only [wordRule, String.ofList_toList]
  exact dif_pos w.lexed

theorem sidRule_action (c : Context) : sidRule.action c.text.toList = some (.sid c) := by
  simp only [sidRule, contextOf_text]
  rfl

theorem after_of_run {p : Char → Bool} (hp : p '\n' = false) {xs : List Char} (h : xs ≠ [] ∧ ∀ a ∈ xs, p a = true) :
    lexer.after bol xs = false := by
  apply after_eq_false h.1
  intro a ha
  rw [lexer, beq_eq_false_iff_ne]
  rintro rfl
  rw [h.2 _ ha] at hp
  cases hp

theorem head_of_run {p : Char → Bool} {s : String} (h : Run p s) : ∃ a, s.toList.head? = some a ∧ p a = true := by
  obtain ⟨hne, hall⟩ := run_toList h
  exact ⟨s.toList.head hne, List.head?_eq_some_head hne, hall _ (List.head_mem hne)⟩

theorem length_pos_of_run {p : Char → Bool} {s : String} (h : Run p s) : 1 ≤ s.toList.length :=
  List.length_pos_iff.mpr (run_toList h).1

theorem lex_type (t : TypeToken) (h : Stops isTypeChar rest) :
    lexer.lex bol (t.text.toList ++ rest) = .type t :: lexer.lex false rest := by
  have hrun := run_toList t.lexed
  obtain ⟨a, ha, hupper⟩ := head_of_run t.lexed
  rw [lex_of_candidates lexer [] ha (candidates_upper hupper) (unanchored rfl) (Pattern.matches_plus.mpr hrun), typeRule_action,
    after_of_run (by decide) hrun]
  · rfl
  · exact fun r' hr' => absurd hr' List.not_mem_nil
  · rw [List.forall_mem_cons, List.forall_mem_singleton]
    refine ⟨fun zs hzs => hzs.length_le_of_plus rfl h, fun zs hzs => ?_⟩
    rw [otherRule_length hzs]
    exact length_pos_of_run t.lexed

theorem sid_takes {xs zs : List Char} (h : sidRule.Takes bol xs zs) :
    ∃ us rs ts ws, (us ≠ [] ∧ ∀ a ∈ us, isSidChar a = true) ∧ (rs ≠ [] ∧ ∀ a ∈ rs, isSidChar a = true) ∧
      (∀ a ∈ ts, isSidChar a = true) ∧ zs = us ++ ':' :: (rs ++ ':' :: ts) ∧
      xs = us ++ ':' :: (rs ++ ':' :: (ts ++ ws)) := by
  obtain ⟨us, rs, ts, hus, hrs, hts, rfl⟩ := matches_sid.mp h.pattern
  obtain ⟨ws, rfl⟩ := h.front
  exact ⟨us, rs, ts, ws, hus, hrs, hts.2, rfl, by simp⟩

theorem stops_colon {xs : List Char} : Stops isSidChar (':' :: xs) := stops_cons.mpr isSidChar_colon

theorem not_sid_takes {xs zs : List Char} (hxs : ∀ a ∈ xs, isSidChar a = true)
    (h : Stops (fun a => isSidChar a || a == ':') rest) : ¬sidRule.Takes bol (xs ++ rest) zs := by
  intro htakes
  obtain ⟨us, rs, ts, ws, hus, -, -, -, heq⟩ := sid_takes htakes
  have hrest : Stops isSidChar rest := fun a ha => (Bool.or_eq_false_iff.mp (h a ha)).1
  obtain ⟨-, hcolon⟩ := run_unique hxs hus.2 hrest stops_colon heq
  have hhead := h ':' (by rw [hcolon]; rfl)
  cases hhead

theorem lex_word (w : Word) (h : Stops (fun a => isSidChar a || a == ':') rest) :
    lexer.lex bol (w.text.toList ++ rest) = .word w :: lexer.lex false rest := by
  have hrun := run_toList w.lexed
  have hsid : ∀ a, isWordChar a = true → isSidChar a = true := by
    intro a ha
    rw [isWordChar_iff] at ha
    rw [isSidChar_iff]
    omega
  have hstops : Stops isWordChar rest := by
    intro a ha
    have hfalse := (Bool.or_eq_false_iff.mp (h a ha)).1
    by_contra hword
    rw [hsid a (by simpa using hword)] at hfalse
    cases hfalse
  obtain ⟨a, ha, hword⟩ := head_of_run w.lexed
  rw [lex_of_candidates lexer [sidRule] ha (candidates_word hword) (unanchored rfl) (Pattern.matches_plus.mpr hrun),
    wordRule_action, after_of_run (by decide) hrun]
  · rfl
  · rw [List.forall_mem_singleton]
    exact fun zs hzs => absurd hzs (not_sid_takes (fun b hb => hsid b (hrun.2 b hb)) h)
  · rw [List.forall_mem_cons, List.forall_mem_singleton]
    refine ⟨fun zs hzs => hzs.length_le_of_plus rfl hstops, fun zs hzs => ?_⟩
    rw [otherRule_length hzs]
    exact length_pos_of_run w.lexed

theorem isSidChar_of_isDigit {a : Char} (h : isDigit a = true) : isSidChar a = true := by
  rw [isDigit_iff] at h
  rw [isSidChar_iff]
  omega

/-- An identifier that is not glued to a context starts none: after its
digits comes another mark, or a colon without a name after it. -/
theorem not_sid_takes_bool {xs zs : List Char} (hxs : ∀ a ∈ xs, isBoolChar a = true)
    (hrest : Stops isSidChar rest)
    (hglue : (∀ a ∈ xs, isDigit a = true) → ∀ ys, rest = ':' :: ys → Stops isSidChar ys) :
    ¬sidRule.Takes bol (xs ++ rest) zs := by
  intro htakes
  obtain ⟨us, rs, ts, ws, hus, hrs, -, -, heq⟩ := sid_takes htakes
  by_cases hdigits : ∀ a ∈ xs, isDigit a = true
  · obtain ⟨-, hcolon⟩ := run_unique (fun a ha => isSidChar_of_isDigit (hdigits a ha)) hus.2 hrest stops_colon heq
    obtain ⟨b, bs, rfl⟩ := List.exists_cons_of_ne_nil hrs.1
    have hb := hglue hdigits _ hcolon b rfl
    rw [hrs.2 b List.mem_cons_self] at hb
    cases hb
  · -- the first character that is no digit ends the run, and it is no colon
    have hsplit := List.takeWhile_append_dropWhile (p := isSidChar) (l := xs)
    cases hdrop : xs.dropWhile isSidChar with
    | nil =>
        rw [hdrop, List.append_nil] at hsplit
        apply hdigits
        intro a ha
        have hbool := hxs a ha
        rw [← hsplit] at ha
        have hsid := List.mem_takeWhile_imp ha
        rw [isBoolChar_iff] at hbool
        rw [isSidChar_iff] at hsid
        rw [isDigit_iff]
        omega
    | cons d ds =>
        rw [hdrop] at hsplit
        have hd : isSidChar d = false := by
          have hhead := List.head?_dropWhile_not isSidChar xs
          rw [hdrop] at hhead
          exact hhead
        rw [← hsplit, List.append_assoc] at heq
        obtain ⟨-, hcolon⟩ := run_unique (fun a ha => List.mem_takeWhile_imp ha) hus.2 (stops_cons.mpr hd) stops_colon heq
        obtain ⟨rfl, -⟩ := List.cons.inj hcolon
        have hbool := hxs ':' (by rw [← hsplit]; simp)
        exact absurd hbool (by decide)

theorem lex_bool (b : BoolToken) (h : Stops (fun a => isBoolChar a || isSidChar a) rest)
    (hglue : (∀ a ∈ b.text.toList, isDigit a = true) → ∀ ys, rest = ':' :: ys → Stops isSidChar ys) :
    lexer.lex bol (b.text.toList ++ rest) = .bool b :: lexer.lex false rest := by
  have hrun := run_toList b.lexed
  have hbool : Stops isBoolChar rest := fun a ha => (Bool.or_eq_false_iff.mp (h a ha)).1
  have hsid : Stops isSidChar rest := fun a ha => (Bool.or_eq_false_iff.mp (h a ha)).2
  have hnone : ∀ zs, ¬sidRule.Takes bol (b.text.toList ++ rest) zs := fun zs => not_sid_takes_bool hrun.2 hsid hglue
  have hother : ∀ zs, otherRule.Takes bol (b.text.toList ++ rest) zs → zs.length ≤ b.text.toList.length := by
    intro zs hzs
    rw [otherRule_length hzs]
    exact length_pos_of_run b.lexed
  have hsame : ∀ zs, boolRule.Takes bol (b.text.toList ++ rest) zs → zs.length ≤ b.text.toList.length :=
    fun zs hzs => hzs.length_le_of_plus rfl hbool
  obtain ⟨a, ha, hmark⟩ := head_of_run b.lexed
  have hcand : ∃ after, lexer.rules.filter (fun r => r.pattern.first a) = boolRule :: after ∧
      ∀ r ∈ after, r = sidRule ∨ r = otherRule := by
    rw [isBoolChar, Bool.or_eq_true, Bool.or_eq_true, beq_iff_eq, beq_iff_eq] at hmark
    rcases hmark with (hdigit | rfl) | rfl
    · exact ⟨_, candidates_digit hdigit, by simp⟩
    · exact ⟨[otherRule], rfl, by simp⟩
    · exact ⟨[otherRule], rfl, by simp⟩
  obtain ⟨after, hcand, hafter⟩ := hcand
  rw [lex_of_candidates lexer [] ha hcand (unanchored rfl) (Pattern.matches_plus.mpr hrun), boolRule_action,
    after_of_run (by decide) hrun]
  · rfl
  · exact fun r' hr' => absurd hr' List.not_mem_nil
  · rw [List.forall_mem_cons]
    refine ⟨hsame, ?_⟩
    intro r hr zs hzs
    rcases hafter r hr with rfl | rfl
    · exact absurd hzs (hnone zs)
    · exact hother zs hzs

theorem sid_takes_length_le (c : Context) (h : Stops isSidChar rest) {zs : List Char}
    (htakes : sidRule.Takes bol (c.text.toList ++ rest) zs) : zs.length ≤ c.text.toList.length := by
  obtain ⟨us, rs, ts, ws, hus, hrs, hts, rfl, heq⟩ := sid_takes htakes
  rw [Context.text_toList, List.append_assoc, List.cons_append, List.append_assoc, List.cons_append] at heq
  obtain ⟨rfl, hrole⟩ := run_unique (run_toList c.user_lexed).2 hus.2 stops_colon stops_colon heq
  obtain ⟨rfl, htype⟩ := run_unique (run_toList c.role_lexed).2 hrs.2 stops_colon stops_colon (List.cons.inj hrole).2
  have hfront : ts <+: c.type.toList ++ rest := ⟨ws, (List.cons.inj htype).2.symm⟩
  have hlen := length_le_of_stops hts h hfront
  rw [Context.text_toList]
  simp only [List.length_append, List.length_cons]
  omega

theorem lex_sid (c : Context) (h : Stops isSidChar rest) :
    lexer.lex bol (c.text.toList ++ rest) = .sid c :: lexer.lex false rest := by
  have huser := run_toList c.user_lexed
  have htext : c.text.toList ++ rest =
      c.user.toList ++ ':' :: (c.role.toList ++ ':' :: (c.type.toList ++ rest)) := by
    rw [Context.text_toList]
    simp
  have hlt : c.user.toList.length < c.text.toList.length := by
    rw [Context.text_toList, List.length_append, List.length_cons]
    omega
  have hhead : c.text.toList.head? = c.user.toList.head? := by
    rw [Context.text_toList, List.head?_append_of_ne_nil _ huser.1]
  have hnewline : lexer.after bol c.text.toList = false :=
    after_of_run (p := fun a => isSidChar a || a == ':') (by decide)
      ⟨List.ne_nil_of_length_pos (by omega), fun a ha => mem_context_text ha⟩
  have hsame : ∀ zs, sidRule.Takes bol (c.text.toList ++ rest) zs → zs.length ≤ c.text.toList.length :=
    fun zs hzs => sid_takes_length_le c h hzs
  have hother : ∀ zs, otherRule.Takes bol (c.text.toList ++ rest) zs → zs.length ≤ c.text.toList.length := by
    intro zs hzs
    rw [otherRule_length hzs]
    omega
  obtain ⟨a, ha, hsid⟩ := head_of_run c.user_lexed
  rw [← hhead] at ha
  rw [isSidChar_iff] at hsid
  -- a name starts as an identifier or as a word
  by_cases hdigit : isDigit a = true
  · rw [lex_of_candidates lexer [boolRule] ha (candidates_digit hdigit) (unanchored rfl) (matches_context c),
      sidRule_action, hnewline]
    · rfl
    · rw [List.forall_mem_singleton]
      intro zs hzs
      rw [htext] at hzs
      exact Nat.lt_of_le_of_lt (hzs.length_le_of_plus rfl (stops_cons.mpr (by decide))) hlt
    · rw [List.forall_mem_cons, List.forall_mem_singleton]
      exact ⟨hsame, hother⟩
  · have hword : isWordChar a = true := by
      rw [isDigit_iff] at hdigit
      rw [isWordChar_iff]
      omega
    rw [lex_of_candidates lexer [] ha (candidates_word hword) (unanchored rfl) (matches_context c), sidRule_action, hnewline]
    · rfl
    · exact fun r' hr' => absurd hr' List.not_mem_nil
    · rw [List.forall_mem_cons, List.forall_mem_cons, List.forall_mem_singleton]
      refine ⟨hsame, ?_, hother⟩
      intro zs hzs
      rw [htext] at hzs
      exact Nat.le_of_lt (Nat.lt_of_le_of_lt (hzs.length_le_of_plus rfl (stops_cons.mpr (by decide))) hlt)

theorem lex_punctuation {c : Char} (hc : c = ':' ∨ c = '{' ∨ c = '}' ∨ c = ';') :
    lexer.lex bol (c :: rest) = .char c :: lexer.lex false rest := by
  have hcand : lexer.rules.filter (fun r => r.pattern.first c) = [punctuationRule, otherRule] := by
    rcases hc with rfl | rfl | rfl | rfl <;> rfl
  have hpunct : isPunctuation c = true := by
    rcases hc with rfl | rfl | rfl | rfl <;> decide
  have hnewline : lexer.newline c = false := by
    rcases hc with rfl | rfl | rfl | rfl <;> decide
  rw [lex_one lexer [] hcand (unanchored rfl) rfl hpunct, hnewline]
  · rfl
  · exact fun r' hr' => absurd hr' List.not_mem_nil
  · exact List.forall_mem_singleton.mpr ⟨_, rfl⟩

theorem lex_dash (h : rest.head? ≠ some '(') :
    lexer.lex bol ('-' :: rest) = .char '-' :: lexer.lex false rest := by
  have hcand : lexer.rules.filter (fun r => r.pattern.first '-') = [avpermstartRule, punctuationRule, otherRule] := rfl
  rw [lex_one lexer [avpermstartRule] hcand (unanchored rfl) rfl (by decide)]
  · rfl
  · rw [List.forall_mem_singleton]
    intro zs hzs
    obtain ⟨xs, ys, ⟨a, ha, rfl⟩, ⟨b, hb, rfl⟩, rfl⟩ := hzs.pattern
    obtain ⟨ws, hws⟩ := hzs.front
    rw [beq_iff_eq] at hb
    obtain ⟨-, rfl⟩ := List.cons.inj hws
    exact h (congrArg some hb)
  · exact List.forall_mem_singleton.mpr ⟨_, rfl⟩

theorem lex_avpermstart : lexer.lex bol ('-' :: '(' :: rest) = .avpermstart :: lexer.lex false rest := by
  have hcand : lexer.rules.filter (fun r => r.pattern.first '-') = [avpermstartRule, punctuationRule, otherRule] := rfl
  have hmatch : avpermstartRule.pattern.Matches ['-', '('] := ⟨['-'], ['('], ⟨'-', rfl, rfl⟩, ⟨'(', rfl, rfl⟩, rfl⟩
  change lexer.lex bol (['-', '('] ++ rest) = _
  rw [lex_of_candidates lexer [] rfl hcand (unanchored rfl) hmatch]
  · rfl
  · exact fun r' hr' => absurd hr' List.not_mem_nil
  · rw [List.forall_mem_cons, List.forall_mem_cons, List.forall_mem_singleton]
    refine ⟨?_, fun zs hzs => ?_, fun zs hzs => ?_⟩
    · intro zs hzs
      obtain ⟨xs, ys, ⟨a, -, rfl⟩, ⟨b, -, rfl⟩, rfl⟩ := hzs.pattern
      exact Nat.le_refl 2
    · exact Nat.le_succ_of_le (Nat.le_of_eq (hzs.length_of_one rfl))
    · exact Nat.le_succ_of_le (Nat.le_of_eq (hzs.length_of_one rfl))

theorem lex_avpermend : lexer.lex bol (')' :: '-' :: '>' :: rest) = .avpermend :: lexer.lex false rest := by
  have hcand : lexer.rules.filter (fun r => r.pattern.first ')') = [avpermendRule, punctuationRule, otherRule] := rfl
  have hmatch : avpermendRule.pattern.Matches [')', '-', '>'] :=
    ⟨[')'], ['-', '>'], ⟨')', rfl, rfl⟩, ⟨['-'], ['>'], ⟨'-', rfl, rfl⟩, ⟨'>', rfl, rfl⟩, rfl⟩, rfl⟩
  change lexer.lex bol ([')', '-', '>'] ++ rest) = _
  rw [lex_of_candidates lexer [] rfl hcand (unanchored rfl) hmatch]
  · rfl
  · exact fun r' hr' => absurd hr' List.not_mem_nil
  · rw [List.forall_mem_cons, List.forall_mem_cons, List.forall_mem_singleton]
    refine ⟨?_, fun zs hzs => ?_, fun zs hzs => ?_⟩
    · intro zs hzs
      obtain ⟨xs, ys, ⟨a, -, rfl⟩, ⟨us, vs, ⟨b, -, rfl⟩, ⟨c, -, rfl⟩, rfl⟩, rfl⟩ := hzs.pattern
      exact Nat.le_refl 3
    · exact Nat.le_trans (Nat.le_of_eq (hzs.length_of_one rfl)) (by decide)
    · exact Nat.le_trans (Nat.le_of_eq (hzs.length_of_one rfl)) (by decide)

theorem lex_blank {c : Char} (hc : isBlank c = true) : lexer.lex bol (c :: rest) = lexer.lex false rest := by
  rw [isBlank, Bool.or_eq_true, beq_iff_eq, beq_iff_eq] at hc
  have hcand : lexer.rules.filter (fun r => r.pattern.first c) = [blankRule, otherRule] := by
    rcases hc with rfl | rfl <;> rfl
  have hblank : isBlank c = true := by
    rcases hc with rfl | rfl <;> decide
  have hnewline : lexer.newline c = false := by
    rcases hc with rfl | rfl <;> decide
  rw [lex_one lexer [] hcand (unanchored rfl) rfl hblank, hnewline]
  · rfl
  · exact fun r' hr' => absurd hr' List.not_mem_nil
  · exact List.forall_mem_singleton.mpr ⟨_, rfl⟩

theorem lex_emptyLine : lexer.lex true ('\n' :: rest) = lexer.lex true rest := by
  have hcand : lexer.rules.filter (fun r => r.pattern.first '\n') = [emptyLineRule, eolRule] := rfl
  rw [lex_one lexer [] hcand (fun _ => rfl) rfl (by decide)]
  · rfl
  · exact fun r' hr' => absurd hr' List.not_mem_nil
  · exact List.forall_mem_singleton.mpr ⟨_, rfl⟩

theorem lex_eol : lexer.lex false ('\n' :: rest) = .eol :: lexer.lex true rest := by
  have hcand : lexer.rules.filter (fun r => r.pattern.first '\n') = [emptyLineRule, eolRule] := rfl
  rw [lex_one lexer [emptyLineRule] hcand (unanchored rfl) rfl (by decide)]
  · rfl
  · exact List.forall_mem_singleton.mpr fun zs hzs => absurd (hzs.anchor rfl) (by decide)
  · exact fun r' hr' => absurd hr' List.not_mem_nil

def Token.Ends : Token → List Char → Prop
  | .type _, rest => Stops isTypeChar rest
  | .bool b, rest => Stops (fun a => isBoolChar a || isSidChar a) rest ∧
      ((∀ a ∈ b.text.toList, isDigit a = true) → ∀ ys, rest = ':' :: ys → Stops isSidChar ys)
  | .sid _, rest => Stops isSidChar rest
  | .word _, rest => Stops (fun a => isSidChar a || a == ':') rest
  | .avpermstart, _ => True
  | .avpermend, _ => True
  | .char c, rest => (c = ':' ∨ c = '{' ∨ c = '}' ∨ c = ';') ∨ (c = '-' ∧ rest.head? ≠ some '(')
  | .eol, _ => False
  | .endf, _ => False

theorem lex_token {t : Token} (h : t.Ends rest) : lexer.lex bol (t.text ++ rest) = t :: lexer.lex false rest := by
  cases t with
  | type t => exact lex_type t h
  | bool b => exact lex_bool b h.1 h.2
  | sid c => exact lex_sid c h
  | word w => exact lex_word w h
  | avpermstart => exact lex_avpermstart
  | avpermend => exact lex_avpermend
  | char c =>
      rcases h with h | ⟨rfl, h⟩
      · exact lex_punctuation h
      · exact lex_dash h
  | eol => cases h
  | endf => cases h

end tokens

section separators

def isSeparator (c : Char) : Bool := isBlank c || c == '\n'

def Token.Plain : Token → Prop
  | .eol => False
  | .endf => False
  | .char c => c = ':' ∨ c = '{' ∨ c = '}' ∨ c = ';' ∨ c = '-'
  | _ => True

def Visible (xs : List Char) : Prop := xs ≠ [] ∧ ∀ a ∈ xs, 33 ≤ a.toNat ∧ a.toNat ≠ 35

theorem visible_of_run {p : Char → Bool} (hp : ∀ a, p a = true → 33 ≤ a.toNat ∧ a.toNat ≠ 35) {s : String} (h : Run p s) :
    Visible s.toList :=
  ⟨h.1, fun a ha => hp a ((run_toList h).2 a ha)⟩

theorem Visible.not_blank {xs : List Char} (h : Visible xs) : ∀ a ∈ xs, isBlank a = false := by
  intro a ha
  have hvisible := h.2 a ha
  rw [← Bool.not_eq_true, isBlank_iff]
  omega

theorem Visible.newline_not_mem {xs : List Char} (h : Visible xs) : '\n' ∉ xs := fun hmem => absurd (h.2 _ hmem).1 (by decide)

theorem Visible.head_ne_hash {xs : List Char} (h : Visible xs) : xs.head? ≠ some '#' :=
  fun hhead => (h.2 _ (List.mem_of_head? hhead)).2 rfl

theorem visible_plain {t : Token} (h : Token.Plain t) : Visible t.text := by
  cases t with
  | type t =>
      refine visible_of_run (fun a ha => ?_) t.lexed
      rw [isTypeChar_iff] at ha
      omega
  | bool b =>
      refine visible_of_run (fun a ha => ?_) b.lexed
      rw [isBoolChar_iff] at ha
      omega
  | sid c =>
      refine ⟨?_, fun a ha => ?_⟩
      · rw [Token.text, Context.text_toList]
        simp
      · have hsid := mem_context_text ha
        rw [Bool.or_eq_true, beq_iff_eq, isSidChar_iff] at hsid
        rcases hsid with hsid | rfl
        · omega
        · decide
  | word w =>
      refine visible_of_run (fun a ha => ?_) w.lexed
      rw [isWordChar_iff] at ha
      omega
  | avpermstart => simp [Visible, Token.text]
  | avpermend => simp [Visible, Token.text]
  | char c => rcases h with rfl | rfl | rfl | rfl | rfl <;> simp [Visible, Token.text]
  | eol => cases h
  | endf => cases h

def Separated (rest : List Char) : Prop := ∀ a, rest.head? = some a → isSeparator a = true

theorem separated_cons {a : Char} {rest : List Char} (h : isSeparator a = true) : Separated (a :: rest) := by
  rintro b ⟨⟩
  exact h

theorem Separated.stops {rest : List Char} (h : Separated rest) {p : Char → Bool}
    (hp : ∀ a, isSeparator a = true → p a = false) : Stops p rest := fun a ha => hp a (h a ha)

theorem isSeparator_cases {a : Char} (h : isSeparator a = true) : a = ' ' ∨ a = '\t' ∨ a = '\n' := by
  simpa [isSeparator, isBlank, or_assoc] using h

theorem ends_of_separated {t : Token} (ht : Token.Plain t) {rest : List Char} (h : Separated rest) : t.Ends rest := by
  cases t with
  | type t =>
      apply h.stops
      intro a ha
      rcases isSeparator_cases ha with rfl | rfl | rfl <;> decide
  | bool b =>
      refine ⟨?_, ?_⟩
      · apply h.stops
        intro a ha
        rcases isSeparator_cases ha with rfl | rfl | rfl <;> decide
      · rintro - ys rfl
        exact absurd (h ':' rfl) (by decide)
  | sid c =>
      apply h.stops
      intro a ha
      rcases isSeparator_cases ha with rfl | rfl | rfl <;> decide
  | word w =>
      apply h.stops
      intro a ha
      rcases isSeparator_cases ha with rfl | rfl | rfl <;> decide
  | avpermstart => trivial
  | avpermend => trivial
  | char c =>
      rcases ht with rfl | rfl | rfl | rfl | rfl
      · simp [Token.Ends]
      · simp [Token.Ends]
      · simp [Token.Ends]
      · simp [Token.Ends]
      · refine .inr ⟨rfl, ?_⟩
        intro hhead
        exact absurd (h '(' hhead) (by decide)
  | eol => cases ht
  | endf => cases ht

end separators

end PigaLinux.PppLex
