import PigaLinux.PppLines
import PigaLinux.PppCompile
import PigaLinux.ClassMap
import PigaLinux.Contexts
import Mathlib.Data.List.Induction

namespace PigaLinux.PppNames

open Lexing PppSyntax Ppp PppLex PppParse PppPrint PppLines ClassMap
open ExtensibleBitmap (ebitmapInit)
open PppCompile (shadowEnv)

section contexts

def isNameChar (c : Char) : Bool := isSidChar c || isTypeChar c

structure Name where
  text : String
  named : Run isNameChar text

/-- The names of the users, roles and types of a policy without MLS, by their values. -/
structure Symbols where
  users : List Name
  roles : List Name
  types : List Name

def symName (names : List Name) (i : Kernel.U32) : Option String := (names[i.toNat]?).map Name.text

/-- The string of a context. There is none when a value is outside of its table. -/
def contextStructToString (p : Symbols) (c : Contexts.Context) : Option String :=
  if c.len ≠ 0 then some (String.ofList c.str)
  else do
    let user ← symName p.users (c.user - 1)
    let role ← symName p.roles (c.role - 1)
    let type ← symName p.types (c.type - 1)
    return user ++ ":" ++ role ++ ":" ++ type

structure Named (p : Symbols) where
  context : Contexts.Context
  user : Name
  role : Name
  type : Name
  len : context.len = 0
  user_eq : p.users[(context.user - 1).toNat]? = some user
  role_eq : p.roles[(context.role - 1).toNat]? = some role
  type_eq : p.types[(context.type - 1).toNat]? = some type

variable {p : Symbols}

def Named.text (c : Named p) : String := c.user.text ++ ":" ++ c.role.text ++ ":" ++ c.type.text

theorem contextStructToString_named (c : Named p) : contextStructToString p c.context = some c.text := by
  rw [contextStructToString, if_neg (fun h => h c.len), symName, symName, symName, c.user_eq, c.role_eq, c.type_eq]
  rfl

def Name.noCapital (x : Name) : Prop := ∀ a ∈ x.text.toList, isTypeChar a = false

def Named.noCapital (c : Named p) : Prop := c.user.noCapital ∧ c.role.noCapital ∧ c.type.noCapital

theorem Name.run (x : Name) (h : x.noCapital) : Run isSidChar x.text := by
  refine ⟨x.named.1, List.all_eq_true.mpr ?_⟩
  intro a ha
  have hname := List.all_eq_true.mp x.named.2 a ha
  rw [isNameChar, h a ha, Bool.or_false] at hname
  exact hname

/-- A name without capitals is what the lexer takes for a field of a context. -/
def Named.toContext (c : Named p) (h : c.noCapital) : Context :=
  ⟨c.user.text, c.role.text, c.type.text, c.user.run h.1, c.role.run h.2.1, c.type.run h.2.2⟩

theorem Named.text_toList (c : Named p) :
    c.text.toList = c.user.text.toList ++ ':' :: (c.role.text.toList ++ ':' :: c.type.text.toList) := by
  simp [Named.text]

theorem isTypeChar_colon : isTypeChar ':' = false := by decide

theorem Named.noCapital_iff (c : Named p) : c.noCapital ↔ ∀ a ∈ c.text.toList, isTypeChar a = false := by
  rw [c.text_toList]
  simp only [List.forall_mem_append, List.forall_mem_cons, isTypeChar_colon, true_and]
  rfl

end contexts

section tokens

def LexedAsSid (s : String) : Prop :=
  ∀ bol b rest, isBlank b = true →
    ∃ c : Context, c.text = s ∧ lexer.lex bol (s.toList ++ b :: rest) = .sid c :: lexer.lex false (b :: rest)

def LexedAsWord (s : String) : Prop :=
  ∀ bol b rest, isBlank b = true →
    ∃ w : Word, w.text = s ∧ lexer.lex bol (s.toList ++ b :: rest) = .word w :: lexer.lex false (b :: rest)

def NoDigit (s : String) : Prop := ∀ a ∈ s.toList, isDigit a = false

theorem separated_blank {b : Char} {rest : List Char} (h : isBlank b = true) : Separated (b :: rest) :=
  separated_cons (by rw [isSeparator, h]; rfl)

theorem not_isTypeChar_of_mem {c : Context} {a : Char} (h : a ∈ c.text.toList) : isTypeChar a = false := by
  have hsid := mem_context_text h
  rw [← Bool.not_eq_true, isTypeChar_iff]
  rw [Bool.or_eq_true, beq_iff_eq] at hsid
  rcases hsid with hsid | rfl
  · rw [isSidChar_iff] at hsid
    omega
  · decide

theorem lexedAsSid_iff {p : Symbols} (c : Named p) : LexedAsSid c.text ↔ c.noCapital := by
  constructor
  · intro h
    obtain ⟨d, hd, -⟩ := h true ' ' [] rfl
    rw [c.noCapital_iff, ← hd]
    exact fun a ha => not_isTypeChar_of_mem ha
  · intro h bol b rest hb
    refine ⟨c.toContext h, rfl, ?_⟩
    exact lex_token (ends_of_separated (t := .sid (c.toContext h)) trivial (separated_blank hb))

theorem isWordChar_iff_noDigit {a : Char} (h : isSidChar a = true) : isWordChar a = true ↔ isDigit a = false := by
  rw [← Bool.not_eq_true, isWordChar_iff, isDigit_iff]
  rw [isSidChar_iff] at h
  omega

theorem run_iff_noDigit {x : String} (h : Run isSidChar x) : Run isWordChar x ↔ NoDigit x := by
  have hx := run_toList h
  constructor
  · intro hrun a ha
    exact (isWordChar_iff_noDigit (hx.2 a ha)).mp ((run_toList hrun).2 a ha)
  · intro hno
    exact ⟨h.1, List.all_eq_true.mpr fun a ha => (isWordChar_iff_noDigit (hx.2 a ha)).mpr (hno a ha)⟩

theorem lexedAsWord_iff {x : String} (h : Run isSidChar x) : LexedAsWord x ↔ NoDigit x := by
  rw [← run_iff_noDigit h]
  constructor
  · intro hlexed
    obtain ⟨w, hw, -⟩ := hlexed true ' ' [] rfl
    exact hw ▸ w.lexed
  · intro hrun bol b rest hb
    refine ⟨⟨x, hrun⟩, rfl, ?_⟩
    exact lex_token (ends_of_separated (t := .word ⟨x, hrun⟩) trivial (separated_blank hb))

def mapNames : List String := secclassMap.flatMap fun e => e.1 :: e.2

theorem run_mapNames : ∀ x ∈ mapNames, Run isSidChar x := by
  decide +kernel

end tokens

section inner

def Inner : Token → Prop
  | .sid _ | .word _ | .avpermstart | .avpermend => True
  | .char c => c = '{' ∨ c = '}' ∨ c = ';'
  | _ => False

theorem inner_signatureTokens (g : Signature) : ∀ t ∈ signatureTokens g, Inner t := by
  apply forall_mem_signatureTokens
  all_goals simp [Inner]

theorem Inner.not_isTypeChar {t : Token} (h : Inner t) {a : Char} (ha : a ∈ t.text) : isTypeChar a = false := by
  cases t with
  | sid c => exact not_isTypeChar_of_mem ha
  | word w =>
      have hword := (run_toList w.lexed).2 a ha
      rw [← Bool.not_eq_true, isTypeChar_iff]
      rw [isWordChar_iff] at hword
      omega
  | avpermstart =>
      simp only [Token.text, List.mem_cons, List.not_mem_nil, or_false] at ha
      rcases ha with rfl | rfl <;> decide
  | avpermend =>
      simp only [Token.text, List.mem_cons, List.not_mem_nil, or_false] at ha
      rcases ha with rfl | rfl | rfl <;> decide
  | char c =>
      obtain rfl := List.mem_singleton.mp ha
      rcases h with rfl | rfl | rfl <;> decide
  | _ => cases h

theorem Inner.isWordChar {t : Token} (h : Inner t) (hsid : ∀ a ∈ t.text, isSidChar a = true) :
    ∀ a ∈ t.text, isWordChar a = true := by
  cases t with
  | sid c =>
      have hcolon := hsid ':' (by rw [Token.text, Context.text_toList]; simp)
      cases hcolon
  | word w => exact (run_toList w.lexed).2
  | avpermstart => exact absurd (hsid '-' (by decide)) (by decide)
  | avpermend => exact absurd (hsid '-' (by decide)) (by decide)
  | char c =>
      have hc := hsid c (List.mem_singleton_self c)
      rcases h with rfl | rfl | rfl <;> cases hc
  | _ => cases h

end inner

section lines

structure Spelling where
  source : String
  tclass : String
  request : List String
  target : String

def Spelling.pieces (x : Spelling) : List (List Char) :=
  x.source.toList :: ['-', '('] :: x.tclass.toList :: ['{'] ::
    (x.request.map String.toList ++ [['}'], [')', '-', '>'], x.target.toList])

def signaturePieces (xs : List Spelling) : List (List Char) := [[';']].intercalate (xs.map Spelling.pieces)

def written (type : Option TypeToken) (b : BoolToken) (xs : List Spelling) : List Char :=
  [' '].intercalate ((headTokens type b).map Token.text ++ signaturePieces xs)

def spelling (t : Transition) : Spelling := ⟨t.source.text, t.vector.tclass.text, t.vector.request.words, t.target.text⟩

theorem map_requestTokens (r : Request) : (requestTokens r).map Token.text = r.words.map String.toList := by
  induction r with
  | word w => rfl
  | snoc r w ih =>
      rw [requestTokens, Request.words, List.map_append, List.map_append, ih]
      rfl

theorem map_transitionTokens (t : Transition) : (transitionTokens t).map Token.text = (spelling t).pieces := by
  simp [transitionTokens, vectorTokens, Spelling.pieces, spelling, map_requestTokens, Token.text]

theorem map_signatureTokens (g : Signature) :
    (signatureTokens g).map Token.text = signaturePieces (g.transitions.map spelling) := by
  induction g with
  | transition t => simp [signatureTokens, Signature.transitions, signaturePieces, map_transitionTokens]
  | snoc g t ih =>
      have hne : (g.transitions.map spelling).map Spelling.pieces ≠ [] := by
        have hpos := g.transitions_pos
        simpa using List.ne_nil_of_length_pos hpos
      rw [signatureTokens, Signature.transitions, List.map_append, List.map_append, ih, signaturePieces, signaturePieces,
        List.map_append, List.map_singleton, List.map_singleton, intercalate_snoc _ hne, List.map_cons, map_transitionTokens]
      simp [Token.text]

theorem printLine_eq (n : Line) : printLine n = written n.type n.bool (n.transitions.map spelling) := by
  rw [printLine, printTokens, lineTokens, List.map_append, map_signatureTokens]
  rfl

theorem mem_intercalate {α : Type} {a : α} {sep : List α} {xss : List (List α)} (h : a ∈ sep.intercalate xss) :
    a ∈ sep ∨ ∃ xs ∈ xss, a ∈ xs := by
  induction xss with
  | nil => cases h
  | cons xs xss ih =>
      by_cases hnil : xss = []
      · subst hnil
        rw [List.intercalate_singleton] at h
        exact .inr ⟨xs, List.mem_cons_self, h⟩
      · rw [List.intercalate_cons_of_ne_nil hnil, List.mem_append, List.mem_append] at h
        rcases h with (h | h) | h
        · exact .inr ⟨xs, List.mem_cons_self, h⟩
        · exact .inl h
        · refine (ih h).imp_right ?_
          rintro ⟨ys, hys, ha⟩
          exact ⟨ys, List.mem_cons_of_mem _ hys, ha⟩

theorem lex_pieces {bol : Bool} {x : List Char} {xs : List (List Char)} (h : ∀ y ∈ x :: xs, Visible y) :
    lexer.lex bol ([' '].intercalate (x :: xs)) = lexer.lex bol x ++ xs.flatMap (lexer.lex false) := by
  induction xs generalizing x bol with
  | nil => simp
  | cons y ys ih =>
      rw [List.forall_mem_cons] at h
      have hsep : Separated (' ' :: [' '].intercalate (y :: ys)) := separated_cons (by decide)
      rw [List.intercalate_cons_cons, List.append_assoc, List.singleton_append,
        lex_append_separated h.1.newline_not_mem (fun _ => h.1.head_ne_hash) hsep,
        after_of_not_mem h.1.1 h.1.newline_not_mem, lex_blank (by decide), ih h.2]
      rfl

theorem lex_text {t : Token} (h : Token.Plain t) (bol : Bool) : lexer.lex bol t.text = [t] := by
  have hends : t.Ends [] := ends_of_separated h fun a ha => by cases ha
  have htoken : lexer.lex bol (t.text ++ []) = t :: lexer.lex false [] := lex_token hends
  rwa [List.append_nil] at htoken

theorem flatMap_lex_text {ts : List Token} (h : ∀ t ∈ ts, Token.Plain t) :
    (ts.map Token.text).flatMap (lexer.lex false) = ts := by
  induction ts with
  | nil => rfl
  | cons t ts ih =>
      rw [List.forall_mem_cons] at h
      rw [List.map_cons, List.flatMap_cons, lex_text h.1, ih h.2]
      rfl

theorem plain_headTokens (type : Option TypeToken) (b : BoolToken) : ∀ t ∈ headTokens type b, Token.Plain t := by
  cases type <;> simp [headTokens, typeTokens, Token.Plain]

theorem lex_written (type : Option TypeToken) (b : BoolToken) {xs : List Spelling}
    (h : ∀ y ∈ signaturePieces xs, Visible y) :
    lexer.lex true (written type b xs) = headTokens type b ++ (signaturePieces xs).flatMap (lexer.lex false) := by
  have hplain := plain_headTokens type b
  have hne : headTokens type b ≠ [] := by simp [headTokens]
  rw [written]
  obtain ⟨t, ts, hts⟩ := List.exists_cons_of_ne_nil hne
  rw [hts] at hplain ⊢
  rw [List.map_cons, List.cons_append, lex_pieces]
  · rw [List.forall_mem_cons] at hplain
    rw [lex_text hplain.1, List.flatMap_append, flatMap_lex_text hplain.2]
    rfl
  · rw [← List.cons_append, ← List.map_cons, List.forall_mem_append, List.forall_mem_map]
    exact ⟨fun t ht => visible_plain (hplain t ht), h⟩

theorem headTokens_inj {type type' : Option TypeToken} {b b' : BoolToken} {us us' : List Token}
    (h : headTokens type b ++ us = headTokens type' b' ++ us') : type = type' ∧ b = b' ∧ us = us' := by
  cases type <;> cases type' <;> simp_all [headTokens, typeTokens]

theorem inner_of_accepts {env : Env} {k : Loader} {w : Wholefile} {type : Option TypeToken} {b : BoolToken}
    {xs : List Spelling} (hvisible : ∀ y ∈ signaturePieces xs, Visible y)
    (h : (parseText env (written type b xs) k).value.1 = some w) :
    ∀ y ∈ signaturePieces xs, ∀ t ∈ lexer.lex false y, Inner t := by
  have hlex := lex_written type b hvisible
  have honLine : ∀ t ∈ lexer.lex true (written type b xs), Token.onLine t := by
    rw [hlex, List.forall_mem_append]
    refine ⟨?_, ?_⟩
    · cases type <;> simp [headTokens, typeTokens, Token.onLine]
    · intro t ht
      obtain ⟨y, hy, ht⟩ := List.mem_flatMap.mp ht
      exact onLine_of_lex (hvisible y hy).newline_not_mem (fun h => by cases h) t ht
  have hne : lexer.lex true (written type b xs) ≠ [] := by
    rw [hlex]
    simp [headTokens]
  rw [parseText_eq] at h
  obtain ⟨n, hn, -⟩ := (outcome_endf honLine hne).mp h
  rw [hlex] at hn
  obtain ⟨-, -, hsignature⟩ := headTokens_inj hn
  intro y hy t ht
  apply inner_signatureTokens n.signature
  rw [← hsignature]
  exact List.mem_flatMap.mpr ⟨y, hy, ht⟩

theorem exists_token {xs : List Char} (h : Visible xs) {a : Char} (ha : a ∈ xs) :
    ∃ t ∈ lexer.lex false xs, a ∈ t.text ∧ ∀ a' ∈ t.text, a' ∈ xs := by
  have hhash : false = true → xs.head? ≠ some '#' := fun _ => h.head_ne_hash
  obtain ⟨t, ht, hmem⟩ := exists_mem_lex h.newline_not_mem hhash ha (h.not_blank a ha)
  exact ⟨t, ht, hmem, fun a' => mem_of_mem_lex h.newline_not_mem hhash ht⟩

theorem noCapital_of_inner {p : Symbols} {c : Named p} (hvisible : Visible c.text.toList)
    (h : ∀ t ∈ lexer.lex false c.text.toList, Inner t) : c.noCapital := by
  rw [c.noCapital_iff]
  intro a ha
  obtain ⟨t, ht, hmem, -⟩ := exists_token hvisible ha
  exact (h t ht).not_isTypeChar hmem

theorem noDigit_of_inner {x : String} (hx : Run isSidChar x) (hvisible : Visible x.toList)
    (h : ∀ t ∈ lexer.lex false x.toList, Inner t) : NoDigit x := by
  have hsid := (run_toList hx).2
  intro a ha
  obtain ⟨t, ht, hmem, hall⟩ := exists_token hvisible ha
  rw [← isWordChar_iff_noDigit (hsid a ha)]
  exact (h t ht).isWordChar (fun a' ha' => hsid a' (hall a' ha')) a hmem

theorem exists_request {xs : List String} (hne : xs ≠ []) (h : ∀ x ∈ xs, Run isWordChar x) : ∃ r : Request, r.words = xs := by
  induction xs using List.reverseRecOn with
  | nil => exact absurd rfl hne
  | append_singleton xs x ih =>
      rw [List.forall_mem_append, List.forall_mem_singleton] at h
      by_cases hnil : xs = []
      · subst hnil
        exact ⟨.word ⟨x, h.2⟩, rfl⟩
      · obtain ⟨r, rfl⟩ := ih hnil h.1
        exact ⟨.snoc r ⟨x, h.2⟩, rfl⟩

theorem exists_signature {xs : List Spelling} (hne : xs ≠ []) (h : ∀ x ∈ xs, ∃ t, spelling t = x) :
    ∃ g : Signature, g.transitions.map spelling = xs := by
  induction xs using List.reverseRecOn with
  | nil => exact absurd rfl hne
  | append_singleton xs x ih =>
      rw [List.forall_mem_append, List.forall_mem_singleton] at h
      obtain ⟨t, rfl⟩ := h.2
      by_cases hnil : xs = []
      · subst hnil
        exact ⟨.transition t, rfl⟩
      · obtain ⟨g, rfl⟩ := ih hnil h.1
        exact ⟨.snoc g t, by rw [Signature.transitions, List.map_append]; rfl⟩

end lines

section steps

/-- A transition over contexts of the policy, a class of the kernel and some of its permissions. -/
structure Step (p : Symbols) where
  source : Named p
  tclass : String
  perms : List String
  known : (tclass, perms) ∈ secclassMap
  request : List String
  request_ne : request ≠ []
  request_known : ∀ q ∈ request, q ∈ perms
  target : Named p

variable {p : Symbols}

def Step.spelling (s : Step p) : Spelling := ⟨s.source.text, s.tclass, s.request, s.target.text⟩

def Step.Conforms (s : Step p) : Prop :=
  s.source.noCapital ∧ NoDigit s.tclass ∧ (∀ q ∈ s.request, NoDigit q) ∧ s.target.noCapital

theorem Step.run_tclass (s : Step p) : Run isSidChar s.tclass :=
  run_mapNames _ (List.mem_flatMap.mpr ⟨_, s.known, List.mem_cons_self⟩)

theorem Step.run_request (s : Step p) {q : String} (hq : q ∈ s.request) : Run isSidChar q :=
  run_mapNames _ (List.mem_flatMap.mpr ⟨_, s.known, List.mem_cons_of_mem _ (s.request_known q hq)⟩)

theorem visible_sid {x : String} (h : Run isSidChar x) : Visible x.toList := by
  refine visible_of_run (fun a ha => ?_) h
  rw [isSidChar_iff] at ha
  omega

theorem Named.visible (c : Named p) : Visible c.text.toList := by
  have hname (x : Name) : Visible x.text.toList := by
    refine visible_of_run (fun a ha => ?_) x.named
    rw [isNameChar, Bool.or_eq_true, isSidChar_iff, isTypeChar_iff] at ha
    omega
  rw [c.text_toList]
  refine ⟨by simp, ?_⟩
  simp only [List.forall_mem_append, List.forall_mem_cons]
  exact ⟨(hname c.user).2, by decide, (hname c.role).2, by decide, (hname c.type).2⟩

theorem forall_mem_pieces {P : List Char → Prop} {x : Spelling} (hmarks : P ['-', '('] ∧ P ['{'] ∧ P ['}'] ∧ P [')', '-', '>']) :
    (∀ y ∈ x.pieces, P y) ↔
      P x.source.toList ∧ P x.tclass.toList ∧ (∀ q ∈ x.request, P q.toList) ∧ P x.target.toList := by
  simp [Spelling.pieces, or_imp, forall_and, hmarks]

theorem Step.visible (s : Step p) : ∀ y ∈ s.spelling.pieces, Visible y := by
  rw [forall_mem_pieces (by simp [Visible])]
  exact ⟨s.source.visible, visible_sid s.run_tclass, fun q hq => visible_sid (s.run_request hq), s.target.visible⟩

theorem visible_steps (ss : List (Step p)) : ∀ y ∈ signaturePieces (ss.map Step.spelling), Visible y := by
  intro y hy
  rcases mem_intercalate hy with hy | ⟨ys, hys, hy⟩
  · obtain rfl := List.mem_singleton.mp hy
    simp [Visible]
  · rw [List.map_map] at hys
    obtain ⟨s, -, rfl⟩ := List.mem_map.mp hys
    exact s.visible y hy

theorem Step.conforms_of_inner {s : Step p} (h : ∀ y ∈ s.spelling.pieces, ∀ t ∈ lexer.lex false y, Inner t) :
    s.Conforms := by
  have hmem {y : List Char} (hy : y = s.source.text.toList ∨ y = s.tclass.toList ∨ (∃ q ∈ s.request, y = q.toList) ∨
      y = s.target.text.toList) : ∀ t ∈ lexer.lex false y, Inner t := by
    apply h
    simp only [Spelling.pieces, Step.spelling, List.mem_cons, List.mem_append, List.mem_map]
    rcases hy with rfl | rfl | ⟨q, hq, rfl⟩ | rfl
    · exact .inl rfl
    · exact .inr (.inr (.inl rfl))
    · exact .inr (.inr (.inr (.inr (.inl ⟨q, hq, rfl⟩))))
    · simp
  refine ⟨?_, ?_, ?_, ?_⟩
  · exact noCapital_of_inner s.source.visible (hmem (.inl rfl))
  · exact noDigit_of_inner s.run_tclass (visible_sid s.run_tclass) (hmem (.inr (.inl rfl)))
  · intro q hq
    exact noDigit_of_inner (s.run_request hq) (visible_sid (s.run_request hq)) (hmem (.inr (.inr (.inl ⟨q, hq, rfl⟩))))
  · exact noCapital_of_inner s.target.visible (hmem (.inr (.inr (.inr rfl))))

theorem Step.exists_transition {s : Step p} (h : s.Conforms) : ∃ t, PppNames.spelling t = s.spelling := by
  obtain ⟨hsource, htclass, hrequest, htarget⟩ := h
  obtain ⟨r, hr⟩ := exists_request s.request_ne fun q hq => (run_iff_noDigit (s.run_request hq)).mpr (hrequest q hq)
  refine ⟨⟨s.source.toContext hsource, ⟨⟨s.tclass, (run_iff_noDigit s.run_tclass).mpr htclass⟩, r⟩, s.target.toContext htarget⟩, ?_⟩
  rw [PppNames.spelling, hr]
  rfl

/-- The line is accepted, and its tree has the texts that were written. -/
def Kept (env : Env) (k : Loader) (type : Option TypeToken) (b : BoolToken) (xs : List Spelling) : Prop :=
  ∃ n, (parseText env (written type b xs) k).value.1 = some ⟨.line n, false⟩ ∧ n.type = type ∧ n.bool = b ∧
    n.transitions.map spelling = xs

theorem conforms_of_accepts {env : Env} {k : Loader} {type : Option TypeToken} {b : BoolToken} {ss : List (Step p)}
    {w : Wholefile} (h : (parseText env (written type b (ss.map Step.spelling)) k).value.1 = some w) :
    ∀ s ∈ ss, s.Conforms := by
  intro s hs
  apply Step.conforms_of_inner
  intro y hy
  apply inner_of_accepts (visible_steps ss) h
  exact (infix_intercalate (List.mem_map_of_mem (List.mem_map_of_mem hs))).subset hy

theorem kept_of_conforms (env : Env) (k : Loader) (type : Option TypeToken) (b : BoolToken) {ss : List (Step p)}
    (hne : ss ≠ []) (h : ∀ s ∈ ss, s.Conforms) : Kept env k type b (ss.map Step.spelling) := by
  have hspelled : ∀ x ∈ ss.map Step.spelling, ∃ t, spelling t = x := by
    rw [List.forall_mem_map]
    exact fun s hs => Step.exists_transition (h s hs)
  obtain ⟨g, hg⟩ := exists_signature (by simpa using hne) hspelled
  refine ⟨⟨type, b, g⟩, ?_, rfl, rfl, hg⟩
  have htext : written type b (ss.map Step.spelling) = print ⟨.line ⟨type, b, g⟩, false⟩ := by
    rw [← hg, print, File.lines, List.map_singleton, List.intercalate_singleton, printLine_eq]
    exact (List.append_nil _).symm
  rw [accepts_iff, htext, yylex_print]

/-- Which names can be written in a policy. -/
theorem writable_iff (p : Symbols) :
    (∀ c : Named p, contextStructToString p c.context = some c.text ∧ (LexedAsSid c.text ↔ c.noCapital)) ∧
    (∀ x ∈ mapNames, LexedAsWord x ↔ NoDigit x) ∧
    ∀ (env : Env) (k : Loader) (type : Option TypeToken) (b : BoolToken) (s : Step p) (ss : List (Step p)),
      Kept env k type b ((s :: ss).map Step.spelling) ↔ ∀ s' ∈ s :: ss, s'.Conforms := by
  refine ⟨fun c => ⟨contextStructToString_named c, lexedAsSid_iff c⟩, fun x hx => lexedAsWord_iff (run_mapNames x hx), ?_⟩
  intro env k type b s ss
  constructor
  · rintro ⟨n, hn, -⟩
    exact conforms_of_accepts hn
  · exact kept_of_conforms env k type b (List.cons_ne_nil s ss)

def desktopSymbols : Symbols where
  users := [⟨"system_u", by decide⟩]
  roles := [⟨"system_r", by decide⟩]
  types := [⟨"NetworkManager_t", by decide⟩]

def networkManager : Named desktopSymbols where
  context := { user := 1, role := 1, type := 1, low := ⟨0, ebitmapInit⟩, high := ⟨0, ebitmapInit⟩ }
  user := ⟨"system_u", by decide⟩
  role := ⟨"system_r", by decide⟩
  type := ⟨"NetworkManager_t", by decide⟩
  len := rfl
  user_eq := rfl
  role_eq := rfl
  type_eq := rfl

def managerStep : Step desktopSymbols where
  source := networkManager
  tclass := "fd"
  perms := ["use"]
  known := by decide
  request := ["use"]
  request_ne := by decide
  request_known := by decide
  target := networkManager

theorem networkManager_rejected :
    contextStructToString desktopSymbols networkManager.context = some "system_u:system_r:NetworkManager_t" ∧
      ¬LexedAsSid "system_u:system_r:NetworkManager_t" ∧
      ("capability2" ∈ mapNames ∧ ¬LexedAsWord "capability2") ∧
      (parseText shadowEnv (written none ⟨"1", by decide⟩ [managerStep.spelling]) zeroed).value.1 = none := by
  have hcapital : ¬networkManager.noCapital := fun h => absurd (h.2.2 'N' (by decide)) (by decide)
  refine ⟨by decide, ?_, ⟨by decide +kernel, ?_⟩, ?_⟩
  · exact fun h => hcapital ((lexedAsSid_iff networkManager).mp h)
  · exact fun h => absurd ((lexedAsWord_iff (by decide)).mp h '2' (by decide)) (by decide)
  · by_contra hsome
    obtain ⟨w, hw⟩ := Option.ne_none_iff_exists'.mp hsome
    have hall : ∀ s ∈ [managerStep], s.Conforms := conforms_of_accepts hw
    exact hcapital (hall managerStep List.mem_cons_self).1

end steps

end PigaLinux.PppNames
