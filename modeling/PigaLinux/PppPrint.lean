import PigaLinux.PppParse

namespace PigaLinux.PppPrint

open Lexing PppSyntax Ppp PppLex PppParse

def printTokens (ts : List Token) : List Char := [' '].intercalate (ts.map Token.text)

def printLine (n : Line) : List Char := printTokens (lineTokens n)

def print (w : Wholefile) : List Char :=
  ['\n'].intercalate (w.file.lines.map printLine) ++ if w.eol then ['\n'] else []

theorem lex_printTokens {ts : List Token} (hne : ts ≠ []) (hts : ∀ t ∈ ts, Token.Plain t) {bol : Bool}
    {rest : List Char} (h : Separated rest) :
    lexer.lex bol (printTokens ts ++ rest) = ts ++ lexer.lex false rest := by
  induction ts generalizing bol with
  | nil => exact absurd rfl hne
  | cons t ts ih =>
      rw [List.forall_mem_cons] at hts
      cases ts with
      | nil =>
          have htext : printTokens [t] = t.text := by simp [printTokens]
          rw [htext, lex_token (ends_of_separated hts.1 h)]
          rfl
      | cons t' ts =>
          have htext : printTokens (t :: t' :: ts) ++ rest = t.text ++ ' ' :: (printTokens (t' :: ts) ++ rest) := by
            simp [printTokens, List.intercalate]
          have hsep : Separated (' ' :: (printTokens (t' :: ts) ++ rest)) := separated_cons (by decide)
          rw [htext, lex_token (ends_of_separated hts.1 hsep), lex_blank (by decide),
            ih (List.cons_ne_nil t' ts) hts.2]
          rfl

theorem plain_signatureTokens (g : Signature) : ∀ t ∈ signatureTokens g, Token.Plain t := by
  apply forall_mem_signatureTokens
  all_goals simp [Token.Plain]

theorem plain_lineTokens (n : Line) : ∀ t ∈ lineTokens n, Token.Plain t := by
  rw [lineTokens, List.forall_mem_append]
  refine ⟨?_, plain_signatureTokens n.signature⟩
  cases htype : n.type <;> simp [headTokens, typeTokens, Token.Plain]

theorem lineTokens_ne_nil (n : Line) : lineTokens n ≠ [] := by
  simp [lineTokens, headTokens]

theorem intercalate_snoc {α : Type} (sep : List α) {xs : List (List α)} (h : xs ≠ []) (x : List α) :
    sep.intercalate (xs ++ [x]) = sep.intercalate xs ++ sep ++ x := by
  induction xs with
  | nil => exact absurd rfl h
  | cons y ys ih =>
      cases ys with
      | nil => simp [List.intercalate]
      | cons z zs =>
          have hcons := ih (List.cons_ne_nil z zs)
          simp only [List.intercalate, List.cons_append, List.intersperse_cons_cons, List.flatten_cons] at hcons ⊢
          rw [hcons]
          simp

theorem lines_ne_nil (f : File) : f.lines ≠ [] := by
  cases f <;> simp [File.lines]

theorem infix_intercalate {α : Type} {sep xs : List α} {xss : List (List α)} (h : xs ∈ xss) : xs <:+: sep.intercalate xss := by
  induction xss with
  | nil => cases h
  | cons ys xss ih =>
      by_cases hnil : xss = []
      · subst hnil
        obtain rfl := List.mem_singleton.mp h
        exact ⟨[], [], by simp⟩
      · rw [List.intercalate_cons_of_ne_nil hnil]
        rcases List.mem_cons.mp h with rfl | h
        · exact ⟨[], _, by rw [List.nil_append, List.append_assoc]⟩
        · exact (ih h).trans (List.suffix_append _ _).isInfix

theorem fileTokens_eq (f : File) : fileTokens f = [Token.eol].intercalate (f.lines.map lineTokens) := by
  induction f with
  | line n => simp [fileTokens, File.lines]
  | snoc f n ih =>
      have hne : f.lines.map lineTokens ≠ [] := by simpa using lines_ne_nil f
      rw [fileTokens, File.lines, List.map_append, List.map_singleton, intercalate_snoc _ hne, ← ih]
      simp

theorem lex_printLines {ns : List Line} (hne : ns ≠ []) {rest : List Char} (h : Separated rest) :
    lexer.lex true (['\n'].intercalate (ns.map printLine) ++ rest) =
      [Token.eol].intercalate (ns.map lineTokens) ++ lexer.lex false rest := by
  induction ns with
  | nil => exact absurd rfl hne
  | cons n ns ih =>
      have hline {rest : List Char} (h : Separated rest) :
          lexer.lex true (printLine n ++ rest) = lineTokens n ++ lexer.lex false rest :=
        lex_printTokens (lineTokens_ne_nil n) (plain_lineTokens n) h
      cases ns with
      | nil => simpa using hline h
      | cons m ns =>
          have htext : ['\n'].intercalate ((n :: m :: ns).map printLine) ++ rest =
              printLine n ++ '\n' :: (['\n'].intercalate ((m :: ns).map printLine) ++ rest) := by
            simp [List.intercalate]
          have htokens : [Token.eol].intercalate ((n :: m :: ns).map lineTokens) =
              lineTokens n ++ .eol :: [Token.eol].intercalate ((m :: ns).map lineTokens) := by
            simp [List.intercalate]
          rw [htext, htokens, hline (separated_cons (by decide)), lex_eol, ih (List.cons_ne_nil m ns)]
          simp

theorem yylex_print (w : Wholefile) : yylex (print w) = tokens w := by
  have hne := lines_ne_nil w.file
  rw [yylex, print, tokens, fileTokens_eq]
  cases w.eol with
  | true =>
      rw [if_pos rfl, lex_printLines hne (separated_cons (by decide)), lex_eol, lex_nil]
      simp
  | false =>
      have hsep : Separated [] := fun a ha => by cases ha
      rw [if_neg (by decide), lex_printLines hne hsep, lex_nil]
      simp

/-- Lexing and parsing undo printing. -/
theorem parse_print (env : Env) (w : Wholefile) (k : Loader) :
    yylex (print w) = tokens w ∧ (parseText env (print w) k).value.1 = some w :=
  ⟨yylex_print w, (accepts_iff env (print w) k w).mpr (yylex_print w)⟩

end PigaLinux.PppPrint
