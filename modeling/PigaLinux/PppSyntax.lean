import PigaLinux.Kernel

namespace PigaLinux.PppSyntax

def isLower (c : Char) : Bool := 'a' ≤ c && c ≤ 'z'

def isDigit (c : Char) : Bool := '0' ≤ c && c ≤ '9'

def isWordChar (c : Char) : Bool := isLower c || c == '_'

def isSidChar (c : Char) : Bool := isLower c || isDigit c || c == '_'

def isBoolChar (c : Char) : Bool := isDigit c || c == '!' || c == '$'

def isTypeChar (c : Char) : Bool := 'A' ≤ c && c ≤ 'Z'

/-- A nonempty text over one character class, as the lexer's repetitions accept it. -/
def Run (p : Char → Bool) (text : String) : Prop := text.toList ≠ [] ∧ text.toList.all p = true

instance (p : Char → Bool) : DecidablePred (Run p) := fun _ => inferInstanceAs (Decidable (_ ∧ _))

theorem Run.ne_empty {p : Char → Bool} {text : String} (h : Run p text) : text ≠ "" := by
  rintro rfl
  exact h.1 rfl

structure Word where
  text : String
  lexed : Run isWordChar text

structure Context where
  user : String
  role : String
  type : String
  user_lexed : Run isSidChar user
  role_lexed : Run isSidChar role
  type_lexed : Run isSidChar type

def Context.text (c : Context) : String := c.user ++ ":" ++ c.role ++ ":" ++ c.type

structure BoolToken where
  text : String
  lexed : Run isBoolChar text

structure TypeToken where
  text : String
  lexed : Run isTypeChar text

inductive Request where
  | word (w : Word)
  | snoc (r : Request) (w : Word)

structure AvVector where
  tclass : Word
  request : Request

structure Transition where
  source : Context
  vector : AvVector
  target : Context

inductive Signature where
  | transition (t : Transition)
  | snoc (g : Signature) (t : Transition)

/-- A line, with its TYPE when the first of the two rules derives it. -/
structure Line where
  type : Option TypeToken
  bool : BoolToken
  signature : Signature

inductive File where
  | line (n : Line)
  | snoc (f : File) (n : Line)

/-- A whole input, with or without an end of line before the end of the file. -/
structure Wholefile where
  file : File
  eol : Bool

def Request.words : Request → List String
  | .word w => [w.text]
  | .snoc r w => r.words ++ [w.text]

def Request.first : Request → String
  | .word w => w.text
  | .snoc r _ => r.first

def Signature.transitions : Signature → List Transition
  | .transition t => [t]
  | .snoc g t => g.transitions ++ [t]

def Line.transitions (n : Line) : List Transition := n.signature.transitions

def File.lines : File → List Line
  | .line n => [n]
  | .snoc f n => f.lines ++ [n]

theorem Request.first_mem (r : Request) : r.first ∈ r.words := by
  induction r with
  | word w => exact List.mem_singleton.mpr rfl
  | snoc r w ih => exact List.mem_append_left _ ih

theorem Request.ne_empty (r : Request) {w : String} (hw : w ∈ r.words) : w ≠ "" := by
  induction r with
  | word v =>
      rw [Request.words, List.mem_singleton] at hw
      exact hw ▸ v.lexed.ne_empty
  | snoc r v ih =>
      rcases List.mem_append.mp hw with h | h
      · exact ih h
      · exact List.mem_singleton.mp h ▸ v.lexed.ne_empty

theorem Signature.transitions_pos (g : Signature) : 0 < g.transitions.length := by
  cases g with
  | transition t => exact Nat.one_pos
  | snoc g t => simp [Signature.transitions]

end PigaLinux.PppSyntax
