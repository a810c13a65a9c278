import PigaLinux.Piga
import PigaLinux.PppSyntax
import Mathlib.Algebra.Ring.Nat
import Mathlib.Logic.Function.Basic

namespace PigaLinux.Ppp

open Kernel Trace PppSyntax
open Piga (Sequence Link)

/-- What one exchange with /proc/piga/getsid gives: an open that fails, or the line read back. -/
inductive Getsid where
  | cannotWrite
  | cannotRead
  | answer (line : String)

/-- What the loader gets from outside: libselinux, and the n-th exchange with the kernel. -/
structure Env where
  stringToSecurityClass : String → U16
  stringToAvPerm : U16 → String → U32
  getsid : Nat → String → Getsid

inductive Slot where
  | s (i : U32)
  | l (i : U32)

structure Loader where
  s : U32 → Sequence
  l : U32 → Link
  currSeq : U32
  currLink : U32
  requestList : List String
  tclassMap : String → Option U32
  invalidContext : Bool
  sidMap : String → Option U32
  statSidMap : String → U32
  statTclassMap : String → U32
  statRequestedMap : String → U32
  loaded : U32
  ignored : U32
  queries : Nat

/-- The globals when the parser is started on freshly allocated arrays. -/
def start (s : U32 → Sequence) (l : U32 → Link) : Loader where
  s := Function.update s 0 { s 0 with linkOffset := 0 }
  l := l
  currSeq := 0
  currLink := 0
  requestList := []
  tclassMap := fun _ => none
  invalidContext := false
  sidMap := fun _ => none
  statSidMap := fun _ => 0
  statTclassMap := fun _ => 0
  statRequestedMap := fun _ => 0
  loaded := 0
  ignored := 0
  queries := 0

/-- The globals on arrays of zeros. -/
def zeroed : Loader := start (fun _ => ⟨0, 0, 0⟩) (fun _ => ⟨0, 0, 0, 0⟩)

def digits (n : Nat) : List Char → Nat
  | c :: cs => if isDigit c then digits (10 * n + (c.toNat - '0'.toNat)) cs else n
  | [] => n

def isSpace (c : Char) : Bool := c == ' ' || ('\t' ≤ c && c ≤ '\r')

/-- The C function in base 10: blanks, a sign, digits, and the largest value on overflow. -/
def strtoul (line : String) : BitVec 64 :=
  match line.toList.dropWhile isSpace with
  | '-' :: cs => if digits 0 cs < 2 ^ 64 then -BitVec.ofNat 64 (digits 0 cs) else -1
  | '+' :: cs => if digits 0 cs < 2 ^ 64 then BitVec.ofNat 64 (digits 0 cs) else -1
  | cs => if digits 0 cs < 2 ^ 64 then BitVec.ofNat 64 (digits 0 cs) else -1

def statPerm (tclass requested : String) (k : Loader) : Loader :=
  if requested = "" then
    { k with statTclassMap := Function.update k.statTclassMap tclass (k.statTclassMap tclass + 1) }
  else
    { k with
      statRequestedMap := Function.update k.statRequestedMap requested (k.statRequestedMap requested + 1) }

def rejectZero (res : U32) (k : Loader) : Loader :=
  if res = 0 then { k with invalidContext := true } else k

def stringToSid (env : Env) (sid : String) (k : Loader) : U32 × Loader :=
  match k.sidMap sid with
  | some res =>
      (res, rejectZero res { k with statSidMap := Function.update k.statSidMap sid (k.statSidMap sid + 1) })
  | none =>
      match env.getsid k.queries sid with
      | .answer line =>
          ((strtoul line).setWidth 32, rejectZero ((strtoul line).setWidth 32)
            { k with
              sidMap := Function.update k.sidMap sid (some ((strtoul line).setWidth 32))
              statSidMap := Function.update k.statSidMap sid 1
              queries := k.queries + 1 })
      -- neither failure is remembered in sid_map
      | _ => (-1, { k with invalidContext := true, queries := k.queries + 1 })

def modifyLink (f : Link → Link) (k : Loader) : Traced Slot Loader :=
  visit (.l k.currLink) { k with l := Function.update k.l k.currLink (f (k.l k.currLink)) }

def modifySeq (f : Sequence → Sequence) (k : Loader) : Traced Slot Loader :=
  visit (.s k.currSeq) { k with s := Function.update k.s k.currSeq (f (k.s k.currSeq)) }

def pushRequest (w : String) (k : Loader) : Loader := { k with requestList := k.requestList ++ [w] }

/-- The permission list. A rule's value starts out as that of its first
symbol, so both actions push the value of the list's first word. -/
def parseRequest : Request → Loader → String × Loader
  | .word w, k => (w.text, pushRequest w.text k)
  | .snoc r _, k => ((parseRequest r k).1, pushRequest (parseRequest r k).1 (parseRequest r k).2)

def addRequest (env : Env) (tclass it : String) (k : Loader) : Traced Slot Loader := do
  let c ← visit (.l k.currLink) (k.l k.currLink).tclass
  let k ← modifyLink (fun x => { x with requested := x.requested ||| env.stringToAvPerm c it }) k
  return statPerm tclass it k

def vectorAction (env : Env) (tclass : String) (k : Loader) : Traced Slot Loader := do
  let k ← modifyLink (fun x => { x with tclass := env.stringToSecurityClass tclass }) k
  let c ← visit (.l k.currLink) (k.l k.currLink).tclass
  let k := { k with tclassMap := Function.update k.tclassMap tclass (some (c.setWidth 32)) }
  let k ← modifyLink (fun x => { x with requested := 0 }) k
  let k ← k.requestList.foldlM (fun k it => addRequest env tclass it k) k
  return { statPerm tclass "" k with requestList := [] }

def parseVector (env : Env) (v : AvVector) (k : Loader) : Traced Slot Loader :=
  vectorAction env v.tclass.text (parseRequest v.request k).2

def pigaSeqAddLink (k : Loader) : Traced Slot Loader := do
  let k ← modifySeq (fun x => { x with length := x.length + 1 }) k
  return { k with currLink := k.currLink + 1 }

def transitionAction (env : Env) (source target : String) (k : Loader) : Traced Slot Loader := do
  let (cs, k) := stringToSid env source k
  let k ← modifyLink (fun x => { x with cs := cs }) k
  let (cc, k) := stringToSid env target k
  let k ← modifyLink (fun x => { x with cc := cc }) k
  pigaSeqAddLink k

def parseTransition (env : Env) (t : Transition) (k : Loader) : Traced Slot Loader := do
  let k ← parseVector env t.vector k
  transitionAction env t.source.text t.target.text k

def parseSignature (env : Env) : Signature → Loader → Traced Slot Loader
  | .transition t, k => parseTransition env t k
  | .snoc g t, k => do
      let k ← parseSignature env g k
      parseTransition env t k

def countLine (k : Loader) : Loader :=
  if k.invalidContext then { k with ignored := k.ignored + 1, invalidContext := false }
  else { k with loaded := k.loaded + 1 }

/-- The action at the end of a line, the same for both rules. -/
def lineAction (k : Loader) : Traced Slot Loader := do
  let k := countLine k
  let n ← visit (.s k.currSeq) (k.s k.currSeq).length
  let k := { k with currLink := k.currLink + n, currSeq := k.currSeq + 1 }
  modifySeq (fun x => { x with linkOffset := k.currLink }) k

def parseLine (env : Env) (n : Line) (k : Loader) : Traced Slot Loader := do
  let k ← parseSignature env n.signature k
  lineAction k

def parseFile (env : Env) : File → Loader → Traced Slot Loader
  | .line n, k => parseLine env n k
  | .snoc f n, k => do
      let k ← parseFile env f k
      parseLine env n k

/-- A successful run of the parser. The end of line before the end of the file has no action. -/
def yyparse (env : Env) (w : Wholefile) (k : Loader) : Traced Slot Loader := parseFile env w.file k

end PigaLinux.Ppp
