import PigaLinux.Loading
import PigaLinux.PppCompile
import PigaLinux.PppPrint

namespace PigaLinux.Toolchain

open Kernel Trace Indices Greedy Monitor Runs PppSyntax Ppp PppActions PppCompile PppParse PppLex
open Piga (Sequence Link State Policy)
open Loading hiding Line

def seqCapacity : Nat := 400000

def linkCapacity : Nat := 10000000

/-- The system call with both cursors and the two arrays as main allocates them. -/
def setSequence (m : Allocator) (k : Loader) : Upload where
  toAllocator := m
  sLen := k.currSeq
  lLen := k.currLink
  s := some ((List.range seqCapacity).map fun i => k.s (BitVec.ofNat 32 i))
  l := some ((List.range linkCapacity).map fun i => k.l (BitVec.ofNat 32 i))

/-- The loader, from the text on its standard input to its exit code and the
state that it leaves the kernel in. -/
def main (env : Env) (s : U32 → Sequence) (l : U32 → Link) (m : Allocator) (text : List Char) (kernel : State) :
    Int × State :=
  match (parseText env text (start s l)).value with
  | (none, _) => (-1, kernel)
  | (some _, k) =>
      let out := (sysPigaAddSequence kernel (setSequence m k)).value
      (if out.rc = 0 then 0 else -1, out.state)

/-- One step of a signature as the loader writes it down for the kernel. -/
def linkOf (env : Env) (answer : String → Getsid) (t : Transition) : Link where
  cs := sidOf (answer t.source.text)
  cc := sidOf (answer t.target.text)
  tclass := env.stringToSecurityClass t.vector.tclass.text
  requested := mask env (env.stringToSecurityClass t.vector.tclass.text) (pushed t.vector.request)

def signatureOf (env : Env) (answer : String → Getsid) (n : Line) : List Link := n.transitions.map (linkOf env answer)

/-- The access is the last step of the line, and the others have been taken before it, in order. -/
def Completes (env : Env) (answer : String → Getsid) (n : Line) (past : List Access) (a : Access) : Prop :=
  List.SublistForall₂ Link.Matches (signatureOf env answer n).dropLast past ∧
    ∃ x, (signatureOf env answer n).getLast? = some x ∧ x.Matches a

/-- What the kernel does from a state on is what the lines say. -/
structure Enforces (env : Env) (answer : String → Getsid) (ns : List Line) (k : State) : Prop where
  verdicts : ∀ es i a r, (history k es)[i]? = some (a, r) →
    (r = -eacces ↔ ∃ n ∈ ns, Completes env answer n ((examined k es).take i) a)
  reads : ∀ es, ∀ i ∈ (run k es).used, i.toNat < k.pol.lLen.toNat

section layout

variable {env : Env} {answer : String → Getsid}

theorem linkOf_establishes (ha : ∀ n c, env.getsid n c = answer c) :
    Establishes env (fun k => k.requestList = [] ∧ Cached answer k) fun t x => x = linkOf env answer t where
  clean := (resolved_establishes ha).clean
  link t k hk := by
    obtain ⟨h₁, h₂, -⟩ := lookups_cached ha t hk.1 hk.2
    have h : TransitionDone env t k _ := parseTransition_done t k hk.1
    rw [h.l, Function.update_self, h₁, h₂]
    rfl
  transition := (resolved_establishes ha).transition
  line := (resolved_establishes ha).line

/-- The arrays that the loader hands over for the lines of a file. -/
abbrev Written (env : Env) (answer : String → Getsid) (ns : List Line) (k : Loader) : Prop :=
  Laid (fun t x => x = linkOf env answer t) ns k

theorem yyparse_written (ha : ∀ n c, env.getsid n c = answer c) (w : Wholefile) (l : U32 → Link)
    (hs : w.file.lines.length < 2 ^ 32) (hl : 2 * size w.file.lines < 2 ^ 32) :
    Written env answer w.file.lines (yyparse env w (start (fun _ => ⟨0, 0, 0⟩) l)).value := by
  have hgood : Cached answer (start (fun _ => ⟨0, 0, 0⟩) l) := fun _ _ hr => by simp [start] at hr
  exact (parseFile_laid (linkOf_establishes ha) w.file ⟨rfl, hgood⟩ (laid_start l) hs hl).2

/-- The policy in the kernel is what the loader's cursors delimit in its arrays. -/
structure Installed (k : Loader) (p : Policy) : Prop where
  seq : p.seq = (List.range k.currSeq.toNat).map fun i => k.s (BitVec.ofNat 32 i)
  link : p.link = (List.range k.currLink.toNat).map fun i => k.l (BitVec.ofNat 32 i)
  lLen : p.lLen = k.currLink

variable {ns : List Line} {k : Loader} {p : Policy}

theorem Installed.mem_seq (hp : Installed k p) (h : Written env answer ns k) {s : Sequence} :
    s ∈ p.seq ↔ ∃ i n, ns[i]? = some n ∧ s = k.s (BitVec.ofNat 32 i) := by
  rw [hp.seq, List.mem_map, h.currSeq]
  constructor
  · rintro ⟨i, hi, rfl⟩
    exact ⟨i, _, List.getElem?_eq_getElem (List.mem_range.mp hi), rfl⟩
  · rintro ⟨i, n, hn, rfl⟩
    exact ⟨i, List.mem_range.mpr (List.getElem?_eq_some_iff.mp hn).1, rfl⟩

theorem Installed.fresh (hp : Installed k p) (h : Written env answer ns k) {i : Nat} {n : Line}
    (hn : ns[i]? = some n) : Fresh p (k.s (BitVec.ofNat 32 i)) where
  one_le := by
    rw [h.length i n hn]
    exact n.signature.transitions_pos
  atStart := h.position i n hn
  range := by
    have hle := h.offset_add_le hn
    rw [hp.lLen, h.length i n hn]
    omega

theorem Installed.links (hp : Installed k p) (h : Written env answer ns k) {i : Nat} {n : Line}
    (hn : ns[i]? = some n) : links p (k.s (BitVec.ofNat 32 i)) = signatureOf env answer n := by
  have hlen := h.length i n hn
  have hoff := h.offset_add_le hn
  have hcl := k.currLink.isLt
  apply List.ext_getElem
  · rw [links_length (hp.fresh h hn).safe, hlen, signatureOf, List.length_map]
  · intro j hj hj'
    rw [signatureOf, List.length_map] at hj'
    have hx := h.links i n j _ hn (List.getElem?_eq_getElem hj')
    simp only [Monitor.links, signatureOf, hp.link, List.getElem_take, List.getElem_drop, List.getElem_map,
      List.getElem_range]
    rw [← hx]
    congr 1
    apply BitVec.eq_of_toNat_eq
    rw [toNat_add_ofNat (by omega), toNat_index (by omega)]

theorem completes_iff (n : Line) (past : List Access) (a : Access) :
    Completes env answer n past a ↔
      n.transitions.length - 1 ≤ greedy Link.Matches (signatureOf env answer n) past ∧
        ∃ x, (signatureOf env answer n).getLast? = some x ∧ x.Matches a := by
  have hlen : (signatureOf env answer n).length = n.transitions.length := List.length_map _
  rw [Completes, List.dropLast_eq_take, hlen, sublistForall₂_take_iff _ _ _ _ (by omega)]

theorem Installed.enforces (hp : Installed k p) (h : Written env answer ns k) (status auditOnlyMode : Bool) :
    Enforces env answer ns ⟨status, auditOnlyMode, p⟩ where
  verdicts es i a r hr := by
    rw [history_answer _ es i a r hr]
    -- each line has its own sequence, and the token of that one is on its last link
    have hline : ∀ j n, ns[j]? = some n → (Piga.Refuses p a (passes p
        ((examined ⟨status, auditOnlyMode, p⟩ es).take i) (k.s (BitVec.ofNat 32 j))) ↔
          Completes env answer n ((examined ⟨status, auditOnlyMode, p⟩ es).take i) a) := by
      intro j n hn
      rw [(hp.fresh h hn).refuses_passes, hp.links h hn, h.length j n hn, completes_iff]
    constructor
    · rintro ⟨s, hs, href⟩
      obtain ⟨j, n, hn, rfl⟩ := (hp.mem_seq h).mp hs
      exact ⟨n, List.mem_of_getElem? hn, (hline j n hn).mp href⟩
    · rintro ⟨n, hn, hc⟩
      obtain ⟨j, hj⟩ := List.getElem?_of_mem hn
      exact ⟨_, (hp.mem_seq h).mpr ⟨j, n, hj, rfl⟩, (hline j n hj).mpr hc⟩
  reads es i hi := by
    have hsafe : AllSafe p := by
      intro s hs
      obtain ⟨j, n, hn, rfl⟩ := (hp.mem_seq h).mp hs
      exact (hp.fresh h hn).safe
    exact InRange.lt hsafe (run_within hsafe es i hi)

end layout

section upload

theorem take_map_range {α : Type} (f : Nat → α) {m n : Nat} (h : m ≤ n) :
    ((List.range n).map f).take m = (List.range m).map f := by
  rw [← List.map_take, List.take_range, Nat.min_eq_left h]

theorem accepted_setSequence {m : Allocator} {k : Loader} (hseq : m.seqAllocated = true)
    (hlink : m.linkAllocated = true) (hs : 0 < k.currSeq.toNat) (hsc : k.currSeq.toNat ≤ seqCapacity)
    (hl : 0 < k.currLink.toNat) (hlc : k.currLink.toNat ≤ linkCapacity) :
    Accepted (setSequence m k) ∧ Fits (setSequence m k) := by
  have hsb : sizeofSequence * k.currSeq.toNat ≤ sizeofSequence * seqCapacity := Nat.mul_le_mul_left _ hsc
  have hlb : sizeofLink * k.currLink.toNat ≤ sizeofLink * linkCapacity := Nat.mul_le_mul_left _ hlc
  have hsmax : sizeofSequence * seqCapacity < 2 ^ 31 := by decide
  have hlmax : sizeofLink * linkCapacity < 2 ^ 31 := by decide
  refine ⟨⟨hseq, hlink, ?_, ?_, ⟨_, _, rfl, copySize_of_lt (hsb.trans_lt hsmax), ?_⟩,
    ⟨_, _, rfl, copySize_of_lt (hlb.trans_lt hlmax), ?_⟩⟩, ?_, ?_⟩
  · exact fun h => absurd (congrArg BitVec.toNat h) (Nat.ne_of_gt hs)
  · exact fun h => absurd (congrArg BitVec.toNat h) (Nat.ne_of_gt hl)
  · rw [List.length_map, List.length_range]
    exact hsb
  · rw [List.length_map, List.length_range]
    exact hlb
  · exact (hsb.trans_lt hsmax).trans (by decide)
  · exact (hlb.trans_lt hlmax).trans (by decide)

theorem copyPolicy_setSequence {m : Allocator} {k : Loader} (hseq : m.seqAllocated = true)
    (hlink : m.linkAllocated = true) (hs : 0 < k.currSeq.toNat) (hsc : k.currSeq.toNat ≤ seqCapacity)
    (hl : 0 < k.currLink.toNat) (hlc : k.currLink.toNat ≤ linkCapacity) :
    ∃ p, copyPolicy (setSequence m k) = .ok p ∧ Installed k p := by
  obtain ⟨haccepted, hfits⟩ := accepted_setSequence hseq hlink hs hsc hl hlc
  obtain ⟨p, hp⟩ := haccepted.copyPolicy
  obtain ⟨-, hlen, ⟨s, hs', -, hps⟩, ⟨l, hl', -, hpl⟩⟩ := (copyPolicy_ok hp).2.copied hfits
  obtain rfl := Option.some.inj hs'
  obtain rfl := Option.some.inj hl'
  exact ⟨p, hp, hps.trans (take_map_range _ hsc), hpl.trans (take_map_range _ hlc), hlen⟩

theorem main_failed {env : Env} {s : U32 → Sequence} {l : U32 → Link} {m : Allocator} {text : List Char} {kernel : State}
    (h : (main env s l m text kernel).1 ≠ 0) : (main env s l m text kernel).2 = kernel := by
  rw [main] at h ⊢
  split at h
  · rfl
  · apply sysPigaAddSequence_failed
    intro hz
    exact h (if_pos hz)

end upload

theorem size_pos {ns : List Line} (h : ns ≠ []) : 0 < size ns := by
  cases ns with
  | nil => exact absurd rfl h
  | cons n ns =>
      have hn : 0 < n.transitions.length := n.signature.transitions_pos
      have hsize := size_append [n] ns
      rw [size_singleton, List.singleton_append] at hsize
      omega

/-- From the text of a policy to the verdicts of the kernel: on zeroed arrays that are
large enough, the loader succeeds, leaves both switches as they were, and from then on an
access is refused exactly when it completes one of the lines. -/
theorem main_enforces (env : Env) (answer : String → Getsid) (ha : ∀ n c, env.getsid n c = answer c)
    (l : U32 → Link) (m : Allocator) (hseq : m.seqAllocated = true) (hlink : m.linkAllocated = true)
    (text : List Char) (w : Wholefile) (hw : yylex text = tokens w) (hs : w.file.lines.length < seqCapacity)
    (hl : 2 * size w.file.lines ≤ linkCapacity) (kernel : State) :
    ∃ p, main env (fun _ => ⟨0, 0, 0⟩) l m text kernel = (0, { kernel with pol := p }) ∧
      Enforces env answer w.file.lines { kernel with pol := p } := by
  have hs' : w.file.lines.length < 2 ^ 32 := hs.trans (by decide)
  have hl' : 2 * size w.file.lines < 2 ^ 32 := hl.trans_lt (by decide)
  have h := yyparse_written ha w l hs' hl'
  have hpos := List.length_pos_of_ne_nil (PppPrint.lines_ne_nil w.file)
  have hsize := size_pos (PppPrint.lines_ne_nil w.file)
  obtain ⟨p, hp, hinst⟩ := copyPolicy_setSequence hseq hlink (by rw [h.currSeq]; exact hpos)
    (by rw [h.currSeq]; exact hs.le) (by rw [h.currLink]; omega) (by rw [h.currLink]; exact hl)
  refine ⟨p, ?_, hinst.enforces h kernel.status kernel.auditOnlyMode⟩
  rw [main, parseText_of_tokens env hw, value_bind, value_pure]
  dsimp only
  rw [sysPigaAddSequence, hp]
  rfl

def freshAllocator : Allocator := ⟨true, true, fun _ => ⟨0, 0, 0⟩, fun _ => ⟨0, 0, 0, 0⟩, fun _ => ⟨0, 0, 0, 0⟩⟩

theorem main_enforces_shadow :
    ∃ p, main shadowEnv (fun _ => ⟨0, 0, 0⟩) (fun _ => ⟨0, 0, 0, 0⟩) freshAllocator (PppPrint.print shadowFile) bootState =
        (0, { bootState with pol := p }) ∧
      Enforces shadowEnv shadowAnswer shadowFile.file.lines { bootState with pol := p } :=
  main_enforces shadowEnv shadowAnswer (fun _ _ => rfl) _ freshAllocator rfl rfl _ shadowFile
    (PppPrint.yylex_print shadowFile) (by decide) (by decide) bootState

end PigaLinux.Toolchain
