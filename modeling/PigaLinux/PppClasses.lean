import PigaLinux.ClassMap
import PigaLinux.PppPrint
import PigaLinux.PppRequests
import Mathlib.Data.List.Chain

namespace PigaLinux.PppClasses

open Kernel Trace Bits ClassMap Lexing PppSyntax Ppp PppActions PppCompile PppRequests PppLex PppParse PppPrint
open Piga (Link)

/-- A transition over one or more classes. -/
structure MultiTransition where
  source : Context
  vector : AvVector
  more : List AvVector
  target : Context

def MultiTransition.vectors (t : MultiTransition) : List AvVector := t.vector :: t.more

structure MultiLine where
  type : Option TypeToken
  bool : BoolToken
  first : MultiTransition
  rest : List MultiTransition

def MultiLine.transitions (n : MultiLine) : List MultiTransition := n.first :: n.rest

structure MultiPolicy where
  first : MultiLine
  rest : List MultiLine
  eol : Bool

def MultiPolicy.lines (p : MultiPolicy) : List MultiLine := p.first :: p.rest

def MultiPolicy.size (p : MultiPolicy) : Nat := (p.lines.map fun n => n.transitions.length).sum

def MultiTransition.tokens (t : MultiTransition) : List Token :=
  .sid t.source :: .avpermstart :: (t.vectors.flatMap vectorTokens ++ [.avpermend, .sid t.target])

def MultiLine.tokens (n : MultiLine) : List Token :=
  headTokens n.type n.bool ++ [Token.char ';'].intercalate (n.transitions.map MultiTransition.tokens)

def MultiPolicy.tokens (p : MultiPolicy) : List Token :=
  [Token.eol].intercalate (p.lines.map MultiLine.tokens) ++ if p.eol then [.eol, .endf] else [.endf]

section single

def signatureOf (t : Transition) (ts : List Transition) : Signature := ts.foldl .snoc (.transition t)

def fileOf (n : Line) (ns : List Line) : File := ns.foldl .snoc (.line n)

theorem transitions_foldl (g : Signature) (ts : List Transition) :
    (ts.foldl .snoc g).transitions = g.transitions ++ ts := by
  induction ts generalizing g with
  | nil => simp
  | cons t ts ih => rw [List.foldl_cons, ih, Signature.transitions, List.append_assoc, List.singleton_append]

theorem transitions_signatureOf (t : Transition) (ts : List Transition) : (signatureOf t ts).transitions = t :: ts :=
  transitions_foldl (.transition t) ts

theorem lines_foldl (f : File) (ns : List Line) : (ns.foldl .snoc f).lines = f.lines ++ ns := by
  induction ns generalizing f with
  | nil => simp
  | cons n ns ih => rw [List.foldl_cons, ih, File.lines, List.append_assoc, List.singleton_append]

theorem lines_fileOf (n : Line) (ns : List Line) : (fileOf n ns).lines = n :: ns := lines_foldl (.line n) ns

def MultiTransition.single (t : MultiTransition) : Transition := ⟨t.source, t.vector, t.target⟩

def MultiLine.single (n : MultiLine) : Line := ⟨n.type, n.bool, signatureOf n.first.single (n.rest.map MultiTransition.single)⟩

def MultiPolicy.single (p : MultiPolicy) : Wholefile := ⟨fileOf p.first.single (p.rest.map MultiLine.single), p.eol⟩

theorem MultiLine.transitions_single (n : MultiLine) : n.single.transitions = n.transitions.map MultiTransition.single :=
  transitions_signatureOf _ _

theorem MultiPolicy.lines_single (p : MultiPolicy) : p.single.file.lines = p.lines.map MultiLine.single := lines_fileOf _ _

theorem MultiPolicy.size_single (p : MultiPolicy) : PppCompile.size p.single.file.lines = p.size := by
  rw [PppCompile.size, p.lines_single, List.map_map, MultiPolicy.size]
  refine congrArg List.sum (List.map_congr_left fun n _ => ?_)
  rw [Function.comp_apply, n.transitions_single, List.length_map]

theorem signatureTokens_eq (g : Signature) :
    signatureTokens g = [Token.char ';'].intercalate (g.transitions.map transitionTokens) := by
  induction g with
  | transition t => simp [signatureTokens, Signature.transitions]
  | snoc g t ih =>
      have hne : g.transitions.map transitionTokens ≠ [] := by
        simpa using List.ne_nil_of_length_pos g.transitions_pos
      rw [signatureTokens, Signature.transitions, List.map_append, List.map_singleton, intercalate_snoc _ hne, ← ih]
      simp

theorem MultiTransition.tokens_single {t : MultiTransition} (h : t.more = []) : transitionTokens t.single = t.tokens := by
  simp [transitionTokens, MultiTransition.single, MultiTransition.tokens, MultiTransition.vectors, h]

theorem MultiLine.tokens_single {n : MultiLine} (h : ∀ t ∈ n.transitions, t.more = []) : lineTokens n.single = n.tokens := by
  have hmap : n.single.signature.transitions.map transitionTokens = n.transitions.map MultiTransition.tokens := by
    change n.single.transitions.map transitionTokens = _
    rw [n.transitions_single, List.map_map]
    exact List.map_congr_left fun t ht => t.tokens_single (h t ht)
  rw [lineTokens, signatureTokens_eq, hmap]
  rfl

theorem policyTokens_single {p : MultiPolicy} (h : ∀ n ∈ p.lines, ∀ t ∈ n.transitions, t.more = []) :
    tokens p.single = p.tokens := by
  have hmap : p.single.file.lines.map lineTokens = p.lines.map MultiLine.tokens := by
    rw [p.lines_single, List.map_map]
    exact List.map_congr_left fun n hn => n.tokens_single (h n hn)
  rw [tokens, fileTokens_eq, hmap]
  rfl

end single

section braces

def EndsVectors (t t' : Token) : Prop := t = .char '}' → t' = .avpermend

variable {us : List Token}

theorem chain_skip {ts : List Token} (hts : ∀ t ∈ ts, t ≠ .char '}') (h : us.IsChain EndsVectors) :
    (ts ++ us).IsChain EndsVectors := by
  induction ts with
  | nil => exact h
  | cons t ts ih =>
      rw [List.forall_mem_cons] at hts
      exact (ih hts.2).cons fun u _ heq => absurd heq hts.1

theorem chain_transition (t : Transition) (h : us.IsChain EndsVectors) : (transitionTokens t ++ us).IsChain EndsVectors := by
  have hfront : ∀ x ∈ [Token.sid t.source, .avpermstart, .word t.vector.tclass, .char '{'] ++ requestTokens t.vector.request,
      x ≠ .char '}' := by
    rw [List.forall_mem_append]
    exact ⟨by simp, forall_mem_requestTokens (by simp) _⟩
  have htail : ([Token.avpermend, .sid t.target] ++ us).IsChain EndsVectors := chain_skip (by simp) h
  have hbrace : (Token.char '}' :: ([Token.avpermend, .sid t.target] ++ us)).IsChain EndsVectors :=
    List.isChain_cons_cons.mpr ⟨fun _ => rfl, htail⟩
  have hall := chain_skip hfront hbrace
  simpa [transitionTokens, vectorTokens] using hall

theorem chain_signature (g : Signature) (h : us.IsChain EndsVectors) : (signatureTokens g ++ us).IsChain EndsVectors := by
  induction g generalizing us with
  | transition t => exact chain_transition t h
  | snoc g t ih =>
      rw [signatureTokens, List.append_assoc]
      apply ih
      have hsemi : ∀ x ∈ [Token.char ';'], x ≠ .char '}' := by simp
      exact (chain_skip hsemi (chain_transition t h) :)

theorem chain_line (n : Line) (h : us.IsChain EndsVectors) : (lineTokens n ++ us).IsChain EndsVectors := by
  have hhead : ∀ x ∈ headTokens n.type n.bool, x ≠ .char '}' := by
    cases n.type <;> simp [headTokens, typeTokens]
  rw [lineTokens, List.append_assoc]
  exact chain_skip hhead (chain_signature n.signature h)

theorem chain_file (f : File) (h : us.IsChain EndsVectors) : (fileTokens f ++ us).IsChain EndsVectors := by
  induction f generalizing us with
  | line n => exact chain_line n h
  | snoc f n ih =>
      rw [fileTokens, List.append_assoc]
      apply ih
      have heol : ∀ x ∈ [Token.eol], x ≠ .char '}' := by simp
      exact (chain_skip heol (chain_line n h) :)

theorem chain_tokens (w : Wholefile) : (tokens w).IsChain EndsVectors := by
  apply chain_file
  split
  · simp [EndsVectors]
  · exact List.isChain_singleton _

theorem braceWord_isInfix {t : MultiTransition} {v : AvVector} {vs : List AvVector} (h : t.more = v :: vs) :
    [Token.char '}', .word v.tclass] <:+: t.tokens := by
  refine ⟨.sid t.source :: .avpermstart :: .word t.vector.tclass :: .char '{' :: requestTokens t.vector.request,
    .char '{' :: (requestTokens v.request ++ .char '}' :: (vs.flatMap vectorTokens ++ [.avpermend, .sid t.target])), ?_⟩
  simp [MultiTransition.tokens, MultiTransition.vectors, h, vectorTokens]

theorem more_eq_nil {p : MultiPolicy} {w : Wholefile} (h : p.tokens = tokens w) :
    ∀ n ∈ p.lines, ∀ t ∈ n.transitions, t.more = [] := by
  intro n hn t ht
  by_contra hne
  obtain ⟨v, vs, hvs⟩ := List.exists_cons_of_ne_nil hne
  -- the word of a second class would come after a closing brace
  have hline : t.tokens <:+: n.tokens :=
    (infix_intercalate (List.mem_map_of_mem ht)).trans (List.suffix_append _ _).isInfix
  have hpolicy : n.tokens <:+: p.tokens :=
    (infix_intercalate (List.mem_map_of_mem hn)).trans (List.prefix_append _ _).isInfix
  have hchain := List.IsChain.infix (chain_tokens w) (h ▸ ((braceWord_isInfix hvs).trans (hline.trans hpolicy)))
  have hword := (List.isChain_cons_cons.mp hchain).1 rfl
  cases hword

end braces

section steps

/-- A kernel access with this class and these permissions is on the class of the
vector, and requests one of its permissions. -/
def Names (v : AvVector) (tclass : U16) (requested : U32) : Prop :=
  kernelClass v.tclass.text = some tclass ∧
    ∃ q ∈ v.request.words, ∃ b, kernelBit v.tclass.text q = some b ∧ requested.getLsbD b = true

def Asks (t : MultiTransition) (a : Access) : Prop := ∃ v ∈ t.vectors, Names v a.tclass a.requested

def firstMask (env : Env) (v : AvVector) : U32 :=
  env.stringToAvPerm (env.stringToSecurityClass v.tclass.text) v.request.first

/-- Libselinux numbers the class and the permissions as the kernel does, and its
mask for the first permission has the bits of all of them. -/
structure Covered (env : Env) (v : AvVector) : Prop where
  bits : ∀ b, (firstMask env v).getLsbD b = true ↔ ∃ q ∈ v.request.words, kernelBit v.tclass.text q = some b
  tclass : firstMask env v ≠ 0 → kernelClass v.tclass.text = some (env.stringToSecurityClass v.tclass.text)

variable {env : Env} {v : AvVector}

theorem getLsbD_pushed (c : U16) (r : Request) (b : Nat) :
    (mask env c (pushed r)).getLsbD b = (env.stringToAvPerm c r.first).getLsbD b := by
  have hpos : r.words.length ≠ 0 := (List.length_pos_of_mem r.first_mem).ne'
  rw [getLsbD_mask, pushed, List.any_replicate, if_neg hpos]

theorem pushed_and_ne_zero (v : AvVector) (x : U32) :
    mask env (env.stringToSecurityClass v.tclass.text) (pushed v.request) &&& x ≠ 0 ↔ firstMask env v &&& x ≠ 0 := by
  simp only [and_ne_zero_iff, getLsbD_pushed, firstMask]

theorem Covered.names_iff (h : Covered env v) (tclass : U16) (x : U32) :
    env.stringToSecurityClass v.tclass.text = tclass ∧ firstMask env v &&& x ≠ 0 ↔ Names v tclass x := by
  constructor
  · rintro ⟨rfl, hx⟩
    obtain ⟨b, hb, hxb⟩ := and_ne_zero_iff.mp hx
    obtain ⟨q, hq, hbit⟩ := (h.bits b).mp hb
    exact ⟨h.tclass (and_ne_zero_left hx), q, hq, b, hbit, hxb⟩
  · rintro ⟨hclass, q, hq, b, hbit, hxb⟩
    have hx := and_ne_zero_iff.mpr ⟨b, (h.bits b).mpr ⟨q, hq, hbit⟩, hxb⟩
    exact ⟨Option.some.inj ((h.tclass (and_ne_zero_left hx)).symm.trans hclass), hx⟩

theorem covered_of_names (h : ∀ (tclass : U16) (x : U32),
    env.stringToSecurityClass v.tclass.text = tclass ∧ firstMask env v &&& x ≠ 0 ↔ Names v tclass x) : Covered env v := by
  have hself : ∀ b < 32, (BitVec.twoPow 32 b).getLsbD b = true := fun b hlt => by simp [hlt]
  -- an access that requests one bit alone
  have hone : ∀ b, (firstMask env v).getLsbD b = true →
      kernelClass v.tclass.text = some (env.stringToSecurityClass v.tclass.text) ∧
        ∃ q ∈ v.request.words, kernelBit v.tclass.text q = some b := by
    intro b hb
    have hx := and_ne_zero_iff.mpr ⟨b, hb, hself b (BitVec.lt_of_getLsbD hb)⟩
    obtain ⟨hclass, q, hq, i, hbit, hi⟩ := (h _ _).mp ⟨rfl, hx⟩
    rw [BitVec.getLsbD_twoPow, Bool.and_eq_true, decide_eq_true_iff, decide_eq_true_iff] at hi
    exact ⟨hclass, q, hq, hi.2 ▸ hbit⟩
  refine ⟨fun b => ⟨fun hb => (hone b hb).2, ?_⟩, fun hne => ?_⟩
  · rintro ⟨q, hq, hbit⟩
    have hlt := kernelBit_lt hbit
    obtain ⟨tclass, hclass⟩ := kernelClass_of_bit hbit
    obtain ⟨-, hx⟩ := (h tclass (BitVec.twoPow 32 b)).mpr ⟨hclass, q, hq, b, hbit, hself b hlt⟩
    rw [BitVec.and_comm] at hx
    exact (twoPow_and_ne_zero hlt).mp hx
  · obtain ⟨b, -, hb⟩ := exists_getLsbD hne
    exact (hone b hb).1

def linkOf (k : Loader) (i j : Nat) : Link := k.l ((k.s (BitVec.ofNat 32 i)).linkOffset + BitVec.ofNat 32 j)

def StepsMatch (answer : String → Getsid) (p : MultiPolicy) (k : Loader) : Prop :=
  ∀ i n j t, p.lines[i]? = some n → n.transitions[j]? = some t → ∀ a : Access,
    a.ssid = sidOf (answer t.source.text) → a.tsid = sidOf (answer t.target.text) →
    ((linkOf k i j).Matches a ↔ Asks t a)

theorem asks_single {t : MultiTransition} (h : t.more = []) (a : Access) :
    Asks t a ↔ Names t.vector a.tclass a.requested := by
  simp [Asks, MultiTransition.vectors, h]

theorem matches_linkOf {answer : String → Getsid} (ha : ∀ n c, env.getsid n c = answer c) (w : Wholefile)
    (hs : w.file.lines.length < 2 ^ 32) (hl : 2 * size w.file.lines < 2 ^ 32) {i j : Nat} {n : Line} {t : Transition}
    (hn : w.file.lines[i]? = some n) (ht : n.transitions[j]? = some t) {a : Access}
    (hsource : a.ssid = sidOf (answer t.source.text)) (htarget : a.tsid = sidOf (answer t.target.text)) :
    (linkOf (yyparse env w zeroed).value i j).Matches a ↔
      env.stringToSecurityClass t.vector.tclass.text = a.tclass ∧ firstMask env t.vector &&& a.requested ≠ 0 := by
  have hcached : Cached answer zeroed := fun _ _ hr => by
    simp [zeroed, start] at hr
  have hresolved := (parseFile_laid (resolved_establishes ha) w.file ⟨rfl, hcached⟩ (laid_start _) hs hl).2
  have hpushed := (parseFile_laid (pushed_establishes env) w.file (k := zeroed) rfl (laid_start _) hs hl).2
  obtain ⟨hcs, hcc, htclass⟩ := hresolved.links i n j t hn ht
  have hrequested : (linkOf (yyparse env w zeroed).value i j).requested = _ := hpushed.links i n j t hn ht
  change (linkOf (yyparse env w zeroed).value i j).cs = _ at hcs
  change (linkOf (yyparse env w zeroed).value i j).cc = _ at hcc
  change (linkOf (yyparse env w zeroed).value i j).tclass = _ at htclass
  rw [Link.Matches, hcs, hcc, htclass, hrequested, hsource, htarget, pushed_and_ne_zero]
  simp

theorem stepsMatch_iff {answer : String → Getsid} (ha : ∀ n c, env.getsid n c = answer c) {p : MultiPolicy}
    (hs : p.lines.length < 2 ^ 32) (hl : 2 * p.size < 2 ^ 32)
    (hmore : ∀ n ∈ p.lines, ∀ t ∈ n.transitions, t.more = []) :
    StepsMatch answer p (yyparse env p.single zeroed).value ↔
      ∀ n ∈ p.lines, ∀ t ∈ n.transitions, Covered env t.vector := by
  have hs' : p.single.file.lines.length < 2 ^ 32 := by rwa [p.lines_single, List.length_map]
  rw [← p.size_single] at hl
  have hlink {i j : Nat} {n : MultiLine} {t : MultiTransition} (hn : p.lines[i]? = some n) (ht : n.transitions[j]? = some t)
      {a : Access} (hsource : a.ssid = sidOf (answer t.source.text)) (htarget : a.tsid = sidOf (answer t.target.text)) :=
    matches_linkOf ha p.single hs' hl (n := n.single) (t := t.single) (by rw [p.lines_single, List.getElem?_map, hn]; rfl)
      (by rw [n.transitions_single, List.getElem?_map, ht]; rfl) hsource htarget
  constructor
  · intro h n hn t ht
    obtain ⟨i, hi⟩ := List.mem_iff_getElem?.mp hn
    obtain ⟨j, hj⟩ := List.mem_iff_getElem?.mp ht
    apply covered_of_names
    intro tclass x
    let a : Access := ⟨sidOf (answer t.source.text), sidOf (answer t.target.text), tclass, x⟩
    have hmatches := h i n j t hi hj a rfl rfl
    rw [hlink (a := a) hi hj rfl rfl, asks_single (hmore n hn t ht)] at hmatches
    exact hmatches
  · intro h i n j t hi hj a hsource htarget
    have hn := List.mem_of_getElem? hi
    have ht := List.mem_of_getElem? hj
    rw [hlink hi hj hsource htarget, asks_single (hmore n hn t ht)]
    exact (h n hn t ht).names_iff a.tclass a.requested

/-- A policy over several classes is accepted and enforced as it is written if and
only if each transition has one, and libselinux covers each vector. -/
theorem severalClasses_iff (env : Env) (answer : String → Getsid) (ha : ∀ n c, env.getsid n c = answer c) (p : MultiPolicy)
    (text : List Char) (htext : yylex text = p.tokens) (hs : p.lines.length < 2 ^ 32)
    (hl : 2 * p.size < 2 ^ 32) :
    ((parseText env text zeroed).value.1 ≠ none ∧ StepsMatch answer p (parseText env text zeroed).value.2) ↔
      ∀ n ∈ p.lines, ∀ t ∈ n.transitions, t.more = [] ∧ Covered env t.vector := by
  have hvalue (hmore : ∀ n ∈ p.lines, ∀ t ∈ n.transitions, t.more = []) :
      parseText env text zeroed = yyparse env p.single zeroed >>= fun k => pure (some p.single, k) :=
    parseText_of_tokens env (htext.trans (policyTokens_single hmore).symm) _
  constructor
  · rintro ⟨hsome, hsteps⟩
    obtain ⟨w, hw⟩ := Option.ne_none_iff_exists'.mp hsome
    have hmore := more_eq_nil (htext.symm.trans ((accepts_iff env text _ w).mp hw))
    rw [hvalue hmore] at hsteps
    have hcovered := (stepsMatch_iff ha hs hl hmore).mp hsteps
    exact fun n hn t ht => ⟨hmore n hn t ht, hcovered n hn t ht⟩
  · intro h
    have hmore : ∀ n ∈ p.lines, ∀ t ∈ n.transitions, t.more = [] := fun n hn t ht => (h n hn t ht).1
    rw [hvalue hmore]
    refine ⟨Option.some_ne_none p.single, ?_⟩
    exact (stepsMatch_iff ha hs hl hmore).mpr fun n hn t ht => (h n hn t ht).2

/-- A step over one class, and the last step of signature 1$330 of the shipped shadow policy, over two. -/
def passwdStep : MultiTransition where
  source := passwdContext
  vector := readFile
  more := []
  target := shadowContext

def agentStep : MultiTransition where
  source := ⟨passwdContext.user, passwdContext.role, "user_ssh_agent_t", passwdContext.user_lexed,
    passwdContext.role_lexed, by decide⟩
  vector := ⟨⟨"dir", by decide⟩, readRequest⟩
  more := [⟨⟨"sock_file", by decide⟩, readRequest⟩]
  target := ⟨"staff_u", shadowContext.role, "ssh_agent_tmp_t", by decide, shadowContext.role_lexed, by decide⟩

def oneLine (t : MultiTransition) : MultiPolicy := ⟨⟨none, ⟨"1$330", by decide⟩, t, []⟩, [], false⟩

theorem severalClasses_iff_passwdStep :
    (parseText shadowEnv (print (oneLine passwdStep).single) zeroed).value.1 ≠ none ∧
      StepsMatch shadowAnswer (oneLine passwdStep)
        (parseText shadowEnv (print (oneLine passwdStep).single) zeroed).value.2 := by
  have hone : ∀ n ∈ (oneLine passwdStep).lines, ∀ t ∈ n.transitions, t = passwdStep := by
    simp [oneLine, MultiPolicy.lines, MultiLine.transitions]
  have htext : yylex (print (oneLine passwdStep).single) = (oneLine passwdStep).tokens :=
    (yylex_print _).trans (policyTokens_single fun n hn t ht => by rw [hone n hn t ht]; rfl)
  refine (severalClasses_iff shadowEnv shadowAnswer (fun _ _ => rfl) (oneLine passwdStep) _ htext (by decide) (by decide)).mpr ?_
  intro n hn t ht
  rw [hone n hn t ht]
  refine ⟨rfl, ⟨fun b => ?_, fun _ => by decide⟩⟩
  have hbit : kernelBit "file" "read" = some 1 := by decide
  have hmask : firstMask shadowEnv passwdStep.vector = BitVec.twoPow 32 1 := by decide
  rw [hmask, BitVec.getLsbD_twoPow]
  simp [passwdStep, readFile, readRequest, Request.words, hbit]

/-- The step over two classes is lexed as it is written, and rejected. -/
theorem agentStep_rejected :
    yylex (printTokens (oneLine agentStep).first.tokens) = (oneLine agentStep).tokens ∧
      (parseText shadowEnv (printTokens (oneLine agentStep).first.tokens) zeroed).value.1 = none := by
  have hplain : ∀ t ∈ (oneLine agentStep).first.tokens, Token.Plain t := by
    simp [oneLine, agentStep, readRequest, MultiLine.tokens, MultiLine.transitions, MultiTransition.tokens, MultiTransition.vectors,
      vectorTokens, requestTokens, headTokens, typeTokens, Token.Plain]
  have hlex : lexer.lex true (printTokens (oneLine agentStep).first.tokens ++ []) =
      (oneLine agentStep).first.tokens ++ lexer.lex false [] :=
    lex_printTokens (List.cons_ne_nil _ _) hplain fun a ha => by cases ha
  have htext : yylex (printTokens (oneLine agentStep).first.tokens) = (oneLine agentStep).tokens := by
    rw [List.append_nil, lex_nil, List.append_nil] at hlex
    rw [yylex, hlex]
    rfl
  refine ⟨htext, ?_⟩
  by_contra hsome
  obtain ⟨w, hw⟩ := Option.ne_none_iff_exists'.mp hsome
  have hmore := more_eq_nil (htext.symm.trans ((accepts_iff shadowEnv _ zeroed w).mp hw))
  exact absurd (hmore (oneLine agentStep).first List.mem_cons_self agentStep List.mem_cons_self) (List.cons_ne_nil _ _)

end steps

end PigaLinux.PppClasses
