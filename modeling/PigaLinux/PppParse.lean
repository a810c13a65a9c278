import PigaLinux.PppActions
import PigaLinux.PppLex

namespace PigaLinux.PppParse

open Kernel Trace PppSyntax Ppp PppActions PppLex
open Piga (Sequence Link)

structure Head where
  file : Option File
  type : Option TypeToken
  bool : BoolToken

def Head.reduce (h : Head) (g : Signature) : File :=
  match h.file with
  | none => .line ⟨h.type, h.bool, g⟩
  | some f => .snoc f ⟨h.type, h.bool, g⟩

structure Opened where
  head : Head
  signature : Option Signature
  source : Context

def Opened.reduce (o : Opened) (v : AvVector) (d : Context) : Signature :=
  match o.signature with
  | none => .transition ⟨o.source, v, d⟩
  | some g => .snoc g ⟨o.source, v, d⟩

/-- The places of the parser in the grammar, each with the values of the
symbols that it has put aside. -/
inductive Place
  | line (f : Option File)
  | type (f : Option File) (t : TypeToken)
  | dash (f : Option File) (t : TypeToken)
  | bool (h : Head)
  | signature (h : Head) (g : Option Signature)
  | source (o : Opened)
  | vector (o : Opened)
  | tclass (o : Opened) (w : Word)
  | brace (o : Opened) (w : Word)
  | request (o : Opened) (w : Word) (r : Request)
  | vectorEnd (o : Opened) (v : AvVector)
  | target (o : Opened) (v : AvVector)
  | signatureEnd (h : Head) (g : Signature)
  | accepted (w : Wholefile)

/-- The place after one more token. There is none on a syntax error. -/
def next : Place → Token → Option Place
  | .line f, .type t => some (.type f t)
  | .line f, .bool b => some (.bool ⟨f, none, b⟩)
  | .line (some f), .endf => some (.accepted ⟨f, true⟩)
  | .type f t, .char '-' => some (.dash f t)
  | .dash f t, .bool b => some (.bool ⟨f, some t, b⟩)
  | .bool h, .char ':' => some (.signature h none)
  | .signature h g, .sid c => some (.source ⟨h, g, c⟩)
  | .source o, .avpermstart => some (.vector o)
  | .vector o, .word w => some (.tclass o w)
  | .tclass o w, .char '{' => some (.brace o w)
  | .brace o w, .word v => some (.request o w (.word v))
  | .request o w r, .word v => some (.request o w (.snoc r v))
  | .request o w r, .char '}' => some (.vectorEnd o ⟨w, r⟩)
  | .vectorEnd o v, .avpermend => some (.target o v)
  | .target o v, .sid d => some (.signatureEnd o.head (o.reduce v d))
  | .signatureEnd h g, .char ';' => some (.signature h (some g))
  | .signatureEnd h g, .eol => some (.line (some (h.reduce g)))
  | .signatureEnd h g, .endf => some (.accepted ⟨h.reduce g, false⟩)
  | _, _ => none

/-- The actions of the rules that are reduced at a token. A line is reduced
at whatever does not go on with its signature, before that turns out to be an error. -/
def reduce (env : Env) : Place → Token → Loader → Traced Slot Loader
  | .brace _ _, .word v, k => pure (pushRequest v.text k)
  | .request _ _ r, .word _, k => pure (pushRequest r.first k)
  | .request _ w _, .char '}', k => vectorAction env w.text k
  | .target o _, .sid d, k => transitionAction env o.source.text d.text k
  | .signatureEnd _ _, .char ';', k => pure k
  | .signatureEnd _ _, _, k => lineAction k
  | _, _, k => pure k

def outcome : Place → Option Wholefile
  | .accepted w => some w
  | _ => none

/-- The parser from a place on: what it accepts, if it does, and the globals
when it returns. It returns on a syntax error, or where it has accepted. -/
def parse (env : Env) : List Token → Place → Loader → Traced Slot (Option Wholefile × Loader)
  | [], p, k => pure (outcome p, k)
  | t :: ts, p, k => do
      let k ← reduce env p t k
      match next p t with
      | none => return (outcome p, k)
      | some p => parse env ts p k

def parseText (env : Env) (text : List Char) (k : Loader) : Traced Slot (Option Wholefile × Loader) :=
  parse env (yylex text) (.line none) k

section yields

def requestTokens : Request → List Token
  | .word w => [.word w]
  | .snoc r w => requestTokens r ++ [.word w]

def vectorTokens (v : AvVector) : List Token :=
  .word v.tclass :: .char '{' :: (requestTokens v.request ++ [.char '}'])

def transitionTokens (t : Transition) : List Token :=
  .sid t.source :: .avpermstart :: (vectorTokens t.vector ++ [.avpermend, .sid t.target])

def signatureTokens : Signature → List Token
  | .transition t => transitionTokens t
  | .snoc g t => signatureTokens g ++ .char ';' :: transitionTokens t

def typeTokens : Option TypeToken → List Token
  | none => []
  | some t => [.type t, .char '-']

def headTokens (type : Option TypeToken) (b : BoolToken) : List Token := typeTokens type ++ [.bool b, .char ':']

def lineTokens (n : Line) : List Token := headTokens n.type n.bool ++ signatureTokens n.signature

def fileTokens : File → List Token
  | .line n => lineTokens n
  | .snoc f n => fileTokens f ++ .eol :: lineTokens n

def tokens (w : Wholefile) : List Token := fileTokens w.file ++ if w.eol then [.eol, .endf] else [.endf]

theorem forall_mem_requestTokens {P : Token → Prop} (hword : ∀ w, P (.word w)) (r : Request) :
    ∀ t ∈ requestTokens r, P t := by
  induction r with
  | word w => exact List.forall_mem_singleton.mpr (hword w)
  | snoc r w ih =>
      rw [requestTokens, List.forall_mem_append, List.forall_mem_singleton]
      exact ⟨ih, hword w⟩

theorem forall_mem_transitionTokens {P : Token → Prop} (hsid : ∀ c, P (.sid c)) (hword : ∀ w, P (.word w))
    (harrow : P .avpermstart ∧ P .avpermend) (hbrace : P (.char '{') ∧ P (.char '}')) (t : Transition) :
    ∀ x ∈ transitionTokens t, P x := by
  have hrequest := forall_mem_requestTokens hword t.vector.request
  simp only [transitionTokens, vectorTokens, List.forall_mem_cons, List.forall_mem_append]
  exact ⟨hsid _, harrow.1, ⟨hword _, hbrace.1, hrequest, hbrace.2, List.forall_mem_nil _⟩, harrow.2, hsid _,
    List.forall_mem_nil _⟩

theorem forall_mem_signatureTokens {P : Token → Prop} (hsid : ∀ c, P (.sid c)) (hword : ∀ w, P (.word w))
    (harrow : P .avpermstart ∧ P .avpermend) (hbrace : P (.char '{') ∧ P (.char '}')) (hsemi : P (.char ';'))
    (g : Signature) : ∀ t ∈ signatureTokens g, P t := by
  have htransition := forall_mem_transitionTokens hsid hword harrow hbrace
  induction g with
  | transition t => exact htransition t
  | snoc g t ih =>
      rw [signatureTokens, List.forall_mem_append, List.forall_mem_cons]
      exact ⟨ih, hsemi, htransition t⟩

end yields

section soundness

def fileRead : Option File → List Token
  | none => []
  | some f => fileTokens f ++ [.eol]

def headRead (h : Head) : List Token := fileRead h.file ++ headTokens h.type h.bool

def signatureRead : Option Signature → List Token
  | none => []
  | some g => signatureTokens g ++ [.char ';']

def openedRead (o : Opened) : List Token := headRead o.head ++ signatureRead o.signature ++ [.sid o.source]

def read : Place → List Token
  | .line f => fileRead f
  | .type f t => fileRead f ++ [.type t]
  | .dash f t => fileRead f ++ [.type t, .char '-']
  | .bool h => fileRead h.file ++ typeTokens h.type ++ [.bool h.bool]
  | .signature h g => headRead h ++ signatureRead g
  | .source o => openedRead o
  | .vector o => openedRead o ++ [.avpermstart]
  | .tclass o w => openedRead o ++ [.avpermstart, .word w]
  | .brace o w => openedRead o ++ [.avpermstart, .word w, .char '{']
  | .request o w r => openedRead o ++ .avpermstart :: .word w :: .char '{' :: requestTokens r
  | .vectorEnd o v => openedRead o ++ .avpermstart :: vectorTokens v
  | .target o v => openedRead o ++ .avpermstart :: (vectorTokens v ++ [.avpermend])
  | .signatureEnd h g => headRead h ++ signatureTokens g
  | .accepted w => tokens w

theorem read_reduce_head (h : Head) (g : Signature) : fileTokens (h.reduce g) = headRead h ++ signatureTokens g := by
  rw [Head.reduce, headRead]
  cases h.file with
  | none => rfl
  | some f => simp [fileRead, fileTokens, lineTokens]

theorem read_reduce_opened (o : Opened) (v : AvVector) (d : Context) :
    signatureTokens (o.reduce v d) =
      signatureRead o.signature ++ .sid o.source :: .avpermstart :: (vectorTokens v ++ [.avpermend, .sid d]) := by
  rw [Opened.reduce]
  cases o.signature with
  | none => simp [signatureRead, signatureTokens, transitionTokens]
  | some g => simp [signatureRead, signatureTokens, transitionTokens]

theorem read_next {p p' : Place} {t : Token} (h : next p t = some p') : read p' = read p ++ [t] := by
  rw [next.eq_def] at h
  split at h <;> cases h <;>
    simp [read, read_reduce_opened, read_reduce_head, tokens, fileRead, headRead, headTokens, typeTokens, openedRead,
      signatureRead, vectorTokens, requestTokens]

/-- The line that is reduced at a token that does not go on with its
signature is kept, whatever the token is. -/
def settle : Place → Place
  | .signatureEnd h g => .line (some (h.reduce g))
  | p => p

def reached : List Token → Place → Place
  | [], p => p
  | t :: ts, p =>
      match next p t with
      | none => settle p
      | some p => reached ts p

theorem outcome_settle (p : Place) : outcome (settle p) = outcome p := by
  cases p <;> rfl

theorem read_reached {ts : List Token} {p : Place} {w : Wholefile} (h : reached ts p = .accepted w) :
    tokens w <+: read p ++ ts := by
  induction ts generalizing p with
  | nil =>
      rw [reached] at h
      rw [h, List.append_nil]
      exact List.prefix_refl _
  | cons t ts ih =>
      rw [reached] at h
      cases hnext : next p t with
      | none =>
          rw [hnext] at h
          have hp : p = .accepted w := by
            cases p <;> first
              | exact h
              | cases h
          rw [hp]
          exact List.prefix_append _ _
      | some p' =>
          rw [hnext] at h
          have hread := ih h
          rwa [read_next hnext, List.append_assoc] at hread

end soundness

section completeness

variable {p p' : Place} {t : Token} (us : List Token)

theorem reached_cons (h : next p t = some p') : reached (t :: us) p = reached us p' := by
  rw [reached, h]

theorem reached_accepted (w : Wholefile) : reached us (.accepted w) = .accepted w := by
  cases us <;> rfl

theorem reached_request (o : Opened) (w : Word) (r : Request) :
    reached (requestTokens r ++ us) (.brace o w) = reached us (.request o w r) := by
  induction r generalizing us with
  | word v => rfl
  | snoc r v ih =>
      rw [requestTokens, List.append_assoc, ih]
      rfl

theorem reached_vector (o : Opened) (v : AvVector) :
    reached (vectorTokens v ++ us) (.vector o) = reached us (.vectorEnd o v) := by
  have hbrace : reached (vectorTokens v ++ us) (.vector o) =
      reached (requestTokens v.request ++ [.char '}'] ++ us) (.brace o v.tclass) := rfl
  rw [hbrace, List.append_assoc, reached_request]
  rfl

theorem reached_transition (h : Head) (g : Option Signature) (t : Transition) :
    reached (transitionTokens t ++ us) (.signature h g) =
      reached us (.signatureEnd h (Opened.reduce ⟨h, g, t.source⟩ t.vector t.target)) := by
  have hvector : reached (transitionTokens t ++ us) (.signature h g) =
      reached (vectorTokens t.vector ++ [.avpermend, .sid t.target] ++ us) (.vector ⟨h, g, t.source⟩) := rfl
  rw [hvector, List.append_assoc, reached_vector]
  rfl

theorem reached_signature (h : Head) (g : Signature) :
    reached (signatureTokens g ++ us) (.signature h none) = reached us (.signatureEnd h g) := by
  induction g generalizing us with
  | transition t => exact reached_transition us h none t
  | snoc g t ih =>
      rw [signatureTokens, List.append_assoc, ih]
      exact reached_transition us h (some g) t

theorem reached_line (f : Option File) (n : Line) :
    reached (lineTokens n ++ us) (.line f) = reached us (.signatureEnd ⟨f, n.type, n.bool⟩ n.signature) := by
  have hhead : reached (lineTokens n ++ us) (.line f) =
      reached (signatureTokens n.signature ++ us) (.signature ⟨f, n.type, n.bool⟩ none) := by
    rw [lineTokens, headTokens]
    cases n.type with
    | none => rfl
    | some t => rfl
  rw [hhead, reached_signature]

theorem reached_file (f : File) :
    ∃ h g, h.reduce g = f ∧ ∀ us, reached (fileTokens f ++ us) (.line none) = reached us (.signatureEnd h g) := by
  induction f with
  | line n => exact ⟨⟨none, n.type, n.bool⟩, n.signature, rfl, fun us => reached_line us none n⟩
  | snoc f n ih =>
      obtain ⟨h, g, rfl, hfile⟩ := ih
      refine ⟨⟨some (h.reduce g), n.type, n.bool⟩, n.signature, rfl, ?_⟩
      intro us
      rw [fileTokens, List.append_assoc, hfile]
      exact reached_line us (some (h.reduce g)) n

theorem reached_tokens (w : Wholefile) : reached (tokens w ++ us) (.line none) = .accepted w := by
  obtain ⟨f, eol⟩ := w
  obtain ⟨h, g, rfl, hfile⟩ := reached_file f
  rw [tokens, List.append_assoc, hfile]
  cases eol with
  | true => exact reached_accepted us _
  | false => exact reached_accepted us _

end completeness

section actions

variable (env : Env)

def fileDone : Option File → Loader → Traced Slot Loader
  | none, k => pure k
  | some f, k => parseFile env f k

def signatureDone : Option Signature → Loader → Traced Slot Loader
  | none, k => pure k
  | some g, k => parseSignature env g k

def openedDone (o : Opened) (k : Loader) : Traced Slot Loader := fileDone env o.head.file k >>= signatureDone env o.signature

def done : Place → Loader → Traced Slot Loader
  | .line f, k => fileDone env f k
  | .type f _, k => fileDone env f k
  | .dash f _, k => fileDone env f k
  | .bool h, k => fileDone env h.file k
  | .signature h g, k => fileDone env h.file k >>= signatureDone env g
  | .source o, k => openedDone env o k
  | .vector o, k => openedDone env o k
  | .tclass o _, k => openedDone env o k
  | .brace o _, k => openedDone env o k
  | .request o _ r, k => openedDone env o k >>= fun k => pure (parseRequest r k).2
  | .vectorEnd o v, k => openedDone env o k >>= parseVector env v
  | .target o v, k => openedDone env o k >>= parseVector env v
  | .signatureEnd h g, k => fileDone env h.file k >>= parseSignature env g
  | .accepted w, k => yyparse env w k

theorem done_reduce_head (h : Head) (g : Signature) (k : Loader) :
    fileDone env h.file k >>= parseSignature env g >>= lineAction = parseFile env (h.reduce g) k := by
  rw [Traced.bind_assoc, Head.reduce]
  cases h.file with
  | none => rfl
  | some f => rfl

theorem done_reduce_opened (o : Opened) (v : AvVector) (d : Context) (k : Loader) :
    openedDone env o k >>= parseVector env v >>= transitionAction env o.source.text d.text =
      fileDone env o.head.file k >>= parseSignature env (o.reduce v d) := by
  rw [openedDone, Traced.bind_assoc, Traced.bind_assoc, Opened.reduce]
  cases o.signature with
  | none => rfl
  | some g => rfl

theorem done_next {p p' : Place} {t : Token} (h : next p t = some p') (k : Loader) :
    done env p k >>= reduce env p t = done env p' k := by
  rw [next.eq_def] at h
  split at h <;> cases h
  -- most tokens are only shifted
  all_goals try exact Traced.bind_pure _
  · rfl
  · rfl
  · rw [done, Traced.bind_assoc]
    refine congrArg (openedDone env _ k >>= ·) (funext fun k => ?_)
    change pure (pushRequest _ (parseRequest _ k).2) = _
    rw [parseRequest, parseRequest_eq]
  · rw [done, Traced.bind_assoc]
    rfl
  · exact done_reduce_opened env _ _ _ k
  · exact done_reduce_head env _ _ k
  · exact done_reduce_head env _ _ k

theorem done_settle {p : Place} {t : Token} (h : next p t = none) (k : Loader) :
    done env p k >>= reduce env p t = done env (settle p) k := by
  by_cases hp : ∃ f g, p = .signatureEnd f g
  · obtain ⟨f, g, rfl⟩ := hp
    have hline : reduce env (.signatureEnd f g) t = lineAction := by
      funext k
      cases t with
      | char c =>
          have hc : c ≠ ';' := by
            rintro rfl
            cases h
          simp [reduce, hc]
      | _ => rfl
    rw [hline]
    exact done_reduce_head env f g k
  · have hpure : reduce env p t = pure := by
      funext k
      rw [reduce.eq_def]
      split <;> first
        | rfl
        | cases h
        | exact absurd ⟨_, _, rfl⟩ hp
    have hsettle : settle p = p := by
      cases p <;> first
        | rfl
        | exact absurd ⟨_, _, rfl⟩ hp
    rw [hpure, hsettle, Traced.bind_pure]

/-- A run of the parser executes the actions of the place that it reaches. -/
theorem parse_eq (ts : List Token) (p : Place) (k : Loader) :
    done env p k >>= parse env ts p = done env (reached ts p) k >>= fun k => pure (outcome (reached ts p), k) := by
  induction ts generalizing p with
  | nil => rfl
  | cons t ts ih =>
      have hstep : parse env (t :: ts) p = fun k => reduce env p t k >>= fun k =>
          match next p t with
          | none => pure (outcome p, k)
          | some p' => parse env ts p' k := rfl
      rw [hstep, ← Traced.bind_assoc, reached]
      cases hnext : next p t with
      | none => rw [done_settle env hnext, outcome_settle]
      | some p' =>
          rw [done_next env hnext]
          exact ih p'

theorem parseText_eq (text : List Char) (k : Loader) :
    parseText env text k = done env (reached (yylex text) (.line none)) k >>= fun k =>
      pure (outcome (reached (yylex text) (.line none)), k) := by
  exact parse_eq env (yylex text) (.line none) k

end actions

section texts

theorem endf_not_mem_lex (bol : Bool) (text : List Char) : Token.endf ∉ lexer.lex bol text := by
  intro h
  obtain ⟨r, hr, ys, -, haction⟩ := Lexing.mem_lex h
  simp only [lexer, List.mem_cons, List.not_mem_nil, or_false] at hr
  rcases hr with rfl | rfl | rfl | rfl | rfl | rfl | rfl | rfl | rfl | rfl | rfl | rfl
  all_goals simp [typeRule, boolRule, sidRule, wordRule, blankRule, emptyLineRule, commentRule, eolRule,
    avpermstartRule, avpermendRule, punctuationRule, otherRule] at haction

theorem eq_of_prefix_endf {ts us : List Token} (hus : Token.endf ∉ us) (h : ts ++ [.endf] <+: us ++ [.endf]) :
    ts = us := by
  obtain ⟨vs, hvs⟩ := h
  rcases List.eq_nil_or_concat vs with rfl | ⟨vs, v, rfl⟩
  · rw [List.append_nil] at hvs
    exact (List.append_inj' hvs rfl).1
  · rw [List.concat_eq_append, ← List.append_assoc] at hvs
    obtain ⟨rfl, -⟩ := List.append_inj' hvs rfl
    exact absurd (by simp) hus

theorem tokens_eq_snoc (w : Wholefile) : ∃ ts, tokens w = ts ++ [.endf] := by
  cases heol : w.eol with
  | true => exact ⟨fileTokens w.file ++ [.eol], by simp [tokens, heol]⟩
  | false => exact ⟨fileTokens w.file, by simp [tokens, heol]⟩

/-- The parser accepts the texts that spell a tree. -/
theorem outcome_reached_iff {text : List Char} {w : Wholefile} :
    outcome (reached (yylex text) (.line none)) = some w ↔ yylex text = tokens w := by
  constructor
  · intro h
    have hplace : reached (yylex text) (.line none) = .accepted w := by
      revert h
      cases reached (yylex text) (.line none) with
      | accepted w' => exact fun h => congrArg Place.accepted (Option.some.inj h)
      | _ => exact fun h => by cases h
    have hread := read_reached hplace
    obtain ⟨ts, hts⟩ := tokens_eq_snoc w
    rw [hts] at hread
    rw [hts, eq_of_prefix_endf (endf_not_mem_lex true text) hread]
    rfl
  · intro h
    have hreached := reached_tokens [] w
    rw [List.append_nil, ← h] at hreached
    rw [hreached]
    rfl

theorem parseText_of_tokens (env : Env) {text : List Char} {w : Wholefile} (h : yylex text = tokens w) (k : Loader) :
    parseText env text k = yyparse env w k >>= fun k => pure (some w, k) := by
  have hreached := reached_tokens [] w
  rw [List.append_nil, ← h] at hreached
  rw [parseText_eq, hreached]
  rfl

theorem accepts_iff (env : Env) (text : List Char) (k : Loader) (w : Wholefile) :
    (parseText env text k).value.1 = some w ↔ yylex text = tokens w := by
  rw [parseText_eq, ← outcome_reached_iff]
  rfl

end texts

end PigaLinux.PppParse
