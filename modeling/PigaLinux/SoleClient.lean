import PigaLinux.Getsid
import PigaLinux.PppMemory

namespace PigaLinux.SoleClient

open Kernel Trace PppSyntax Ppp PppActions PppCompile Getsid PppResults PppMemory
open Piga (Sequence Link)

/-- Every exchange of the loader is its own: a write(2) that takes the whole
context, and the read after it, whatever the kernel's variable held before. -/
def Alone (R : Resolver) (env : Env) : Prop :=
  ∀ n c, ∃ sid, env.getsid n c = .answer (exchange R sid c).1

theorem run_clean {s : String} (h : Run isSidChar s) : '\x00' ∉ s.toList := by
  intro hmem
  have hchar := List.all_eq_true.mp h.2 _ hmem
  exact absurd hchar (by decide)

def contextText (c : Context) : Text where
  text := c.text
  clean := by
    have hcolon : '\x00' ∉ ":".toList := by decide
    simp only [Context.text, String.toList_append, List.mem_append, not_or]
    exact ⟨⟨⟨⟨run_clean c.user_lexed, hcolon⟩, run_clean c.role_lexed⟩, hcolon⟩, run_clean c.type_lexed⟩

def sidIn (R : Resolver) (c : Context) : U32 := (R c.text).getD 0

def resolvedStep (env : Env) (R : Resolver) (t : Transition) : Step where
  source := some (sidIn R t.source)
  target := some (sidIn R t.target)
  link := ⟨sidIn R t.source, sidIn R t.target, env.stringToSecurityClass t.vector.tclass.text,
    mask env (env.stringToSecurityClass t.vector.tclass.text) (pushed t.vector.request)⟩

def definedOn (R : Resolver) (n : Line) : Bool :=
  n.transitions.all fun t => (R t.source.text).isSome && (R t.target.text).isSome

def resolvedLine (env : Env) (R : Resolver) (n : Line) : Result where
  loaded := definedOn R n
  steps := n.transitions.map (resolvedStep env R)

section

variable {R : Resolver} {env : Env}

def answerOf (R : Resolver) (c : String) : Getsid := .answer (exchange R 0 c).1

theorem Alone.getsid_eq (h : Alone R env) (n : Nat) (c : String) : env.getsid n c = answerOf R c := by
  obtain ⟨sid, hg⟩ := h n c
  rw [hg]
  rfl

theorem sidOf_answerOf (R : Resolver) (c : Context) : sidOf (answerOf R c.text) = sidIn R c :=
  strtoul_exchange R 0 (contextText c)

theorem resolution_eq (h : Alone R env) {k : Loader} (hk : Cached (answerOf R) k) (c : Context) :
    resolution env c.text k = some (sidIn R c) := by
  rw [← sidOf_answerOf]
  cases hm : k.sidMap c.text with
  | some res => rw [resolution, hm, hk c.text res hm]
  | none =>
      simp only [resolution, hm, h.getsid_eq]
      rfl

theorem stepOf_eq (h : Alone R env) (t : Transition) {k : Loader} (hk : k.requestList = [])
    (hc : Cached (answerOf R) k) : stepOf env t k = resolvedStep env R t := by
  have hv : Cached (answerOf R) (parseVector env t.vector k).value := by
    intro c r hr
    rw [(parseVector_kept env t.vector k).sidMap] at hr
    exact hc c r hr
  have hs : Cached (answerOf R) (lookupSource env t k).2 := (stringToSid_cached h.getsid_eq hv _).2
  have hsource : (stepOf env t k).source = some (sidIn R t.source) := resolution_eq h hv t.source
  have htarget : (stepOf env t k).target = some (sidIn R t.target) := resolution_eq h hs t.target
  have hlink := stepOf_compiles env t k hk
  rw [Compiles, hsource, htarget] at hlink
  cases hx : stepOf env t k with
  | mk a b x =>
      rw [hx] at hsource htarget hlink
      subst hsource htarget hlink
      rfl

theorem parseTransitions_cached (h : Alone R env) (ts : List Transition) {k : Loader}
    (hk : k.requestList = [] ∧ Cached (answerOf R) k) :
    steps env ts k = ts.map (resolvedStep env R) ∧ Cached (answerOf R) (parseTransitions env ts k) := by
  induction ts generalizing k with
  | nil => exact ⟨rfl, hk.2⟩
  | cons t ts ih =>
      obtain ⟨hsteps, hcached⟩ := ih ((resolved_establishes h.getsid_eq).transition t k hk)
      refine ⟨?_, hcached⟩
      rw [steps, List.map_cons, stepOf_eq h t hk.1 hk.2, hsteps]

theorem resolved_resolvedLine (hR : ∀ c r, R c = some r → r ≠ 0) (n : Line) :
    (resolvedLine env R n).resolved = definedOn R n := by
  have hsid : ∀ c : Context, resolves (some (sidIn R c)) = (R c.text).isSome := by
    intro c
    rw [sidIn]
    cases hc : R c.text with
    | none => rfl
    | some r => exact bne_iff_ne.mpr (hR _ r hc)
  rw [Result.resolved, resolvedLine, definedOn, List.all_map]
  congr 1
  funext t
  change (resolves (some (sidIn R t.source)) && resolves (some (sidIn R t.target))) = _
  rw [hsid, hsid]

theorem lineResults_eq (h : Alone R env) (hR : ∀ c r, R c = some r → r ≠ 0) (ns : List Line) {k : Loader}
    (hk : Ready k) (hc : Cached (answerOf R) k) :
    lineResults env ns k = ns.map (resolvedLine env R) := by
  induction ns generalizing k with
  | nil => rfl
  | cons n ns ih =>
      obtain ⟨hsteps, hcached⟩ := parseTransitions_cached h n.transitions ⟨hk.requestList, hc⟩
      have hline : lineResult env n k = resolvedLine env R n := by
        have hloaded := lineResult_loaded env n hk
        have hs : (lineResult env n k).steps = (resolvedLine env R n).steps := hsteps
        rw [Result.resolved, hs] at hloaded
        cases hx : lineResult env n k with
        | mk a b =>
            rw [hx] at hloaded hs
            have ha : a = definedOn R n := hloaded.trans (resolved_resolvedLine hR n)
            have hb : b = (resolvedLine env R n).steps := hs
            rw [ha, hb]
            rfl
      have hnext : Cached (answerOf R) (parseLine env n k).value := by
        intro c r hr
        rw [parseLine_value, (lineAction_done _).sidMap] at hr
        exact hcached c r hr
      rw [lineResults, List.map_cons, hline, ih (parseLine_counted env n hk).1 hnext]

end

/-- Each line of a policy is resolved and counted by its own contexts alone. -/
structure OnMerits (R : Resolver) (env : Env) (w : Wholefile) (s : U32 → Sequence) (l : U32 → Link) : Prop where
  results : lineResults env w.file.lines (start s l) = w.file.lines.map (resolvedLine env R)
  loaded : (parsed env w s l).loaded = BitVec.ofNat 32 (w.file.lines.countP (definedOn R))
  ignored : (parsed env w s l).ignored = BitVec.ofNat 32 (w.file.lines.countP fun n => !definedOn R n)
  uploaded : w.file.lines.length < 2 ^ 32 → 2 * size w.file.lines < 2 ^ 32 →
    (∀ i < w.file.lines.length, (s (BitVec.ofNat 32 i)).length = 0) →
      upload (parsed env w s l) = w.file.lines.map fun n => n.transitions.map fun t => (resolvedStep env R t).link
  rearranged : ∀ env' (w' : Wholefile) s' l' (f : Nat → Nat), Alone R env' →
    env'.stringToSecurityClass = env.stringToSecurityClass → env'.stringToAvPerm = env.stringToAvPerm →
    (∀ (i : Nat) n, w'.file.lines[i]? = some n → w.file.lines[f i]? = some n) →
      ∀ i < w'.file.lines.length, (lineResults env' w'.file.lines (start s' l'))[i]? =
        (lineResults env w.file.lines (start s l))[f i]?

theorem resolvedLine_congr {env env' : Env} (R : Resolver)
    (hc : env'.stringToSecurityClass = env.stringToSecurityClass)
    (hp : env'.stringToAvPerm = env.stringToAvPerm) : resolvedLine env' R = resolvedLine env R := by
  have hstep : resolvedStep env' R = resolvedStep env R := by
    funext t
    simp only [resolvedStep, mask, hc, hp]
  funext n
  rw [resolvedLine, resolvedLine, hstep]

/-- What becomes of a line depends on its own contexts, not on the lines
around it, on the cache or on what the kernel's variable held. -/
theorem resolved_onMerits (R : Resolver) (hR : ∀ c r, R c = some r → r ≠ 0) (env : Env) (h : Alone R env)
    (w : Wholefile) (s : U32 → Sequence) (l : U32 → Link) : OnMerits R env w s l := by
  have hempty : ∀ s l, Cached (answerOf R) (start s l) := fun s l c r hr => by simp [start] at hr
  have hresults := lineResults_eq h hR w.file.lines (ready_start s l) (hempty s l)
  obtain ⟨hl, hg⟩ := counters_parsed env w s l
  refine ⟨hresults, ?_, ?_, ?_, ?_⟩
  · rw [hl, hresults, List.countP_map]
    rfl
  · rw [hg, hresults, List.countP_map]
    rfl
  · intro hs hsize hz
    rw [upload_eq env hs hsize l hz, hresults, List.map_map]
    apply List.map_congr_left
    intro n _
    change (n.transitions.map (resolvedStep env R)).map Step.link = _
    rw [List.map_map]
    rfl
  · intro env' w' s' l' f h' hclass hperm hf i hi
    have hresults' := lineResults_eq h' hR w'.file.lines (ready_start s' l') (hempty s' l')
    have hn := List.getElem?_eq_getElem hi
    rw [hresults', hresults, resolvedLine_congr R hclass hperm, List.getElem?_map, List.getElem?_map, hn,
      hf i _ hn]

def shadowResolver : Resolver := fun c =>
  if c = "user_u:user_r:passwd_t" then some 101
  else if c = "system_u:object_r:shadow_t" then some 102
  else none

def shadowAlone : Env := { shadowEnv with getsid := fun _ c => .answer (exchange shadowResolver 0 c).1 }

theorem resolved_onMerits_shadow :
    OnMerits shadowResolver shadowAlone shadowFile (fun _ => ⟨0, 0, 0⟩) (fun _ => ⟨0, 0, 0, 0⟩) := by
  refine resolved_onMerits shadowResolver ?_ shadowAlone (fun n c => ⟨0, rfl⟩) shadowFile _ _
  intro c r hr
  rw [shadowResolver] at hr
  split at hr
  · exact Option.some.inj hr ▸ by decide
  · split at hr
    · exact Option.some.inj hr ▸ by decide
    · exact absurd hr (by simp)

end PigaLinux.SoleClient
