import PigaLinux.Bits
import PigaLinux.PppCompile

namespace PigaLinux.PppRequests

open Kernel Trace Bits Indices PppSyntax Ppp PppActions PppCompile
open Piga (Sequence Link)

def names (ts : List Transition) : List String := ts.flatMap fun t => t.vector.request.words

def pushedNames (ts : List Transition) : List String := ts.flatMap fun t => pushed t.vector.request

def transitions (ns : List Line) : List Transition := ns.flatMap Line.transitions

variable {env : Env}

theorem getLsbD_mask (c : U16) (ws : List String) (b : Nat) :
    (mask env c ws).getLsbD b = ws.any fun w => (env.stringToAvPerm c w).getLsbD b := by
  rw [mask, getLsbD_foldl_or]
  simp

theorem words_eq_pushed {r : Request} (h : ∀ w ∈ r.words, w = r.first) : r.words = pushed r :=
  List.eq_replicate_iff.mpr ⟨rfl, h⟩

variable (env)

theorem parseSignature_counts (g : Signature) (k : Loader) (hk : k.requestList = []) :
    (parseSignature env g k).value.requestList = [] ∧
      ∀ n, (parseSignature env g k).value.statRequestedMap n =
        k.statRequestedMap n + BitVec.ofNat 32 ((pushedNames g.transitions).count n) := by
  induction g with
  | transition t =>
      have h : TransitionDone env t k _ := parseTransition_done t k hk
      refine ⟨h.requestList, ?_⟩
      intro n
      simpa [pushedNames, Signature.transitions, parseSignature] using h.statRequestedMap n
  | snoc g t ih =>
      obtain ⟨hr, hm⟩ := ih
      have h : TransitionDone env t (parseSignature env g k).value _ := parseTransition_done t _ hr
      refine ⟨h.requestList, ?_⟩
      intro n
      have hp : pushedNames (Signature.snoc g t).transitions =
          pushedNames g.transitions ++ pushed t.vector.request := by
        simp [pushedNames, Signature.transitions]
      rw [hp, List.count_append, BitVec.ofNat_add, ← BitVec.add_assoc, ← hm n]
      exact h.statRequestedMap n

theorem parseLine_counts (n : Line) (k : Loader) (hk : k.requestList = []) :
    (parseLine env n k).value.requestList = [] ∧
      ∀ x, (parseLine env n k).value.statRequestedMap x =
        k.statRequestedMap x + BitVec.ofNat 32 ((pushedNames n.transitions).count x) := by
  obtain ⟨hr, hm⟩ := parseSignature_counts env n.signature k hk
  have h := lineAction_done (parseSignature env n.signature k).value
  exact ⟨h.requestList.trans hr, fun x => (congrFun h.statRequestedMap x).trans (hm x)⟩

theorem parseFile_counts (f : File) (k : Loader) (hk : k.requestList = []) :
    (parseFile env f k).value.requestList = [] ∧
      ∀ x, (parseFile env f k).value.statRequestedMap x =
        k.statRequestedMap x + BitVec.ofNat 32 ((pushedNames (transitions f.lines)).count x) := by
  induction f with
  | line n =>
      have ht : transitions (File.line n).lines = n.transitions := by simp [transitions, File.lines]
      rw [ht]
      exact parseLine_counts env n k hk
  | snoc f n ih =>
      obtain ⟨hr, hm⟩ := ih
      obtain ⟨hr', hm'⟩ := parseLine_counts env n (parseFile env f k).value hr
      refine ⟨hr', ?_⟩
      intro x
      have hp : pushedNames (transitions (File.snoc f n).lines) =
          pushedNames (transitions f.lines) ++ pushedNames n.transitions := by
        simp [pushedNames, transitions, File.lines]
      rw [hp, List.count_append, BitVec.ofNat_add, ← BitVec.add_assoc, ← hm x]
      exact hm' x

/-- Every permission of every vector is in its link and in the statistics. -/
structure RequestsKept (env : Env) (ns : List Line) (k : Loader) : Prop where
  masks : ∀ i n j t, ns[i]? = some n → n.transitions[j]? = some t →
    (k.l ((k.s (BitVec.ofNat 32 i)).linkOffset + BitVec.ofNat 32 j)).requested =
      mask env (env.stringToSecurityClass t.vector.tclass.text) t.vector.request.words
  counts : ∀ x, (k.statRequestedMap x).toNat = (names (transitions ns)).count x

def Uniform (ns : List Line) : Prop :=
  ∀ t ∈ transitions ns, ∀ w ∈ t.vector.request.words, w = t.vector.request.first

theorem pushed_establishes (env : Env) :
    Establishes env (fun k => k.requestList = []) fun t x =>
      x.requested = mask env (env.stringToSecurityClass t.vector.tclass.text) (pushed t.vector.request) where
  clean _ hk := hk
  link t k hk := by
    have h : TransitionDone env t k _ := parseTransition_done t k hk
    rw [h.l, Function.update_self]
  transition t k hk := (parseTransition_done t k hk).requestList
  line k hk := (lineAction_done k).requestList.trans hk

theorem names_eq_pushedNames {ns : List Line} (h : Uniform ns) :
    names (transitions ns) = pushedNames (transitions ns) := by
  rw [names, pushedNames, List.flatMap_def, List.flatMap_def]
  apply congrArg List.flatten
  apply List.map_congr_left
  intro t ht
  exact words_eq_pushed (h t ht)

/-- A libselinux that gives one permission name a bit and no other. -/
def onlyBit (v : String) : Env where
  stringToSecurityClass _ := 1
  stringToAvPerm _ w := if w = v then 1 else 0
  getsid _ _ := .answer "1"

theorem first_of_mask_eq {v : String} {c : U16} {r : Request} (hv : v ∈ r.words)
    (h : mask (onlyBit v) c (pushed r) = mask (onlyBit v) c r.words) : v = r.first := by
  have hbit : (mask (onlyBit v) c r.words).getLsbD 0 = true := by
    rw [getLsbD_mask, List.any_eq_true]
    exact ⟨v, hv, by simp [onlyBit]⟩
  rw [← h, getLsbD_mask, List.any_eq_true] at hbit
  obtain ⟨w, hw, hb⟩ := hbit
  have hwv : w = v := by
    by_contra hne
    simp [onlyBit, hne] at hb
  rw [← hwv]
  exact List.eq_of_mem_replicate hw

/-- No permission is lost, whatever the numbering, exactly for the policies
whose vectors repeat one word, and as long as the counters do not wrap. -/
theorem requestsKept_iff (w : Wholefile) (hs : w.file.lines.length < 2 ^ 32)
    (hl : 2 * size w.file.lines < 2 ^ 32) :
    (∀ env, RequestsKept env w.file.lines (yyparse env w zeroed).value) ↔
      Uniform w.file.lines ∧ ∀ x, (names (transitions w.file.lines)).count x < 2 ^ 32 := by
  have hlaid : ∀ env, Laid _ w.file.lines (yyparse env w zeroed).value := fun env =>
    (parseFile_laid (pushed_establishes env) w.file (k := zeroed) rfl (laid_start _) hs hl).2
  constructor
  · intro h
    refine ⟨?_, ?_⟩
    · intro t ht v hv
      obtain ⟨n, hn, htn⟩ := List.mem_flatMap.mp ht
      obtain ⟨i, hi⟩ := List.mem_iff_getElem?.mp hn
      obtain ⟨j, hj⟩ := List.mem_iff_getElem?.mp htn
      exact first_of_mask_eq hv
        (((hlaid (onlyBit v)).links i n j t hi hj).symm.trans ((h (onlyBit v)).masks i n j t hi hj))
    · intro x
      rw [← (h (onlyBit x)).counts x]
      exact BitVec.isLt _
  · rintro ⟨hu, hc⟩ env
    refine ⟨?_, ?_⟩
    · intro i n j t hi hj
      have ht : t ∈ transitions w.file.lines :=
        List.mem_flatMap.mpr ⟨n, List.mem_of_getElem? hi, List.mem_of_getElem? hj⟩
      rw [words_eq_pushed (hu t ht)]
      exact (hlaid env).links i n j t hi hj
    · intro x
      have hm := (parseFile_counts env w.file zeroed rfl).2 x
      have hz : (yyparse env w zeroed).value.statRequestedMap x =
          0 + BitVec.ofNat 32 ((pushedNames (transitions w.file.lines)).count x) := hm
      rw [hz, ← names_eq_pushedNames hu, zero_add_ofNat, toNat_index (hc x)]

/-- The word after the first one leaves no bit in the link and no count. -/
theorem second_word_lost :
    ((yyparse shadowEnv shadowFile zeroed).value.l 0).requested = 0x2 ∧
      mask shadowEnv 6 ["read", "relabelfrom"] = 0x82 ∧
      (yyparse shadowEnv shadowFile zeroed).value.statRequestedMap "read" = 2 ∧
      (yyparse shadowEnv shadowFile zeroed).value.statRequestedMap "relabelfrom" = 0 ∧
      ¬RequestsKept shadowEnv shadowFile.file.lines (yyparse shadowEnv shadowFile zeroed).value := by
  refine ⟨by decide, by decide, by decide, by decide, ?_⟩
  intro h
  exact absurd (h.counts "relabelfrom") (by decide)

theorem requestsKept_iff_shadow :
    (∀ env, RequestsKept env shadowFile.file.lines (yyparse env shadowFile zeroed).value) ↔
      Uniform shadowFile.file.lines ∧ ∀ x, (names (transitions shadowFile.file.lines)).count x < 2 ^ 32 :=
  requestsKept_iff shadowFile (by decide) (by decide)

end PigaLinux.PppRequests
