import PigaLinux.Indices
import PigaLinux.PppActions

namespace PigaLinux.PppCompile

open Kernel Trace Indices PppSyntax Ppp PppActions
open Piga (Sequence Link)

structure Establishes (env : Env) (Good : Loader → Prop) (P : Transition → Link → Prop) : Prop where
  clean : ∀ k, Good k → k.requestList = []
  link : ∀ t k, Good k → P t ((parseTransition env t k).value.l k.currLink)
  transition : ∀ t k, Good k → Good (parseTransition env t k).value
  line : ∀ k, Good k → Good (lineAction k).value

structure SignatureDone (P : Transition → Link → Prop) (ts : List Transition) (k k' : Loader) : Prop where
  s : k'.s = Function.update k.s k.currSeq
    { k.s k.currSeq with length := (k.s k.currSeq).length + BitVec.ofNat 32 ts.length }
  currSeq : k'.currSeq = k.currSeq
  currLink : k'.currLink.toNat = k.currLink.toNat + ts.length
  below : ∀ i, i.toNat < k.currLink.toNat → k'.l i = k.l i
  links : ∀ j t, ts[j]? = some t → P t (k'.l (k.currLink + BitVec.ofNat 32 j))

variable {env : Env} {Good : Loader → Prop} {P : Transition → Link → Prop}

theorem transition_signatureDone (he : Establishes env Good P) (t : Transition) (k : Loader) (hk : Good k)
    (hb : k.currLink.toNat + 1 < 2 ^ 32) : SignatureDone P [t] k (parseTransition env t k).value := by
  have h : TransitionDone env t k _ := parseTransition_done t k (he.clean k hk)
  refine ⟨h.s, h.currSeq, ?_, ?_, ?_⟩
  · rw [h.currLink]
    exact toNat_add_ofNat hb
  · intro i hi
    have hne : i ≠ k.currLink := by
      rintro rfl
      exact Nat.lt_irrefl _ hi
    rw [h.l, Function.update_of_ne hne]
  · intro j u hj
    obtain ⟨rfl, rfl⟩ : j = 0 ∧ u = t := by
      cases j with
      | zero => exact ⟨rfl, (Option.some.inj hj).symm⟩
      | succ j => simp at hj
    have hz : k.currLink + BitVec.ofNat 32 0 = k.currLink := by simp
    rw [hz]
    exact he.link u k hk

theorem SignatureDone.snoc {ts : List Transition} {t : Transition} {k k₁ k₂ : Loader}
    (h₁ : SignatureDone P ts k k₁) (h₂ : SignatureDone P [t] k₁ k₂)
    (hb : k.currLink.toNat + ts.length + 1 < 2 ^ 32) : SignatureDone P (ts ++ [t]) k k₂ where
  s := by
    rw [h₂.s, h₁.s, h₁.currSeq, Function.update_self, Function.update_idem, List.length_append,
      BitVec.ofNat_add, ← BitVec.add_assoc]
  currSeq := h₂.currSeq.trans h₁.currSeq
  currLink := by
    rw [h₂.currLink, h₁.currLink, List.length_append, Nat.add_assoc]
  below i hi := by
    rw [h₂.below i (by rw [h₁.currLink]; omega), h₁.below i hi]
  links j u hj := by
    rcases Nat.lt_or_ge j ts.length with hlt | hge
    · rw [List.getElem?_append_left hlt] at hj
      have hlow : (k.currLink + BitVec.ofNat 32 j).toNat < k₁.currLink.toNat := by
        rw [toNat_add_ofNat (by omega), h₁.currLink]
        omega
      rw [h₂.below _ hlow]
      exact h₁.links j u hj
    · rw [List.getElem?_append_right hge] at hj
      have hlast : j - ts.length = 0 := by
        have := (List.getElem?_eq_some_iff.mp hj).1
        simpa using this
      have hcur : k.currLink + BitVec.ofNat 32 j = k₁.currLink + BitVec.ofNat 32 0 := by
        apply BitVec.eq_of_toNat_eq
        rw [toNat_add_ofNat (by omega), toNat_add_ofNat (by rw [h₁.currLink]; omega), h₁.currLink]
        omega
      rw [hlast] at hj
      rw [hcur]
      exact h₂.links 0 u hj

theorem parseSignature_done (he : Establishes env Good P) (g : Signature) (k : Loader) (hk : Good k)
    (hb : k.currLink.toNat + g.transitions.length < 2 ^ 32) :
    Good (parseSignature env g k).value ∧
      SignatureDone P g.transitions k (parseSignature env g k).value := by
  induction g with
  | transition t => exact ⟨he.transition t k hk, transition_signatureDone he t k hk hb⟩
  | snoc g t ih =>
      rw [Signature.transitions, List.length_append, List.length_singleton] at hb
      obtain ⟨hg, hs⟩ := ih (by omega)
      have ht := transition_signatureDone he t _ hg (by rw [hs.currLink]; omega)
      rw [parseSignature, value_bind]
      exact ⟨he.transition t _ hg, hs.snoc ht (by omega)⟩

def size (ns : List Line) : Nat := (ns.map (fun n => n.transitions.length)).sum

theorem size_append (ns ms : List Line) : size (ns ++ ms) = size ns + size ms := by
  simp [size]

theorem size_singleton (n : Line) : size [n] = n.transitions.length := by
  simp [size]

theorem size_snoc (ns : List Line) (n : Line) : size (ns ++ [n]) = size ns + n.transitions.length := by
  rw [size_append, size_singleton]

theorem size_take_le (ns : List Line) (i : Nat) : size (ns.take i) ≤ size ns := by
  have h := size_append (ns.take i) (ns.drop i)
  rw [List.take_append_drop] at h
  omega

theorem size_take_add_le {ns : List Line} {i : Nat} {n : Line} (hn : ns[i]? = some n) :
    size (ns.take i) + n.transitions.length ≤ size ns := by
  have hsplit := size_take_le ns (i + 1)
  rwa [List.take_add_one, hn, Option.toList_some, size_snoc] at hsplit

/-- The arrays after some lines. Each line takes twice its length of the
links, since its end moves the cursor over the length once more. -/
structure Laid (P : Transition → Link → Prop) (ns : List Line) (k : Loader) : Prop where
  currSeq : k.currSeq.toNat = ns.length
  currLink : k.currLink.toNat = 2 * size ns
  fresh : ∀ i, ns.length ≤ i.toNat → (k.s i).length = 0 ∧ (k.s i).currentPosition = 0
  next : (k.s k.currSeq).linkOffset = k.currLink
  length : ∀ i n, ns[i]? = some n → (k.s (BitVec.ofNat 32 i)).length.toNat = n.transitions.length
  position : ∀ i n, ns[i]? = some n → (k.s (BitVec.ofNat 32 i)).currentPosition = 0
  offset : ∀ i n, ns[i]? = some n → (k.s (BitVec.ofNat 32 i)).linkOffset.toNat = 2 * size (ns.take i)
  links : ∀ i n j t, ns[i]? = some n → n.transitions[j]? = some t →
    P t (k.l ((k.s (BitVec.ofNat 32 i)).linkOffset + BitVec.ofNat 32 j))

structure LineDone (k k' : Loader) : Prop where
  s : k'.s = Function.update k.s (k.currSeq + 1)
    { k.s (k.currSeq + 1) with linkOffset := k.currLink + (k.s k.currSeq).length }
  l : k'.l = k.l
  currSeq : k'.currSeq = k.currSeq + 1
  currLink : k'.currLink = k.currLink + (k.s k.currSeq).length
  requestList : k'.requestList = k.requestList
  sidMap : k'.sidMap = k.sidMap
  statRequestedMap : k'.statRequestedMap = k.statRequestedMap

theorem lineAction_done (k : Loader) : LineDone k (lineAction k).value := by
  constructor <;> simp only [lineAction, countLine, modifySeq, value_bind, value_visit] <;> split <;> rfl

theorem laid_start (l : U32 → Link) : Laid P [] (start (fun _ => ⟨0, 0, 0⟩) l) where
  currSeq := rfl
  currLink := rfl
  fresh i _ := by
    have hs : (start (fun _ => ⟨0, 0, 0⟩) l).s = fun _ => ⟨0, 0, 0⟩ := Function.update_eq_self 0 _
    rw [hs]
    exact ⟨rfl, rfl⟩
  next := rfl
  length i n h := by simp at h
  position i n h := by simp at h
  offset i n h := by simp at h
  links i n j t h := by simp at h

theorem getElem?_snoc_cases {α : Type} {xs : List α} {x y : α} {i : Nat} (h : (xs ++ [x])[i]? = some y) :
    (i < xs.length ∧ xs[i]? = some y) ∨ (i = xs.length ∧ y = x) := by
  rcases Nat.lt_or_ge i xs.length with hlt | hge
  · exact .inl ⟨hlt, by rwa [List.getElem?_append_left hlt] at h⟩
  · rw [List.getElem?_append_right hge] at h
    obtain ⟨hi, hy⟩ := List.getElem?_eq_some_iff.mp h
    rw [List.length_singleton] at hi
    exact .inr ⟨by omega, by simpa using hy.symm⟩

section line

variable {ns : List Line} {n : Line} {k k₁ k₂ : Loader}

theorem Laid.currSeq_eq (h : Laid P ns k) (hs : ns.length < 2 ^ 32) : k.currSeq = BitVec.ofNat 32 ns.length := by
  apply BitVec.eq_of_toNat_eq
  rw [h.currSeq, toNat_index hs]

theorem record_frame (h₁ : SignatureDone P n.transitions k k₁) (h₂ : LineDone k₁ k₂) {i : U32}
    (hi : i ≠ k.currSeq) (hi' : i ≠ k.currSeq + 1) : k₂.s i = k.s i := by
  rw [h₂.s, h₁.currSeq, Function.update_of_ne hi', h₁.s, Function.update_of_ne hi]

theorem Laid.record (h : Laid P ns k) (h₁ : SignatureDone P n.transitions k k₁) :
    k₁.s k.currSeq = ⟨BitVec.ofNat 32 n.transitions.length, 0, k.currLink⟩ := by
  obtain ⟨hlen, hpos⟩ := h.fresh k.currSeq (Nat.le_of_eq h.currSeq.symm)
  have hnext := h.next
  rw [h₁.s, Function.update_self]
  cases hx : k.s k.currSeq with
  | mk a b c =>
      rw [hx] at hlen hpos hnext
      subst hlen hpos hnext
      simp

theorem Laid.offset_add_le (h : Laid P ns k) {i : Nat} {m : Line} (hm : ns[i]? = some m) :
    (k.s (BitVec.ofNat 32 i)).linkOffset.toNat + 2 * m.transitions.length ≤ k.currLink.toNat := by
  have hsplit := size_take_add_le hm
  rw [h.offset i m hm, h.currLink]
  omega

theorem Laid.next_toNat (h : Laid P ns k) (hs : ns.length + 1 < 2 ^ 32) :
    (k.currSeq + 1).toNat = ns.length + 1 :=
  toNat_succ_of_lt h.currSeq hs

theorem Laid.own (h : Laid P ns k) (h₁ : SignatureDone P n.transitions k k₁) (h₂ : LineDone k₁ k₂)
    (hs : ns.length + 1 < 2 ^ 32) :
    k₂.s (BitVec.ofNat 32 ns.length) = ⟨BitVec.ofNat 32 n.transitions.length, 0, k.currLink⟩ := by
  have hnext := h.next_toNat hs
  have hne : k.currSeq ≠ k.currSeq + 1 := by
    intro e
    rw [← e, h.currSeq] at hnext
    omega
  rw [← h.currSeq_eq (by omega), h₂.s, h₁.currSeq, Function.update_of_ne hne, h.record h₁]

theorem Laid.earlier (h : Laid P ns k) (h₁ : SignatureDone P n.transitions k k₁) (h₂ : LineDone k₁ k₂)
    (hs : ns.length + 1 < 2 ^ 32) {i : Nat} (hi : i < ns.length) :
    k₂.s (BitVec.ofNat 32 i) = k.s (BitVec.ofNat 32 i) := by
  have hseq := h.currSeq_eq (by omega)
  apply record_frame h₁ h₂
  · rw [hseq]
    exact ofNat_ne (by omega) (by omega) (by omega)
  · rw [hseq, ofNat_succ]
    exact ofNat_ne (by omega) hs (by omega)

theorem Laid.later (h : Laid P ns k) (h₁ : SignatureDone P n.transitions k k₁) (h₂ : LineDone k₁ k₂)
    {i : U32} (hi : ns.length + 1 ≤ i.toNat) : (k₂.s i).length = 0 ∧ (k₂.s i).currentPosition = 0 := by
  have hcs := h.currSeq
  have hi₀ : i ≠ k.currSeq := by
    rintro rfl
    omega
  have hf := h.fresh i (by omega)
  by_cases he : i = k.currSeq + 1
  · rw [he] at hi₀ hf ⊢
    rw [h₂.s, h₁.currSeq, Function.update_self, h₁.s, Function.update_of_ne hi₀]
    exact hf
  · rw [record_frame h₁ h₂ hi₀ he]
    exact hf

theorem Laid.earlier_links (h : Laid P ns k) (h₁ : SignatureDone P n.transitions k k₁) (h₂ : LineDone k₁ k₂)
    (hs : ns.length + 1 < 2 ^ 32) {i j : Nat} {m : Line} {t : Transition} (hm : ns[i]? = some m)
    (hj : m.transitions[j]? = some t) :
    P t (k₂.l ((k₂.s (BitVec.ofNat 32 i)).linkOffset + BitVec.ofNat 32 j)) := by
  have hlt := (List.getElem?_eq_some_iff.mp hm).1
  have hjlt := (List.getElem?_eq_some_iff.mp hj).1
  have hoff := h.offset_add_le hm
  have hcl := k.currLink.isLt
  have hlow : ((k.s (BitVec.ofNat 32 i)).linkOffset + BitVec.ofNat 32 j).toNat < k.currLink.toNat := by
    rw [toNat_add_ofNat (by omega)]
    omega
  rw [h.earlier h₁ h₂ hs hlt, h₂.l, h₁.below _ hlow]
  exact h.links i m j t hm hj

theorem Laid.line (h : Laid P ns k) (h₁ : SignatureDone P n.transitions k k₁) (h₂ : LineDone k₁ k₂)
    (hs : ns.length + 1 < 2 ^ 32) (hl : 2 * (size ns + n.transitions.length) < 2 ^ 32) :
    Laid P (ns ++ [n]) k₂ := by
  have hcl := h.currLink
  have hcl₁ := h₁.currLink
  have hown := h.own h₁ h₂ hs
  refine ⟨?_, ?_, ?_, ?_, ?_, ?_, ?_, ?_⟩
  · rw [h₂.currSeq, h₁.currSeq, h.next_toNat hs, List.length_append, List.length_singleton]
  · rw [h₂.currLink, h₁.currSeq, h.record h₁, size_snoc, toNat_add_ofNat (by omega)]
    omega
  · intro i hi
    rw [List.length_append, List.length_singleton] at hi
    exact h.later h₁ h₂ hi
  · rw [h₂.currSeq, h₂.s, Function.update_self, h₂.currLink]
  · intro i m hi
    rcases getElem?_snoc_cases hi with ⟨hlt, hm⟩ | ⟨rfl, rfl⟩
    · rw [h.earlier h₁ h₂ hs hlt]
      exact h.length i m hm
    · rw [hown]
      exact toNat_index (by omega)
  · intro i m hi
    rcases getElem?_snoc_cases hi with ⟨hlt, hm⟩ | ⟨rfl, rfl⟩
    · rw [h.earlier h₁ h₂ hs hlt]
      exact h.position i m hm
    · rw [hown]
  · intro i m hi
    rcases getElem?_snoc_cases hi with ⟨hlt, hm⟩ | ⟨rfl, rfl⟩
    · rw [h.earlier h₁ h₂ hs hlt, List.take_append_of_le_length (by omega)]
      exact h.offset i m hm
    · rw [hown, List.take_left]
      exact hcl
  · intro i m j t hi hj
    rcases getElem?_snoc_cases hi with ⟨-, hm⟩ | ⟨rfl, rfl⟩
    · exact h.earlier_links h₁ h₂ hs hm hj
    · rw [hown, h₂.l]
      exact h₁.links j t hj

end line

theorem parseLine_laid (he : Establishes env Good P) {ns : List Line} (n : Line) {k : Loader} (hk : Good k)
    (h : Laid P ns k) (hs : ns.length + 1 < 2 ^ 32)
    (hl : 2 * (size ns + n.transitions.length) < 2 ^ 32) :
    Good (parseLine env n k).value ∧ Laid P (ns ++ [n]) (parseLine env n k).value := by
  have hc := h.currLink
  change 2 * (size ns + n.signature.transitions.length) < 2 ^ 32 at hl
  obtain ⟨hg, hd⟩ := parseSignature_done he n.signature k hk (by rw [hc]; omega)
  exact ⟨he.line _ hg, h.line hd (lineAction_done _) hs hl⟩

theorem parseFile_laid (he : Establishes env Good P) (f : File) {k : Loader} (hk : Good k) (h : Laid P [] k)
    (hs : f.lines.length < 2 ^ 32) (hl : 2 * size f.lines < 2 ^ 32) :
    Good (parseFile env f k).value ∧ Laid P f.lines (parseFile env f k).value := by
  induction f with
  | line n =>
      rw [File.lines, size_singleton] at hl
      exact parseLine_laid he n hk h (by decide) (by simpa [size] using hl)
  | snoc f n ih =>
      rw [File.lines, size_snoc] at hl
      rw [File.lines, List.length_append, List.length_singleton] at hs
      obtain ⟨hg, hd⟩ := ih (by omega) (by omega)
      exact parseLine_laid he n hg hd hs hl

def meaning (env : Env) (answer : String → Getsid) (t : Transition) : U32 × U16 × U32 :=
  (sidOf (answer t.source.text), env.stringToSecurityClass t.vector.tclass.text, sidOf (answer t.target.text))

/-- The two arrays read back, by the offset and the length of each sequence. -/
def decode (k : Loader) : List (List (U32 × U16 × U32)) :=
  (List.range k.currSeq.toNat).map fun i =>
    (List.range (k.s (BitVec.ofNat 32 i)).length.toNat).map fun j =>
      let x := k.l ((k.s (BitVec.ofNat 32 i)).linkOffset + BitVec.ofNat 32 j)
      (x.cs, x.tclass, x.cc)

structure Compiled (env : Env) (answer : String → Getsid) (ns : List Line) (k : Loader) : Prop where
  lines : k.currSeq.toNat = ns.length
  length : ∀ i n, ns[i]? = some n → (k.s (BitVec.ofNat 32 i)).length.toNat = n.transitions.length ∧
    1 ≤ (k.s (BitVec.ofNat 32 i)).length.toNat
  position : ∀ i < ns.length, (k.s (BitVec.ofNat 32 i)).currentPosition = 0
  ordered : ∀ i j, i < j → j < ns.length →
    (k.s (BitVec.ofNat 32 i)).linkOffset.toNat + (k.s (BitVec.ofNat 32 i)).length.toNat ≤
      (k.s (BitVec.ofNat 32 j)).linkOffset.toNat
  below : ∀ i < ns.length,
    (k.s (BitVec.ofNat 32 i)).linkOffset.toNat + (k.s (BitVec.ofNat 32 i)).length.toNat ≤ k.currLink.toNat
  links : ∀ i n j t, ns[i]? = some n → n.transitions[j]? = some t →
    (k.l ((k.s (BitVec.ofNat 32 i)).linkOffset + BitVec.ofNat 32 j)).cs = sidOf (answer t.source.text) ∧
      (k.l ((k.s (BitVec.ofNat 32 i)).linkOffset + BitVec.ofNat 32 j)).cc = sidOf (answer t.target.text) ∧
        (k.l ((k.s (BitVec.ofNat 32 i)).linkOffset + BitVec.ofNat 32 j)).tclass =
          env.stringToSecurityClass t.vector.tclass.text
  decoded : decode k = ns.map fun n => n.transitions.map (meaning env answer)

theorem resolved_establishes {answer : String → Getsid} (ha : ∀ n c, env.getsid n c = answer c) :
    Establishes env (fun k => k.requestList = [] ∧ Cached answer k) fun t x =>
      x.cs = sidOf (answer t.source.text) ∧ x.cc = sidOf (answer t.target.text) ∧
        x.tclass = env.stringToSecurityClass t.vector.tclass.text where
  clean _ hk := hk.1
  link t k hk := by
    obtain ⟨h₁, h₂, -⟩ := lookups_cached ha t hk.1 hk.2
    have h : TransitionDone env t k _ := parseTransition_done t k hk.1
    rw [h.l, Function.update_self]
    exact ⟨h₁, h₂, rfl⟩
  transition t k hk := by
    obtain ⟨-, -, hc⟩ := lookups_cached ha t hk.1 hk.2
    have h : TransitionDone env t k _ := parseTransition_done t k hk.1
    refine ⟨h.requestList, ?_⟩
    intro c r hr
    rw [h.sidMap] at hr
    exact hc c r hr
  line k hk := by
    have h := lineAction_done k
    refine ⟨h.requestList.trans hk.1, ?_⟩
    intro c r hr
    rw [h.sidMap] at hr
    exact hk.2 c r hr

theorem Laid.ordered {ns : List Line} {k : Loader} (h : Laid P ns k) {i j : Nat} {n m : Line} (hij : i < j)
    (hn : ns[i]? = some n) (hm : ns[j]? = some m) :
    (k.s (BitVec.ofNat 32 i)).linkOffset.toNat + n.transitions.length ≤
      (k.s (BitVec.ofNat 32 j)).linkOffset.toNat := by
  have hle := size_take_le (ns.take j) (i + 1)
  rw [List.take_take, Nat.min_eq_left (by omega), List.take_add_one, hn, Option.toList_some, size_snoc] at hle
  rw [h.offset i n hn, h.offset j m hm]
  omega

theorem map_range_eq {α β : Type} {xs : List α} {f : Nat → β} {g : α → β}
    (h : ∀ i x, xs[i]? = some x → f i = g x) : (List.range xs.length).map f = xs.map g := by
  apply List.ext_getElem
  · simp
  · intro i hi _
    rw [List.length_map, List.length_range] at hi
    rw [List.getElem_map, List.getElem_map, List.getElem_range]
    exact h i _ (List.getElem?_eq_getElem hi)

/-- A layout of resolved links is the policy, read back line by line. -/
theorem Laid.compiled {answer : String → Getsid} {ns : List Line} {k : Loader}
    (h : Laid (fun t x => x.cs = sidOf (answer t.source.text) ∧ x.cc = sidOf (answer t.target.text) ∧
      x.tclass = env.stringToSecurityClass t.vector.tclass.text) ns k) : Compiled env answer ns k := by
  have hget : ∀ i, i < ns.length → ∃ n, ns[i]? = some n := fun i hi => ⟨_, List.getElem?_eq_getElem hi⟩
  refine ⟨h.currSeq, ?_, ?_, ?_, ?_, h.links, ?_⟩
  · intro i n hn
    have hpos : 0 < n.transitions.length := n.signature.transitions_pos
    rw [h.length i n hn]
    exact ⟨rfl, hpos⟩
  · intro i hi
    obtain ⟨n, hn⟩ := hget i hi
    exact h.position i n hn
  · intro i j hij hj
    obtain ⟨n, hn⟩ := hget i (by omega)
    obtain ⟨m, hm⟩ := hget j hj
    rw [h.length i n hn]
    exact h.ordered hij hn hm
  · intro i hi
    obtain ⟨n, hn⟩ := hget i hi
    have hle := h.offset_add_le hn
    rw [h.length i n hn]
    omega
  · rw [decode, h.currSeq]
    apply map_range_eq
    intro i n hn
    rw [h.length i n hn]
    apply map_range_eq
    intro j t ht
    obtain ⟨hcs, hcc, htc⟩ := h.links i n j t hn ht
    exact Prod.ext hcs (Prod.ext htc hcc)

/-- PPP's two arrays are the policy: every line keeps its transitions, in
order, in a range of its own. -/
theorem yyparse_compiled (env : Env) (answer : String → Getsid) (ha : ∀ n c, env.getsid n c = answer c)
    (w : Wholefile) (hs : w.file.lines.length < 2 ^ 32) (hl : 2 * size w.file.lines < 2 ^ 32) :
    Compiled env answer w.file.lines (yyparse env w zeroed).value := by
  have hgood : Cached answer zeroed := fun _ _ hr => by simp [zeroed, start] at hr
  exact (parseFile_laid (resolved_establishes ha) w.file ⟨rfl, hgood⟩ (laid_start _) hs hl).2.compiled

/-- The first two steps of signature 1$785 of the shipped shadow policy. -/
def shadowFile : Wholefile where
  file := .line ⟨none, ⟨"1$785", by decide⟩, .snoc
    (.transition ⟨⟨"user_u", "user_r", "passwd_t", by decide, by decide, by decide⟩,
      ⟨⟨"file", by decide⟩, .snoc (.word ⟨"read", by decide⟩) ⟨"relabelfrom", by decide⟩⟩,
      ⟨"system_u", "object_r", "shadow_t", by decide, by decide, by decide⟩⟩)
    ⟨⟨"user_u", "user_r", "passwd_t", by decide, by decide, by decide⟩,
      ⟨⟨"chr_file", by decide⟩, .word ⟨"write", by decide⟩⟩,
      ⟨"root", "object_r", "user_devpts_t", by decide, by decide, by decide⟩⟩⟩
  eol := true

def passwdContext : Context := ⟨"user_u", "user_r", "passwd_t", by decide, by decide, by decide⟩

def shadowContext : Context := ⟨"system_u", "object_r", "shadow_t", by decide, by decide, by decide⟩

def readRequest : Request := .word ⟨"read", by decide⟩

def readFile : AvVector := ⟨⟨"file", by decide⟩, readRequest⟩

/-- The first step with one permission only. -/
def oneStep : Line where
  type := none
  bool := ⟨"1$785", by decide⟩
  signature := .transition ⟨passwdContext, readFile, shadowContext⟩

def shadowAnswer (c : String) : Getsid :=
  if c = "user_u:user_r:passwd_t" then .answer "101"
  else if c = "system_u:object_r:shadow_t" then .answer "102"
  else .answer "103"

/-- Class and permission numbers as libselinux returns them for the usual policies. -/
def shadowEnv : Env where
  stringToSecurityClass c := if c = "file" then 6 else if c = "chr_file" then 10 else 0
  stringToAvPerm _ p :=
    if p = "read" then 0x2 else if p = "write" then 0x4 else if p = "relabelfrom" then 0x80 else 0
  getsid _ c := shadowAnswer c

theorem yyparse_compiled_shadow :
    Compiled shadowEnv shadowAnswer shadowFile.file.lines
      (yyparse shadowEnv shadowFile zeroed).value :=
  yyparse_compiled shadowEnv shadowAnswer (fun _ _ => rfl) shadowFile (by decide) (by decide)

end PigaLinux.PppCompile
