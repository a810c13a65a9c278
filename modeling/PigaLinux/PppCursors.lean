import PigaLinux.PppMemory
import PigaLinux.PppPrint
import Mathlib.Algebra.Ring.Nat

namespace PigaLinux.PppCursors

open Kernel Trace Indices PppSyntax Ppp PppActions PppCompile PppResults PppMemory PppLex PppParse PppPrint
open Piga (Sequence Link)

/-- The links that the lines from the i-th on take, when they have as many
transitions as listed and the array of sequences held `s` at first. A line moves the cursor over
its links, and at its end over the length once more, with what stood there before. -/
def spent (s : U32 → Sequence) : Nat → List Nat → Nat
  | _, [] => 0
  | i, n :: ns => 2 * n + (s (BitVec.ofNat 32 i)).length.toNat + spent s (i + 1) ns

def counts (ns : List Line) : List Nat := ns.map fun n => n.transitions.length

variable (env : Env)

section positions

variable {s : U32 → Sequence} {i : Nat} {cur : U32} {k : Loader}

theorem lineCursor_eq (cur : U32) (r : Sequence) (n : Nat) :
    cur + BitVec.ofNat 32 n + (r.length + BitVec.ofNat 32 n) = cur + BitVec.ofNat 32 (2 * n + r.length.toNat) := by
  rw [Nat.two_mul, BitVec.ofNat_add, BitVec.ofNat_add, BitVec.ofNat_toNat, BitVec.setWidth_eq]
  ac_rfl

theorem before_runLines (h : Before s i cur k) (ns : List Line) (hi : i + ns.length < 2 ^ 32) :
    Before s (i + ns.length) (cur + BitVec.ofNat 32 (spent s i (counts ns))) (runLines env ns k).value := by
  induction ns generalizing i cur k with
  | nil =>
      have hcur : cur + BitVec.ofNat 32 (spent s i (counts [])) = cur := BitVec.add_zero cur
      rw [hcur]
      exact h
  | cons n ns ih =>
      rw [List.length_cons] at hi
      obtain ⟨hb, -, -⟩ := h.line env n (by omega)
      rw [lineCursor_eq] at hb
      have hlines := ih hb (by omega)
      rw [BitVec.add_assoc, ← BitVec.ofNat_add, Nat.add_assoc, Nat.add_comm 1] at hlines
      exact hlines

theorem mem_runLines_used (h : Before s i cur k) (ns : List Line) (hi : i + ns.length < 2 ^ 32) (x : Slot) :
    x ∈ (runLines env ns k).used ↔ ∃ m n, ns[m]? = some n ∧
      ((∃ j < n.transitions.length, x = .l (cur + BitVec.ofNat 32 (spent s i (counts (ns.take m)) + j))) ∨
        x = .s (BitVec.ofNat 32 (i + m)) ∨ x = .s (BitVec.ofNat 32 (i + m + 1))) := by
  induction ns generalizing i cur k with
  | nil => simp [runLines]
  | cons n ns ih =>
      rw [List.length_cons] at hi
      obtain ⟨hb, -, -⟩ := h.line env n (by omega)
      rw [lineCursor_eq] at hb
      have hlink : ∀ m j, cur + BitVec.ofNat 32 (2 * n.transitions.length + (s (BitVec.ofNat 32 i)).length.toNat) +
          BitVec.ofNat 32 (spent s (i + 1) (counts (ns.take m)) + j) =
            cur + BitVec.ofNat 32 (spent s i (counts ((n :: ns).take (m + 1))) + j) := by
        intro m j
        rw [BitVec.add_assoc, ← BitVec.ofNat_add, ← Nat.add_assoc]
        rfl
      have hseq : ∀ m, i + 1 + m = i + (m + 1) := fun m => by omega
      have hrest := ih hb (by omega)
      simp only [hlink, hseq] at hrest
      rw [runLines, used_bind, List.mem_append, mem_line_used env h, hrest]
      constructor
      · rintro (hx | ⟨m, n', hm, hx⟩)
        · refine ⟨0, n, rfl, ?_⟩
          simpa [counts, spent] using hx
        · exact ⟨m + 1, n', hm, hx⟩
      · rintro ⟨m, n', hm, hx⟩
        cases m with
        | zero =>
            obtain rfl := Option.some.inj hm
            left
            simpa [counts, spent] using hx
        | succ m => exact .inr ⟨m, n', hm, hx⟩

end positions

section places

def linesOf : Option File → List Line
  | none => []
  | some f => f.lines

def transitionsOf : Option Signature → List Transition
  | none => []
  | some g => g.transitions

/-- The lines that are complete when the parser is at a place. -/
def completeLines : Place → List Line
  | .line f | .type f _ | .dash f _ => linesOf f
  | .bool h | .signature h _ | .signatureEnd h _ => linesOf h.file
  | .source o | .vector o | .tclass o _ | .brace o _ | .request o _ _ => linesOf o.head.file
  | .vectorEnd o _ | .target o _ => linesOf o.head.file
  | .accepted w => w.file.lines

def openTransitions : Place → List Transition
  | .signature _ g => transitionsOf g
  | .source o | .vector o | .tclass o _ | .brace o _ | .request o _ _ => transitionsOf o.signature
  | .vectorEnd o _ | .target o _ => transitionsOf o.signature
  | .signatureEnd _ g => g.transitions
  | _ => []

def openLinks : Place → Nat
  | .vectorEnd o _ | .target o _ => (transitionsOf o.signature).length + 1
  | p => (openTransitions p).length

def openDone : Place → Loader → Traced Slot Loader
  | .signature _ g, k => signatureDone env g k
  | .source o, k | .vector o, k | .tclass o _, k | .brace o _, k => signatureDone env o.signature k
  | .request o _ r, k => signatureDone env o.signature k >>= fun k => pure (parseRequest r k).2
  | .vectorEnd o v, k | .target o v, k => signatureDone env o.signature k >>= parseVector env v
  | .signatureEnd _ g, k => parseSignature env g k
  | _, k => pure k

theorem fileDone_eq (f : Option File) (k : Loader) : fileDone env f k = runLines env (linesOf f) k := by
  cases f with
  | none => rfl
  | some f => exact parseFile_eq env f k

theorem done_eq (p : Place) (k : Loader) : done env p k = runLines env (completeLines p) k >>= openDone env p := by
  cases p with
  | line f | type f | dash f =>
      rw [done, fileDone_eq]
      exact (Traced.bind_pure _).symm
  | bool h =>
      rw [done, fileDone_eq]
      exact (Traced.bind_pure _).symm
  | signature h g | signatureEnd h g =>
      rw [done, fileDone_eq]
      rfl
  | source o | vector o | tclass o | brace o =>
      rw [done, openedDone, fileDone_eq]
      rfl
  | request o | vectorEnd o | target o =>
      rw [done, openedDone, fileDone_eq, Traced.bind_assoc]
      rfl
  | accepted w =>
      rw [done, yyparse, parseFile_eq]
      exact (Traced.bind_pure _).symm

theorem mem_signatureDone_used {s : U32 → Sequence} {i : Nat} {cur : U32} {k : Loader} (h : Before s i cur k)
    (g : Option Signature) (x : Slot) :
    x ∈ (signatureDone env g k).used ↔ (∃ j < (transitionsOf g).length, x = .l (cur + BitVec.ofNat 32 j)) ∨
      (0 < (transitionsOf g).length ∧ x = .s (BitVec.ofNat 32 i)) := by
  cases g with
  | none => simp [signatureDone, transitionsOf]
  | some g =>
      rw [signatureDone, mem_signature_used env h, transitionsOf]
      simp [g.transitions_pos]

theorem signatureDone_currLink {s : U32 → Sequence} {i : Nat} {cur : U32} {k : Loader} (h : Before s i cur k)
    (g : Option Signature) :
    (signatureDone env g k).value.currLink = cur + BitVec.ofNat 32 (transitionsOf g).length := by
  cases g with
  | none => exact h.currLink.trans (BitVec.add_zero cur).symm
  | some g =>
      rw [signatureDone, parseSignature_value, (parseTransitions_done env g.transitions k h.requestList).currLink,
        h.currLink]
      rfl

theorem mem_vectorDone_used {s : U32 → Sequence} {i : Nat} {cur : U32} {k : Loader} (h : Before s i cur k)
    (g : Option Signature) (v : AvVector) (x : Slot) :
    x ∈ (signatureDone env g k >>= parseVector env v).used ↔
      (∃ j < (transitionsOf g).length + 1, x = .l (cur + BitVec.ofNat 32 j)) ∨
        (0 < (transitionsOf g).length ∧ x = .s (BitVec.ofNat 32 i)) := by
  rw [used_bind, List.mem_append, mem_signatureDone_used env h, mem_parseVector_used, signatureDone_currLink env h,
    Nat.exists_lt_succ_right, or_right_comm]

theorem mem_openDone_used {s : U32 → Sequence} {i : Nat} {cur : U32} {k : Loader} (h : Before s i cur k)
    (p : Place) (x : Slot) :
    x ∈ (openDone env p k).used ↔ (∃ j < openLinks p, x = .l (cur + BitVec.ofNat 32 j)) ∨
      (0 < (openTransitions p).length ∧ x = .s (BitVec.ofNat 32 i)) := by
  cases p with
  | signature _ g => exact mem_signatureDone_used env h g x
  | source o | vector o | tclass o | brace o => exact mem_signatureDone_used env h o.signature x
  | request o =>
      rw [openDone, used_bind, used_pure, List.append_nil]
      exact mem_signatureDone_used env h o.signature x
  | vectorEnd o v | target o v => exact mem_vectorDone_used env h o.signature v x
  | signatureEnd _ g => exact mem_signatureDone_used env h (some g) x
  | _ => simp [openDone, openLinks, openTransitions]

end places

section bounds

/-- An index within the arrays that main allocates. -/
def InBounds : Slot → Prop
  | .s i => i.toNat < 400000
  | .l i => i.toNat < 10000000

/-- There is room for the complete lines, with the record after the last one,
and for the links of each line and of the one that is not complete. -/
def Fits (s : U32 → Sequence) (p : Place) : Prop :=
  (completeLines p).length < 400000 ∧
    ∀ i n, (counts (completeLines p) ++ [openLinks p])[i]? = some n → ∀ j < n,
      (spent s 0 ((counts (completeLines p)).take i) + j) % 2 ^ 32 < 10000000

variable {s : U32 → Sequence} {l : U32 → Link} {p : Place}

theorem counts_take (ns : List Line) (i : Nat) : counts (ns.take i) = (counts ns).take i := List.map_take

theorem inBounds_link {n : Nat} : InBounds (.l (0 + BitVec.ofNat 32 n)) ↔ n % 2 ^ 32 < 10000000 := by
  rw [zero_add_ofNat, InBounds, BitVec.toNat_ofNat]

theorem next_mem_used (ns : List Line) (hne : ns ≠ []) (hns : ns.length < 2 ^ 32) :
    Slot.s (BitVec.ofNat 32 ns.length) ∈ (runLines env ns (start s l)).used := by
  have hpos := List.length_pos_iff.mpr hne
  rw [mem_runLines_used env (before_start s l) ns (by omega)]
  refine ⟨ns.length - 1, ns.getLast hne, ?_, .inr (.inr ?_)⟩
  · rw [← List.getLast?_eq_getElem?, List.getLast?_eq_some_getLast hne]
  · rw [Nat.zero_add, Nat.sub_add_cancel hpos]

theorem length_lt_of_inBounds (h : ∀ x ∈ (done env p (start s l)).used, InBounds x) :
    (completeLines p).length < 400000 := by
  by_contra hlong
  -- the first 400000 lines alone write the record after them
  have hsplit := List.take_append_drop 400000 (completeLines p)
  have hlen : ((completeLines p).take 400000).length = 400000 := List.length_take_of_le (by omega)
  have hmem := next_mem_used env (s := s) (l := l) ((completeLines p).take 400000)
    (List.ne_nil_of_length_pos (by omega)) (by omega)
  have hbound := h _ (by
    rw [done_eq, used_bind, ← hsplit, runLines_append, used_bind]
    exact List.mem_append_left _ (List.mem_append_left _ hmem))
  rw [hlen] at hbound
  change (BitVec.ofNat 32 400000).toNat < 400000 at hbound
  exact absurd hbound (by decide)

theorem getElem?_counts {ns : List Line} {i n : Nat} (h : (counts ns)[i]? = some n) :
    ∃ x, ns[i]? = some x ∧ x.transitions.length = n := by
  rw [counts, List.getElem?_map] at h
  exact Option.map_eq_some_iff.mp h

theorem before_completeLines (hlen : (completeLines p).length < 400000) :
    Before s (completeLines p).length (0 + BitVec.ofNat 32 (spent s 0 (counts (completeLines p))))
      (runLines env (completeLines p) (start s l)).value := by
  have hbefore := before_runLines env (before_start s l) (completeLines p) (by omega)
  rwa [Nat.zero_add] at hbefore

theorem mem_done_used (hlen : (completeLines p).length < 400000) (x : Slot) :
    x ∈ (done env p (start s l)).used ↔
      (∃ m n, (completeLines p)[m]? = some n ∧
        ((∃ j < n.transitions.length, x = .l (0 + BitVec.ofNat 32 (spent s 0 ((counts (completeLines p)).take m) + j))) ∨
          x = .s (BitVec.ofNat 32 m) ∨ x = .s (BitVec.ofNat 32 (m + 1)))) ∨
      (∃ j < openLinks p, x = .l (0 + BitVec.ofNat 32 (spent s 0 (counts (completeLines p)) + j))) ∨
        (0 < (openTransitions p).length ∧ x = .s (BitVec.ofNat 32 (completeLines p).length)) := by
  rw [done_eq, used_bind, List.mem_append, mem_runLines_used env (before_start s l) _ (by omega),
    mem_openDone_used env (before_completeLines env hlen)]
  simp only [counts_take, Nat.zero_add, BitVec.add_assoc, ← BitVec.ofNat_add]

theorem inBounds_iff_fits (p : Place) : (∀ x ∈ (done env p (start s l)).used, InBounds x) ↔ Fits s p := by
  constructor
  · intro h
    have hlen := length_lt_of_inBounds env h
    refine ⟨hlen, ?_⟩
    intro i n hn j hj
    apply inBounds_link.mp
    apply h
    rw [mem_done_used env hlen]
    rcases getElem?_snoc_cases hn with ⟨-, hn⟩ | ⟨rfl, rfl⟩
    · obtain ⟨x, hx, rfl⟩ := getElem?_counts hn
      exact .inl ⟨i, x, hx, .inl ⟨j, hj, rfl⟩⟩
    · rw [List.take_length]
      exact .inr (.inl ⟨j, hj, rfl⟩)
  · rintro ⟨hlen, hlinks⟩ x hx
    have hseq : ∀ m ≤ (completeLines p).length, InBounds (.s (BitVec.ofNat 32 m)) := by
      intro m hm
      rw [InBounds, toNat_index (by omega)]
      omega
    rw [mem_done_used env hlen] at hx
    rcases hx with ⟨m, n, hn, ⟨j, hj, rfl⟩ | rfl | rfl⟩ | ⟨j, hj, rfl⟩ | ⟨-, rfl⟩
    · have hm : m < (counts (completeLines p)).length := by
        rw [counts, List.length_map]
        exact (List.getElem?_eq_some_iff.mp hn).1
      apply inBounds_link.mpr
      apply hlinks m n.transitions.length _ j hj
      rw [List.getElem?_append_left hm, counts, List.getElem?_map, hn]
      rfl
    · exact hseq m (Nat.le_of_lt (List.getElem?_eq_some_iff.mp hn).1)
    · exact hseq (m + 1) (List.getElem?_eq_some_iff.mp hn).1
    · apply inBounds_link.mpr
      have hopen := hlinks (counts (completeLines p)).length (openLinks p) (by simp) j hj
      rwa [List.take_length] at hopen
    · exact hseq _ (Nat.le_refl _)

/-- The parser stays within its arrays exactly on the texts that fit. Nothing turns the others away. -/
theorem inBounds_iff (env : Env) (text : List Char) (s : U32 → Sequence) (l : U32 → Link) :
    (∀ x ∈ (parseText env text (start s l)).used, InBounds x) ↔ Fits s (reached (yylex text) (.line none)) := by
  rw [parseText_eq, used_bind, used_pure, List.append_nil]
  exact inBounds_iff_fits env _

def repeated (n : Line) : Nat → File
  | 0 => .line n
  | m + 1 => .snoc (repeated n m) n

theorem repeated_lines (n : Line) (m : Nat) : (repeated n m).lines = List.replicate (m + 1) n := by
  induction m with
  | zero => rfl
  | succ m ih => rw [repeated, File.lines, ih, List.replicate_succ' (n := m + 1)]

theorem repeated_used (n : Line) (m : Nat) (hm : m + 1 < 2 ^ 32) :
    (parseText env (print ⟨repeated n m, true⟩) (start s l)).value.1 = some ⟨repeated n m, true⟩ ∧
      Slot.s (BitVec.ofNat 32 (m + 1)) ∈ (parseText env (print ⟨repeated n m, true⟩) (start s l)).used := by
  have htokens := yylex_print ⟨repeated n m, true⟩
  refine ⟨(accepts_iff env _ _ _).mpr htokens, ?_⟩
  rw [parseText_of_tokens env htokens, used_bind, used_pure, List.append_nil, yyparse, parseFile_eq, repeated_lines]
  have hmem := next_mem_used env (s := s) (l := l) (List.replicate (m + 1) n)
    (List.ne_nil_of_length_pos (by simp)) (by simpa using hm)
  rwa [List.length_replicate] at hmem

/-- A policy with 400000 lines on zeroed arrays is accepted, and its last line
writes the record after the last one. -/
theorem record_out_of_bounds :
    (parseText shadowEnv (print ⟨repeated oneStep 399999, true⟩) zeroed).value.1 =
        some ⟨repeated oneStep 399999, true⟩ ∧
      Slot.s 400000 ∈ (parseText shadowEnv (print ⟨repeated oneStep 399999, true⟩) zeroed).used ∧
      ¬InBounds (.s 400000) := by
  rw [zeroed]
  obtain ⟨haccepted, hused⟩ := repeated_used shadowEnv oneStep 399999 (by decide)
    (s := fun _ => ⟨0, 0, 0⟩) (l := fun _ => ⟨0, 0, 0, 0⟩)
  refine ⟨haccepted, hused, ?_⟩
  intro h
  change (400000 : U32).toNat < 400000 at h
  exact absurd h (by decide)

end bounds

section holes

def transitionUses : List Transition → Loader → List (List Slot)
  | [], _ => []
  | t :: ts, k => (parseTransition env t k).used :: transitionUses ts (parseTransition env t k).value

def lineUses : List Line → Loader → List (List Slot)
  | [], _ => []
  | n :: ns, k => transitionUses env n.transitions k ++ lineUses ns (parseLine env n k).value

/-- The offsets and the length that is handed to the kernel are running sums
of the lengths, and each link below it comes from one transition. -/
structure NoHoles (w : Wholefile) : Prop where
  offsets : ∀ i < w.file.lines.length,
    ((yyparse env w zeroed).value.s (BitVec.ofNat 32 i)).linkOffset.toNat = size (w.file.lines.take i)
  total : (yyparse env w zeroed).value.currLink.toNat = size w.file.lines
  written : ∀ x, x < (yyparse env w zeroed).value.currLink →
    ∃! i : Nat, ∃ u : List Slot, (lineUses env w.file.lines zeroed)[i]? = some u ∧ Slot.l x ∈ u

theorem spent_zeroed (i : Nat) (ns : List Line) : spent (fun _ => ⟨0, 0, 0⟩) i (counts ns) = 2 * size ns := by
  induction ns generalizing i with
  | nil => rfl
  | cons n ns ih =>
      have hsize : size (n :: ns) = n.transitions.length + size ns := rfl
      have hspent : spent (fun _ => ⟨0, 0, 0⟩) i (counts (n :: ns)) =
          2 * n.transitions.length + 0 + spent (fun _ => ⟨0, 0, 0⟩) (i + 1) (counts ns) := rfl
      rw [hspent, ih, hsize]
      omega

theorem length_le_size (ns : List Line) : ns.length ≤ size ns := by
  induction ns with
  | nil => exact Nat.le_refl 0
  | cons n ns ih =>
      have hpos : 0 < n.transitions.length := n.signature.transitions_pos
      have hsize : size (n :: ns) = n.transitions.length + size ns := rfl
      rw [hsize, List.length_cons]
      omega

theorem currLink_zeroed (w : Wholefile) (h : w.file.lines.length < 2 ^ 32) :
    (yyparse env w zeroed).value.currLink = BitVec.ofNat 32 (2 * size w.file.lines) := by
  have hbefore := before_runLines env (before_start (fun _ => ⟨0, 0, 0⟩) (fun _ => ⟨0, 0, 0, 0⟩)) w.file.lines (by omega)
  rw [yyparse, parseFile_eq, ← spent_zeroed 0, ← zero_add_ofNat]
  exact hbefore.currLink

/-- No policy is laid out without holes. -/
theorem not_noHoles (env : Env) (w : Wholefile) : ¬NoHoles env w := by
  intro h
  have htotal := h.total
  have hlt : size w.file.lines < 2 ^ 32 := by
    rw [← htotal]
    exact BitVec.isLt _
  have hlen := length_le_size w.file.lines
  have hpos : 0 < w.file.lines.length := List.length_pos_iff.mpr (lines_ne_nil w.file)
  rw [currLink_zeroed env w (by omega), BitVec.toNat_ofNat] at htotal
  omega

theorem shadowFile_hole :
    (yyparse shadowEnv shadowFile zeroed).value.currLink = 4 ∧ size shadowFile.file.lines = 2 ∧
      (∀ u ∈ lineUses shadowEnv shadowFile.file.lines zeroed, Slot.l 2 ∉ u ∧ Slot.l 3 ∉ u) ∧
      ¬NoHoles shadowEnv shadowFile := by
  refine ⟨by decide, rfl, ?_, fun h => absurd h.total (by decide)⟩
  intro u hu
  rcases List.mem_cons.mp hu with rfl | hu
  · rw [mem_parseTransition_used shadowEnv _ _ rfl, mem_parseTransition_used shadowEnv _ _ rfl]
    simp [zeroed, start]
  · obtain rfl := List.mem_singleton.mp hu
    rw [mem_parseTransition_used shadowEnv _ _ rfl, mem_parseTransition_used shadowEnv _ _ rfl]
    refine ⟨?_, ?_⟩
    · rintro (h | h)
      · exact absurd (Slot.l.inj h) (by decide)
      · cases h
    · rintro (h | h)
      · exact absurd (Slot.l.inj h) (by decide)
      · cases h

end holes

end PigaLinux.PppCursors
