import PigaLinux.Bits
import PigaLinux.Kernel
import PigaLinux.Sparse
import Mathlib.Algebra.Ring.Nat
import Mathlib.Data.Finset.Sort

namespace PigaLinux.ExtensibleBitmap

open Kernel Bits Sparse

def ebitmapSize : Nat := 128

/-- One node. Its two words, one after the other, are a vector of 128 bits. -/
structure EbitmapNode where
  startbit : Nat
  maps : BitVec 128
deriving DecidableEq, Repr

structure Ebitmap where
  node : List EbitmapNode
  highbit : Nat
deriving DecidableEq, Repr

def ebitmapInit : Ebitmap := ⟨[], 0⟩

def u32 (n : Nat) : Nat := n % 2 ^ 32

def cmpLoop : List EbitmapNode → List EbitmapNode → Bool
  | n1 :: ns1, n2 :: ns2 => if n1.startbit = n2.startbit ∧ n1.maps = n2.maps then cmpLoop ns1 ns2 else false
  | [], [] => true
  | _, _ => false

def ebitmapCmp (e1 e2 : Ebitmap) : Bool := if e1.highbit ≠ e2.highbit then false else cmpLoop e1.node e2.node

def containsLoop : List EbitmapNode → List EbitmapNode → Bool
  | _, [] => true
  | [], _ :: _ => false
  | n1 :: ns1, n2 :: ns2 =>
      if n1.startbit ≤ n2.startbit then
        if n1.startbit < n2.startbit then containsLoop ns1 (n2 :: ns2)
        else if n1.maps &&& n2.maps ≠ n2.maps then false
        else containsLoop ns1 ns2
      else false

def ebitmapContains (e1 e2 : Ebitmap) : Bool := if e1.highbit < e2.highbit then false else containsLoop e1.node e2.node

/-- The place of a bit in its node, in the arithmetic of unsigned int. -/
def nodeBit (n : EbitmapNode) (bit : Nat) : Nat := u32 (bit + 2 ^ 32 - n.startbit)

def ebitmapNodeGetBit (n : EbitmapNode) (bit : Nat) : Bool := n.maps.getLsbD (nodeBit n bit)

def ebitmapNodeSetBit (n : EbitmapNode) (bit : Nat) : EbitmapNode :=
  { n with maps := n.maps ||| BitVec.twoPow 128 (nodeBit n bit) }

def ebitmapNodeClrBit (n : EbitmapNode) (bit : Nat) : EbitmapNode :=
  { n with maps := n.maps &&& ~~~BitVec.twoPow 128 (nodeBit n bit) }

def getLoop (bit : Nat) : List EbitmapNode → Bool
  | [] => false
  | n :: ns =>
      if n.startbit ≤ bit then
        if n.startbit + ebitmapSize > bit then ebitmapNodeGetBit n bit else getLoop bit ns
      else false

def ebitmapGetBit (e : Ebitmap) (bit : Nat) : Bool := if e.highbit < bit then false else getLoop bit e.node

def findNextBit (maps : BitVec 128) (offset : Nat) : Nat :=
  ((List.range' offset (ebitmapSize - offset)).find? maps.getLsbD).getD ebitmapSize

structure SetResult where
  rc : Int
  node : List EbitmapNode
  highbit : Nat

def addNode (allocated : Bool) (bit : Nat) (value : Bool) (highbit : Nat) (ns : List EbitmapNode) : SetResult :=
  if value = false then ⟨0, ns, highbit⟩
  else if allocated = false then ⟨-enomem, ns, highbit⟩
  else
    let new : EbitmapNode := ⟨u32 (bit - bit % ebitmapSize), 0#128⟩
    ⟨0, ebitmapNodeSetBit new bit :: ns, if ns = [] then u32 (new.startbit + ebitmapSize) else highbit⟩

def endOf : Option EbitmapNode → Nat
  | some p => u32 (p.startbit + ebitmapSize)
  | none => 0

def setLoop (allocated : Bool) (bit : Nat) (value : Bool) (highbit : Nat) (prev : Option EbitmapNode) :
    List EbitmapNode → SetResult
  | [] => addNode allocated bit value highbit []
  | n :: ns =>
      if n.startbit ≤ bit then
        if n.startbit + ebitmapSize > bit then
          if value then ⟨0, ebitmapNodeSetBit n bit :: ns, highbit⟩
          else if findNextBit (ebitmapNodeClrBit n bit).maps 0 < ebitmapSize then
            ⟨0, ebitmapNodeClrBit n bit :: ns, highbit⟩
          else
            -- the node is dropped; when it was the last one, the highest position moves down
            ⟨0, ns, if ns = [] then endOf prev else highbit⟩
        else
          let out := setLoop allocated bit value highbit (some n) ns
          { out with node := n :: out.node }
      else addNode allocated bit value highbit (n :: ns)

def ebitmapSetBit (allocated : Bool) (e : Ebitmap) (bit : Nat) (value : Bool) : Int × Ebitmap :=
  let out := setLoop allocated bit value e.highbit none e.node
  (out.rc, ⟨out.node, out.highbit⟩)

def seekNode (highbit : Nat) : List EbitmapNode → List EbitmapNode × Nat
  | [] => ([], highbit)
  | n :: ns =>
      if findNextBit n.maps 0 < ebitmapSize then (n :: ns, n.startbit + findNextBit n.maps 0) else seekNode highbit ns

def ebitmapStartPositive (e : Ebitmap) : List EbitmapNode × Nat := seekNode e.highbit e.node

def ebitmapNextPositive (e : Ebitmap) (cur : List EbitmapNode) (bit : Nat) : List EbitmapNode × Nat :=
  match cur with
  | [] => ([], e.highbit)
  | n :: ns =>
      let ofs := findNextBit n.maps (bit - n.startbit + 1)
      if ofs < ebitmapSize then (n :: ns, ofs + n.startbit) else seekNode e.highbit ns

def forEachLoop (e : Ebitmap) : Nat → List EbitmapNode × Nat → List Nat
  | 0, _ => []
  | fuel + 1, (cur, bit) =>
      if bit < e.highbit then bit :: forEachLoop e fuel (ebitmapNextPositive e cur bit) else []

def ebitmapForEachPositiveBit (e : Ebitmap) : List Nat :=
  forEachLoop e (ebitmapSize * e.node.length) (ebitmapStartPositive e)

section blocks

variable {ns ms : List EbitmapNode} {n : EbitmapNode} {b : Nat}

abbrev word (ns : List EbitmapNode) (k : Nat) : BitVec 128 := valueAt EbitmapNode.startbit EbitmapNode.maps 0#128 ns k

/-- The first bit of the node that a bit belongs to. -/
def block (b : Nat) : Nat := b - b % ebitmapSize

/-- The bits of a list of nodes, as a set. -/
def Bit (ns : List EbitmapNode) (b : Nat) : Prop := (word ns (block b)).getLsbD (b % ebitmapSize) = true

structure Ranged (ns : List EbitmapNode) : Prop where
  ascending : ns.Pairwise fun n m => n.startbit < m.startbit
  aligned : ∀ n ∈ ns, n.startbit % ebitmapSize = 0
  fits : ∀ n ∈ ns, n.startbit + ebitmapSize < 2 ^ 32

/-- Nodes that all hold a bit. -/
structure Tidy (ns : List EbitmapNode) : Prop extends Ranged ns where
  nonzero : ∀ n ∈ ns, n.maps ≠ 0#128

def top (p : Nat) : List EbitmapNode → Nat
  | [] => p
  | n :: ns => top (n.startbit + ebitmapSize) ns

theorem Tidy.proper (h : Tidy ns) : Proper EbitmapNode.startbit EbitmapNode.maps 0#128 ns := ⟨h.ascending, h.nonzero⟩

theorem Ranged.below (h : Ranged (n :: ns)) : ∀ m ∈ ns, n.startbit < m.startbit :=
  (List.pairwise_cons.mp h.ascending).1

theorem Ranged.tail (h : Ranged (n :: ns)) : Ranged ns where
  ascending := (List.pairwise_cons.mp h.ascending).2
  aligned m hm := h.aligned m (List.mem_cons_of_mem _ hm)
  fits m hm := h.fits m (List.mem_cons_of_mem _ hm)

theorem Tidy.tail (h : Tidy (n :: ns)) : Tidy ns where
  toRanged := h.toRanged.tail
  nonzero m hm := h.nonzero m (List.mem_cons_of_mem _ hm)

theorem tidy_nil : Tidy [] := by
  refine ⟨⟨.nil, ?_, ?_⟩, ?_⟩ <;> exact fun _ h => absurd h List.not_mem_nil

theorem Tidy.cons (h : Tidy ns) (hbelow : ∀ m ∈ ns, n.startbit < m.startbit) (haligned : n.startbit % ebitmapSize = 0)
    (hfits : n.startbit + ebitmapSize < 2 ^ 32) (hn : n.maps ≠ 0#128) : Tidy (n :: ns) where
  ascending := List.pairwise_cons.mpr ⟨hbelow, h.ascending⟩
  aligned := List.forall_mem_cons.mpr ⟨haligned, h.aligned⟩
  fits := List.forall_mem_cons.mpr ⟨hfits, h.fits⟩
  nonzero := List.forall_mem_cons.mpr ⟨hn, h.nonzero⟩

theorem Tidy.of_snoc (h : Tidy (ns ++ [n])) : Tidy ns where
  ascending := (List.pairwise_append.mp h.ascending).1
  aligned m hm := h.aligned m (List.mem_append_left _ hm)
  fits m hm := h.fits m (List.mem_append_left _ hm)
  nonzero m hm := h.nonzero m (List.mem_append_left _ hm)

theorem Tidy.snoc (h : Tidy ns) (hbelow : ∀ m ∈ ns, m.startbit < n.startbit) (haligned : n.startbit % ebitmapSize = 0)
    (hfits : n.startbit + ebitmapSize < 2 ^ 32) (hn : n.maps ≠ 0#128) : Tidy (ns ++ [n]) where
  ascending := (h.proper.snoc hbelow hn).ascending
  aligned := List.forall_mem_append.mpr ⟨h.aligned, fun _ hm => List.mem_singleton.mp hm ▸ haligned⟩
  fits := List.forall_mem_append.mpr ⟨h.fits, fun _ hm => List.mem_singleton.mp hm ▸ hfits⟩
  nonzero := (h.proper.snoc hbelow hn).nonzero

theorem block_mod (b : Nat) : block b % ebitmapSize = 0 := by
  rw [block, ebitmapSize]
  omega

theorem startbit_eq_block_iff (hn : n.startbit % ebitmapSize = 0) :
    n.startbit = block b ↔ n.startbit ≤ b ∧ n.startbit + ebitmapSize > b := by
  rw [block, ebitmapSize] at *
  omega

theorem lt_block_iff (hn : n.startbit % ebitmapSize = 0) :
    n.startbit < block b ↔ n.startbit + ebitmapSize ≤ b := by
  rw [block, ebitmapSize] at *
  omega

theorem block_lt_iff (hn : n.startbit % ebitmapSize = 0) : block b < n.startbit ↔ b < n.startbit := by
  rw [block, ebitmapSize] at *
  omega

theorem nodeBit_eq (h : n.startbit = block b) (hb : n.startbit + ebitmapSize < 2 ^ 32) : nodeBit n b = b % ebitmapSize := by
  rw [nodeBit, u32]
  rw [block, ebitmapSize] at *
  omega

theorem findNextBit_zero_lt_iff (maps : BitVec 128) : findNextBit maps 0 < ebitmapSize ↔ maps ≠ 0#128 := by
  rw [findNextBit]
  cases hfind : (List.range' 0 (ebitmapSize - 0)).find? maps.getLsbD with
  | none =>
      refine iff_of_false (Nat.lt_irrefl _) fun hne => ?_
      obtain ⟨i, hi, hbit⟩ := exists_getLsbD hne
      exact List.find?_eq_none.mp hfind i (List.mem_range'_1.mpr ⟨Nat.zero_le _, hi⟩) hbit
  | some i =>
      have hmem := List.mem_range'_1.mp (List.mem_of_find?_eq_some hfind)
      refine iff_of_true (by rw [Option.getD_some]; omega) ?_
      rintro rfl
      have hbit := List.find?_some hfind
      rw [BitVec.getLsbD_zero] at hbit
      cases hbit

theorem getLoop_iff (h : Ranged ns) : getLoop b ns = true ↔ Bit ns b := by
  rw [Bit]
  induction ns with
  | nil => simp [getLoop, word, valueAt_nil]
  | cons n ns ih =>
      have hn := h.aligned n List.mem_cons_self
      rw [getLoop]
      by_cases hle : n.startbit ≤ b
      · rw [if_pos hle]
        by_cases hlt : n.startbit + ebitmapSize > b
        · have hblock := (startbit_eq_block_iff hn).mpr ⟨hle, hlt⟩
          rw [if_pos hlt, word, ← hblock, valueAt_cons_self, ebitmapNodeGetBit,
            nodeBit_eq hblock (h.fits n List.mem_cons_self)]
        · have hblock := (lt_block_iff (b := b) hn).mpr (Nat.le_of_not_gt hlt)
          rw [if_neg hlt, word, valueAt_cons_of_ne (Nat.ne_of_lt hblock)]
          exact ih h.tail
      · have hblock := (block_lt_iff (b := b) hn).mpr (Nat.lt_of_not_le hle)
        have hbelow : ∀ m ∈ n :: ns, block b < m.startbit :=
          List.forall_mem_cons.mpr ⟨hblock, fun m hm => Nat.lt_trans hblock (h.below m hm)⟩
        rw [if_neg hle, word, valueAt_of_below hbelow]
        simp

theorem Ranged.le_top (h : Ranged ns) (p : Nat) : ∀ n ∈ ns, n.startbit + ebitmapSize ≤ top p ns := by
  induction ns generalizing p with
  | nil => exact fun n hn => absurd hn List.not_mem_nil
  | cons m ns ih =>
      have hrest := ih h.tail (m.startbit + ebitmapSize)
      refine List.forall_mem_cons.mpr ⟨?_, hrest⟩
      rw [top]
      cases ns with
      | nil => exact Nat.le_refl _
      | cons n' ns =>
          have hlt := h.below n' List.mem_cons_self
          have hle := hrest n' List.mem_cons_self
          omega

theorem top_eq (p : Nat) (hne : ns ≠ []) : ∃ n ∈ ns, top p ns = n.startbit + ebitmapSize := by
  induction ns generalizing p with
  | nil => exact absurd rfl hne
  | cons m ns ih =>
      cases ns with
      | nil => exact ⟨m, List.mem_cons_self, rfl⟩
      | cons n' ns =>
          obtain ⟨n, hn, htop⟩ := ih (m.startbit + ebitmapSize) (List.cons_ne_nil _ _)
          exact ⟨n, List.mem_cons_of_mem _ hn, htop⟩

end blocks

section update

variable {ns : List EbitmapNode} {n : EbitmapNode} {b q : Nat} {p : Option EbitmapNode}
variable {allocated value : Bool} {highbit : Nat} {out : SetResult}

/-- What becomes of the word of a bit that is set or cleared. A word without
bits has no node, and needs memory for one. -/
def newWord (allocated : Bool) (b : Nat) (value : Bool) (w : BitVec 128) : BitVec 128 :=
  if value then if w = 0#128 ∧ allocated = false then w else w ||| BitVec.twoPow 128 (b % ebitmapSize)
  else w &&& ~~~BitVec.twoPow 128 (b % ebitmapSize)

structure Updated (allocated : Bool) (b : Nat) (value : Bool) (q : Nat) (ns : List EbitmapNode) (out : SetResult) : Prop where
  tidy : Tidy out.node
  word_eq : ∀ k, word out.node k = if k = block b then newWord allocated b value (word ns k) else word ns k
  top_eq : out.highbit = top q out.node
  rc_eq : out.rc = if value = true ∧ allocated = false ∧ word ns (block b) = 0#128 then -enomem else 0

theorem twoPow_ne_zero (b : Nat) : BitVec.twoPow 128 (b % ebitmapSize) ≠ 0#128 := by
  intro h
  have hbit := congrArg (fun v : BitVec 128 => v.getLsbD (b % ebitmapSize)) h
  have hlt : b % ebitmapSize < 128 := Nat.mod_lt _ (by decide)
  simp [hlt] at hbit

theorem addNode_updated (h : Tidy ns) (hb : block b + ebitmapSize < 2 ^ 32) (hbelow : ∀ m ∈ ns, block b < m.startbit)
    (htop : highbit = top q ns) : Updated allocated b value q ns (addNode allocated b value highbit ns) := by
  have hzero : word ns (block b) = 0#128 := valueAt_of_below hbelow
  have hsame : newWord allocated b value 0#128 = 0#128 →
      ∀ k, word ns k = if k = block b then newWord allocated b value (word ns k) else word ns k := by
    intro hnew k
    split
    next hk => rw [hk, hzero, hnew]
    next => rfl
  cases value with
  | false => exact ⟨h, hsame (by simp [newWord]), htop, by simp [addNode]⟩
  | true =>
      cases allocated with
      | false => exact ⟨h, hsame (by simp [newWord]), htop, by simp [addNode, hzero]⟩
      | true =>
          have hstart : u32 (b - b % ebitmapSize) = block b := Nat.mod_eq_of_lt (by rw [block] at hb; omega)
          have hbit : nodeBit ⟨block b, 0#128⟩ b = b % ebitmapSize := nodeBit_eq rfl hb
          have hout : addNode true b true highbit ns = ⟨0, ⟨block b, BitVec.twoPow 128 (b % ebitmapSize)⟩ :: ns,
              if ns = [] then u32 (block b + ebitmapSize) else highbit⟩ := by
            simp [addNode, ebitmapNodeSetBit, hstart, hbit]
          rw [hout]
          refine ⟨h.cons hbelow (block_mod b) hb (twoPow_ne_zero b), ?_, ?_, by simp⟩
          · intro k
            by_cases hk : k = block b
            · rw [if_pos hk, hk, hzero]
              refine Eq.trans valueAt_cons_self ?_
              simp [newWord]
            · rw [if_neg hk]
              exact valueAt_cons_of_ne (Ne.symm hk)
          · cases ns with
            | nil => exact Nat.mod_eq_of_lt hb
            | cons n ns => exact htop

theorem Updated.replace {w : BitVec 128} (h : Tidy (n :: ns)) (hblock : n.startbit = block b) (hw : w ≠ 0#128)
    (hnew : newWord allocated b value n.maps = w) (htop : highbit = top q (n :: ns)) :
    Updated allocated b value q (n :: ns) ⟨0, ⟨n.startbit, w⟩ :: ns, highbit⟩ := by
  have hself : word (n :: ns) (block b) = n.maps := by rw [word, ← hblock, valueAt_cons_self]
  refine ⟨h.tail.cons h.below (h.aligned n List.mem_cons_self) (h.fits n List.mem_cons_self) hw, ?_, htop, ?_⟩
  · intro k
    by_cases hk : k = block b
    · rw [if_pos hk, hk, hself, hnew, ← hblock]
      exact valueAt_cons_self
    · have hne : n.startbit ≠ k := fun h => hk (h.symm.trans hblock)
      rw [if_neg hk]
      exact Eq.trans (valueAt_cons_of_ne hne) (valueAt_cons_of_ne hne).symm
  · rw [hself, if_neg]
    exact fun hall => h.nonzero n List.mem_cons_self hall.2.2

theorem Updated.drop (h : Tidy (n :: ns)) (hblock : n.startbit = block b) (hvalue : ¬ value = true)
    (hnew : newWord allocated b value n.maps = 0#128) (htop : highbit = top q (n :: ns)) :
    Updated allocated b value q (n :: ns) ⟨0, ns, if ns = [] then q else highbit⟩ := by
  refine ⟨h.tail, ?_, ?_, by simp [hvalue]⟩
  · intro k
    by_cases hk : k = block b
    · have hself : word (n :: ns) (block b) = n.maps := by rw [word, ← hblock, valueAt_cons_self]
      rw [if_pos hk, hk, hself, hnew, ← hblock]
      exact h.proper.valueAt_head
    · rw [if_neg hk]
      exact (valueAt_cons_of_ne fun h => hk (h.symm.trans hblock)).symm
  · cases ns with
    | nil => rfl
    | cons m ns => exact htop

theorem Updated.cons (h : Tidy (n :: ns)) (hless : n.startbit < block b)
    (hrest : Updated allocated b value (n.startbit + ebitmapSize) ns out) :
    Updated allocated b value q (n :: ns) { out with node := n :: out.node } := by
  have hhead : ∀ m ∈ out.node, n.startbit < m.startbit := by
    intro m hm
    have hword := hrest.word_eq m.startbit
    rw [word, hrest.tidy.proper.valueAt_of_mem hm] at hword
    split at hword
    next hk => rw [hk]; exact hless
    next hk =>
      obtain ⟨x, hx, hkey⟩ := exists_of_valueAt_ne (ne_of_eq_of_ne hword.symm (hrest.tidy.nonzero m hm))
      rw [← hkey]
      exact h.below x hx
  have hne : word (n :: ns) (block b) = word ns (block b) := valueAt_cons_of_ne (Nat.ne_of_lt hless)
  refine ⟨hrest.tidy.cons hhead (h.aligned n List.mem_cons_self) (h.fits n List.mem_cons_self)
    (h.nonzero n List.mem_cons_self), ?_, hrest.top_eq, ?_⟩
  · intro k
    by_cases hk : n.startbit = k
    · rw [← hk, if_neg (Nat.ne_of_lt hless)]
      exact Eq.trans valueAt_cons_self valueAt_cons_self.symm
    · rw [word, valueAt_cons_of_ne hk, word, valueAt_cons_of_ne hk]
      exact hrest.word_eq k
  · rw [hne]
    exact hrest.rc_eq

theorem setLoop_updated (h : Tidy ns) (hb : block b + ebitmapSize < 2 ^ 32) (htop : highbit = top (endOf p) ns) :
    Updated allocated b value (endOf p) ns (setLoop allocated b value highbit p ns) := by
  induction ns generalizing p with
  | nil => exact addNode_updated h hb (fun _ hm => absurd hm List.not_mem_nil) htop
  | cons n ns ih =>
      have hn := h.aligned n List.mem_cons_self
      have hfits := h.fits n List.mem_cons_self
      rw [setLoop]
      by_cases hle : n.startbit ≤ b
      · rw [if_pos hle]
        by_cases hlt : n.startbit + ebitmapSize > b
        · have hblock := (startbit_eq_block_iff hn).mpr ⟨hle, hlt⟩
          have hbit := nodeBit_eq hblock hfits
          rw [if_pos hlt, ebitmapNodeSetBit, ebitmapNodeClrBit, hbit]
          split
          next hvalue =>
            have hmaps := h.nonzero n List.mem_cons_self
            exact .replace h hblock (or_ne_zero hmaps _) (by simp [newWord, hvalue, hmaps]) htop
          next hvalue =>
            have hnew : newWord allocated b value n.maps = n.maps &&& ~~~BitVec.twoPow 128 (b % ebitmapSize) := by
              rw [newWord, if_neg hvalue]
            split
            next hw => exact .replace h hblock ((findNextBit_zero_lt_iff _).mp hw) hnew htop
            next hw => exact .drop h hblock hvalue (hnew.trans (not_not.mp (mt (findNextBit_zero_lt_iff _).mpr hw))) htop
        · have hend : endOf (some n) = n.startbit + ebitmapSize := Nat.mod_eq_of_lt hfits
          have hrest := ih (p := some n) h.tail (by rw [hend]; exact htop)
          rw [hend] at hrest
          rw [if_neg hlt]
          exact .cons h ((lt_block_iff hn).mpr (Nat.le_of_not_gt hlt)) hrest
      · have hless := (block_lt_iff (b := b) hn).mpr (Nat.lt_of_not_le hle)
        rw [if_neg hle]
        exact addNode_updated h hb
          (List.forall_mem_cons.mpr ⟨hless, fun m hm => Nat.lt_trans hless (h.below m hm)⟩) htop

end update

section iteration

variable {ns : List EbitmapNode} {n : EbitmapNode} {b : Nat} {maps : BitVec 128} {e : Ebitmap}

def bitsFrom (maps : BitVec 128) (o : Nat) : List Nat := (List.range' o (ebitmapSize - o)).filter maps.getLsbD

def members (ns : List EbitmapNode) : List Nat := ns.flatMap fun n => (bitsFrom n.maps 0).map (n.startbit + ·)

def after : List EbitmapNode × Nat → List Nat
  | ([], _) => []
  | (n :: ns, bit) => (bitsFrom n.maps (bit - n.startbit + 1)).map (n.startbit + ·) ++ members ns

theorem filter_range'_of_find? {f : Nat → Bool} {o len i : Nat} (h : (List.range' o len).find? f = some i) :
    o ≤ i ∧ i < o + len ∧ (List.range' o len).filter f = i :: (List.range' (i + 1) (o + len - (i + 1))).filter f := by
  induction len generalizing o with
  | zero => cases h
  | succ len ih =>
      rw [List.range'_succ] at h ⊢
      rw [List.find?_cons] at h
      cases ho : f o with
      | true =>
          rw [ho] at h
          obtain rfl := Option.some.inj h
          refine ⟨Nat.le_refl _, by omega, ?_⟩
          rw [List.filter_cons_of_pos ho]
          congr 3
          omega
      | false =>
          rw [ho] at h
          obtain ⟨hle, hlt, heq⟩ := ih h
          refine ⟨by omega, by omega, ?_⟩
          rw [List.filter_cons_of_neg (by rw [ho]; exact Bool.false_ne_true), heq]
          congr 3
          omega

theorem findNextBit_cases (maps : BitVec 128) (o : Nat) :
    (findNextBit maps o < ebitmapSize ∧
      bitsFrom maps o = findNextBit maps o :: bitsFrom maps (findNextBit maps o + 1)) ∨
    (¬ findNextBit maps o < ebitmapSize ∧ bitsFrom maps o = []) := by
  rw [findNextBit, bitsFrom]
  cases hfind : (List.range' o (ebitmapSize - o)).find? maps.getLsbD with
  | none =>
      refine Or.inr ⟨Nat.lt_irrefl _, ?_⟩
      rw [List.filter_eq_nil_iff]
      exact List.find?_eq_none.mp hfind
  | some i =>
      obtain ⟨hle, hlt, heq⟩ := filter_range'_of_find? hfind
      refine Or.inl ⟨by rw [Option.getD_some]; omega, ?_⟩
      rw [heq, Option.getD_some, bitsFrom]
      congr 3
      omega

theorem members_cons : members (n :: ns) = (bitsFrom n.maps 0).map (n.startbit + ·) ++ members ns :=
  List.flatMap_cons

def Pending (e : Ebitmap) (pos : List EbitmapNode × Nat) (bs : List Nat) : Prop :=
  (bs = [] ∧ pos = ([], e.highbit)) ∨ bs = pos.2 :: after pos

theorem seekNode_pending (e : Ebitmap) (ns : List EbitmapNode) : Pending e (seekNode e.highbit ns) (members ns) := by
  induction ns with
  | nil => exact Or.inl ⟨rfl, rfl⟩
  | cons n ns ih =>
      rw [seekNode, members_cons]
      rcases findNextBit_cases n.maps 0 with ⟨hlt, heq⟩ | ⟨hge, heq⟩
      · refine Or.inr ?_
        rw [if_pos hlt, heq, after, Nat.add_sub_cancel_left]
        rfl
      · rw [if_neg hge, heq]
        exact ih

theorem nextPositive_pending (e : Ebitmap) (cur : List EbitmapNode) (bit : Nat) :
    Pending e (ebitmapNextPositive e cur bit) (after (cur, bit)) := by
  cases cur with
  | nil => exact Or.inl ⟨rfl, rfl⟩
  | cons n ns =>
      rw [ebitmapNextPositive, after]
      rcases findNextBit_cases n.maps (bit - n.startbit + 1) with ⟨hlt, heq⟩ | ⟨hge, heq⟩
      · refine Or.inr ?_
        rw [if_pos hlt, heq, after, Nat.add_sub_cancel, List.map_cons, Nat.add_comm]
        rfl
      · rw [if_neg hge, heq]
        exact seekNode_pending e ns

theorem forEachLoop_eq {pos : List EbitmapNode × Nat} {bs : List Nat} (h : Pending e pos bs) (hb : ∀ b ∈ bs, b < e.highbit)
    {fuel : Nat} (hfuel : bs.length ≤ fuel) : forEachLoop e fuel pos = bs := by
  induction fuel generalizing pos bs with
  | zero =>
      obtain rfl := List.length_eq_zero_iff.mp (Nat.le_zero.mp hfuel)
      rfl
  | succ fuel ih =>
      obtain ⟨cur, bit⟩ := pos
      rw [forEachLoop]
      rcases h with ⟨rfl, heq⟩ | rfl
      · obtain ⟨-, rfl⟩ := Prod.mk.inj heq
        exact if_neg (Nat.lt_irrefl _)
      · rw [if_pos (hb _ List.mem_cons_self)]
        congr 1
        apply ih (nextPositive_pending e cur bit)
        · exact fun b hmem => hb b (List.mem_cons_of_mem _ hmem)
        · exact Nat.le_of_succ_le_succ hfuel

theorem length_members_le (ns : List EbitmapNode) : (members ns).length ≤ ebitmapSize * ns.length := by
  induction ns with
  | nil => exact Nat.zero_le _
  | cons n ns ih =>
      have hbits : (bitsFrom n.maps 0).length ≤ ebitmapSize := by
        refine Nat.le_trans (List.length_filter_le _ _) ?_
        rw [List.length_range']
        exact Nat.sub_le _ _
      rw [members_cons, List.length_append, List.length_map, List.length_cons, Nat.mul_succ]
      omega

theorem mem_bitsFrom_zero {i : Nat} : i ∈ bitsFrom maps 0 ↔ maps.getLsbD i = true := by
  rw [bitsFrom, List.mem_filter, List.mem_range'_1]
  constructor
  · exact And.right
  · intro hi
    have hlt := BitVec.lt_of_getLsbD hi
    exact ⟨⟨Nat.zero_le _, by rw [ebitmapSize]; omega⟩, hi⟩

theorem mem_node_iff (hn : n.startbit % ebitmapSize = 0) :
    b ∈ (bitsFrom n.maps 0).map (n.startbit + ·) ↔ n.startbit = block b ∧ n.maps.getLsbD (b % ebitmapSize) = true := by
  rw [List.mem_map]
  constructor
  · rintro ⟨i, hi, rfl⟩
    rw [mem_bitsFrom_zero] at hi
    have hlt := BitVec.lt_of_getLsbD hi
    have hmod : (n.startbit + i) % ebitmapSize = i := by
      rw [ebitmapSize] at *
      omega
    rw [block, hmod]
    exact ⟨(Nat.add_sub_cancel _ _).symm, hi⟩
  · rintro ⟨hblock, hbit⟩
    refine ⟨b % ebitmapSize, mem_bitsFrom_zero.mpr hbit, ?_⟩
    rw [hblock, block]
    exact Nat.sub_add_cancel (Nat.mod_le _ _)

theorem Bit.exists_node (h : Bit ns b) : ∃ n ∈ ns, n.startbit = block b := by
  have hne : word ns (block b) ≠ 0#128 := by
    intro hzero
    rw [Bit, hzero, BitVec.getLsbD_zero] at h
    cases h
  exact exists_of_valueAt_ne hne

theorem mem_members (h : Ranged ns) : b ∈ members ns ↔ Bit ns b := by
  induction ns with
  | nil => simp [members, Bit, word, valueAt_nil]
  | cons n ns ih =>
      rw [members_cons, List.mem_append, mem_node_iff (h.aligned n List.mem_cons_self), ih h.tail]
      by_cases hblock : n.startbit = block b
      · have hself : word (n :: ns) (block b) = n.maps := by rw [word, ← hblock, valueAt_cons_self]
        rw [Bit, Bit, hself, and_iff_right hblock, or_iff_left]
        intro hbit
        obtain ⟨m, hm, heq⟩ := Bit.exists_node hbit
        have hlt := h.below m hm
        omega
      · rw [Bit, Bit, word, word, valueAt_cons_of_ne hblock]
        exact or_iff_right fun hand => hblock hand.1

theorem bitsFrom_pairwise (maps : BitVec 128) : (bitsFrom maps 0).Pairwise (· < ·) :=
  List.Pairwise.filter _ (List.pairwise_lt_range' 1)

theorem members_pairwise (h : Ranged ns) : (members ns).Pairwise (· < ·) := by
  induction ns with
  | nil => exact .nil
  | cons n ns ih =>
      rw [members_cons, List.pairwise_append]
      refine ⟨?_, ih h.tail, ?_⟩
      · apply List.Pairwise.map _ _ (bitsFrom_pairwise n.maps)
        exact fun i j hij => Nat.add_lt_add_left hij _
      · intro b hb c hc
        obtain ⟨hblock, -⟩ := (mem_node_iff (h.aligned n List.mem_cons_self)).mp hb
        obtain ⟨m, hm, heq⟩ := ((mem_members h.tail).mp hc).exists_node
        have hlt := h.below m hm
        rw [hblock, heq, block, block, ebitmapSize] at hlt
        omega

end iteration

section sets

variable {ns ms : List EbitmapNode} {n : EbitmapNode} {b : Nat}

theorem add_mod_block {k i : Nat} (hk : k % ebitmapSize = 0) (hi : i < 128) :
    (k + i) % ebitmapSize = i ∧ block (k + i) = k := by
  rw [block, ebitmapSize] at *
  omega

theorem bit_add {k i : Nat} (hk : k % ebitmapSize = 0) (hi : i < 128) : Bit ns (k + i) ↔ (word ns k).getLsbD i = true := by
  obtain ⟨hmod, hblock⟩ := add_mod_block hk hi
  rw [Bit, hblock, hmod]

theorem forall_word_iff (h : Ranged ms) :
    (∀ k, word ns k &&& word ms k = word ms k) ↔ ∀ b, Bit ms b → Bit ns b := by
  constructor
  · intro hwords b hb
    rw [Bit, ← hwords, BitVec.getLsbD_and, Bool.and_eq_true] at hb
    exact hb.1
  · intro hbits k
    by_cases hk : k % ebitmapSize = 0
    · apply BitVec.eq_of_getLsbD_eq
      intro i hi
      rw [BitVec.getLsbD_and]
      cases hms : (word ms k).getLsbD i with
      | false => exact Bool.and_false _
      | true => rw [(bit_add hk hi).mp (hbits _ ((bit_add hk hi).mpr hms)), Bool.and_true]
    · have hzero : word ms k = 0#128 := valueAt_eq_of_forall_ne fun n hn heq => hk (heq ▸ h.aligned n hn)
      rw [hzero]
      exact BitVec.and_zero

theorem containsLoop_iff (h : Ranged ns) (h' : Tidy ms) :
    containsLoop ns ms = true ↔ ∀ k, word ns k &&& word ms k = word ms k := by
  fun_induction containsLoop ns ms with
  | case1 ns => exact iff_of_true rfl fun k => BitVec.and_zero
  | case2 m ms =>
      refine iff_of_false Bool.false_ne_true fun hwords => h'.nonzero m List.mem_cons_self ?_
      have hm := hwords m.startbit
      rw [word, word, valueAt_cons_self] at hm
      rw [← hm]
      exact BitVec.zero_and
  | case3 n ns m ms hle hlt ih =>
      rw [ih h.tail h']
      apply forall_congr'
      intro k
      by_cases hk : n.startbit = k
      · have hzero : word (m :: ms) k = 0#128 := by
          apply valueAt_of_below
          rw [← hk]
          exact List.forall_mem_cons.mpr ⟨hlt, fun x hx => Nat.lt_trans hlt (h'.below x hx)⟩
        rw [hzero, BitVec.and_zero, BitVec.and_zero]
      · have hrest : word (n :: ns) k = word ns k := valueAt_cons_of_ne hk
        rw [hrest]
  | case4 n ns m ms hle hlt hand =>
      refine iff_of_false Bool.false_ne_true fun hwords => hand ?_
      have hm := hwords m.startbit
      have heq : n.startbit = m.startbit := by omega
      rwa [word, word, valueAt_cons_self, ← heq, valueAt_cons_self] at hm
  | case5 n ns m ms hle hlt hand ih =>
      rw [ih h.tail h'.tail]
      have heq : n.startbit = m.startbit := by omega
      apply forall_congr'
      intro k
      by_cases hk : n.startbit = k
      · subst hk
        have hzero : word ms n.startbit = 0#128 := by
          rw [heq]
          exact h'.proper.valueAt_head
        have hself : word (m :: ms) n.startbit = m.maps := by
          rw [heq]
          exact valueAt_cons_self
        have hself' : word (n :: ns) n.startbit = n.maps := valueAt_cons_self
        rw [hzero, hself, hself']
        exact iff_of_true BitVec.and_zero (not_not.mp hand)
      · have hn : word (n :: ns) k = word ns k := valueAt_cons_of_ne hk
        have hm : word (m :: ms) k = word ms k := valueAt_cons_of_ne (heq ▸ hk)
        rw [hn, hm]
  | case6 n ns m ms hle =>
      refine iff_of_false Bool.false_ne_true fun hwords => h'.nonzero m List.mem_cons_self ?_
      have hm := hwords m.startbit
      have hzero : word (n :: ns) m.startbit = 0#128 := by
        apply valueAt_of_below
        have hlt := Nat.lt_of_not_le hle
        exact List.forall_mem_cons.mpr ⟨hlt, fun x hx => Nat.lt_trans hlt (h.below x hx)⟩
      rw [hzero, BitVec.zero_and, word, valueAt_cons_self] at hm
      exact hm.symm

theorem cmpLoop_iff : cmpLoop ns ms = true ↔ ns = ms := by
  fun_induction cmpLoop ns ms with
  | case1 n ns m ms heq ih =>
      obtain rfl : n = m := by
        obtain ⟨s, v⟩ := n
        obtain ⟨s', v'⟩ := m
        obtain ⟨rfl, rfl⟩ := heq
        rfl
      rw [ih, List.cons_inj_right]
  | case2 n ns m ms hne =>
      refine iff_of_false Bool.false_ne_true fun heq => hne ?_
      obtain ⟨rfl, -⟩ := List.cons.inj heq
      exact ⟨rfl, rfl⟩
  | case3 => exact iff_of_true rfl rfl
  | case4 ns ms hcons hnil =>
      refine iff_of_false Bool.false_ne_true fun heq => ?_
      subst heq
      cases ns with
      | nil => exact hnil rfl rfl
      | cons n ns => exact hcons n ns n ns rfl rfl

theorem Tidy.ext (h : Tidy ns) (h' : Tidy ms) (hbits : ∀ b, Bit ns b ↔ Bit ms b) : ns = ms := by
  apply Proper.ext _ h.proper h'.proper
  · intro k
    have hle := (forall_word_iff h'.toRanged).mpr (fun b => (hbits b).mpr) k
    have hge := (forall_word_iff h.toRanged).mpr (fun b => (hbits b).mp) k
    rw [BitVec.and_comm] at hge
    exact hge.symm.trans hle
  · rintro ⟨s, v⟩ ⟨s', v'⟩ rfl rfl
    rfl

end sets

/-- Nodes in their order, and a highest position behind them all. -/
structure Laid (e : Ebitmap) : Prop where
  ranged : Ranged e.node
  bounded : ∀ n ∈ e.node, n.startbit + ebitmapSize ≤ e.highbit

/-- What ebitmap_set_bit keeps: nodes that all hold a bit, and the end of the
last one as the highest position. -/
structure Canonical (e : Ebitmap) : Prop where
  tidy : Tidy e.node
  highbit : e.highbit = top 0 e.node

section canonical

variable {e e' : Ebitmap} {b : Nat}

theorem Laid.bit_lt (h : Laid e) (hb : Bit e.node b) : b < e.highbit := by
  obtain ⟨n, hn, heq⟩ := hb.exists_node
  have hle := h.bounded n hn
  have hlt := ((startbit_eq_block_iff (h.ranged.aligned n hn)).mp heq).2
  omega

theorem Laid.getBit (h : Laid e) : ebitmapGetBit e b = true ↔ Bit e.node b := by
  rw [ebitmapGetBit]
  split
  next hlt => exact iff_of_false Bool.false_ne_true fun hb => Nat.lt_asymm hlt (h.bit_lt hb)
  next => exact getLoop_iff h.ranged

theorem Laid.forEach (h : Laid e) : ebitmapForEachPositiveBit e = members e.node := by
  apply forEachLoop_eq (seekNode_pending e e.node) _ (length_members_le e.node)
  exact fun b hb => h.bit_lt ((mem_members h.ranged).mp hb)

theorem canonical_init : Canonical ebitmapInit := ⟨tidy_nil, rfl⟩

theorem Canonical.laid (h : Canonical e) : Laid e := by
  refine ⟨h.tidy.toRanged, ?_⟩
  rw [h.highbit]
  exact h.tidy.le_top 0

theorem Canonical.ext (h : Canonical e) (h' : Canonical e') (hbits : ∀ b, Bit e.node b ↔ Bit e'.node b) : e = e' := by
  have hnode := h.tidy.ext h'.tidy hbits
  have hhigh : e.highbit = e'.highbit := by rw [h.highbit, h'.highbit, hnode]
  cases e
  cases e'
  congr

/-- The nodes that hold a bit, and the end of the last of them. -/
def normalForm (e : Ebitmap) : Ebitmap :=
  ⟨e.node.filter fun n => decide (n.maps ≠ 0#128), top 0 (e.node.filter fun n => decide (n.maps ≠ 0#128))⟩

theorem word_filter {ns : List EbitmapNode} (h : Ranged ns) (k : Nat) :
    word (ns.filter fun n => decide (n.maps ≠ 0#128)) k = word ns k := by
  induction ns with
  | nil => rfl
  | cons n ns ih =>
      rw [List.filter_cons]
      by_cases hn : n.maps = 0#128
      · rw [if_neg (by simp [hn]), ih h.tail]
        by_cases hk : n.startbit = k
        · subst hk
          rw [word, word, valueAt_cons_self, hn, valueAt_of_below h.below]
        · rw [word, word, valueAt_cons_of_ne hk]
      · rw [if_pos (by simp [hn])]
        by_cases hk : n.startbit = k
        · subst hk
          rw [word, word, valueAt_cons_self, valueAt_cons_self]
        · rw [word, word, valueAt_cons_of_ne hk, valueAt_cons_of_ne hk]
          exact ih h.tail

theorem Laid.normalForm_canonical (h : Laid e) : Canonical (normalForm e) where
  tidy :=
    { ascending := h.ranged.ascending.filter _
      aligned := fun n hn => h.ranged.aligned n (List.mem_filter.mp hn).1
      fits := fun n hn => h.ranged.fits n (List.mem_filter.mp hn).1
      nonzero := fun _ hn => of_decide_eq_true (List.mem_filter.mp hn).2 }
  highbit := rfl

theorem Laid.normalForm_getBit (h : Laid e) : ebitmapGetBit (normalForm e) = ebitmapGetBit e := by
  funext b
  rw [Bool.eq_iff_iff, h.normalForm_canonical.laid.getBit, h.getBit, Bit, Bit]
  exact iff_of_eq (congrArg (fun w : BitVec 128 => w.getLsbD (b % ebitmapSize) = true) (word_filter h.ranged (block b)))

theorem Canonical.cmp (h : Canonical e) (h' : Canonical e') :
    ebitmapCmp e e' = true ↔ ∀ b, Bit e.node b ↔ Bit e'.node b := by
  constructor
  · intro hcmp b
    rw [ebitmapCmp] at hcmp
    split at hcmp
    · cases hcmp
    · rw [cmpLoop_iff.mp hcmp]
  · intro hbits
    rw [h.ext h' hbits, ebitmapCmp, if_neg (not_not.mpr rfl)]
    exact cmpLoop_iff.mpr rfl

theorem Canonical.top_le (h : Canonical e) (h' : Canonical e') (hbits : ∀ b, Bit e'.node b → Bit e.node b) :
    e'.highbit ≤ e.highbit := by
  rw [h.highbit, h'.highbit]
  by_cases hne : e'.node = []
  · rw [hne]
    exact Nat.zero_le _
  · obtain ⟨n, hn, htop⟩ := top_eq 0 hne
    -- some bit of the last node lies in a node of the other bitmap
    obtain ⟨i, hlt, hi⟩ := exists_getLsbD (h'.tidy.nonzero n hn)
    have haligned := h'.tidy.aligned n hn
    have hbit : Bit e'.node (n.startbit + i) := by
      rw [bit_add haligned hlt, word, h'.tidy.proper.valueAt_of_mem hn]
      exact hi
    obtain ⟨m, hm, hblock⟩ := (hbits _ hbit).exists_node
    have hle := h.tidy.le_top 0 m hm
    have heq : n.startbit = block (n.startbit + i) :=
      (startbit_eq_block_iff haligned).mpr ⟨Nat.le_add_right _ _, Nat.add_lt_add_left hlt _⟩
    omega

theorem Canonical.contains (h : Canonical e) (h' : Canonical e') :
    ebitmapContains e e' = true ↔ ∀ b, Bit e'.node b → Bit e.node b := by
  rw [ebitmapContains]
  split
  next hlt =>
    refine iff_of_false Bool.false_ne_true fun hbits => ?_
    have hle := h.top_le h' hbits
    omega
  next => rw [containsLoop_iff h.tidy.toRanged h'.tidy, forall_word_iff h'.tidy.toRanged]

theorem Canonical.setBit (h : Canonical e) (hb : block b + ebitmapSize < 2 ^ 32) (allocated value : Bool) :
    Updated allocated b value 0 e.node (setLoop allocated b value e.highbit none e.node) :=
  setLoop_updated (p := none) h.tidy hb h.highbit

end canonical

structure SetBit where
  allocated : Bool
  bit : Nat
  value : Bool
deriving DecidableEq, Repr

def step (e : Ebitmap) (op : SetBit) : Ebitmap := (ebitmapSetBit op.allocated e op.bit op.value).2

def run (ops : List SetBit) : Ebitmap := ops.foldl step ebitmapInit

/-- The bit goes in only with memory, unless a bit of its block is there. -/
def lacksMemory (s : Finset Nat) (op : SetBit) : Bool :=
  op.value && !op.allocated && decide (∀ c ∈ s, block c ≠ block op.bit)

def specStep (s : Finset Nat) (op : SetBit) : Finset Nat :=
  if lacksMemory s op then s else if op.value then insert op.bit s else s.erase op.bit

def specRun (ops : List SetBit) : Finset Nat := ops.foldl specStep ∅

structure Represents (e : Ebitmap) (s : Finset Nat) : Prop where
  canonical : Canonical e
  bit_iff : ∀ b, Bit e.node b ↔ b ∈ s

section runs

variable {e e' : Ebitmap} {s s' : Finset Nat} {b : Nat} {op : SetBit}

def InRange (op : SetBit) : Prop := block op.bit + ebitmapSize < 2 ^ 32

theorem Represents.word_eq_zero_iff (h : Represents e s) : word e.node (block b) = 0#128 ↔ ∀ c ∈ s, block c ≠ block b := by
  constructor
  · intro hzero c hc heq
    have hbit := (h.bit_iff c).mpr hc
    rw [Bit, heq, hzero, BitVec.getLsbD_zero] at hbit
    cases hbit
  · intro hnone
    apply BitVec.eq_of_getLsbD_eq
    intro i hi
    rw [BitVec.getLsbD_zero]
    apply Bool.eq_false_iff.mpr
    intro hbit
    have hmem := (h.bit_iff _).mp ((bit_add (block_mod b) hi).mpr hbit)
    exact hnone _ hmem (add_mod_block (block_mod b) hi).2

theorem Represents.lacksMemory_iff (h : Represents e s) :
    lacksMemory s op = true ↔ op.value = true ∧ op.allocated = false ∧ word e.node (block op.bit) = 0#128 := by
  rw [lacksMemory, h.word_eq_zero_iff]
  simp [and_assoc]

theorem getLsbD_twoPow_iff {c : Nat} (hblock : block c = block b) :
    (BitVec.twoPow 128 (b % ebitmapSize)).getLsbD (c % ebitmapSize) = true ↔ c = b := by
  have hlt : b % ebitmapSize < 128 := Nat.mod_lt _ (by decide)
  rw [BitVec.getLsbD_twoPow, decide_eq_true hlt, Bool.true_and, decide_eq_true_iff]
  rw [block, block, ebitmapSize] at *
  omega

theorem Represents.step (h : Represents e s) (hop : InRange op) : Represents (step e op) (specStep s op) := by
  have hup := h.canonical.setBit hop op.allocated op.value
  refine ⟨⟨hup.tidy, hup.top_eq⟩, ?_⟩
  intro c
  have hword := hup.word_eq (block c)
  have hbit : Bit (ExtensibleBitmap.step e op).node c ↔
      (if block c = block op.bit then newWord op.allocated op.bit op.value (word e.node (block c))
        else word e.node (block c)).getLsbD (c % ebitmapSize) = true := by
    rw [← hword]
    rfl
  have hc := h.bit_iff c
  rw [Bit] at hc
  rw [hbit, specStep]
  by_cases hblock : block c = block op.bit
  · rw [if_pos hblock, newWord]
    have hmod := getLsbD_twoPow_iff hblock
    by_cases hlacks : lacksMemory s op = true
    · obtain ⟨hvalue, hallocated, hzero⟩ := h.lacksMemory_iff.mp hlacks
      rw [if_pos hlacks, if_pos hvalue, if_pos ⟨by rw [hblock]; exact hzero, hallocated⟩]
      exact hc
    · rw [if_neg hlacks]
      have hnot := mt h.lacksMemory_iff.mpr hlacks
      split
      next hvalue =>
        rw [if_neg (by rw [hblock]; exact fun hand => hnot ⟨hvalue, hand.2, hand.1⟩), BitVec.getLsbD_or, Bool.or_eq_true,
          hc, hmod, Finset.mem_insert]
        exact or_comm
      next hvalue =>
        have hlt : c % ebitmapSize < 128 := Nat.mod_lt _ (by decide)
        rw [BitVec.getLsbD_and, BitVec.getLsbD_not, decide_eq_true hlt, Bool.true_and, Bool.and_eq_true,
          Bool.not_eq_true', ← Bool.not_eq_true, hc, hmod, Finset.mem_erase]
        exact and_comm
  · rw [if_neg hblock, hc]
    split
    · rfl
    · have hne : c ≠ op.bit := fun h => hblock (congrArg block h)
      split
      · rw [Finset.mem_insert, or_iff_right hne]
      · rw [Finset.mem_erase, and_iff_right hne]

theorem Represents.run {ops : List SetBit} (h : ∀ op ∈ ops, InRange op) : Represents (run ops) (specRun ops) := by
  have hstart : Represents ebitmapInit ∅ := by
    refine ⟨canonical_init, fun b => ?_⟩
    simp [Bit, ebitmapInit, word, valueAt_nil]
  rw [ExtensibleBitmap.run, specRun]
  generalize ebitmapInit = e at hstart
  generalize (∅ : Finset Nat) = s at hstart
  induction ops generalizing e s with
  | nil => exact hstart
  | cons op ops ih =>
      obtain ⟨hop, hops⟩ := List.forall_mem_cons.mp h
      exact ih hops _ _ (hstart.step hop)

theorem Represents.forEach (h : Represents e s) : ebitmapForEachPositiveBit e = s.sort := by
  have hsorted := members_pairwise h.canonical.tidy.toRanged
  have hnodup : (members e.node).Nodup := hsorted.imp Nat.ne_of_lt
  have heq : (members e.node).toFinset = s := by
    ext b
    rw [List.mem_toFinset, mem_members h.canonical.tidy.toRanged, h.bit_iff]
  rw [h.canonical.laid.forEach, ← heq]
  exact ((List.toFinset_sort _ hnodup).mpr (hsorted.imp Nat.le_of_lt)).symm

theorem Represents.rc (h : Represents e s) (hop : InRange op) :
    (ebitmapSetBit op.allocated e op.bit op.value).1 = if lacksMemory s op then -enomem else 0 := by
  refine Eq.trans (h.canonical.setBit hop op.allocated op.value).rc_eq ?_
  by_cases hlacks : lacksMemory s op = true
  · rw [if_pos hlacks, if_pos (h.lacksMemory_iff.mp hlacks)]
  · rw [if_neg hlacks, if_neg (mt h.lacksMemory_iff.mpr hlacks)]

/-- An extensible bitmap and a finite set of numbers cannot be told apart:
whatever bits were set and cleared, with and without memory, lookups, the
loop over the bits, comparison and inclusion answer as for the sets, and a
call fails exactly when it needs a new node and gets none. -/
theorem run_sameAsSet (ops ops' : List SetBit) (h : ∀ op ∈ ops, InRange op) (h' : ∀ op ∈ ops', InRange op) :
    (∀ b, ebitmapGetBit (run ops) b = decide (b ∈ specRun ops)) ∧
    ebitmapForEachPositiveBit (run ops) = (specRun ops).sort ∧
    ebitmapCmp (run ops) (run ops') = decide (specRun ops = specRun ops') ∧
    ebitmapContains (run ops) (run ops') = decide (specRun ops' ⊆ specRun ops) ∧
    ∀ op, InRange op →
      (ebitmapSetBit op.allocated (run ops) op.bit op.value).1 =
        if lacksMemory (specRun ops) op then -enomem else 0 := by
  have hrun := Represents.run h
  have hrun' := Represents.run h'
  refine ⟨?_, hrun.forEach, ?_, ?_, fun op hop => hrun.rc hop⟩
  · intro b
    rw [Bool.eq_iff_iff, hrun.canonical.laid.getBit, hrun.bit_iff, decide_eq_true_iff]
  · rw [Bool.eq_iff_iff, hrun.canonical.cmp hrun'.canonical, decide_eq_true_iff, Finset.ext_iff]
    simp only [hrun.bit_iff, hrun'.bit_iff]
  · rw [Bool.eq_iff_iff, hrun.canonical.contains hrun'.canonical, decide_eq_true_iff, Finset.subset_iff]
    simp only [hrun.bit_iff, hrun'.bit_iff]

theorem run_sameAsSet_categories :
    ebitmapCmp (run [⟨true, 1023, true⟩, ⟨true, 5, true⟩, ⟨true, 1023, false⟩]) (run [⟨true, 5, true⟩]) = true := by
  have hrange : ∀ op ∈ [SetBit.mk true 1023 true, ⟨true, 5, true⟩, ⟨true, 1023, false⟩], InRange op := by
    simp [InRange, block, ebitmapSize]
  have hrange' : ∀ op ∈ [SetBit.mk true 5 true], InRange op := by
    simp [InRange, block, ebitmapSize]
  rw [(run_sameAsSet _ _ hrange hrange').2.2.1, decide_eq_true_iff]
  decide

end runs

end PigaLinux.ExtensibleBitmap
