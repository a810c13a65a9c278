import PigaLinux.ExtensibleBitmap
import PigaLinux.Bytes

namespace PigaLinux.BitmapFormat

open Kernel Bits Sparse Bytes ExtensibleBitmap

def bitsPerU64 : Nat := 64

/-- The node that an entry goes to. The nodes read so far stand with the
newest first, and the first one is where reading goes on. -/
def placeNode (allocated : Nat → Bool) (startbit : Nat) (acc : List EbitmapNode) : Except Int (List EbitmapNode) :=
  let new := if allocated acc.length then .ok (⟨startbit - startbit % ebitmapSize, 0#128⟩ :: acc) else .error (-enomem)
  match acc with
  | [] => new
  | n :: _ =>
      if startbit ≥ n.startbit + ebitmapSize then new
      else if startbit ≤ n.startbit then .error (-einval)
      else .ok acc

def storeWord (index : Nat) (map : BitVec 64) (maps : BitVec 128) : BitVec 128 :=
  if index = 0 then maps.extractLsb' 64 64 ++ map else map ++ maps.extractLsb' 0 64

/-- The word of an entry goes to the node in front; a word without bits is not stored. -/
def storeMap (startbit : Nat) (map : BitVec 64) : List EbitmapNode → List EbitmapNode
  | [] => []
  | n :: ns =>
      if map = 0#64 then n :: ns
      else { n with maps := storeWord ((startbit - n.startbit) / bitsPerU64) map n.maps } :: ns

def readLoop (allocated : Nat → Bool) (highbit : Nat) :
    Nat → List EbitmapNode → List Byte → Except Int (List EbitmapNode × List Byte)
  | 0, acc, fp => .ok (acc.reverse, fp)
  | count + 1, acc, fp =>
      (nextEntry 4 fp).bind fun (buf, fp) =>
        if leValue buf % bitsPerU64 ≠ 0 then .error (-einval)
        else if leValue buf > highbit - bitsPerU64 then .error (-einval)
        else (placeNode allocated (leValue buf) acc).bind fun acc =>
          (nextEntry 8 fp).bind fun (map, fp) =>
            readLoop allocated highbit count (storeMap (leValue buf) (BitVec.ofNat 64 (leValue map)) acc) fp

/-- The highest position that was read, rounded up to whole nodes in 32 bits. -/
def roundHighbit (highbit : Nat) : Nat :=
  u32 (highbit + (ebitmapSize - 1)) - u32 (highbit + (ebitmapSize - 1)) % ebitmapSize

def ebitmapRead (allocated : Nat → Bool) (fp : List Byte) : Except Int (Ebitmap × List Byte) :=
  (nextEntry 12 fp).bind fun (buf, fp) =>
    if leValue (buf.take 4) ≠ bitsPerU64 then .error (-einval)
    else
      let highbit := roundHighbit (leValue ((buf.drop 4).take 4))
      if highbit = 0 then .ok (⟨[], 0⟩, fp)
      else (readLoop allocated highbit (leValue (buf.drop 8)) [] fp).bind fun (ns, fp) => .ok (⟨ns, highbit⟩, fp)

def asInt (n : Nat) : Int := (BitVec.ofNat 32 n).toInt

def ofInt (x : Int) : Nat := (BitVec.ofInt 32 x).toNat

/-- The rounding that is done in int keeps the sign of the remainder. -/
def rounddownInt (x : Int) : Int := x - x.tmod bitsPerU64

def rounddown (x : Int) : Int := x - x % bitsPerU64

def roundup (x : Int) : Int := (x + (bitsPerU64 - 1)) / bitsPerU64 * bitsPerU64

structure CountState where
  count : Nat
  lastBit : Int
  lastStartbit : Int

def countBit (st : CountState) (bit : Int) : CountState :=
  if rounddownInt bit > st.lastStartbit then ⟨st.count + 1, roundup (bit + 1), rounddown bit⟩
  else { st with lastBit := roundup (bit + 1) }

structure MapState where
  map : BitVec 64
  lastStartbit : Int
  out : List Byte

def MapState.put (st : MapState) : List Byte := leBytes 4 (ofInt st.lastStartbit) ++ leBytes 8 st.map.toNat

def mapBit (st : MapState) (bit : Int) : MapState :=
  if rounddownInt bit > st.lastStartbit then
    if st.map = 0#64 then { st with lastStartbit := rounddown bit, map := BitVec.twoPow 64 (bit - rounddown bit).toNat }
    else ⟨BitVec.twoPow 64 (bit - rounddown bit).toNat, rounddown bit, st.out ++ st.put⟩
  else { st with map := st.map ||| BitVec.twoPow 64 (bit - st.lastStartbit).toNat }

def intMin : Int := -2147483648

def ebitmapWrite (e : Ebitmap) : List Byte :=
  let bits := (ebitmapForEachPositiveBit e).map asInt
  let counted := bits.foldl countBit ⟨0, 0, -1⟩
  let mapped := bits.foldl mapBit ⟨0#64, intMin, []⟩
  leBytes 4 bitsPerU64 ++ leBytes 4 (ofInt counted.lastBit) ++ leBytes 4 counted.count ++ mapped.out ++
    if mapped.map = 0#64 then [] else mapped.put

section entries

variable {ws : List (Nat × BitVec 64)} {s b : Nat} {m : BitVec 64}

def entryBytes (w : Nat × BitVec 64) : List Byte := leBytes 4 w.1 ++ leBytes 8 w.2.toNat

abbrev mapAt (ws : List (Nat × BitVec 64)) (k : Nat) : BitVec 64 := valueAt Prod.fst Prod.snd 0#64 ws k

abbrev Entries (ws : List (Nat × BitVec 64)) : Prop := Proper Prod.fst Prod.snd 0#64 ws

def unit (b : Nat) : Nat := b - b % bitsPerU64

def Listed (ws : List (Nat × BitVec 64)) (b : Nat) : Prop := (mapAt ws (unit b)).getLsbD (b % bitsPerU64) = true

theorem Listed.exists_entry (h : Listed ws b) : ∃ w ∈ ws, w.1 = unit b := by
  have hne : mapAt ws (unit b) ≠ 0#64 := by
    intro hzero
    rw [Listed, hzero, BitVec.getLsbD_zero] at h
    cases h
  exact exists_of_valueAt_ne hne

theorem listed_snoc (hbelow : ∀ w ∈ ws, w.1 < s) :
    Listed (ws ++ [(s, m)]) b ↔ if unit b = s then m.getLsbD (b % bitsPerU64) = true else Listed ws b := by
  have hsnoc : mapAt (ws ++ [(s, m)]) (unit b) = if unit b = s then m else mapAt ws (unit b) := valueAt_snoc hbelow
  rw [Listed, hsnoc]
  split
  next => rfl
  next => rfl

theorem add_mod_unit {i : Nat} (hs : s % bitsPerU64 = 0) (hi : i < 64) : (s + i) % bitsPerU64 = i ∧ unit (s + i) = s := by
  rw [unit, bitsPerU64] at *
  omega

end entries

section writing

variable {bs : List Nat} {b : Nat}

/-- Where the two loops of ebitmap_write stand behind some bits: the entries
that are out, and the one that is being collected. -/
inductive Packed : List Nat → CountState → MapState → Prop
  | start : Packed [] ⟨0, 0, -1⟩ ⟨0#64, intMin, []⟩
  | collecting {bs : List Nat} (ws : List (Nat × BitVec 64)) (s : Nat) (m : BitVec 64)
      (entries : Entries (ws ++ [(s, m)])) (aligned : ∀ w ∈ ws ++ [(s, m)], w.1 % bitsPerU64 = 0)
      (bits : ∀ b, Listed (ws ++ [(s, m)]) b ↔ b ∈ bs) :
      Packed bs ⟨ws.length + 1, s + bitsPerU64, s⟩ ⟨m, s, ws.flatMap entryBytes⟩

theorem asInt_eq (h : b < 2 ^ 31) : asInt b = b := by
  rw [asInt, BitVec.toInt_eq_toNat_of_lt] <;> rw [BitVec.toNat_ofNat]
  · rw [Nat.mod_eq_of_lt (by omega)]
  · omega

theorem ofInt_eq (h : b < 2 ^ 32) : ofInt b = b := by
  rw [ofInt, BitVec.ofInt_natCast, BitVec.toNat_ofNat, Nat.mod_eq_of_lt h]

theorem rounddownInt_eq (b : Nat) : rounddownInt b = unit b := by
  rw [rounddownInt, Int.tmod_eq_emod_of_nonneg (Int.natCast_nonneg b), unit, bitsPerU64]
  omega

theorem rounddown_eq (b : Nat) : rounddown b = unit b := by
  rw [rounddown, unit, bitsPerU64]
  omega

theorem roundup_eq (b : Nat) : roundup (b + 1) = unit b + bitsPerU64 := by
  rw [roundup, unit, bitsPerU64]
  omega

theorem sub_unit (b : Nat) : ((b : Int) - unit b).toNat = b % bitsPerU64 := by
  rw [unit, bitsPerU64]
  omega

theorem countBit_natCast (st : CountState) (b : Nat) :
    countBit st b = if (unit b : Int) > st.lastStartbit then ⟨st.count + 1, unit b + bitsPerU64, unit b⟩
      else { st with lastBit := unit b + bitsPerU64 } := by
  rw [countBit, rounddownInt_eq, rounddown_eq, roundup_eq]

theorem mapBit_natCast (st : MapState) (b : Nat) :
    mapBit st b = if (unit b : Int) > st.lastStartbit then
        if st.map = 0#64 then { st with lastStartbit := unit b, map := BitVec.twoPow 64 (b % bitsPerU64) }
        else ⟨BitVec.twoPow 64 (b % bitsPerU64), unit b, st.out ++ st.put⟩
      else { st with map := st.map ||| BitVec.twoPow 64 (b - st.lastStartbit).toNat } := by
  rw [mapBit, rounddownInt_eq, rounddown_eq, sub_unit]

theorem getLsbD_twoPow_unit {c : Nat} (hunit : unit c = unit b) :
    (BitVec.twoPow 64 (b % bitsPerU64)).getLsbD (c % bitsPerU64) = true ↔ c = b := by
  have hlt : b % bitsPerU64 < 64 := Nat.mod_lt _ (by decide)
  rw [BitVec.getLsbD_twoPow, decide_eq_true hlt, Bool.true_and, decide_eq_true_iff]
  rw [unit, unit, bitsPerU64] at *
  omega

theorem twoPow_unit_ne_zero (b : Nat) : BitVec.twoPow 64 (b % bitsPerU64) ≠ 0#64 := by
  intro hzero
  have hbit := (getLsbD_twoPow_unit (rfl : unit b = unit b)).mpr rfl
  rw [hzero, BitVec.getLsbD_zero] at hbit
  cases hbit

theorem unit_mod (b : Nat) : unit b % bitsPerU64 = 0 := by
  rw [unit, bitsPerU64]
  omega

theorem listed_open {ws : List (Nat × BitVec 64)} (hbelow : ∀ w ∈ ws, w.1 < unit b) (hbits : ∀ c, Listed ws c ↔ c ∈ bs)
    (c : Nat) : Listed (ws ++ [(unit b, BitVec.twoPow 64 (b % bitsPerU64))]) c ↔ c ∈ bs ++ [b] := by
  rw [listed_snoc hbelow, List.mem_append, List.mem_singleton]
  split
  next hunit =>
    rw [getLsbD_twoPow_unit hunit, or_iff_right]
    intro hc
    obtain ⟨w, hw, heq⟩ := ((hbits c).mpr hc).exists_entry
    have hlt := hbelow w hw
    omega
  next hunit =>
    rw [hbits, or_iff_left]
    rintro rfl
    exact hunit rfl

theorem listed_add {ws : List (Nat × BitVec 64)} {m : BitVec 64} (hbelow : ∀ w ∈ ws, w.1 < unit b)
    (hbits : ∀ c, Listed (ws ++ [(unit b, m)]) c ↔ c ∈ bs) (c : Nat) :
    Listed (ws ++ [(unit b, m ||| BitVec.twoPow 64 (b % bitsPerU64))]) c ↔ c ∈ bs ++ [b] := by
  have hc := hbits c
  rw [listed_snoc hbelow] at hc
  rw [listed_snoc hbelow, List.mem_append, List.mem_singleton]
  split
  next hunit =>
    rw [if_pos hunit] at hc
    rw [BitVec.getLsbD_or, Bool.or_eq_true, getLsbD_twoPow_unit hunit, hc]
  next hunit =>
    rw [if_neg hunit] at hc
    rw [hc, or_iff_left]
    rintro rfl
    exact hunit rfl

theorem Packed.snoc {cst : CountState} {mst : MapState} (h : Packed bs cst mst) (hb : ∀ c ∈ bs, c < b)
    (hlt : b < 2 ^ 31) : Packed (bs ++ [b]) (countBit cst b) (mapBit mst b) := by
  rw [countBit_natCast, mapBit_natCast]
  cases h with
  | start =>
      rw [if_pos (by dsimp only; omega), if_pos (by dsimp only; rw [intMin]; omega), if_pos rfl]
      refine .collecting [] (unit b) (BitVec.twoPow 64 (b % bitsPerU64)) ?_ ?_ ?_
      · exact proper_nil.snoc (fun _ hw => absurd hw List.not_mem_nil) (twoPow_unit_ne_zero b)
      · exact fun w hw => List.mem_singleton.mp hw ▸ unit_mod b
      · exact listed_open (fun _ hw => absurd hw List.not_mem_nil) fun c => by simp [Listed, mapAt, valueAt_nil]
  | collecting ws s m entries aligned bits =>
      obtain ⟨hws, hbelow, hm⟩ := entries.of_snoc
      have hs : s % bitsPerU64 = 0 := aligned (s, m) (by simp)
      -- the entry holds a bit, so it does not lie behind the new one
      have hle : s ≤ unit b := by
        obtain ⟨i, hi, hbit⟩ := exists_getLsbD hm
        obtain ⟨hmod, hunit⟩ := add_mod_unit hs hi
        have hmem : s + i ∈ bs := by
          rw [← bits, listed_snoc hbelow, if_pos hunit, hmod]
          exact hbit
        have := hb _ hmem
        rw [unit, bitsPerU64] at *
        omega
      rcases Nat.lt_or_eq_of_le hle with hnew | rfl
      · rw [if_pos (by dsimp only; omega), if_pos (by dsimp only; omega), if_neg hm]
        have hput : (⟨m, s, ws.flatMap entryBytes⟩ : MapState).put = entryBytes (s, m) := by
          rw [MapState.put, entryBytes, ofInt_eq (by have := Nat.sub_le b (b % bitsPerU64); rw [unit] at hle; omega)]
        have hbelow' : ∀ w ∈ ws ++ [(s, m)], w.1 < unit b := by
          rw [List.forall_mem_append]
          refine ⟨fun w hw => Nat.lt_trans (hbelow w hw) hnew, ?_⟩
          intro w hw
          rw [List.mem_singleton.mp hw]
          exact hnew
        have hpacked := Packed.collecting (ws ++ [(s, m)]) (unit b) (BitVec.twoPow 64 (b % bitsPerU64))
          (entries.snoc hbelow' (twoPow_unit_ne_zero b))
          (List.forall_mem_append.mpr ⟨aligned, fun w hw => List.mem_singleton.mp hw ▸ unit_mod b⟩)
          (listed_open hbelow' bits)
        rw [List.length_append, List.flatMap_append, List.flatMap_singleton] at hpacked
        rw [hput]
        exact hpacked
      · rw [if_neg (by dsimp only; omega), if_neg (by dsimp only; omega)]
        dsimp only
        rw [sub_unit]
        refine .collecting ws (unit b) _ ?_ ?_ (listed_add hbelow bits)
        · exact hws.snoc hbelow (or_ne_zero hm _)
        · obtain ⟨haligned, -⟩ := List.forall_mem_append.mp aligned
          exact List.forall_mem_append.mpr ⟨haligned, fun w hw => List.mem_singleton.mp hw ▸ hs⟩

theorem packed (hbs : bs.Pairwise (· < ·)) (hlt : ∀ b ∈ bs, b < 2 ^ 31) :
    Packed bs ((bs.map asInt).foldl countBit ⟨0, 0, -1⟩) ((bs.map asInt).foldl mapBit ⟨0#64, intMin, []⟩) := by
  induction bs using List.reverseRecOn with
  | nil => exact .start
  | append_singleton bs b ih =>
      obtain ⟨hinit, -, hb⟩ := List.pairwise_append.mp hbs
      obtain ⟨hbits, hlast⟩ := List.forall_mem_append.mp hlt
      have hb' : b < 2 ^ 31 := hlast b (List.mem_singleton_self b)
      rw [List.map_append, List.foldl_append, List.foldl_append, List.map_singleton, asInt_eq hb']
      exact (ih hinit hbits).snoc (fun c hc => hb c hc b (List.mem_singleton_self b)) hb'

end writing

section reading

variable {allocated : Nat → Bool} {highbit startbit : Nat} {acc acc' : List EbitmapNode} {fp : List Byte}
variable {ws : List (Nat × BitVec 64)} {s b : Nat} {m : BitVec 64}

def placed (s : Nat) : List EbitmapNode → List EbitmapNode
  | [] => [⟨block s, 0#128⟩]
  | n :: ns => if s ≥ n.startbit + ebitmapSize then ⟨block s, 0#128⟩ :: n :: ns else n :: ns

theorem placeNode_eq (hahead : ∀ n ∈ acc.head?, n.startbit < s) : placeNode (fun _ => true) s acc = .ok (placed s acc) := by
  cases acc with
  | nil => rfl
  | cons n ns =>
      rw [placeNode, placed]
      split
      · rfl
      · rw [if_neg (Nat.not_le.mpr (hahead n rfl))]

/-- The nodes read so far hold the bits of the entries read so far. -/
structure ReadSoFar (acc : List EbitmapNode) (ws : List (Nat × BitVec 64)) : Prop where
  tidy : Tidy acc.reverse
  bits : ∀ b, Bit acc.reverse b ↔ Listed ws b

theorem readLoop_entry {count : Nat} (hs : s < 2 ^ 32) (hmod : s % bitsPerU64 = 0) (hle : s ≤ highbit - bitsPerU64)
    (hahead : ∀ n ∈ acc.head?, n.startbit < s) (rest : List Byte) :
    readLoop (fun _ => true) highbit (count + 1) acc (entryBytes (s, m) ++ rest) =
      readLoop (fun _ => true) highbit count (storeMap s m (placed s acc)) rest := by
  have hstart : leValue (leBytes 4 s) = s := leValue_leBytes_of_lt hs
  have hmap : BitVec.ofNat 64 (leValue (leBytes 8 m.toNat)) = m := by
    rw [leValue_leBytes_of_lt m.isLt, BitVec.ofNat_toNat, BitVec.setWidth_eq]
  rw [readLoop, entryBytes, List.append_assoc, nextEntry_append (length_leBytes 4 s)]
  dsimp only [Except.bind]
  rw [hstart, if_neg (not_not.mpr hmod), if_neg (Nat.not_lt.mpr hle), placeNode_eq hahead]
  dsimp only
  rw [nextEntry_append (length_leBytes 8 m.toNat)]
  dsimp only
  rw [hmap]

theorem readSoFar_nil : ReadSoFar [] [] := by
  refine ⟨tidy_nil, fun b => ?_⟩
  simp [Bit, Listed, word, mapAt, valueAt_nil]

theorem getLsbD_storeWord (hmod : s % bitsPerU64 = 0) (hblock : block b = block s) (maps : BitVec 128) :
    (storeWord ((s - block s) / bitsPerU64) m maps).getLsbD (b % ebitmapSize) =
      if unit b = s then m.getLsbD (b % bitsPerU64) else maps.getLsbD (b % ebitmapSize) := by
  have hb : b % ebitmapSize < 128 := Nat.mod_lt _ (by decide)
  have hs : s % ebitmapSize = 0 ∧ (s - block s) / bitsPerU64 = 0 ∧ (unit b = s ↔ b % ebitmapSize < 64) ∨
      s % ebitmapSize = 64 ∧ (s - block s) / bitsPerU64 = 1 ∧ (unit b = s ↔ ¬ b % ebitmapSize < 64) := by
    rw [unit, block, block, ebitmapSize, bitsPerU64] at *
    omega
  have hlow : b % bitsPerU64 = if b % ebitmapSize < 64 then b % ebitmapSize else b % ebitmapSize - 64 := by
    rw [ebitmapSize, bitsPerU64] at *
    split <;> omega
  rcases hs with ⟨-, hindex, hunit⟩ | ⟨-, hindex, hunit⟩
  · rw [storeWord, if_pos hindex, BitVec.getLsbD_append, hlow]
    by_cases hlt : b % ebitmapSize < 64
    · rw [if_pos hlt, if_pos (hunit.mpr hlt), if_pos hlt]
    · rw [if_neg hlt, if_neg (mt hunit.mp hlt), BitVec.getLsbD_extractLsb', decide_eq_true (by omega), Bool.true_and]
      congr 1
      omega
  · rw [storeWord, if_neg (by omega), BitVec.getLsbD_append, hlow]
    by_cases hlt : b % ebitmapSize < 64
    · rw [if_pos hlt, if_neg (fun h => hunit.mp h hlt), BitVec.getLsbD_extractLsb', decide_eq_true hlt, Bool.true_and,
        Nat.zero_add]
    · rw [if_neg hlt, if_pos (hunit.mpr hlt), if_neg hlt]

theorem block_eq_of_unit (h : unit b = s) : block b = block s := by
  rw [unit, bitsPerU64] at h
  rw [block, block, ebitmapSize]
  omega

theorem storeWord_ne_zero (hmod : s % bitsPerU64 = 0) (hm : m ≠ 0#64) (maps : BitVec 128) :
    storeWord ((s - block s) / bitsPerU64) m maps ≠ 0#128 := by
  intro hzero
  obtain ⟨i, hi, hbit⟩ := exists_getLsbD hm
  obtain ⟨hlow, hunit⟩ := add_mod_unit hmod hi
  have hstored := getLsbD_storeWord (m := m) hmod (block_eq_of_unit hunit) maps
  rw [if_pos hunit, hlow, hbit, hzero, BitVec.getLsbD_zero] at hstored
  cases hstored

theorem bit_snoc {ns : List EbitmapNode} {k : Nat} {maps : BitVec 128} (hbelow : ∀ n ∈ ns, n.startbit < k) :
    Bit (ns ++ [⟨k, maps⟩]) b ↔ if block b = k then maps.getLsbD (b % ebitmapSize) = true else Bit ns b := by
  have hsnoc : word (ns ++ [⟨k, maps⟩]) (block b) = if block b = k then maps else word ns (block b) := valueAt_snoc hbelow
  rw [Bit, hsnoc]
  split
  next => rfl
  next => rfl

theorem ReadSoFar.ahead (h : ReadSoFar acc ws) (hbelow : ∀ w ∈ ws, w.1 < s) : ∀ n ∈ acc, n.startbit < s := by
  intro n hn
  have hmem := List.mem_reverse.mpr hn
  have haligned := h.tidy.aligned n hmem
  obtain ⟨i, hi, hbit⟩ := exists_getLsbD (h.tidy.nonzero n hmem)
  have hlisted : Listed ws (n.startbit + i) := by
    rw [← h.bits, bit_add haligned hi, word, h.tidy.proper.valueAt_of_mem hmem]
    exact hbit
  obtain ⟨w, hw, hkey⟩ := hlisted.exists_entry
  have hlt := hbelow w hw
  rw [unit] at hkey
  rw [ebitmapSize] at haligned
  rw [bitsPerU64] at hkey
  omega

theorem ReadSoFar.placed (h : ReadSoFar acc ws) (hbelow : ∀ w ∈ ws, w.1 < s) :
    ∃ pre maps, placed s acc = ⟨block s, maps⟩ :: pre ∧ Tidy pre.reverse ∧ (∀ n ∈ pre.reverse, n.startbit < block s) ∧
      ∀ b, Bit acc.reverse b ↔ if block b = block s then maps.getLsbD (b % ebitmapSize) = true else Bit pre.reverse b := by
  have hfresh : (∀ n ∈ acc.reverse, n.startbit < block s) → ∀ b, Bit acc.reverse b ↔
      if block b = block s then (0#128).getLsbD (b % ebitmapSize) = true else Bit acc.reverse b := by
    intro hlt b
    split
    next hblock =>
      rw [BitVec.getLsbD_zero]
      refine iff_of_false (fun hb => ?_) Bool.false_ne_true
      obtain ⟨n, hn, heq⟩ := hb.exists_node
      have := hlt n hn
      omega
    next => rfl
  cases acc with
  | nil =>
      have hlt : ∀ n ∈ ([] : List EbitmapNode).reverse, n.startbit < block s := fun _ hn => absurd hn List.not_mem_nil
      exact ⟨[], 0#128, rfl, h.tidy, hlt, hfresh hlt⟩
  | cons n ns =>
      have hn := h.tidy.aligned n (by simp)
      have hns := h.ahead hbelow n List.mem_cons_self
      have hrev : (n :: ns).reverse = ns.reverse ++ [n] := List.reverse_cons
      obtain ⟨hinit, hlast, -⟩ := (hrev ▸ h.tidy.proper).of_snoc
      rw [BitmapFormat.placed]
      split
      next hge =>
        have hlt : ∀ x ∈ (n :: ns).reverse, x.startbit < block s := by
          have hless := (lt_block_iff (b := s) hn).mpr hge
          rw [hrev, List.forall_mem_append]
          refine ⟨fun x hx => Nat.lt_trans (hlast x hx) hless, ?_⟩
          intro x hx
          rw [List.mem_singleton.mp hx]
          exact hless
        exact ⟨n :: ns, 0#128, rfl, h.tidy, hlt, hfresh hlt⟩
      next hlt =>
        have hblock := (startbit_eq_block_iff hn).mpr ⟨Nat.le_of_lt hns, Nat.lt_of_not_le hlt⟩
        refine ⟨ns, n.maps, by rw [← hblock], ?_, hblock ▸ hlast, ?_⟩
        · exact (hrev ▸ h.tidy).of_snoc
        · intro b
          rw [hrev, ← hblock]
          exact bit_snoc hlast

theorem ReadSoFar.push (h : ReadSoFar acc ws) (hbelow : ∀ w ∈ ws, w.1 < s) (hmod : s % bitsPerU64 = 0) (hm : m ≠ 0#64)
    (hfits : block s + ebitmapSize < 2 ^ 32) : ReadSoFar (storeMap s m (BitmapFormat.placed s acc)) (ws ++ [(s, m)]) := by
  obtain ⟨pre, maps, hplaced, htidy, hlt, hbits⟩ := h.placed hbelow
  rw [hplaced, storeMap, if_neg hm]
  dsimp only
  refine ⟨?_, fun b => ?_⟩
  · rw [List.reverse_cons]
    exact htidy.snoc hlt (block_mod s) hfits (storeWord_ne_zero hmod hm maps)
  · rw [List.reverse_cons, bit_snoc hlt, listed_snoc hbelow, ← h.bits, hbits]
    by_cases hblock : block b = block s
    · rw [if_pos hblock, if_pos hblock, getLsbD_storeWord hmod hblock]
      split <;> rfl
    · rw [if_neg hblock, if_neg hblock, if_neg (mt block_eq_of_unit hblock)]

theorem readLoop_entries {read : List (Nat × BitVec 64)} (h : ReadSoFar acc read) (hws : Entries (read ++ ws))
    (hmod : ∀ w ∈ ws, w.1 % bitsPerU64 = 0) (hle : ∀ w ∈ ws, w.1 ≤ highbit - bitsPerU64) (hhigh : highbit ≤ 2 ^ 31)
    (rest : List Byte) :
    ∃ ns, readLoop (fun _ => true) highbit ws.length acc (ws.flatMap entryBytes ++ rest) = .ok (ns, rest) ∧
      Tidy ns ∧ ∀ b, Bit ns b ↔ Listed (read ++ ws) b := by
  induction ws generalizing acc read with
  | nil =>
      rw [List.append_nil]
      exact ⟨acc.reverse, rfl, h.tidy, h.bits⟩
  | cons w ws ih =>
      obtain ⟨s, m⟩ := w
      obtain ⟨hs, hmod⟩ := List.forall_mem_cons.mp hmod
      obtain ⟨hsle, hle⟩ := List.forall_mem_cons.mp hle
      have hsplit : read ++ (s, m) :: ws = read ++ [(s, m)] ++ ws := by rw [List.append_assoc]; rfl
      rw [hsplit] at hws ⊢
      have hbelow : ∀ w ∈ read, w.1 < s := by
        have hread := (List.pairwise_append.mp hws.ascending).1
        exact fun w hw => (List.pairwise_append.mp hread).2.2 w hw (s, m) (List.mem_singleton_self _)
      have hm : m ≠ 0#64 := hws.nonzero (s, m) (by simp)
      have hfits : block s + ebitmapSize < 2 ^ 32 := by
        rw [block, ebitmapSize]
        dsimp only at hsle
        omega
      obtain ⟨ns, hread, htidy, hbits⟩ := ih (h.push hbelow hs hm hfits) hws hmod hle
      refine ⟨ns, ?_, htidy, hbits⟩
      rw [List.flatMap_cons, List.append_assoc, List.length_cons]
      rw [readLoop_entry (by dsimp only at hsle; omega) hs hsle
        (fun n hn => h.ahead hbelow n (List.mem_of_mem_head? hn))]
      exact hread

end reading

section roundTrip

variable {e : Ebitmap} {ws : List (Nat × BitVec 64)} {s : Nat} {m : BitVec 64}

theorem ebitmapRead_header {highbit count : Nat} (hhigh : highbit < 2 ^ 32) (hcount : count < 2 ^ 32)
    (fp : List Byte) :
    ebitmapRead (fun _ => true) (leBytes 4 bitsPerU64 ++ leBytes 4 highbit ++ leBytes 4 count ++ fp) =
      if roundHighbit highbit = 0 then .ok (⟨[], 0⟩, fp)
      else (readLoop (fun _ => true) (roundHighbit highbit) count [] fp).bind fun (ns, fp) =>
        .ok (⟨ns, roundHighbit highbit⟩, fp) := by
  have hlen : (leBytes 4 bitsPerU64 ++ leBytes 4 highbit ++ leBytes 4 count).length = 12 := by
    simp [length_leBytes]
  have hfour := length_leBytes 4
  have htake : (leBytes 4 bitsPerU64 ++ leBytes 4 highbit ++ leBytes 4 count).take 4 = leBytes 4 bitsPerU64 := by
    rw [List.append_assoc, List.take_left' (hfour _)]
  have hdrop : (leBytes 4 bitsPerU64 ++ leBytes 4 highbit ++ leBytes 4 count).drop 4 = leBytes 4 highbit ++ leBytes 4 count := by
    rw [List.append_assoc, List.drop_left' (hfour _)]
  have hlast : (leBytes 4 bitsPerU64 ++ leBytes 4 highbit ++ leBytes 4 count).drop 8 = leBytes 4 count :=
    List.drop_left' (by simp [length_leBytes])
  rw [ebitmapRead, nextEntry_append hlen]
  dsimp only [Except.bind]
  rw [htake, hdrop, hlast, List.take_left' (hfour _), leValue_leBytes_of_lt (by decide : bitsPerU64 < 256 ^ 4),
    leValue_leBytes_of_lt hhigh, leValue_leBytes_of_lt hcount, if_neg (not_not.mpr rfl)]

theorem roundHighbit_eq (hs : s % bitsPerU64 = 0) (hlt : s < 2 ^ 31) :
    roundHighbit (s + bitsPerU64) = block s + ebitmapSize := by
  rw [roundHighbit, u32, block]
  rw [ebitmapSize, bitsPerU64] at *
  omega

theorem top_eq_of_entries {ns : List EbitmapNode} (hns : Tidy ns) (hws : Entries (ws ++ [(s, m)]))
    (hs : s % bitsPerU64 = 0) (hbits : ∀ b, Bit ns b ↔ Listed (ws ++ [(s, m)]) b) : block s + ebitmapSize = top 0 ns := by
  obtain ⟨-, hbelow, hm⟩ := hws.of_snoc
  obtain ⟨i, hi, hbit⟩ := exists_getLsbD hm
  obtain ⟨hlow, hunit⟩ := add_mod_unit hs hi
  have hlast : Bit ns (s + i) := by
    rw [hbits, listed_snoc hbelow, if_pos hunit, hlow]
    exact hbit
  obtain ⟨n, hn, hstart⟩ := hlast.exists_node
  have hle := hns.le_top 0 n hn
  rw [hstart, block_eq_of_unit hunit] at hle
  obtain ⟨n', hn', htop⟩ := top_eq 0 (List.ne_nil_of_mem hn)
  -- no node lies behind the one of the last entry
  obtain ⟨j, hj, hbit'⟩ := exists_getLsbD (hns.nonzero n' hn')
  have haligned := hns.aligned n' hn'
  have hlisted : Listed (ws ++ [(s, m)]) (n'.startbit + j) := by
    rw [← hbits, bit_add haligned hj, word, hns.proper.valueAt_of_mem hn']
    exact hbit'
  obtain ⟨w, hw, hkey⟩ := hlisted.exists_entry
  have hmax : w.1 ≤ s := by
    rcases List.mem_append.mp hw with hw | hw
    · exact Nat.le_of_lt (hbelow w hw)
    · rw [List.mem_singleton.mp hw]
  rw [htop] at hle ⊢
  rw [hkey, unit] at hmax
  rw [block] at *
  rw [ebitmapSize, bitsPerU64] at *
  omega

theorem length_le_of_pairwise {ks : List Nat} {N : Nat} (h : ks.Pairwise (· < ·)) (hlt : ∀ k ∈ ks, k < N) : ks.length ≤ N := by
  have hnodup : ks.Nodup := h.imp Nat.ne_of_lt
  have hsub : ks ⊆ List.range N := fun k hk => List.mem_range.mpr (hlt k hk)
  have hle := (List.subperm_of_subset hnodup hsub).length_le
  rwa [List.length_range] at hle

theorem ebitmapRead_entries (entries : Entries (ws ++ [(s, m)])) (aligned : ∀ w ∈ ws ++ [(s, m)], w.1 % bitsPerU64 = 0)
    (hs : s + bitsPerU64 ≤ 2 ^ 31) (rest : List Byte) :
    ∃ e', ebitmapRead (fun _ => true) (leBytes 4 bitsPerU64 ++ leBytes 4 (s + bitsPerU64) ++
        leBytes 4 (ws ++ [(s, m)]).length ++ ((ws ++ [(s, m)]).flatMap entryBytes ++ rest)) = .ok (e', rest) ∧
      Canonical e' ∧ ∀ b, Bit e'.node b ↔ Listed (ws ++ [(s, m)]) b := by
  obtain ⟨-, hbelow, -⟩ := entries.of_snoc
  have hmod : s % bitsPerU64 = 0 := aligned (s, m) (by simp)
  have hround := roundHighbit_eq hmod (by rw [bitsPerU64] at hs; omega)
  have hmax : ∀ w ∈ ws ++ [(s, m)], w.1 ≤ s := by
    refine List.forall_mem_append.mpr ⟨fun w hw => Nat.le_of_lt (hbelow w hw), ?_⟩
    intro w hw
    rw [List.mem_singleton.mp hw]
  have hcount : (ws ++ [(s, m)]).length ≤ 2 ^ 31 := by
    rw [← List.length_map Prod.fst]
    apply length_le_of_pairwise (List.pairwise_map.mpr entries.ascending)
    intro k hk
    obtain ⟨w, hw, rfl⟩ := List.mem_map.mp hk
    have := hmax w hw
    rw [bitsPerU64] at hs
    omega
  have hend : s ≤ block s + ebitmapSize - bitsPerU64 ∧ block s + ebitmapSize ≤ 2 ^ 31 := by
    rw [block, ebitmapSize, bitsPerU64] at *
    omega
  have hentries : Entries ([] ++ (ws ++ [(s, m)])) := entries
  obtain ⟨ns, hread, htidy, hbits⟩ := readLoop_entries readSoFar_nil hentries aligned
    (fun w hw => Nat.le_trans (hmax w hw) hend.1) hend.2 rest
  refine ⟨⟨ns, block s + ebitmapSize⟩, ?_, ⟨htidy, top_eq_of_entries htidy entries hmod hbits⟩, hbits⟩
  rw [ebitmapRead_header (by omega) (by omega), hround, if_neg (by rw [ebitmapSize]; omega), hread]
  rfl

/-- What is written is read back as the same set, in the form that setting its
bits one by one would give. -/
theorem exists_read_write (h : Laid e) (hhigh : e.highbit < 2 ^ 31) (rest : List Byte) :
    ∃ e', ebitmapRead (fun _ => true) (ebitmapWrite e ++ rest) = .ok (e', rest) ∧ Canonical e' ∧
      ∀ b, Bit e'.node b ↔ Bit e.node b := by
  have hmem : ∀ b, b ∈ members e.node ↔ Bit e.node b := fun b => mem_members h.ranged
  have hlt : ∀ b ∈ members e.node, b < e.highbit := fun b hb => h.bit_lt ((hmem b).mp hb)
  have hpacked := packed (members_pairwise h.ranged) fun b hb => Nat.lt_trans (hlt b hb) hhigh
  rw [ebitmapWrite, h.forEach]
  generalize (List.map asInt (members e.node)).foldl countBit ⟨0, 0, -1⟩ = cst at hpacked ⊢
  generalize (List.map asInt (members e.node)).foldl mapBit ⟨0#64, intMin, []⟩ = mst at hpacked ⊢
  generalize members e.node = bs at hmem hlt hpacked
  cases hpacked with
  | start =>
      refine ⟨ebitmapInit, ?_, canonical_init, fun b => ?_⟩
      · rw [if_pos rfl, List.append_nil, List.append_nil]
        exact ebitmapRead_header (by decide : 0 < 2 ^ 32) (by decide : 0 < 2 ^ 32) rest
      · rw [← hmem]
        exact (mem_members tidy_nil.toRanged).symm
  | collecting ws s m entries aligned bits =>
      obtain ⟨-, hbelow, hm⟩ := entries.of_snoc
      have hs : s % bitsPerU64 = 0 := aligned (s, m) (by simp)
      have hsmall : s + bitsPerU64 ≤ 2 ^ 31 := by
        obtain ⟨i, hi, hbit⟩ := exists_getLsbD hm
        obtain ⟨hlow, hunit⟩ := add_mod_unit hs hi
        have hlast : s + i ∈ bs := by
          rw [← bits, listed_snoc hbelow, if_pos hunit, hlow]
          exact hbit
        have := hlt _ hlast
        rw [bitsPerU64] at *
        omega
      obtain ⟨e', hread, hcanonical, hbits⟩ := ebitmapRead_entries entries aligned hsmall rest
      refine ⟨e', ?_, hcanonical, fun b => by rw [hbits, bits, hmem]⟩
      have hput : (⟨m, s, ws.flatMap entryBytes⟩ : MapState).put = entryBytes (s, m) := by
        rw [MapState.put, entryBytes, ofInt_eq (by omega)]
      have hlast : ofInt ((s : Int) + bitsPerU64) = s + bitsPerU64 := ofInt_eq (by omega)
      simp only [List.length_append, List.length_singleton, List.flatMap_append, List.flatMap_singleton,
        List.append_assoc] at hread
      rw [if_neg hm, hput]
      dsimp only
      simp only [hlast, List.append_assoc]
      exact hread

/-- The nodes read so far, newest first, all below the highest position. -/
structure Reading (highbit : Nat) (acc : List EbitmapNode) : Prop where
  descending : acc.Pairwise fun n m => m.startbit < n.startbit
  aligned : ∀ n ∈ acc, n.startbit % ebitmapSize = 0
  bounded : ∀ n ∈ acc, n.startbit + ebitmapSize ≤ highbit

theorem Reading.laid {highbit : Nat} {acc : List EbitmapNode} (h : Reading highbit acc) (hhigh : highbit < 2 ^ 32) :
    Laid ⟨acc.reverse, highbit⟩ where
  ranged := {
    ascending := List.pairwise_reverse.mpr h.descending
    aligned := fun n hn => h.aligned n (List.mem_reverse.mp hn)
    fits := fun n hn => Nat.lt_of_le_of_lt (h.bounded n (List.mem_reverse.mp hn)) hhigh }
  bounded n hn := h.bounded n (List.mem_reverse.mp hn)

theorem Reading.storeMap {highbit startbit : Nat} {map : BitVec 64} {acc : List EbitmapNode} (h : Reading highbit acc) :
    Reading highbit (storeMap startbit map acc) := by
  cases acc with
  | nil => exact h
  | cons n ns =>
      rw [BitmapFormat.storeMap]
      split
      · exact h
      · refine ⟨List.pairwise_cons.mpr ?_, ?_, ?_⟩
        · exact List.pairwise_cons.mp h.descending
        · exact List.forall_mem_cons.mpr (List.forall_mem_cons.mp h.aligned)
        · exact List.forall_mem_cons.mpr (List.forall_mem_cons.mp h.bounded)

theorem Reading.placeNode {allocated : Nat → Bool} {highbit startbit : Nat} {acc acc' : List EbitmapNode}
    (h : Reading highbit acc) (hhigh : highbit % ebitmapSize = 0) (hpos : 0 < highbit)
    (hle : startbit ≤ highbit - bitsPerU64) (hplace : placeNode allocated startbit acc = .ok acc') : Reading highbit acc' := by
  have hnew : (∀ n ∈ acc, n.startbit < block startbit) →
      (if allocated acc.length then .ok (⟨block startbit, 0#128⟩ :: acc) else .error (-enomem) : Except Int _) = .ok acc' →
      Reading highbit acc' := by
    intro hlt hok
    split at hok
    · obtain rfl := Except.ok.inj hok
      refine ⟨List.pairwise_cons.mpr ⟨hlt, h.descending⟩, List.forall_mem_cons.mpr ⟨block_mod _, h.aligned⟩,
        List.forall_mem_cons.mpr ⟨?_, h.bounded⟩⟩
      dsimp only
      rw [block, ebitmapSize, bitsPerU64] at *
      omega
    · cases hok
  cases acc with
  | nil => exact hnew (fun _ hn => absurd hn List.not_mem_nil) hplace
  | cons n ns =>
      rw [BitmapFormat.placeNode] at hplace
      split at hplace
      next hge =>
        have hlt := (lt_block_iff (b := startbit) (h.aligned n List.mem_cons_self)).mpr hge
        apply hnew _ hplace
        refine List.forall_mem_cons.mpr ⟨hlt, fun m hm => Nat.lt_trans ?_ hlt⟩
        exact (List.pairwise_cons.mp h.descending).1 m hm
      next =>
        split at hplace
        · cases hplace
        · obtain rfl := Except.ok.inj hplace
          exact h

theorem readLoop_laid {allocated : Nat → Bool} {highbit count : Nat} {acc ns : List EbitmapNode} {fp rest : List Byte}
    (h : Reading highbit acc) (hhigh : highbit % ebitmapSize = 0) (hpos : 0 < highbit) (hlt : highbit < 2 ^ 32)
    (hread : readLoop allocated highbit count acc fp = .ok (ns, rest)) : Laid ⟨ns, highbit⟩ := by
  induction count generalizing acc fp with
  | zero =>
      obtain ⟨rfl, -⟩ := Prod.mk.inj (Except.ok.inj hread)
      exact h.laid hlt
  | succ count ih =>
      rw [readLoop] at hread
      obtain ⟨⟨buf, fp'⟩, -, hread⟩ := bind_eq_ok hread
      dsimp only at hread
      split at hread
      · cases hread
      · split at hread
        · cases hread
        next hle =>
          obtain ⟨acc', hplace, hread⟩ := bind_eq_ok hread
          obtain ⟨⟨map, fp''⟩, -, hread⟩ := bind_eq_ok hread
          exact ih (h.placeNode hhigh hpos (Nat.le_of_not_gt hle) hplace).storeMap hread

theorem ebitmapRead_laid {allocated : Nat → Bool} {fp rest : List Byte}
    (h : ebitmapRead allocated fp = .ok (e, rest)) : Laid e := by
  rw [ebitmapRead] at h
  obtain ⟨⟨buf, fp'⟩, -, h⟩ := bind_eq_ok h
  dsimp only at h
  split at h
  · cases h
  · split at h
    · obtain ⟨rfl, -⟩ := Prod.mk.inj (Except.ok.inj h)
      exact canonical_init.laid
    next hne =>
      obtain ⟨⟨ns, fp''⟩, hread, h⟩ := bind_eq_ok h
      obtain ⟨rfl, -⟩ := Prod.mk.inj (Except.ok.inj h)
      generalize hbuf : leValue ((buf.drop 4).take 4) = n at hread hne ⊢
      refine readLoop_laid ⟨.nil, fun _ hn => absurd hn List.not_mem_nil, fun _ hn => absurd hn List.not_mem_nil⟩
        ?_ (Nat.pos_of_ne_zero hne) ?_ hread
      · rw [roundHighbit, ebitmapSize]
        omega
      · have : u32 (n + (ebitmapSize - 1)) < 2 ^ 32 := Nat.mod_lt _ (by decide)
        rw [roundHighbit]
        omega

/-- A bitmap that the kernel can hold: read from a policy, or built bit by bit. -/
inductive Held : Ebitmap → Prop
  | read {allocated : Nat → Bool} {fp rest : List Byte} {e : Ebitmap} (h : ebitmapRead allocated fp = .ok (e, rest)) : Held e
  | built (ops : List SetBit) (h : ∀ op ∈ ops, InRange op) : Held (run ops)

theorem Held.laid (h : Held e) : Laid e := by
  cases h with
  | read h => exact ebitmapRead_laid h
  | built ops h => exact (Represents.run h).canonical.laid

/-- Writing a bitmap and reading it back, with anything behind it, gives the
same bits and leaves what is behind. The nodes that come back are those that
setting the bits one by one gives, so a bitmap that was built that way comes
back as it was. -/
theorem ebitmapRead_ebitmapWrite (e : Ebitmap) (h : Held e) (hhigh : e.highbit < 2 ^ 31) (rest : List Byte) :
    ∃ e', ebitmapRead (fun _ => true) (ebitmapWrite e ++ rest) = .ok (e', rest) ∧
      (∀ b, ebitmapGetBit e' b = ebitmapGetBit e b) ∧
      ∀ ops, (∀ op ∈ ops, InRange op) → (∀ b, b ∈ specRun ops ↔ ebitmapGetBit e b = true) → e' = run ops := by
  obtain ⟨e', hread, hcanonical, hbits⟩ := exists_read_write h.laid hhigh rest
  have hget : ∀ b, ebitmapGetBit e' b = ebitmapGetBit e b := by
    intro b
    rw [Bool.eq_iff_iff, hcanonical.laid.getBit, h.laid.getBit, hbits]
  refine ⟨e', hread, hget, fun ops hops hset => ?_⟩
  have hrun := Represents.run hops
  apply hcanonical.ext hrun.canonical
  intro b
  rw [hrun.bit_iff, hset, hbits, h.laid.getBit]

theorem ebitmapRead_ebitmapWrite_categories :
    ∃ e', ebitmapRead (fun _ => true) (ebitmapWrite (run [⟨true, 5, true⟩, ⟨true, 200, true⟩]) ++ [7]) = .ok (e', [7]) ∧
      e' = run [⟨true, 5, true⟩, ⟨true, 200, true⟩] := by
  have hrange : ∀ op ∈ [SetBit.mk true 5 true, ⟨true, 200, true⟩], InRange op := by
    simp [InRange, block, ebitmapSize]
  obtain ⟨e', hread, -, hbuilt⟩ := ebitmapRead_ebitmapWrite (run [⟨true, 5, true⟩, ⟨true, 200, true⟩])
    (.built _ hrange) (by decide) [7]
  refine ⟨e', hread, hbuilt _ hrange fun b => ?_⟩
  have hrun := Represents.run hrange
  rw [hrun.canonical.laid.getBit, hrun.bit_iff]

end roundTrip

end PigaLinux.BitmapFormat
