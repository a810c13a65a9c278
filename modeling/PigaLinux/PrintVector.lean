import PigaLinux.Bits
import PigaLinux.CStrings
import PigaLinux.ClassMap
import PigaLinux.Kernel
import PigaLinux.Words
import Mathlib.Data.List.Nodup

namespace PigaLinux.PrintVector

open Kernel Trace Bits Indices ClassMap CStrings Words

abbrev Buffer := Memory

def avcBufferSize : Nat := 64

def permDumpedSize : Nat := avcBufferSize * 10

/-- A class value that secclass_map has an entry for. -/
structure ClassValue where
  tclass : U16
  pos : 0 < tclass.toNat
  le : tclass.toNat ≤ secclassMap.length

def ClassValue.mapping (c : ClassValue) : String × List String :=
  secclassMap.get ⟨c.tclass.toNat - 1, by have := c.pos; have := c.le; omega⟩

def printX (n : U32) : List Char := Nat.toDigits 16 n.toNat

def remainderText (r : U32) : List Char := "0x".toList ++ printX r

/-- The text is cut at size bytes, and the last of them becomes the NUL. -/
def scnprintf (m : Buffer) (off size : Nat) (text : List Char) : Traced (BitVec 64) (Nat × Buffer) :=
  if size = 0 then pure (0, m)
  else do
    let m ← storeAll (text.take size) off m
    let len := min text.length (size - 1)
    let m ← store (BitVec.ofNat 64 (off + len)) '\x00' m
    return (len, m)

structure State where
  requested : U32
  prevLen : Nat
  buffer : Buffer
  log : List String

def append (s : State) (text : List Char) : Traced (BitVec 64) State := do
  let (len, m) ← scnprintf s.buffer s.prevLen avcBufferSize text
  let log := if len > avcBufferSize then s.log ++ ["PIGA: scnprintf problem"] else s.log
  let m ← store (BitVec.ofNat 64 (s.prevLen + len)) '\x00' m
  return { s with prevLen := s.prevLen + len, buffer := m, log := log }

def dump (perm : U32) (name : String) (s : State) : Traced (BitVec 64) State := do
  -- with one byte more than there are, so that the lack of a NUL would show
  let prevLen ← strlen s.buffer (permDumpedSize + 1) 0
  let s ← append { s with prevLen := prevLen } (' ' :: name.toList)
  return { s with requested := s.requested &&& ~~~perm }

def scan (perms : List String) : Nat → Nat → U32 → State → Traced (BitVec 64) State
  | 0, _, _, s => pure s
  | n + 1, i, perm, s =>
      if perm &&& s.requested ≠ 0 then
        -- behind the last name there are NULL pointers
        match perms[i]? with
        | none => scan perms n (i + 1) (perm <<< 1) s
        | some name => do
            let s ← dump perm name s
            scan perms n (i + 1) (perm <<< 1) s
      else scan perms n (i + 1) (perm <<< 1) s

def dumpPerms (perms : List String) (requested : U32) (m : Buffer) : Traced (BitVec 64) State := do
  let m ← store 0 '\x00' m
  let s ← scan perms 32 0 1 ⟨requested, 0, m, []⟩
  if s.requested ≠ 0 then append s (' ' :: remainderText s.requested) else return s

def vectorLine (sidToContext : U32 → Option String) (c : ClassValue) (ssid tsid : U32) (rc : Int) (perms : List Char) :
    String :=
  -- a context that cannot be had stays NULL
  "PIGA: " ++ (sidToContext ssid).getD "(null)" ++ " -(" ++ c.mapping.1 ++ ":" ++ String.ofList perms ++ ")-> " ++
    (sidToContext tsid).getD "(null)" ++ ", rc: " ++ toString rc

def printVector (sidToContext : U32 → Option String) (vmalloc : Option Buffer) (c : ClassValue) (ssid tsid requested : U32)
    (rc : Int) : Traced (BitVec 64) (List String) :=
  match vmalloc with
  | none => pure ["PIGA: not enough memory for the permission buffer"]
  | some m => do
      let s ← dumpPerms c.mapping.2 requested m
      let len ← strlen s.buffer (permDumpedSize + 1) 0
      let text ← load s.buffer len 0
      return s.log ++ [vectorLine sidToContext c ssid tsid rc text]

def avcScan (perms : List String) : Nat → Nat → U32 → U32 → List Char → U32 × List Char
  | 0, _, _, av, ab => (av, ab)
  | n + 1, i, perm, av, ab =>
      if perm &&& av ≠ 0 then
        match perms[i]? with
        | none => avcScan perms n (i + 1) (perm <<< 1) av ab
        | some name => avcScan perms n (i + 1) (perm <<< 1) (av &&& ~~~perm) (ab ++ ' ' :: name.toList)
      else avcScan perms n (i + 1) (perm <<< 1) av ab

def avcDumpAv (c : ClassValue) (av : U32) : List Char :=
  if av = 0 then " null".toList
  else
    let (av, ab) := avcScan c.mapping.2 32 0 1 av " \x7b".toList
    let ab := if av ≠ 0 then ab ++ ' ' :: remainderText av else ab
    ab ++ " \x7d".toList

section vector

variable {perms : List String} {r : U32} {i n : Nat}

def nameAt (perms : List String) (r : U32) (i : Nat) : Option String := if r.getLsbD i then perms[i]? else none

def named (perms : List String) (r : U32) : List String := (List.range 32).filterMap (nameAt perms r)

def remainder (perms : List String) (r : U32) : U32 := r &&& BitVec.allOnes 32 <<< perms.length

def words (perms : List String) (r : U32) : List (List Char) :=
  (named perms r).map String.toList ++ if remainder perms r = 0 then [] else [remainderText (remainder perms r)]

def vectorText (perms : List String) (r : U32) : List Char := spaced (words perms r)

def clear (perms : List String) (r : U32) (i : Nat) : U32 :=
  if (nameAt perms r i).isSome then r &&& ~~~(BitVec.twoPow 32 i) else r

theorem twoPow_shiftLeft (i : Nat) : BitVec.twoPow 32 i <<< 1 = BitVec.twoPow 32 (i + 1) := by
  rw [BitVec.twoPow, BitVec.twoPow, ← BitVec.shiftLeft_add]

theorem isSome_nameAt : (nameAt perms r i).isSome = true ↔ r.getLsbD i = true ∧ i < perms.length := by
  rw [nameAt]
  split
  · next hr => simp [hr]
  · next hr => exact iff_of_false Bool.false_ne_true fun h => hr h.1

theorem getLsbD_clear {k : Nat} (hk : k < 32) :
    (clear perms r i).getLsbD k = true ↔ r.getLsbD k = true ∧ ¬(k = i ∧ k < perms.length) := by
  rw [clear]
  split
  · next h =>
    rw [isSome_nameAt] at h
    rw [BitVec.getLsbD_and, BitVec.getLsbD_not, BitVec.getLsbD_twoPow]
    by_cases hki : k = i
    · subst hki
      simp [hk, h.2]
    · simp [hk, hki, Ne.symm hki]
  · next h =>
    rw [isSome_nameAt] at h
    refine ⟨fun hr => ⟨hr, ?_⟩, And.left⟩
    rintro ⟨rfl, hlt⟩
    exact h ⟨hr, hlt⟩

theorem nameAt_clear {k : Nat} (hk : k < 32) (hne : k ≠ i) : nameAt perms (clear perms r i) k = nameAt perms r k := by
  have hbit : (clear perms r i).getLsbD k = r.getLsbD k := by
    rw [Bool.eq_iff_iff, getLsbD_clear hk]
    exact and_iff_left fun h => hne h.1
  rw [nameAt, hbit, nameAt]

theorem filterMap_nameAt_succ (h : i + (n + 1) ≤ 32) :
    (List.range' i (n + 1)).filterMap (nameAt perms r) =
      (nameAt perms r i).toList ++ (List.range' (i + 1) n).filterMap (nameAt perms (clear perms r i)) := by
  have hrest : (List.range' (i + 1) n).filterMap (nameAt perms (clear perms r i)) =
      (List.range' (i + 1) n).filterMap (nameAt perms r) := by
    apply List.filterMap_congr
    intro k hk
    rw [List.mem_range'_1] at hk
    exact nameAt_clear (by omega) (by omega)
  rw [hrest, List.range'_succ, List.filterMap_cons]
  cases nameAt perms r i <;> rfl

theorem getLsbD_foldl_clear {k : Nat} (hk : k < 32) :
    ((List.range' i n).foldl (clear perms) r).getLsbD k = true ↔
      r.getLsbD k = true ∧ ¬(i ≤ k ∧ k < i + n ∧ k < perms.length) := by
  induction n generalizing i r with
  | zero =>
      refine (and_iff_left ?_).symm
      omega
  | succ n ih =>
      rw [List.range'_succ, List.foldl_cons, ih, getLsbD_clear hk, and_assoc]
      refine and_congr_right fun _ => ?_
      omega

theorem getLsbD_remainder {k : Nat} (hk : k < 32) :
    (remainder perms r).getLsbD k = true ↔ r.getLsbD k = true ∧ perms[k]? = none := by
  rw [remainder, BitVec.getLsbD_and, Bool.and_eq_true, BitVec.getLsbD_shiftLeft, BitVec.getLsbD_allOnes,
    List.getElem?_eq_none_iff]
  refine and_congr_right fun _ => ?_
  simp [hk]
  omega

theorem foldl_clear_eq : (List.range' 0 32).foldl (clear perms) r = remainder perms r := by
  apply BitVec.eq_of_getLsbD_eq
  intro k hk
  rw [Bool.eq_iff_iff, getLsbD_foldl_clear hk, getLsbD_remainder hk, List.getElem?_eq_none_iff]
  refine and_congr_right fun _ => ?_
  omega

end vector

section memory

variable {m : Buffer} {s : State} {ys text : List Char}

def inBuffer (k : BitVec 64) : Prop := k.toNat < permDumpedSize

theorem permDumpedSize_eq : permDumpedSize = 640 := rfl

theorem inBuffer_ofNat {k : Nat} (h : k < permDumpedSize) : inBuffer (BitVec.ofNat 64 k) := by
  rw [permDumpedSize_eq] at h
  rwa [inBuffer, toNat_index (by omega)]

theorem holds_append (hm : Holds m 0 ys) (htext : '\x00' ∉ text) (hroom : ys.length + text.length < permDumpedSize) :
    Holds (Function.update (storeAll text ys.length m).value (BitVec.ofNat 64 (ys.length + text.length)) '\x00') 0
      (ys ++ text) := by
  rw [permDumpedSize_eq] at hroom
  rw [Holds, List.length_append, Nat.zero_add, Function.update_self]
  refine ⟨fun j c hj => ?_, rfl⟩
  have hlt : j < ys.length + text.length := by
    rw [← List.length_append]
    exact (List.getElem?_eq_some_iff.mp hj).1
  rw [Nat.zero_add, Function.update_of_ne (ofNat_ne (by omega) (by omega) (by omega)), value_storeAll (by omega),
    toNat_index (by omega)]
  by_cases hys : ys.length ≤ j
  · rw [List.getElem?_append_right hys] at hj
    rw [if_pos hys, hj]
    refine ⟨?_, rfl⟩
    rintro rfl
    exact htext (List.mem_of_getElem? hj)
  · rw [List.getElem?_append_left (by omega)] at hj
    rw [if_neg hys]
    have hold := hm.1 j c hj
    rwa [Nat.zero_add] at hold

structure Dumped (s : State) (ys : List Char) : Prop where
  holds : Holds s.buffer 0 ys
  prevLen : s.prevLen = ys.length
  log : s.log = []

theorem append_eq (hlength : text.length < avcBufferSize) :
    append s text = do
      let m ← storeAll text s.prevLen s.buffer
      let m ← store (BitVec.ofNat 64 (s.prevLen + text.length)) '\x00' m
      let m ← store (BitVec.ofNat 64 (s.prevLen + text.length)) '\x00' m
      return { s with prevLen := s.prevLen + text.length, buffer := m } := by
  rw [avcBufferSize] at hlength
  have htake : text.take avcBufferSize = text := List.take_of_length_le (by rw [avcBufferSize]; omega)
  have hmin : min text.length (avcBufferSize - 1) = text.length := by
    rw [avcBufferSize]
    omega
  have hlog : ¬text.length > avcBufferSize := by
    rw [avcBufferSize]
    omega
  rw [append, scnprintf, if_neg (by decide), htake, hmin, Traced.bind_assoc]
  refine congrArg (storeAll text s.prevLen s.buffer >>= ·) (funext fun m => ?_)
  dsimp only
  rw [Traced.bind_assoc]
  change (do
    let m ← store (BitVec.ofNat 64 (s.prevLen + text.length)) '\x00' m
    let m ← store (BitVec.ofNat 64 (s.prevLen + text.length)) '\x00' m
    return { s with prevLen := s.prevLen + text.length, buffer := m, log := if text.length > avcBufferSize then _ else _ }) = _
  rw [if_neg hlog]

theorem append_dumped (hs : Dumped s ys) (htext : '\x00' ∉ text) (hlength : text.length < avcBufferSize)
    (hroom : ys.length + text.length < permDumpedSize) :
    Dumped (append s text).value (ys ++ text) ∧ (append s text).value.requested = s.requested ∧
      Within inBuffer (append s text) := by
  rw [append_eq hlength]
  refine ⟨⟨?_, ?_, hs.log⟩, rfl, ?_⟩
  · change Holds (Function.update (Function.update _ _ _) _ _) 0 _
    rw [Function.update_idem, hs.prevLen]
    exact holds_append hs.holds htext hroom
  · exact (congrArg (· + text.length) hs.prevLen).trans List.length_append.symm
  · have hend := inBuffer_ofNat hroom
    rw [hs.prevLen]
    refine within_bind (within_storeAll fun j hj => inBuffer_ofNat (by omega)) ?_
    exact within_bind (within_visit hend _) (within_bind (within_visit hend _) (within_pure _ _))

end memory

section loops

structure Printable (perms : List String) : Prop where
  nodup : perms.Nodup
  short : ∀ p ∈ perms, p.toList.length + 1 < avcBufferSize
  blank : ∀ p ∈ perms, ' ' ∉ p.toList
  nul : ∀ p ∈ perms, '\x00' ∉ p.toList
  head : ∀ p ∈ perms, p.toList.head? ≠ some '0'
  room : (spaced (perms.map String.toList)).length + 11 < permDumpedSize

variable {perms : List String} {s : State} {ys : List Char} {r : U32} {i n : Nat}

theorem scan_succ (hi : i < 32) :
    scan perms (n + 1) i (BitVec.twoPow 32 i) s =
      match nameAt perms s.requested i with
      | none => scan perms n (i + 1) (BitVec.twoPow 32 (i + 1)) s
      | some name => dump (BitVec.twoPow 32 i) name s >>= scan perms n (i + 1) (BitVec.twoPow 32 (i + 1)) := by
  rw [scan, twoPow_shiftLeft, nameAt]
  by_cases hr : s.requested.getLsbD i
  · rw [if_pos ((twoPow_and_ne_zero hi).mpr hr), if_pos hr]
  · rw [if_neg (mt (twoPow_and_ne_zero hi).mp hr), if_neg hr]

theorem dump_dumped {name : String} (h : Printable perms) (hname : name ∈ perms) (hs : Dumped s ys) (perm : U32)
    (hroom : ys.length + (' ' :: name.toList).length < permDumpedSize) :
    Dumped (dump perm name s).value (ys ++ ' ' :: name.toList) ∧
      (dump perm name s).value.requested = s.requested &&& ~~~perm ∧ Within inBuffer (dump perm name s) := by
  have hfuel : ys.length < permDumpedSize + 1 := by omega
  obtain ⟨hstrlen, hwithin⟩ := strlen_holds (P := inBuffer) hs.holds hfuel fun j hj => inBuffer_ofNat (by omega)
  have htext : '\x00' ∉ ' ' :: name.toList := by
    rw [List.mem_cons, not_or]
    exact ⟨by decide, h.nul name hname⟩
  have hdumped : Dumped { s with prevLen := (strlen s.buffer (permDumpedSize + 1) 0).value } ys :=
    ⟨hs.holds, hstrlen.trans (Nat.zero_add _), hs.log⟩
  obtain ⟨happend, hrequested, hwithin'⟩ := append_dumped hdumped htext (h.short name hname) hroom
  refine ⟨⟨happend.holds, happend.prevLen, happend.log⟩, congrArg (· &&& ~~~perm) hrequested, ?_⟩
  exact within_bind hwithin (within_bind hwithin' (within_pure _ _))

theorem clear_of_none (h : nameAt perms r i = none) : clear perms r i = r := by
  rw [clear, h]
  rfl

theorem clear_of_some {name : String} (h : nameAt perms r i = some name) :
    clear perms r i = r &&& ~~~(BitVec.twoPow 32 i) := by
  rw [clear, h]
  rfl

theorem getElem?_of_nameAt {name : String} (h : nameAt perms r i = some name) : perms[i]? = some name := by
  rw [nameAt] at h
  split at h
  · exact h
  · cases h

theorem scan_dumped (h : Printable perms) (hi : i + n ≤ 32) (hs : Dumped s ys)
    (hroom : ys.length + (spaced ((perms.drop i).map String.toList)).length < permDumpedSize) :
    Dumped (scan perms n i (BitVec.twoPow 32 i) s).value
        (ys ++ spaced (((List.range' i n).filterMap (nameAt perms s.requested)).map String.toList)) ∧
      (scan perms n i (BitVec.twoPow 32 i) s).value.requested = (List.range' i n).foldl (clear perms) s.requested ∧
        Within inBuffer (scan perms n i (BitVec.twoPow 32 i) s) := by
  induction n generalizing i s ys with
  | zero =>
      refine ⟨?_, rfl, within_pure _ _⟩
      rw [show spaced _ = [] from rfl, List.append_nil]
      exact hs
  | succ n ih =>
      rw [scan_succ (by omega), filterMap_nameAt_succ hi, List.range'_succ, List.foldl_cons]
      cases hname : nameAt perms s.requested i with
      | none =>
          rw [clear_of_none hname]
          refine ih (by omega) hs (Nat.lt_of_le_of_lt (Nat.add_le_add_left (length_spaced_le ?_) _) hroom)
          rw [← List.drop_drop]
          exact ((List.drop_sublist 1 _).map _)
      | some name =>
          have hget := getElem?_of_nameAt hname
          obtain ⟨hlt, rfl⟩ := List.getElem?_eq_some_iff.mp hget
          rw [List.drop_eq_getElem_cons hlt, List.map_cons, spaced_cons, List.length_append] at hroom
          obtain ⟨hdumped, hrequested, hwithin⟩ := 
            dump_dumped h (List.getElem_mem hlt) hs (BitVec.twoPow 32 i) (by omega)
          rw [clear_of_some hname, ← hrequested]
          obtain ⟨hscan, hleft, hwithin'⟩ := ih (i := i + 1) (by omega) hdumped (by rw [List.length_append]; omega)
          refine ⟨?_, hleft, within_bind hwithin hwithin'⟩
          rw [List.append_assoc] at hscan
          exact hscan

theorem avcScan_succ (hi : i < 32) (av : U32) (ab : List Char) :
    avcScan perms (n + 1) i (BitVec.twoPow 32 i) av ab =
      match nameAt perms av i with
      | none => avcScan perms n (i + 1) (BitVec.twoPow 32 (i + 1)) av ab
      | some name =>
          avcScan perms n (i + 1) (BitVec.twoPow 32 (i + 1)) (av &&& ~~~(BitVec.twoPow 32 i)) (ab ++ ' ' :: name.toList) := by
  rw [avcScan, twoPow_shiftLeft, nameAt]
  by_cases hr : av.getLsbD i
  · rw [if_pos ((twoPow_and_ne_zero hi).mpr hr), if_pos hr]
  · rw [if_neg (mt (twoPow_and_ne_zero hi).mp hr), if_neg hr]

theorem avcScan_eq (hi : i + n ≤ 32) (av : U32) (ab : List Char) :
    avcScan perms n i (BitVec.twoPow 32 i) av ab =
      ((List.range' i n).foldl (clear perms) av,
        ab ++ spaced (((List.range' i n).filterMap (nameAt perms av)).map String.toList)) := by
  induction n generalizing i av ab with
  | zero => exact congrArg (Prod.mk av) (List.append_nil ab).symm
  | succ n ih =>
      rw [avcScan_succ (by omega), filterMap_nameAt_succ hi, List.range'_succ, List.foldl_cons]
      cases hname : nameAt perms av i with
      | none =>
          rw [clear_of_none hname]
          exact ih (by omega) av ab
      | some name =>
          rw [clear_of_some hname]
          dsimp only
          rw [ih (by omega), List.append_assoc]
          rfl

end loops

section text

variable {perms : List String} {r : U32} {i n : Nat}

theorem vectorText_eq (perms : List String) (r : U32) :
    vectorText perms r = spaced ((named perms r).map String.toList) ++
      if remainder perms r ≠ 0 then ' ' :: remainderText (remainder perms r) else [] := by
  rw [vectorText, words, spaced_append]
  by_cases h : remainder perms r = 0
  · rw [if_pos h, if_neg (not_not.mpr h)]
    rfl
  · rw [if_neg h, if_pos h, spaced_cons]
    exact congrArg _ (List.append_nil _)

theorem filterMap_nameAt_sublist : ((List.range' i n).filterMap (nameAt perms r)).Sublist (perms.drop i) := by
  induction n generalizing i with
  | zero => exact List.nil_sublist _
  | succ n ih =>
      rw [List.range'_succ, List.filterMap_cons]
      split
      · have hrest := ih (i := i + 1)
        rw [← List.drop_drop] at hrest
        exact hrest.trans (List.drop_sublist 1 _)
      · next hname =>
        obtain ⟨hlt, rfl⟩ := List.getElem?_eq_some_iff.mp (getElem?_of_nameAt hname)
        rw [List.drop_eq_getElem_cons hlt]
        exact ih.cons_cons _

theorem named_eq (perms : List String) (r : U32) : named perms r = (List.range' 0 32).filterMap (nameAt perms r) := by
  rw [named, List.range_eq_range']

theorem length_spaced_named (h : Printable perms) :
    (spaced ((named perms r).map String.toList)).length + 11 < permDumpedSize := by
  have hle : (spaced ((named perms r).map String.toList)).length ≤ (spaced (perms.map String.toList)).length := by
    rw [named_eq]
    exact length_spaced_le (filterMap_nameAt_sublist.map _)
  exact Nat.lt_of_le_of_lt (Nat.add_le_add_right hle 11) h.room

theorem length_remainderText (r : U32) : (remainderText r).length ≤ 10 := by
  have hdigits : (printX r).length ≤ 8 := Nat.toDigits_length 16 r.toNat 8 (by decide) r.isLt
  rw [remainderText, List.length_append]
  exact Nat.add_le_add_left hdigits 2

theorem mem_remainderText {r : U32} {c : Char} (h : c ∈ remainderText r) : c ≠ ' ' ∧ c ≠ '\x00' := by
  rcases List.mem_append.mp h with h | h
  · rcases List.mem_cons.mp h with rfl | h
    · decide
    · obtain rfl := List.mem_singleton.mp h
      decide
  · obtain ⟨d, hd, rfl⟩ := exists_of_mem_toDigits h
    exact digitChar_ne d hd

theorem remainder_dumped {s : State} (h : Printable perms) (hs : Dumped s (spaced ((named perms r).map String.toList)))
    (hleft : s.requested = remainder perms r) :
    let x := if s.requested ≠ 0 then append s (' ' :: remainderText s.requested) else pure s
    Dumped x.value (vectorText perms r) ∧ Within inBuffer x := by
  intro x
  have hx : x = if s.requested ≠ 0 then append s (' ' :: remainderText s.requested) else pure s := rfl
  rw [hleft] at hx
  rw [hx, vectorText_eq]
  by_cases hzero : remainder perms r ≠ 0
  · have hlength := length_remainderText (remainder perms r)
    have hroom := length_spaced_named (r := r) h
    have htext : '\x00' ∉ ' ' :: remainderText (remainder perms r) := by
      rw [List.mem_cons, not_or]
      exact ⟨by decide, fun hc => (mem_remainderText hc).2 rfl⟩
    rw [if_pos hzero, if_pos hzero]
    obtain ⟨hdumped, -, hwithin⟩ := append_dumped hs htext (by rw [List.length_cons, avcBufferSize]; omega)
      (by rw [List.length_cons]; omega)
    exact ⟨hdumped, hwithin⟩
  · rw [if_neg hzero, if_neg hzero, List.append_nil]
    exact ⟨hs, within_pure _ _⟩

theorem dumpPerms_dumped (h : Printable perms) (r : U32) (m : Buffer) :
    Dumped (dumpPerms perms r m).value (vectorText perms r) ∧ Within inBuffer (dumpPerms perms r m) := by
  have hstart : Dumped ⟨r, 0, Function.update m 0 '\x00', []⟩ [] := by
    refine ⟨⟨?_, ?_⟩, rfl, rfl⟩
    · intro j c hj
      cases hj
    · change Function.update m 0 '\x00' 0 = '\x00'
      rw [Function.update_self]
  have hroom : ([] : List Char).length + (spaced ((perms.drop 0).map String.toList)).length < permDumpedSize := by
    have := h.room
    rw [List.drop_zero, List.length_nil]
    omega
  obtain ⟨hscan, hleft, hwithin⟩ := scan_dumped (n := 32) h (by decide) hstart hroom
  rw [← named_eq] at hscan
  rw [foldl_clear_eq] at hleft
  obtain ⟨hdumped, hwithin'⟩ := remainder_dumped h hscan hleft
  have hfirst : inBuffer 0 := inBuffer_ofNat (show 0 < permDumpedSize by decide)
  exact ⟨hdumped, within_bind (within_visit hfirst _) (within_bind hwithin hwithin')⟩

theorem length_vectorText (h : Printable perms) (r : U32) : (vectorText perms r).length < permDumpedSize := by
  have hnamed := length_spaced_named (r := r) h
  have hremainder := length_remainderText (remainder perms r)
  rw [vectorText_eq, List.length_append]
  split
  · rw [List.length_cons]
    omega
  · rw [List.length_nil]
    omega

theorem avcDumpAv_eq (c : ClassValue) {av : U32} (hav : av ≠ 0) :
    avcDumpAv c av = " \x7b".toList ++ vectorText c.mapping.2 av ++ " \x7d".toList := by
  have hscan : avcScan c.mapping.2 32 0 1 av " \x7b".toList = _ := avcScan_eq (by decide) av " \x7b".toList
  rw [foldl_clear_eq, ← named_eq] at hscan
  rw [avcDumpAv, if_neg hav, hscan, vectorText_eq]
  by_cases hzero : remainder c.mapping.2 av ≠ 0
  · simp only [if_pos hzero, List.append_assoc]
  · simp only [if_neg hzero, List.append_nil]

end text

section reading

variable {perms : List String} {r : U32} {i : Nat}

/-- The bits that a word of the text stands for. -/
def readWord (perms : List String) (w : List Char) : U32 :=
  let i := (perms.map String.toList).idxOf w
  if i < perms.length then BitVec.twoPow 32 i else BitVec.ofNat 32 (hexValue (w.drop 2))

def readVector (perms : List String) (text : List Char) : U32 :=
  (unspaced text).foldl (fun r w => r ||| readWord perms w) 0

theorem mem_named {name : String} : name ∈ named perms r ↔ ∃ i < 32, r.getLsbD i = true ∧ perms[i]? = some name := by
  rw [named, List.mem_filterMap]
  refine exists_congr fun i => ?_
  rw [List.mem_range, nameAt]
  refine and_congr_right fun _ => ?_
  split
  · next hr => exact (and_iff_right hr).symm
  · next hr => exact iff_of_false (Option.some_ne_none name).symm fun h => hr h.1

theorem mem_words {w : List Char} :
    w ∈ words perms r ↔ (∃ name ∈ named perms r, name.toList = w) ∨
      (remainder perms r ≠ 0 ∧ w = remainderText (remainder perms r)) := by
  rw [words, List.mem_append, List.mem_map]
  refine or_congr_right ?_
  split
  · next h => exact iff_of_false List.not_mem_nil fun hw => hw.1 h
  · next h => rw [List.mem_singleton, and_iff_right h]

theorem blank_notMem_of_mem_words (h : Printable perms) {w : List Char} (hw : w ∈ words perms r) : ' ' ∉ w := by
  rcases mem_words.mp hw with ⟨name, hname, rfl⟩ | ⟨-, rfl⟩
  · obtain ⟨i, -, -, hi⟩ := mem_named.mp hname
    exact h.blank name (List.mem_of_getElem? hi)
  · exact fun hc => (mem_remainderText hc).1 rfl

theorem readWord_name (h : Printable perms) {name : String} (hi : perms[i]? = some name) :
    readWord perms name.toList = BitVec.twoPow 32 i := by
  obtain ⟨hlt, rfl⟩ := List.getElem?_eq_some_iff.mp hi
  have hnodup : (perms.map String.toList).Nodup := h.nodup.map fun _ _ => String.toList_inj.mp
  have hidx := hnodup.idxOf_getElem i (by rwa [List.length_map])
  rw [List.getElem_map] at hidx
  rw [readWord, hidx, if_pos hlt]

theorem readWord_remainderText (h : Printable perms) (r : U32) : readWord perms (remainderText r) = r := by
  have hidx : ¬(perms.map String.toList).idxOf (remainderText r) < perms.length := by
    rw [← List.length_map String.toList, List.idxOf_lt_length_iff, List.mem_map]
    rintro ⟨p, hp, heq⟩
    apply h.head p hp
    rw [heq]
    rfl
  rw [readWord, if_neg hidx]
  change BitVec.ofNat 32 (hexValue (Nat.toDigits 16 r.toNat)) = r
  rw [hexValue_toDigits, BitVec.ofNat_toNat, BitVec.setWidth_eq]

theorem readVector_vectorText (h : Printable perms) (r : U32) : readVector perms (vectorText perms r) = r := by
  apply BitVec.eq_of_getLsbD_eq
  intro k hk
  rw [Bool.eq_iff_iff, readVector, vectorText, unspaced_spaced fun w => blank_notMem_of_mem_words h, getLsbD_foldl_or,
    Bool.or_eq_true, List.any_eq_true]
  constructor
  · rintro (hzero | ⟨w, hw, hbit⟩)
    · simp at hzero
    · rcases mem_words.mp hw with ⟨name, hname, rfl⟩ | ⟨-, rfl⟩
      · obtain ⟨i, -, hr, hi⟩ := mem_named.mp hname
        rw [readWord_name h hi, BitVec.getLsbD_twoPow, Bool.and_eq_true, decide_eq_true_eq, decide_eq_true_eq] at hbit
        exact hbit.2 ▸ hr
      · rw [readWord_remainderText h, getLsbD_remainder hk] at hbit
        exact hbit.1
  · intro hr
    right
    cases hget : perms[k]? with
    | some name =>
        refine ⟨name.toList, mem_words.mpr (Or.inl ⟨name, mem_named.mpr ⟨k, hk, hr, hget⟩, rfl⟩), ?_⟩
        rw [readWord_name h hget, BitVec.getLsbD_twoPow, decide_eq_true hk, decide_eq_true rfl]
        rfl
    | none =>
        have hbit := (getLsbD_remainder hk).mpr ⟨hr, hget⟩
        refine ⟨_, mem_words.mpr (Or.inr ⟨?_, rfl⟩), ?_⟩
        · intro hzero
          rw [hzero] at hbit
          simp at hbit
        · rwa [readWord_remainderText h]

end reading

section table

theorem secclassMap_names :
    ∀ e ∈ secclassMap, e.2.Nodup ∧ (∀ p ∈ e.2, p.toList.length + 1 < avcBufferSize ∧
      ' ' ∉ p.toList ∧ '\x00' ∉ p.toList ∧ p.toList.head? ≠ some '0') ∧
        (spaced (e.2.map String.toList)).length + 11 < permDumpedSize := by
  decide +kernel

theorem printable_mapping (c : ClassValue) : Printable c.mapping.2 := by
  have hmem : c.mapping ∈ secclassMap := List.get_mem _ _
  obtain ⟨hnodup, hnames, hroom⟩ := secclassMap_names _ hmem
  exact ⟨hnodup, fun p hp => (hnames p hp).1, fun p hp => (hnames p hp).2.1, fun p hp => (hnames p hp).2.2.1,
    fun p hp => (hnames p hp).2.2.2, hroom⟩

end table

theorem printVector_spec (sidToContext : U32 → Option String) (m : Buffer) (c : ClassValue) (ssid tsid requested : U32)
    (rc : Int) :
    (printVector sidToContext (some m) c ssid tsid requested rc).value =
        [vectorLine sidToContext c ssid tsid rc (vectorText c.mapping.2 requested)] ∧
      Within inBuffer (printVector sidToContext (some m) c ssid tsid requested rc) := by
  have hprintable := printable_mapping c
  obtain ⟨hdumped, hwithin⟩ := dumpPerms_dumped hprintable requested m
  have hlength := length_vectorText hprintable requested
  have hin : ∀ j ≤ (vectorText c.mapping.2 requested).length, inBuffer (BitVec.ofNat 64 (0 + j)) :=
    fun j hj => inBuffer_ofNat (by omega)
  obtain ⟨hstrlen, hwithin'⟩ := strlen_holds hdumped.holds (Nat.lt_succ_of_lt hlength) hin
  obtain ⟨hload, hwithin''⟩ := load_holds hdumped.holds hin
  rw [Nat.zero_add] at hstrlen
  rw [← hstrlen] at hload hwithin''
  constructor
  · change (dumpPerms c.mapping.2 requested m).value.log ++
      [vectorLine sidToContext c ssid tsid rc (load (dumpPerms c.mapping.2 requested m).value.buffer
        (strlen (dumpPerms c.mapping.2 requested m).value.buffer (permDumpedSize + 1) 0).value 0).value] = _
    rw [hload, hdumped.log]
    rfl
  · exact within_bind hwithin (within_bind hwithin' (within_bind hwithin'' (within_pure _ _)))

/-- What is printed for an access is the whole vector, in the words of
avc_dump_av, and no byte behind the buffer is used for it. -/
theorem printVector_faithful (sidToContext : U32 → Option String) (m : Buffer) (c : ClassValue) (ssid tsid : U32)
    {requested : U32} (h : requested ≠ 0) (rc : Int) :
    let perms := c.mapping.2
    let text := vectorText perms requested
    (printVector sidToContext (some m) c ssid tsid requested rc).value = [vectorLine sidToContext c ssid tsid rc text] ∧
      Holds (dumpPerms perms requested m).value.buffer 0 text ∧
      (∀ k < 32, (remainder perms requested).getLsbD k = true ↔ requested.getLsbD k = true ∧ perms[k]? = none) ∧
      avcDumpAv c requested = " \x7b".toList ++ text ++ " \x7d".toList ∧
      readVector perms text = requested ∧
      Within (fun k => k.toNat < 640) (printVector sidToContext (some m) c ssid tsid requested rc) := by
  intro perms text
  have hprintable := printable_mapping c
  obtain ⟨hline, hwithin⟩ := printVector_spec sidToContext m c ssid tsid requested rc
  refine ⟨hline, (dumpPerms_dumped hprintable requested m).1.holds, fun k hk => getLsbD_remainder hk, ?_, ?_, hwithin⟩
  · exact avcDumpAv_eq c h
  · exact readVector_vectorText hprintable requested

def fileClass : ClassValue := ⟨6, by decide, by decide⟩

theorem printVector_fileClass :
    (0x400006 : U32) ≠ 0 ∧
      (printVector (fun _ => some "system_u:object_r:shadow_t") (some fun _ => 'x') fileClass 1 2 0x400006 0).value =
        ["PIGA: system_u:object_r:shadow_t -(file: read write 0x400000)-> system_u:object_r:shadow_t, rc: 0"] := by
  have hne : (0x400006 : U32) ≠ 0 := by decide
  have htext : vectorText fileClass.mapping.2 0x400006 = " read write 0x400000".toList := by decide
  have hprinted := printVector_faithful (fun _ => some "system_u:object_r:shadow_t") (fun _ => 'x') fileClass 1 2 hne 0
  refine ⟨hne, ?_⟩
  rw [hprinted.1, htext]
  decide

end PigaLinux.PrintVector
