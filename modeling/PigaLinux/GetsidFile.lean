import PigaLinux.CStrings
import PigaLinux.Getsid
import PigaLinux.ProcRead
import Mathlib.Data.Nat.Digits.Defs

namespace PigaLinux.GetsidFile

open Kernel Trace Indices CStrings Getsid ProcRead

/-- The kernel's stack, by the offset from the buffer tmp. -/
abbrev Stack := Memory

/-- The most that a write(2) hands over. -/
def maxRwCount : Nat := 0x7ffff000

theorem lt_of_le_maxRwCount {n : Nat} (h : n ≤ maxRwCount) : n < 2 ^ 31 := Nat.lt_of_le_of_lt h (by decide)

section memory

def getsidWrite (securityContextToSid : Resolver) (m : Stack) (sid : U32) (buffer : List Char) (count : Nat) :
    Traced (BitVec 64) (Int × U32) :=
  match copyFromUser buffer count with
  | none => do
      -- a copy that fails clears what it could not copy
      let _ ← storeAll (buffer ++ List.replicate (count - buffer.length) '\x00') 0 m
      return (-efault, sid)
  | some tmp => do
      let m ← storeAll tmp 0 m
      let m ← store (BitVec.ofNat 64 count) '\x00' m
      -- the newline, as the handler takes it; for count = 0 the index wraps
      let m ← store (BitVec.ofNat 64 count - 1) '\x00' m
      let len ← strlen m (count + 1) 0
      let text ← load m len 0
      return (count, (securityContextToSid (String.ofList text)).getD 0)

variable {m : Stack}

theorem exists_terminated (tmp : List Char) :
    ∃ rest, tmp.dropLast ++ ['\x00'] = tmp.dropLast.takeWhile (fun c => c ≠ '\x00') ++ '\x00' :: rest := by
  have hsplit := List.takeWhile_append_dropWhile (p := fun c => decide (c ≠ '\x00')) (l := tmp.dropLast)
  cases hdrop : tmp.dropLast.dropWhile fun c => decide (c ≠ '\x00') with
  | nil =>
      rw [hdrop, List.append_nil] at hsplit
      exact ⟨[], by rw [hsplit]⟩
  | cons d ds =>
      have hd : d = '\x00' := by
        have hhead := List.head?_dropWhile_not (fun c => decide (c ≠ '\x00')) tmp.dropLast
        rw [hdrop] at hhead
        simpa using hhead
      rw [hdrop, hd] at hsplit
      refine ⟨ds ++ ['\x00'], ?_⟩
      have hall := congrArg (· ++ ['\x00']) hsplit.symm
      simpa using hall

def terminated (tmp : List Char) (m : Stack) : Stack :=
  Function.update (Function.update (storeAll tmp 0 m).value (BitVec.ofNat 64 tmp.length) '\x00')
    (BitVec.ofNat 64 tmp.length - 1) '\x00'

theorem terminated_apply {tmp : List Char} (h : tmp.length ≤ maxRwCount) {j : Nat} {c : Char}
    (hj : (tmp.dropLast ++ ['\x00'])[j]? = some c) : terminated tmp m (BitVec.ofNat 64 j) = c := by
  have hmax : maxRwCount = 2147479552 := rfl
  have hlt := (List.getElem?_eq_some_iff.mp hj).1
  rw [List.length_append, List.length_dropLast, List.length_singleton] at hlt
  by_cases hnil : tmp = []
  · -- the NUL in front of the buffer is not the one that ends the text
    subst hnil
    obtain rfl : j = 0 := by simpa using hlt
    have hzero : BitVec.ofNat 64 0 ≠ BitVec.ofNat 64 ([] : List Char).length - 1 := by decide
    rw [terminated, Function.update_of_ne hzero]
    exact Option.some.inj hj
  · have hpos := List.length_pos_iff.mpr hnil
    have hlast : BitVec.ofNat 64 tmp.length - 1 = BitVec.ofNat 64 (tmp.length - 1) := by
      apply BitVec.eq_of_toNat_eq
      rw [BitVec.toNat_sub_of_le (by rw [BitVec.le_def, toNat_index (by omega)]; exact hpos), toNat_index (by omega),
        toNat_index (by omega)]
      rfl
    rw [terminated, hlast]
    by_cases hj' : j = tmp.length - 1
    · subst hj'
      rw [Function.update_self]
      rw [List.getElem?_append_right (by rw [List.length_dropLast]), List.length_dropLast, Nat.sub_self] at hj
      exact Option.some.inj hj
    · rw [List.getElem?_append_left (by rw [List.length_dropLast]; omega), List.getElem?_dropLast, if_pos (by omega)] at hj
      rw [Function.update_of_ne (ofNat_ne (by omega) (by omega) hj'),
        Function.update_of_ne (ofNat_ne (by omega) (by omega) (by omega)), value_storeAll (by omega), toNat_index (by omega),
        if_pos (Nat.zero_le j), Nat.sub_zero, hj]
      rfl

theorem holds_terminated {tmp : List Char} (h : tmp.length ≤ maxRwCount) :
    Holds (terminated tmp m) 0 (tmp.dropLast.takeWhile fun c => c ≠ '\x00') := by
  obtain ⟨rest, hrest⟩ := exists_terminated tmp
  refine ⟨fun j c hj => ⟨?_, ?_⟩, ?_⟩
  · have hmem := List.mem_takeWhile_imp (List.mem_of_getElem? hj)
    simpa using hmem
  · rw [Nat.zero_add]
    apply terminated_apply h
    rw [hrest, List.getElem?_append_left (List.getElem?_eq_some_iff.mp hj).1]
    exact hj
  · rw [Nat.zero_add]
    apply terminated_apply h
    rw [hrest, List.getElem?_append_right (Nat.le_refl _), Nat.sub_self]
    rfl

end memory

section writes

variable (R : Resolver) (m : Stack) (sid : U32)

theorem length_takeWhile_dropLast_le (tmp : List Char) :
    (tmp.dropLast.takeWhile fun c => c ≠ '\x00').length ≤ tmp.length - 1 := by
  have hle := (List.takeWhile_prefix (fun c => decide (c ≠ '\x00')) (l := tmp.dropLast)).length_le
  rwa [List.length_dropLast] at hle

/-- The bytes of tmp, and the one that count - 1 is when nothing was written. -/
def Reaches (count : Nat) (i : BitVec 64) : Prop := i.toNat ≤ count ∨ i = BitVec.ofNat 64 count - 1

theorem reaches_index {count j : Nat} (h : count ≤ maxRwCount) (hj : j ≤ count) : Reaches count (BitVec.ofNat 64 (0 + j)) := by
  have hmax : maxRwCount = 2147479552 := rfl
  refine .inl ?_
  rwa [Nat.zero_add, toNat_index (by omega)]

/-- The write on its memory computes the write on its texts, and strays from the buffer by its second NUL only. -/
theorem getsidWrite_spec {buffer : List Char} {count : Nat} (h : count ≤ maxRwCount) :
    (getsidWrite R m sid buffer count).value = pigaProcGetsidWrite R sid (copyFromUser buffer count) ∧
      Within (Reaches count) (getsidWrite R m sid buffer count) := by
  rw [getsidWrite]
  cases hcopy : copyFromUser buffer count with
  | none =>
      have hlt : buffer.length < count := by
        rw [copyFromUser_of_lt buffer (lt_of_le_maxRwCount h)] at hcopy
        split at hcopy
        · cases hcopy
        · omega
      refine ⟨rfl, within_bind (within_storeAll fun j hj => reaches_index h ?_) (within_pure _ _)⟩
      rw [List.length_append, List.length_replicate] at hj
      omega
  | some tmp =>
      obtain rfl := copyFromUser_length (lt_of_le_maxRwCount h) hcopy
      have hlen := length_takeWhile_dropLast_le tmp
      have hfuel : (tmp.dropLast.takeWhile fun c => c ≠ '\x00').length < tmp.length + 1 := by omega
      have hholds := holds_terminated (m := m) h
      have hin : ∀ j ≤ (tmp.dropLast.takeWhile fun c => c ≠ '\x00').length, Reaches tmp.length (BitVec.ofNat 64 (0 + j)) :=
        fun j hj => reaches_index h (by omega)
      obtain ⟨hstrlen, hwithin⟩ := strlen_holds hholds hfuel hin
      obtain ⟨hload, hwithin'⟩ := load_holds hholds hin
      rw [Nat.zero_add] at hstrlen
      rw [← hstrlen] at hload hwithin'
      refine ⟨?_, ?_⟩
      · change ((tmp.length : Int), (R (String.ofList (load (terminated tmp m)
          (strlen (terminated tmp m) (tmp.length + 1) 0).value 0).value)).getD 0) = _
        rw [hload]
        rfl
      · refine within_bind (within_storeAll fun j hj => reaches_index h (Nat.le_of_lt hj)) ?_
        refine within_bind (within_visit ?_ _) (within_bind (within_visit (.inr rfl) _) ?_)
        · have hcount := reaches_index h (Nat.le_refl tmp.length)
          rwa [Nat.zero_add] at hcount
        · exact within_bind hwithin (within_bind hwithin' (within_pure _ _))

end writes

section client

variable {R : Resolver} {m : Stack} {sid : U32}

def vfsWrite (securityContextToSid : Resolver) (m : Stack) (sid : U32) (buffer : List Char) (count : Nat) :
    Traced (BitVec 64) (Int × U32) :=
  getsidWrite securityContextToSid m sid buffer (min count maxRwCount)

def line (c : Text) (newline : Bool) : List Char := c.text.toList ++ if newline then ['\n'] else []

/-- What is left of the context in the buffer that is resolved. -/
def handed (c : Text) (newline : Bool) : List Char := ((line c newline).take maxRwCount).dropLast

theorem nul_not_mem_handed (c : Text) (newline : Bool) : '\x00' ∉ handed c newline := by
  intro h
  have hline := List.mem_of_mem_take (List.dropLast_subset _ h)
  rcases List.mem_append.mp hline with hc | hnewline
  · exact c.clean hc
  · cases newline with
    | false => cases hnewline
    | true => exact absurd (List.mem_singleton.mp hnewline) (by decide)

theorem vfsWrite_line (c : Text) (newline : Bool) :
    (vfsWrite R m sid (line c newline) (line c newline).length).value.2 =
      (R (String.ofList (handed c newline))).getD 0 := by
  have hself : (handed c newline).takeWhile (fun x => x ≠ '\x00') = handed c newline := by
    rw [List.takeWhile_eq_self_iff]
    intro x hx
    rw [decide_eq_true_eq]
    rintro rfl
    exact nul_not_mem_handed c newline hx
  have hcopy : copyFromUser (line c newline) (min (line c newline).length maxRwCount) =
      some ((line c newline).take maxRwCount) := by
    rw [copyFromUser_of_lt _ (lt_of_le_maxRwCount (Nat.min_le_right _ _)), if_pos (Nat.min_le_left _ _), Nat.min_comm,
      ← List.take_eq_take_min]
  rw [vfsWrite, (getsidWrite_spec R m sid (Nat.min_le_right _ _)).1, hcopy, pigaProcGetsidWrite]
  change (R (cString (handed c newline))).getD 0 = _
  rw [cString, hself]

theorem handed_eq (c : Text) (newline : Bool) :
    handed c newline =
      if newline = true ∧ c.text.toList.length < maxRwCount then c.text.toList
      else (c.text.toList.take maxRwCount).dropLast := by
  rw [handed, line]
  cases newline with
  | false => simp
  | true =>
      by_cases hlen : c.text.toList.length < maxRwCount
      · have htake : (c.text.toList ++ ['\n']).take maxRwCount = c.text.toList ++ ['\n'] :=
          List.take_of_length_le (by rw [List.length_append]; exact hlen)
        simp only [if_true, htake, List.dropLast_concat, hlen, and_self]
      · have htake : (c.text.toList ++ ['\n']).take maxRwCount = c.text.toList.take maxRwCount :=
          List.take_append_of_le_length (Nat.le_of_not_lt hlen)
        simp only [if_true, htake, hlen, and_false, if_false]

theorem length_printU_le (n : U32) : (printU n).length ≤ 10 := by
  have hlt := n.isLt
  exact Nat.toDigits_length 10 n.toNat 10 (by decide) (by omega)

theorem oneShot_getsidRead : OneShot pigaProcGetsidRead (fun sid => printU sid ++ ['\n']) (fun _ => 0) where
  first _ := rfl
  later sid i hi := by rw [pigaProcGetsidRead, if_pos hi]
  nonempty sid := List.append_ne_nil_of_right_ne_nil _ (List.cons_ne_nil _ _)
  short sid := by
    have hlen := length_printU_le sid
    have hblock : procBlockSize = 3072 := rfl
    rw [List.length_append, List.length_singleton]
    omega

theorem take_line_iff {n k : U32} {size : Nat} :
    (printU n ++ ['\n']).take size = printU k ++ ['\n'] ↔ n = k ∧ (printU k).length < size := by
  constructor
  · intro h
    by_cases hsize : (printU n).length < size
    · rw [List.take_of_length_le (by rw [List.length_append]; exact hsize)] at h
      obtain rfl := printU_injective (List.append_cancel_right h)
      exact ⟨rfl, hsize⟩
    · rw [List.take_append_of_le_length (Nat.le_of_not_lt hsize)] at h
      have hnewline : '\n' ∈ (printU n).take size := by
        rw [h]
        exact List.mem_append_right _ List.mem_cons_self
      exact absurd (isDigit_of_mem_printU (List.mem_of_mem_take hnewline)) (by decide)
  · rintro ⟨rfl, hsize⟩
    exact List.take_of_length_le (by rw [List.length_append]; exact hsize)

theorem toNat_last_le {count : Nat} (hpos : count ≠ 0) (h : count ≤ maxRwCount) :
    (BitVec.ofNat 64 count - 1).toNat ≤ count := by
  have hmax : maxRwCount = 2147479552 := rfl
  have hcount : (BitVec.ofNat 64 count).toNat = count := toNat_index (by omega)
  rw [BitVec.toNat_sub_of_le (by rw [BitVec.le_def, hcount]; exact Nat.pos_of_ne_zero hpos), hcount]
  exact Nat.sub_le _ _

theorem used_vfsWrite_iff (buffer : List Char) (count : Nat) :
    (∀ i ∈ (vfsWrite R m sid buffer count).used, i.toNat ≤ min count maxRwCount) ↔ count ≠ 0 := by
  constructor
  · rintro h rfl
    have hused : (BitVec.ofNat 64 0 - 1) ∈ (vfsWrite R m sid buffer 0).used := by
      rw [vfsWrite, Nat.zero_min, getsidWrite, copyFromUser_of_lt buffer (by decide), if_pos (Nat.zero_le _), List.take_zero]
      simp [store, storeAll]
    exact absurd (h _ hused) (by decide)
  · intro hpos i hi
    have hmax : maxRwCount = 2147479552 := rfl
    rcases (getsidWrite_spec R m sid (Nat.min_le_right count maxRwCount)).2 i hi with hle | rfl
    · exact hle
    · exact toNat_last_le (by omega) (Nat.min_le_right count maxRwCount)

variable (R m sid)

/-- The client gets the SID's line exactly when the end of the context is not cut off, or the rest stands for
the same SID, and its first buffer holds the whole line. A write stays in its buffer exactly when it is not
empty. -/
theorem getsidFile_iff {c : Text} {k : U32} (hk : R c.text = some k) (newline : Bool) {sizes : Nat → Nat}
    (hsizes : ∀ i, 0 < sizes i) (fuel : Nat) :
    ((readUntilEof pigaProcGetsidRead sizes (fuel + 2) 0 0
          (vfsWrite R m sid (line c newline) (line c newline).length).value.2).map Prod.fst =
        some (printU k ++ ['\n']) ↔
      ((newline = true ∧ c.text.toList.length < maxRwCount) ∨
          (R (String.ofList (c.text.toList.take maxRwCount).dropLast)).getD 0 = k) ∧
        (printU k).length < sizes 0) ∧
    ∀ buffer count, (∀ i ∈ (vfsWrite R m sid buffer count).used, i.toNat ≤ min count maxRwCount) ↔ count ≠ 0 := by
  refine ⟨?_, used_vfsWrite_iff⟩
  rw [readUntilEof_eq oneShot_getsidRead hsizes, Option.map_some, Option.some_inj, vfsWrite_line, handed_eq, take_line_iff]
  apply and_congr_left'
  split
  · next hwhole => simp [hwhole, hk]
  · next hcut => simp [hcut]

end client

def blankStack : Stack := fun _ => ' '

theorem getsidFile_iff_shadow :
    (readUntilEof pigaProcGetsidRead (fun _ => 4) 2 0 0
          (vfsWrite twoKnown blankStack 0 (line shadowText true) (line shadowText true).length).value.2).map Prod.fst =
        some "102\n".toList ∧
      ∀ i ∈ (vfsWrite twoKnown blankStack 0 (line shadowText true) (line shadowText true).length).used,
        i.toNat ≤ min (line shadowText true).length maxRwCount := by
  have hsizes : ∀ i : Nat, 0 < (fun _ => 4 : Nat → Nat) i := fun _ => Nat.zero_lt_succ 3
  have h := getsidFile_iff twoKnown blankStack 0 (c := shadowText) (k := 102) (by decide) true hsizes 0
  exact ⟨h.1.mpr ⟨.inl ⟨rfl, by decide⟩, by decide⟩, (h.2 _ _).mpr (by decide)⟩

/-- A client that reads one byte at a time gets the first digit only, one that writes no newline gets the SID
of no context, and an empty write stores a NUL before its buffer. -/
theorem getsid_cut_short :
    twoKnown shadowText.text = some 102 ∧
      (readUntilEof pigaProcGetsidRead (fun _ => 1) 5 0 0
          (vfsWrite twoKnown blankStack 0 (line shadowText true) (line shadowText true).length).value.2).map Prod.fst =
        some "1".toList ∧
      (readUntilEof pigaProcGetsidRead (fun _ => 4096) 5 0 0
          (vfsWrite twoKnown blankStack 0 (line shadowText false) (line shadowText false).length).value.2).map Prod.fst =
        some "0\n".toList ∧
      BitVec.ofInt 64 (-1) ∈ (vfsWrite twoKnown blankStack 0 [] 0).used := by
  refine ⟨by decide, ?_, ?_, by decide⟩
  · rw [vfsWrite_line, handed_eq]
    decide
  · rw [vfsWrite_line, handed_eq]
    decide

end PigaLinux.GetsidFile
