import PigaLinux.PolicyDatabase
import Mathlib.Data.Finset.Interval
import Mathlib.Data.List.TakeWhile

namespace PigaLinux.ContextText

open Kernel Bytes ExtensibleBitmap Contexts PolicyDatabase
open RuleTable (avtabInit)

def objectRVal : U32 := 1

def mlsLevelIsvalid (p : Policydb) (l : MlsLevel) : Bool :=
  if l.sens = 0 ∨ p.levels.nprim < l.sens.toNat then false
  else
    match p.levels.valToStruct (l.sens.toNat - 1) with
    | none => false
    | some levdatum =>
        (ebitmapForEachPositiveBit l.cat).all fun i => !decide (p.cats.nprim < i) && ebitmapGetBit levdatum.level.cat i

def mlsRangeIsvalid (p : Policydb) (low high : MlsLevel) : Bool :=
  mlsLevelIsvalid p low && mlsLevelIsvalid p high && mlsLevelDom high low

def mlsRangeContains (low1 high1 low2 high2 : MlsLevel) : Bool := mlsLevelDom low2 low1 && mlsLevelDom high1 high2

def mlsContextIsvalid (p : Policydb) (c : Context) : Bool :=
  if p.mlsEnabled = false then true
  else if mlsRangeIsvalid p c.low c.high = false then false
  else if c.role = objectRVal then true
  else if c.user = 0 ∨ p.users.nprim < c.user.toNat then false
  else (p.users.valToStruct (c.user.toNat - 1)).any fun u => mlsRangeContains u.low u.high c.low c.high

def policydbContextIsvalid (p : Policydb) (c : Context) : Bool :=
  if c.role = 0 ∨ p.roles.nprim < c.role.toNat then false
  else if c.user = 0 ∨ p.users.nprim < c.user.toNat then false
  else if c.type = 0 ∨ p.types.nprim < c.type.toNat then false
  else if c.role ≠ objectRVal ∧
      ((p.roles.valToStruct (c.role.toNat - 1)).any fun r => ebitmapGetBit r.types (c.type.toNat - 1)) = false then false
  else if c.role ≠ objectRVal ∧
      ((p.users.valToStruct (c.user.toNat - 1)).any fun u => ebitmapGetBit u.roles (c.role.toNat - 1)) = false then false
  else mlsContextIsvalid p c

structure Measured where
  head : Int
  prev : Int
  len : Nat

def measureEnd (p : Policydb) (st : Measured) : Nat :=
  if st.head ≠ st.prev then st.len + ((p.cats.symName st.prev.toNat).length + 1) else st.len

def measureBit (p : Policydb) (st : Measured) (i : Nat) : Measured :=
  if (i : Int) - st.prev > 1 then ⟨i, i, measureEnd p st + ((p.cats.symName i).length + 1)⟩ else { st with prev := i }

def measureLevel (p : Policydb) (len : Nat) (l : MlsLevel) : Nat :=
  measureEnd p ((ebitmapForEachPositiveBit l.cat).foldl (measureBit p)
    ⟨-2, -2, len + (p.levels.symName (l.sens.toNat - 1)).length⟩)

def mlsComputeContextLen (p : Policydb) (c : Context) : Nat :=
  if p.mlsEnabled = false then 0
  else
    let len := measureLevel p 1 c.low
    if mlsLevelEq c.low c.high then len else measureLevel p (len + 1) c.high

structure Written where
  head : Int
  prev : Int
  out : Text

/-- The end of a run of categories: the last one stands behind a dot, or
behind a comma when there is none between. -/
def writeEnd (p : Policydb) (st : Written) : Text :=
  if st.prev ≠ st.head then
    st.out ++ (if st.prev - st.head > 1 then '.' else ',') :: p.cats.symName st.prev.toNat
  else st.out

def writeBit (p : Policydb) (st : Written) (i : Nat) : Written :=
  if (i : Int) - st.prev > 1 then
    ⟨i, i, writeEnd p st ++ (if st.prev < 0 then ':' else ',') :: p.cats.symName i⟩
  else { st with prev := i }

def writeLevel (p : Policydb) (out : Text) (l : MlsLevel) : Text :=
  writeEnd p ((ebitmapForEachPositiveBit l.cat).foldl (writeBit p)
    ⟨-2, -2, out ++ p.levels.symName (l.sens.toNat - 1)⟩)

def mlsSidToContext (p : Policydb) (c : Context) (scontext : Text) : Text :=
  if p.mlsEnabled = false then scontext
  else
    let out := writeLevel p (scontext ++ [':']) c.low
    if mlsLevelEq c.low c.high then out else writeLevel p (out ++ ['-']) c.high

def contextStructToString (p : Policydb) (alloc : Bool) (c : Context) : Except Int (Text × Nat) :=
  if c.len ≠ 0 then (if alloc = false then .error (-enomem) else .ok (c.str, c.len.toNat)) else
  let user := p.users.symName (c.user.toNat - 1)
  let role := p.roles.symName (c.role.toNat - 1)
  let type := p.types.symName (c.type.toNat - 1)
  let len := user.length + 1 + (role.length + 1) + (type.length + 1) + mlsComputeContextLen p c
  if alloc = false then .error (-enomem)
  else .ok (mlsSidToContext p c (user ++ ':' :: role ++ ':' :: type), len)

def cut (stop : Char → Bool) (s : Text) : Text × Option Char × Text :=
  (s.takeWhile (!stop ·), (s.dropWhile (!stop ·)).head?, (s.dropWhile (!stop ·)).tail)

/-- What the allocations of a call come to: a node for a bit in the category
set of a level, and the copy of a range. -/
structure Memory where
  node : Nat → Nat → Bool
  copy : Bool

def setBits (memory : Nat → Bool) : List Nat → Ebitmap → Except Int Ebitmap
  | [], cat => .ok cat
  | b :: bs, cat =>
      let out := ebitmapSetBit (memory b) cat b true
      if out.1 ≠ 0 then .error out.1 else setBits memory bs out.2

def readPiece (p : Policydb) (memory : Nat → Bool) (piece : Text) (cat : Ebitmap) : Except Int Ebitmap :=
  let rng := cut (· == '.') piece
  match p.cats.search rng.1 with
  | none => .error (-einval)
  | some catdatum =>
      (setBits memory [(catdatum.value - 1).toNat] cat).bind fun cat =>
        if rng.2.1 = none then .ok cat
        else
          match p.cats.search rng.2.2 with
          | none => .error (-einval)
          | some rngdatum =>
              if rngdatum.value ≤ catdatum.value then .error (-einval)
              else setBits memory
                (List.range' catdatum.value.toNat (rngdatum.value.toNat - catdatum.value.toNat)) cat

/-- The category set: pieces with commas between them, up to a dash or the end. -/
def readCats (p : Policydb) (memory : Nat → Bool) : Ebitmap → Text → Text → Except Int (Ebitmap × Option Char × Text)
  | cat, piece, [] => (readPiece p memory piece cat).bind fun cat => .ok (cat, none, [])
  | cat, piece, c :: s =>
      if c = ',' then (readPiece p memory piece cat).bind fun cat => readCats p memory cat [] s
      else if c = '-' then (readPiece p memory piece cat).bind fun cat => .ok (cat, some '-', s)
      else readCats p memory cat (piece ++ [c]) s

def readLevel (p : Policydb) (memory : Nat → Bool) (field : Text × Option Char × Text) :
    Except Int (MlsLevel × Option Char × Text) :=
  match p.levels.search field.1 with
  | none => .error (-einval)
  | some levdatum =>
      if field.2.1 = some ':' then
        (readCats p memory ebitmapInit [] field.2.2).bind fun out => .ok (⟨levdatum.level.sens, out.1⟩, out.2)
      else .ok (⟨levdatum.level.sens, ebitmapInit⟩, field.2)

def readRange (p : Policydb) (memory : Memory) (s : Text) : Except Int (MlsLevel × MlsLevel × Text) :=
  (readLevel p (memory.node 0) (cut (fun c => c == ':' || c == '-') s)).bind fun low =>
    if low.2.1 = some '-' then
      (readLevel p (memory.node 1) (cut (· == ':') low.2.2)).bind fun high =>
        -- behind a second dash the text is skipped up to a colon, and nothing of it is looked up
        .ok (low.1, high.1, if high.2.1 = some '-' then (cut (· == ':') high.2.2).2.2 else high.2.2)
    else if memory.copy = false then .error (-enomem)
    else .ok (low.1, low.1, low.2.2)

def levelInit : MlsLevel := ⟨0, ebitmapInit⟩

/-- The range of a context and how far the text was read. Without a default
SID `defcon` is none; with one it is what the SID table knows of it. -/
def mlsContextToSid (p : Policydb) (memory : Memory) (oldc : Option Char) (s : Text) (defcon : Option (Option Context)) :
    Except Int (MlsLevel × MlsLevel × Nat) :=
  if p.mlsEnabled = false then
    .ok (levelInit, levelInit, if defcon ≠ none ∧ oldc ≠ none then s.length + 1 else 0)
  else if oldc = none then
    match defcon.join with
    | none => .error (-einval)
    | some c => if memory.copy then .ok (c.low, c.high, 0) else .error (-enomem)
  else
    (readRange p memory s).bind fun out => .ok (out.1, out.2.1, s.length - out.2.2.length + 1)

def stringToContextStruct (p : Policydb) (memory : Memory) (scontext : Text) (scontextLen : Nat)
    (defcon : Option (Option Context)) : Except Int Context :=
  let user := cut (· == ':') scontext
  let role := cut (· == ':') user.2.2
  let type := cut (· == ':') role.2.2
  if user.2.1 = none then .error (-einval)
  else
    match p.users.search user.1 with
    | none => .error (-einval)
    | some usrdatum =>
        if role.2.1 = none then .error (-einval)
        else
          match p.roles.search role.1 with
          | none => .error (-einval)
          | some roldatum =>
              match p.types.search type.1 with
              | none => .error (-einval)
              | some typdatum =>
                  if typdatum.isAttribute then .error (-einval)
                  else
                    (mlsContextToSid p memory type.2.1 type.2.2 defcon).bind fun out =>
                      let c : Context :=
                        { user := usrdatum.value, role := roldatum.value, type := typdatum.value, low := out.1, high := out.2.1 }
                      if user.1.length + 1 + (role.1.length + 1) + (type.1.length + 1) + out.2.2 < scontextLen then
                        .error (-einval)
                      else if policydbContextIsvalid p c = false then .error (-einval)
                      else .ok c

section delimiters

variable {stop : Char → Bool} {w s : Text} {d : Char}

theorem cut_word (hw : ∀ c ∈ w, stop c = false) : cut stop w = (w, none, []) := by
  have hpos : ∀ c ∈ w, (!stop c) = true := fun c hc => by rw [hw c hc]; rfl
  rw [cut, List.takeWhile_eq_self_iff.mpr hpos, List.dropWhile_eq_nil_iff.mpr hpos]
  rfl

theorem cut_append (hw : ∀ c ∈ w, stop c = false) (hd : stop d = true) : cut stop (w ++ d :: s) = (w, some d, s) := by
  have hpos : ∀ c ∈ w, (!stop c) = true := fun c hc => by rw [hw c hc]; rfl
  have hneg : ¬ (!stop d) = true := by rw [hd]; exact Bool.false_ne_true
  rw [cut, List.takeWhile_append_of_pos hpos, List.dropWhile_append_of_pos hpos, List.takeWhile_cons_of_neg (p := (!stop ·)) hneg,
    List.dropWhile_cons_of_neg (p := (!stop ·)) hneg, List.append_nil]
  rfl

end delimiters

section bitmaps

variable {e e' : Ebitmap} {P : Nat → Prop} {memory : Nat → Bool} {b : Nat} {bs : List Nat}

structure Holds (e : Ebitmap) (P : Nat → Prop) : Prop where
  canonical : Canonical e
  bit_iff : ∀ b, Bit e.node b ↔ P b

theorem holds_init : Holds ebitmapInit fun _ => False := by
  refine ⟨canonical_init, fun b => ?_⟩
  simp [Bit, ebitmapInit, word, Sparse.valueAt_nil]

theorem Holds.ext (h : Holds e P) (h' : Holds e' P) : e = e' := by
  apply h.canonical.ext h'.canonical
  intro b
  rw [h.bit_iff, h'.bit_iff]

theorem represents_members (h : Canonical e) : Represents e (members e.node).toFinset := by
  refine ⟨h, fun b => ?_⟩
  rw [List.mem_toFinset, mem_members h.tidy.toRanged]

theorem inRange_of_lt (hb : b < 2 ^ 31) : block b + ebitmapSize < 2 ^ 32 := by
  rw [block, ebitmapSize]
  omega

theorem setBit_rc (h : Canonical e) (allocated : Bool) (hb : b < 2 ^ 31) :
    (ebitmapSetBit allocated e b true).1 =
      if lacksMemory (members e.node).toFinset ⟨allocated, b, true⟩ then -enomem else 0 := by
  have hrange : InRange ⟨allocated, b, true⟩ := inRange_of_lt hb
  exact (represents_members h).rc hrange

theorem Holds.setBit (h : Holds e P) (allocated : Bool) (hb : b < 2 ^ 31)
    (hrc : (ebitmapSetBit allocated e b true).1 = 0) :
    Holds (ebitmapSetBit allocated e b true).2 fun c => c = b ∨ P c := by
  have hrange : InRange ⟨allocated, b, true⟩ := inRange_of_lt hb
  have hstep := (represents_members h.canonical).step hrange
  have hlacks : ¬ lacksMemory (members e.node).toFinset ⟨allocated, b, true⟩ = true := by
    intro hl
    rw [setBit_rc h.canonical allocated hb, if_pos hl] at hrc
    exact absurd hrc (by decide)
  refine ⟨hstep.canonical, fun c => ?_⟩
  refine (hstep.bit_iff c).trans ?_
  rw [specStep, if_neg hlacks]
  simp [mem_members h.canonical.tidy.toRanged, h.bit_iff]

theorem setBit_rc_eq_zero (h : Canonical e) (hb : b < 2 ^ 31) : (ebitmapSetBit true e b true).1 = 0 := by
  rw [setBit_rc h true hb]
  simp [lacksMemory]

theorem Holds.setBits (h : Holds e P) (hbs : ∀ b ∈ bs, b < 2 ^ 31) (hset : setBits memory bs e = .ok e') :
    Holds e' fun c => c ∈ bs ∨ P c := by
  induction bs generalizing e P with
  | nil =>
      obtain rfl := Except.ok.inj hset
      simpa using h
  | cons b bs ih =>
      obtain ⟨hb, hrest⟩ := List.forall_mem_cons.mp hbs
      rw [ContextText.setBits] at hset
      split at hset
      · exact absurd hset (by simp)
      · next hrc =>
        have hnext := ih (h.setBit _ hb (not_not.mp hrc)) hrest hset
        refine ⟨hnext.canonical, fun c => (hnext.bit_iff c).trans ?_⟩
        rw [List.mem_cons]
        tauto

theorem setBits_total (h : Holds e P) (hbs : ∀ b ∈ bs, b < 2 ^ 31) : ∃ e', setBits (fun _ => true) bs e = .ok e' := by
  induction bs generalizing e P with
  | nil => exact ⟨e, rfl⟩
  | cons b bs ih =>
      obtain ⟨hb, hrest⟩ := List.forall_mem_cons.mp hbs
      have hrc := setBit_rc_eq_zero h.canonical hb
      rw [setBits, if_neg (not_not.mpr hrc)]
      exact ih (h.setBit true hb hrc) hrest

end bitmaps

inductive Piece
  | one (a : Nat)
  | range (a b : Nat)

namespace Piece

def text (p : Policydb) : Piece → Text
  | one a => p.cats.symName a
  | range a b => p.cats.symName a ++ '.' :: p.cats.symName b

def Has : Piece → Nat → Prop
  | one a, c => c = a
  | range a b, c => a ≤ c ∧ c ≤ b

def Known (n : Nat) : Piece → Prop
  | one a => a < n
  | range a b => a < b ∧ b < n

end Piece

section printing

variable (p : Policydb)

def run (head prev : Nat) : List Piece :=
  if head = prev then [.one head] else if prev - head > 1 then [.range head prev] else [.one head, .one prev]

/-- The pieces that a loop over the categories writes, when it stands in a run. -/
def pieces (head prev : Nat) : List Nat → List Piece
  | [] => run head prev
  | i :: is => if prev + 1 < i then run head prev ++ pieces i i is else pieces head i is

def commas (ps : List Piece) : Text := ps.flatMap fun x => ',' :: x.text p

def piecesText (ps : List Piece) : Text := (commas p ps).tail

def catsText : List Nat → Text
  | [] => []
  | i :: is => ':' :: piecesText p (pieces i i is)

def levelText (l : MlsLevel) : Text :=
  p.levels.symName (l.sens.toNat - 1) ++ catsText p (ebitmapForEachPositiveBit l.cat)

variable {p} {head prev : Nat} {is : List Nat} {ps qs : List Piece}

theorem run_ne_nil : run head prev ≠ [] := by
  rw [run]
  split_ifs <;> exact List.cons_ne_nil _ _

theorem pieces_ne_nil : pieces head prev is ≠ [] := by
  induction is generalizing head prev with
  | nil => exact run_ne_nil
  | cons i is ih =>
      rw [pieces]
      split
      · exact List.append_ne_nil_of_left_ne_nil run_ne_nil _
      · exact ih

theorem piecesText_append (hps : ps ≠ []) : piecesText p (ps ++ qs) = piecesText p ps ++ commas p qs := by
  cases ps with
  | nil => exact absurd rfl hps
  | cons x ps => simp [piecesText, commas]

theorem commas_eq (hps : ps ≠ []) : commas p ps = ',' :: piecesText p ps := by
  cases ps with
  | nil => exact absurd rfl hps
  | cons x ps => simp [piecesText, commas]

theorem piecesText_cons (x : Piece) : piecesText p (x :: ps) = x.text p ++ commas p ps := by
  simp [piecesText, commas]

theorem writeEnd_run (out : Text) :
    writeEnd p ⟨head, prev, out ++ p.cats.symName head⟩ = out ++ piecesText p (run head prev) := by
  rw [writeEnd, run]
  by_cases heq : head = prev
  · simp [heq, piecesText, commas, Piece.text]
  · have hne : (prev : Int) ≠ head := fun h => heq (Int.ofNat.inj h).symm
    rw [if_pos hne, if_neg heq]
    by_cases hfar : prev - head > 1
    · have hfar' : (prev : Int) - head > 1 := by omega
      simp [hfar, hfar', piecesText, commas, Piece.text]
    · have hfar' : ¬ (prev : Int) - head > 1 := by omega
      simp [hfar, hfar', piecesText, commas, Piece.text]

theorem writeEnd_foldl (out : Text) :
    writeEnd p (is.foldl (writeBit p) ⟨head, prev, out ++ p.cats.symName head⟩) =
      out ++ piecesText p (pieces head prev is) := by
  induction is generalizing head prev out with
  | nil => exact writeEnd_run out
  | cons i is ih =>
      rw [List.foldl_cons, writeBit, pieces]
      by_cases hgap : prev + 1 < i
      · have hgap' : (i : Int) - prev > 1 := by omega
        have hsign : ¬ (prev : Int) < 0 := by omega
        rw [if_pos hgap', if_neg hsign, if_pos hgap, writeEnd_run, piecesText_append run_ne_nil,
          commas_eq pieces_ne_nil]
        have hout : out ++ piecesText p (run head prev) ++ ',' :: p.cats.symName i =
            out ++ piecesText p (run head prev) ++ [','] ++ p.cats.symName i := by simp
        rw [hout, ih]
        simp
      · have hgap' : ¬ (i : Int) - prev > 1 := by omega
        rw [if_neg hgap', if_neg hgap]
        exact ih out

theorem writeLevel_eq (out : Text) (l : MlsLevel) : writeLevel p out l = out ++ levelText p l := by
  rw [writeLevel, levelText]
  cases ebitmapForEachPositiveBit l.cat with
  | nil => simp [writeEnd, catsText]
  | cons i is =>
      have hgap : (i : Int) - (-2) > 1 := by omega
      rw [List.foldl_cons, writeBit, if_pos hgap, if_pos (by decide : (-2 : Int) < 0), catsText]
      have hout : writeEnd p ⟨-2, -2, out ++ p.levels.symName (l.sens.toNat - 1)⟩ ++ ':' :: p.cats.symName i =
          out ++ p.levels.symName (l.sens.toNat - 1) ++ [':'] ++ p.cats.symName i := by simp [writeEnd]
      rw [hout, writeEnd_foldl]
      simp

/-- Measuring and writing go through the same states. -/
structure Alike (st : Measured) (w : Written) : Prop where
  head : st.head = w.head
  prev : st.prev = w.prev
  len : st.len = w.out.length

theorem Alike.measureEnd {st : Measured} {w : Written} (h : Alike st w) : measureEnd p st = (writeEnd p w).length := by
  rw [ContextText.measureEnd, writeEnd, h.head, h.prev, h.len]
  by_cases heq : w.head = w.prev
  · simp [heq]
  · simp [heq, Ne.symm heq]

theorem Alike.foldl {st : Measured} {w : Written} (h : Alike st w) :
    Alike (is.foldl (measureBit p) st) (is.foldl (writeBit p) w) := by
  induction is generalizing st w with
  | nil => exact h
  | cons i is ih =>
      rw [List.foldl_cons, List.foldl_cons]
      apply ih
      rw [measureBit, writeBit, h.prev, h.measureEnd]
      by_cases hgap : (i : Int) - w.prev > 1
      · rw [if_pos hgap, if_pos hgap]
        exact ⟨rfl, rfl, by simp⟩
      · rw [if_neg hgap, if_neg hgap]
        exact ⟨h.head, rfl, h.len⟩

theorem measureLevel_eq (len : Nat) (l : MlsLevel) : measureLevel p len l = len + (levelText p l).length := by
  have hsame : measureLevel p len l = (writeLevel p (List.replicate len ':') l).length :=
    (Alike.foldl ⟨rfl, rfl, by simp⟩).measureEnd
  rw [hsame, writeLevel_eq, List.length_append, List.length_replicate]

/-- The text of the range behind the type. -/
def rangeText (p : Policydb) (c : Context) : Text :=
  if p.mlsEnabled = false then []
  else ':' :: levelText p c.low ++ if mlsLevelEq c.low c.high then [] else '-' :: levelText p c.high

theorem mlsSidToContext_eq (c : Context) (s : Text) : mlsSidToContext p c s = s ++ rangeText p c := by
  rw [mlsSidToContext, rangeText]
  split
  · exact (List.append_nil s).symm
  · split <;> simp [writeLevel_eq]

theorem mlsComputeContextLen_eq (c : Context) : mlsComputeContextLen p c = (rangeText p c).length := by
  rw [mlsComputeContextLen, rangeText]
  split
  · rfl
  · split
    · simp [measureLevel_eq, Nat.add_comm]
    · simp [measureLevel_eq]
      omega

theorem exists_run_iff {b : Nat} (hle : head ≤ prev) : (∃ x ∈ run head prev, x.Has b) ↔ head ≤ b ∧ b ≤ prev := by
  rw [run]
  split_ifs
  · simp [Piece.Has]
    omega
  · simp [Piece.Has]
  · simp [Piece.Has]
    omega

theorem exists_pieces_iff {b : Nat} (hle : head ≤ prev) (hasc : (prev :: is).Pairwise (· < ·)) :
    (∃ x ∈ pieces head prev is, x.Has b) ↔ (head ≤ b ∧ b ≤ prev) ∨ b ∈ is := by
  induction is generalizing head prev with
  | nil => simpa [pieces] using exists_run_iff hle
  | cons i is ih =>
      obtain ⟨hprev, hrest⟩ := List.pairwise_cons.mp hasc
      have hlt := hprev i List.mem_cons_self
      rw [pieces, List.mem_cons]
      split
      · next hgap =>
        have hboth : (∃ x ∈ run head prev ++ pieces i i is, x.Has b) ↔
            (∃ x ∈ run head prev, x.Has b) ∨ ∃ x ∈ pieces i i is, x.Has b := by
          simp only [List.mem_append, or_and_right, exists_or]
        rw [hboth, exists_run_iff hle, ih (Nat.le_refl i) hrest]
        have hone : i ≤ b ∧ b ≤ i ↔ b = i := by omega
        rw [hone]
      · next hgap =>
        rw [ih (by omega) hrest]
        have hone : head ≤ b ∧ b ≤ i ↔ head ≤ b ∧ b ≤ prev ∨ b = i := by omega
        rw [hone, or_assoc]

theorem known_run {n : Nat} (hle : head ≤ prev) (hprev : prev < n) : ∀ x ∈ run head prev, x.Known n := by
  rw [run]
  split_ifs
  · simp [Piece.Known]
    omega
  · simp [Piece.Known]
    omega
  · simp [Piece.Known]
    omega

theorem known_pieces {n : Nat} (hle : head ≤ prev) (hasc : (prev :: is).Pairwise (· < ·)) (hn : ∀ i ∈ prev :: is, i < n) :
    ∀ x ∈ pieces head prev is, x.Known n := by
  induction is generalizing head prev with
  | nil => exact known_run hle (hn prev List.mem_cons_self)
  | cons i is ih =>
      obtain ⟨hprev, hrest⟩ := List.pairwise_cons.mp hasc
      obtain ⟨hprevn, hrestn⟩ := List.forall_mem_cons.mp hn
      have hlt := hprev i List.mem_cons_self
      rw [pieces]
      split
      · exact List.forall_mem_append.mpr ⟨known_run hle hprevn, ih (Nat.le_refl i) hrest hrestn⟩
      · exact ih (by omega) hrest hrestn

end printing

/-- A policy whose names can be told apart in a text. What an alias stands for
is an attribute if the alias is one, and levels have categories of the policy only. -/
structure Plain (p : Policydb) : Prop where
  complete : Complete p
  users : ∀ i < p.users.nprim, ':' ∉ p.users.symName i
  roles : ∀ i < p.roles.nprim, ':' ∉ p.roles.symName i
  types : ∀ i < p.types.nprim, ':' ∉ p.types.symName i
  levels : ∀ i < p.levels.nprim, ':' ∉ p.levels.symName i ∧ '-' ∉ p.levels.symName i
  cats : ∀ i < p.cats.nprim, ',' ∉ p.cats.symName i ∧ '-' ∉ p.cats.symName i ∧ '.' ∉ p.cats.symName i
  aliases : ∀ nm d d', p.types.search nm = some d → p.types.valToStruct (d.value.toNat - 1) = some d' →
    d'.isAttribute = d.isAttribute
  levelCats : ∀ nm d, p.levels.search nm = some d → ∀ b, ebitmapGetBit d.level.cat b = true → b < p.cats.nprim

section reading

variable {p : Policydb} {memory : Nat → Bool} {e e' : Ebitmap} {P : Nat → Prop}

theorem symName_stop {δ : Type} {t : Symtab δ} {i : Nat} {d : Char} (h : d ∉ t.symName i) :
    ∀ c ∈ t.symName i, (c == d) = false := by
  intro c hc
  rw [beq_eq_false_iff_ne]
  rintro rfl
  exact h hc

theorem toNat_sub_one {v : U32} {a : Nat} (h : v.toNat = a + 1) : (v - 1).toNat = a := by
  bv_omega

theorem readPiece_text (hp : Plain p) (h : Holds e P) {x : Piece} (hx : x.Known p.cats.nprim) :
    ∃ e', readPiece p (fun _ => true) (x.text p) e = .ok e' ∧ Holds e' fun c => x.Has c ∨ P c := by
  have hsmall := hp.complete.cats.small
  cases x with
  | one a =>
      obtain ⟨d, hd, -, hval⟩ := hp.complete.cats.datum hx
      have ha : ∀ b ∈ [(d.value - 1).toNat], b < 2 ^ 31 := by
        rw [toNat_sub_one hval]
        simpa using Nat.lt_trans hx hsmall
      obtain ⟨e', he'⟩ := setBits_total h ha
      refine ⟨e', ?_, ?_⟩
      · rw [readPiece, Piece.text, cut_word (symName_stop (hp.cats a hx).2.2)]
        dsimp only
        rw [hd]
        dsimp only
        rw [he']
        rfl
      · have hold := h.setBits ha he'
        refine ⟨hold.canonical, fun c => (hold.bit_iff c).trans ?_⟩
        rw [toNat_sub_one hval, List.mem_singleton, Piece.Has]
  | range a b =>
      obtain ⟨hab, hb⟩ := hx
      have ha := Nat.lt_trans hab hb
      obtain ⟨d, hd, -, hval⟩ := hp.complete.cats.datum ha
      obtain ⟨r, hr, -, hrval⟩ := hp.complete.cats.datum hb
      have hfirst : ∀ c ∈ [(d.value - 1).toNat], c < 2 ^ 31 := by
        rw [toNat_sub_one hval]
        simpa using Nat.lt_trans ha hsmall
      have hrange : ∀ c ∈ List.range' d.value.toNat (r.value.toNat - d.value.toNat), c < 2 ^ 31 := by
        intro c hc
        rw [List.mem_range'_1] at hc
        omega
      obtain ⟨e₁, he₁⟩ := setBits_total h hfirst
      have hold₁ := h.setBits hfirst he₁
      obtain ⟨e₂, he₂⟩ := setBits_total hold₁ hrange
      have hold₂ := hold₁.setBits hrange he₂
      have hlt : ¬ r.value ≤ d.value := by
        rw [BitVec.le_def]
        omega
      refine ⟨e₂, ?_, ?_⟩
      · rw [readPiece, Piece.text, cut_append (symName_stop (hp.cats a ha).2.2) (beq_self_eq_true _)]
        dsimp only
        rw [hd, hr]
        dsimp only
        rw [he₁, Except.bind, if_neg (Option.some_ne_none _), if_neg hlt]
        exact he₂
      · refine ⟨hold₂.canonical, fun c => (hold₂.bit_iff c).trans ?_⟩
        rw [List.mem_range'_1, List.mem_singleton, toNat_sub_one hval, hval, hrval, Piece.Has]
        have hcover : a + 1 ≤ c ∧ c < a + 1 + (b + 1 - (a + 1)) ∨ c = a ↔ a ≤ c ∧ c ≤ b := by omega
        rw [← or_assoc, hcover]

theorem readCats_word (piece : Text) {w : Text} (s : Text) (hw : ',' ∉ w ∧ '-' ∉ w) :
    readCats p memory e piece (w ++ s) = readCats p memory e (piece ++ w) s := by
  induction w generalizing piece with
  | nil => rw [List.append_nil, List.nil_append]
  | cons c w ih =>
      obtain ⟨⟨hcomma, hw₁⟩, hdash, hw₂⟩ : ((¬ ',' = c ∧ ',' ∉ w) ∧ ¬ '-' = c ∧ '-' ∉ w) := by
        simpa only [List.mem_cons, not_or] using hw
      rw [List.cons_append, readCats, if_neg (Ne.symm hcomma), if_neg (Ne.symm hdash), ih _ ⟨hw₁, hw₂⟩, List.append_assoc]
      rfl

def Ends (s : Text) : Prop := s = [] ∨ ∃ t, s = '-' :: t

theorem readCats_end (piece : Text) {s : Text} (hs : Ends s) :
    readCats p memory e piece s = (readPiece p memory piece e).bind fun cat => .ok (cat, s.head?, s.tail) := by
  rcases hs with rfl | ⟨t, rfl⟩
  · rfl
  · rw [readCats, if_neg (by decide), if_pos rfl]
    rfl

theorem text_plain (hp : Plain p) {x : Piece} (hx : x.Known p.cats.nprim) : ',' ∉ x.text p ∧ '-' ∉ x.text p := by
  cases x with
  | one a => exact ⟨(hp.cats a hx).1, (hp.cats a hx).2.1⟩
  | range a b =>
      obtain ⟨ha₁, ha₂, -⟩ := hp.cats a (Nat.lt_trans hx.1 hx.2)
      obtain ⟨hb₁, hb₂, -⟩ := hp.cats b hx.2
      simp [Piece.text, ha₁, ha₂, hb₁, hb₂]

theorem readCats_pieces (hp : Plain p) (h : Holds e P) {ps : List Piece} (hne : ps ≠ [])
    (hps : ∀ x ∈ ps, x.Known p.cats.nprim) {s : Text} (hs : Ends s) :
    ∃ e', readCats p (fun _ => true) e [] (piecesText p ps ++ s) = .ok (e', s.head?, s.tail) ∧
      Holds e' fun c => (∃ x ∈ ps, x.Has c) ∨ P c := by
  induction ps generalizing e P with
  | nil => exact absurd rfl hne
  | cons x ps ih =>
      obtain ⟨hx, hrest⟩ := List.forall_mem_cons.mp hps
      obtain ⟨e₁, he₁, hold₁⟩ := readPiece_text hp h hx
      rw [piecesText_cons, List.append_assoc, readCats_word [] _ (text_plain hp hx), List.nil_append]
      cases ps with
      | nil =>
          refine ⟨e₁, ?_, hold₁.canonical, fun c => (hold₁.bit_iff c).trans ?_⟩
          · rw [commas, List.flatMap_nil, List.nil_append, readCats_end _ hs, he₁]
            rfl
          · simp
      | cons y ps =>
          obtain ⟨e₂, he₂, hold₂⟩ := ih hold₁ (List.cons_ne_nil _ _) hrest
          refine ⟨e₂, ?_, hold₂.canonical, fun c => (hold₂.bit_iff c).trans ?_⟩
          · rw [commas_eq (List.cons_ne_nil _ _), List.cons_append, readCats, if_pos rfl, he₁]
            exact he₂
          · rw [List.exists_mem_cons_iff (p := (Piece.Has · c)) x]
            exact or_left_comm.trans or_assoc.symm

/-- A level that has a name, and categories that have names. -/
structure Named (p : Policydb) (l : MlsLevel) : Prop where
  canonical : Canonical l.cat
  sens : l.sens.toNat - 1 < p.levels.nprim
  sens_pos : 0 < l.sens.toNat
  cats : ∀ b, Bit l.cat.node b → b < p.cats.nprim

theorem Named.forEach {l : MlsLevel} (h : Named p l) : ebitmapForEachPositiveBit l.cat = members l.cat.node :=
  h.canonical.laid.forEach

theorem Named.holds {l : MlsLevel} (h : Named p l) : Holds l.cat fun b => b ∈ ebitmapForEachPositiveBit l.cat := by
  refine ⟨h.canonical, fun b => ?_⟩
  rw [h.forEach, mem_members h.canonical.tidy.toRanged]

theorem readLevel_text (hp : Plain p) {l : MlsLevel} (hl : Named p l) {stop : Char → Bool} (hcolon : stop ':' = true)
    (hname : ∀ c ∈ p.levels.symName (l.sens.toNat - 1), stop c = false) {s : Text}
    (hs : s = [] ∨ ∃ t, s = '-' :: t ∧ (stop '-' = true ∨ ebitmapForEachPositiveBit l.cat ≠ [])) :
    readLevel p (fun _ => true) (cut stop (levelText p l ++ s)) = .ok (l, s.head?, s.tail) := by
  obtain ⟨d, hd, -, hval⟩ := hp.complete.levels.datum hl.sens
  have hsens : d.level.sens = l.sens := by
    apply BitVec.eq_of_toNat_eq
    have hpos := hl.sens_pos
    rw [LevelDatum.sens] at hval
    omega
  have hholds := hl.holds
  rw [levelText]
  cases hbits : ebitmapForEachPositiveBit l.cat with
  | nil =>
      rw [hbits] at hholds
      have hcat : ebitmapInit = l.cat := by
        apply holds_init.ext
        simpa using hholds
      have hcut : cut stop (p.levels.symName (l.sens.toNat - 1) ++ s) = (p.levels.symName (l.sens.toNat - 1), s.head?, s.tail) := by
        rcases hs with rfl | ⟨t, rfl, hdash⟩
        · rw [List.append_nil]
          exact cut_word hname
        · exact cut_append hname (hdash.resolve_right (not_not.mpr hbits))
      have hdelim : s.head? ≠ some ':' := by
        rcases hs with rfl | ⟨t, rfl, -⟩
        · exact fun h => absurd h.symm (Option.some_ne_none _)
        · simp
      rw [catsText, List.append_nil, hcut, readLevel]
      dsimp only
      rw [hd]
      dsimp only
      rw [if_neg hdelim, hsens, hcat]
  | cons i is =>
      have hasc : (i :: is).Pairwise (· < ·) := by
        rw [← hbits, hl.forEach]
        exact members_pairwise hl.canonical.tidy.toRanged
      have hknown : ∀ b ∈ i :: is, b < p.cats.nprim := by
        intro b hb
        apply hl.cats
        rw [← hbits] at hb
        exact (hholds.bit_iff b).mpr hb
      have hends : Ends s := by
        rcases hs with rfl | ⟨t, rfl, -⟩
        · exact Or.inl rfl
        · exact Or.inr ⟨t, rfl⟩
      obtain ⟨e', he', hold⟩ := readCats_pieces hp holds_init pieces_ne_nil
        (known_pieces (Nat.le_refl i) hasc hknown) hends
      have hcat : e' = l.cat := by
        apply hold.ext
        refine ⟨hl.canonical, fun b => (hholds.bit_iff b).trans ?_⟩
        rw [hbits, exists_pieces_iff (Nat.le_refl i) hasc, List.mem_cons, or_false]
        have hone : i ≤ b ∧ b ≤ i ↔ b = i := by omega
        rw [hone]
      rw [catsText, List.append_assoc, List.cons_append, cut_append hname hcolon, readLevel]
      dsimp only
      rw [hd]
      dsimp only
      rw [if_pos rfl, he', Except.bind, hsens, hcat]

def ample : Memory := ⟨fun _ _ => true, true⟩

theorem symName_level (hp : Plain p) {l : MlsLevel} (hl : Named p l) :
    ∀ c ∈ p.levels.symName (l.sens.toNat - 1), (c == ':' || c == '-') = false := by
  obtain ⟨hcolon, hdash⟩ := hp.levels _ hl.sens
  intro c hc
  rw [symName_stop hcolon c hc, symName_stop hdash c hc]
  rfl

theorem eq_of_mlsLevelEq {l l' : MlsLevel} (hl : Canonical l.cat) (hl' : Canonical l'.cat) (h : mlsLevelEq l l' = true) :
    l = l' := by
  rw [mlsLevelEq, Bool.and_eq_true, beq_iff_eq, hl.cmp hl'] at h
  have hcat := hl.ext hl' h.2
  cases l
  cases l'
  exact congrArg₂ MlsLevel.mk h.1 hcat

theorem readRange_single (hp : Plain p) {l : MlsLevel} (hl : Named p l) :
    readRange p ample (levelText p l) = .ok (l, l, []) := by
  have hread := readLevel_text hp hl rfl (symName_level hp hl) (Or.inl rfl)
  rw [List.append_nil] at hread
  rw [readRange, ample, hread, Except.bind, List.head?_nil, List.tail_nil, if_neg (Option.some_ne_none _).symm,
    if_neg Bool.false_ne_true.symm]

theorem readRange_pair (hp : Plain p) {low high : MlsLevel} (hlow : Named p low) (hhigh : Named p high) {s : Text}
    (hs : s = [] ∨ ∃ t, s = '-' :: t ∧ ebitmapForEachPositiveBit high.cat ≠ []) :
    readRange p ample (levelText p low ++ '-' :: (levelText p high ++ s)) =
      .ok (low, high, (cut (· == ':') s.tail).2.2) := by
  have hname : ∀ d ∈ p.levels.symName (high.sens.toNat - 1), (d == ':') = false :=
    symName_stop (hp.levels _ hhigh.sens).1
  have hread : readLevel p (fun _ => true) (cut (· == ':') (levelText p high ++ s)) = .ok (high, s.head?, s.tail) := by
    apply readLevel_text hp hhigh _ hname
    · exact hs.imp_right fun ⟨t, ht, hne⟩ => ⟨t, ht, Or.inr hne⟩
    · rfl
  rw [readRange, ample, readLevel_text hp hlow rfl (symName_level hp hlow) (Or.inr ⟨_, rfl, Or.inl rfl⟩), Except.bind,
    List.head?_cons, List.tail_cons, if_pos rfl]
  dsimp only
  rw [hread]
  rcases hs with rfl | ⟨t, rfl, -⟩
  · rfl
  · rfl

end reading

/-- A context as the security server holds it. -/
structure Held (p : Policydb) (c : Context) : Prop where
  known : c.len = 0 ∧ c.str = []
  valid : policydbContextIsvalid p c = true
  low : Canonical c.low.cat
  high : Canonical c.high.cat
  ordinary : ∀ d, p.types.valToStruct (c.type.toNat - 1) = some d → d.isAttribute = false
  unranged : p.mlsEnabled = false → c.low = levelInit ∧ c.high = levelInit

section roundTrip

variable {p : Policydb} {c : Context}

structure InRanges (p : Policydb) (c : Context) : Prop where
  role_pos : 0 < c.role.toNat
  role_le : c.role.toNat ≤ p.roles.nprim
  user_pos : 0 < c.user.toNat
  user_le : c.user.toNat ≤ p.users.nprim
  type_pos : 0 < c.type.toNat
  type_le : c.type.toNat ≤ p.types.nprim
  mls : mlsContextIsvalid p c = true

theorem not_zero_or {v : U32} {n : Nat} (h : ¬ (v = 0 ∨ n < v.toNat)) : 0 < v.toNat ∧ v.toNat ≤ n := by
  rw [not_or] at h
  have hne : v.toNat ≠ 0 := fun hz => h.1 (BitVec.eq_of_toNat_eq hz)
  omega

theorem inRanges_of_isvalid (h : policydbContextIsvalid p c = true) : InRanges p c := by
  rw [policydbContextIsvalid] at h
  split at h
  · exact absurd h Bool.false_ne_true
  next hrole =>
  split at h
  · exact absurd h Bool.false_ne_true
  next huser =>
  split at h
  · exact absurd h Bool.false_ne_true
  next htype =>
  split at h
  · exact absurd h Bool.false_ne_true
  split at h
  · exact absurd h Bool.false_ne_true
  obtain ⟨hrole₁, hrole₂⟩ := not_zero_or hrole
  obtain ⟨huser₁, huser₂⟩ := not_zero_or huser
  obtain ⟨htype₁, htype₂⟩ := not_zero_or htype
  exact ⟨hrole₁, hrole₂, huser₁, huser₂, htype₁, htype₂, h⟩

theorem named_of_isvalid (hp : Plain p) {l : MlsLevel} (hl : Canonical l.cat) (h : mlsLevelIsvalid p l = true) :
    Named p l := by
  rw [mlsLevelIsvalid] at h
  split at h
  · exact absurd h Bool.false_ne_true
  next hsens =>
  obtain ⟨hpos, hle⟩ := not_zero_or hsens
  split at h
  · exact absurd h Bool.false_ne_true
  next d hd =>
  refine ⟨hl, by omega, hpos, fun b hb => ?_⟩
  obtain ⟨name, -, hsearch⟩ := Option.bind_eq_some_iff.mp hd
  apply hp.levelCats name d hsearch
  rw [List.all_eq_true, hl.laid.forEach] at h
  have hbit := h b ((mem_members hl.tidy.toRanged).mpr hb)
  rw [Bool.and_eq_true] at hbit
  exact hbit.2

theorem Held.named (hp : Plain p) (h : Held p c) (hmls : p.mlsEnabled = true) : Named p c.low ∧ Named p c.high := by
  have hvalid := (inRanges_of_isvalid h.valid).mls
  rw [mlsContextIsvalid, if_neg (by rw [hmls]; decide)] at hvalid
  split at hvalid
  · exact absurd hvalid Bool.false_ne_true
  next hrange =>
  rw [Bool.not_eq_false, mlsRangeIsvalid, Bool.and_eq_true, Bool.and_eq_true] at hrange
  exact ⟨named_of_isvalid hp h.low hrange.1.1, named_of_isvalid hp h.high hrange.1.2⟩

/-- The text behind the type is read to its end, as the range that was written. -/
theorem mlsContextToSid_rangeText (hp : Plain p) (h : Held p c) (defcon : Option (Option Context)) :
    mlsContextToSid p ample (rangeText p c).head? (rangeText p c).tail defcon =
      .ok (c.low, c.high, (rangeText p c).length) := by
  by_cases hmls : p.mlsEnabled = false
  · obtain ⟨hlow, hhigh⟩ := h.unranged hmls
    rw [mlsContextToSid, if_pos hmls, rangeText, if_pos hmls, hlow, hhigh]
    simp
  · obtain ⟨hlow, hhigh⟩ := h.named hp (Bool.not_eq_false _ ▸ hmls)
    have hread : readRange p ample (levelText p c.low ++ if mlsLevelEq c.low c.high then [] else '-' :: levelText p c.high) =
        .ok (c.low, c.high, []) := by
      split
      · next heq =>
        rw [List.append_nil, ← eq_of_mlsLevelEq h.low h.high heq]
        exact readRange_single hp hlow
      · have hpair := readRange_pair hp hlow hhigh (Or.inl rfl)
        rw [List.append_nil] at hpair
        exact hpair
    rw [mlsContextToSid, if_neg hmls, rangeText, if_neg hmls, List.cons_append, List.head?_cons, List.tail_cons,
      if_neg (Option.some_ne_none _), hread]
    rfl

theorem datum_of_value {δ : Type} {value : δ → U32} {t : Symtab δ} (h : t.Complete value) {v : U32} (hpos : 0 < v.toNat)
    (hle : v.toNat ≤ t.nprim) :
    v.toNat - 1 < t.nprim ∧ ∃ d, t.search (t.symName (v.toNat - 1)) = some d ∧ t.valToStruct (v.toNat - 1) = some d ∧
      value d = v := by
  have hlt : v.toNat - 1 < t.nprim := by omega
  obtain ⟨d, hd, hd', hval⟩ := h.datum hlt
  refine ⟨hlt, d, hd, hd', ?_⟩
  apply BitVec.eq_of_toNat_eq
  omega

def namesText (p : Policydb) (c : Context) : Text :=
  p.users.symName (c.user.toNat - 1) ++ ':' :: p.roles.symName (c.role.toNat - 1) ++
    ':' :: p.types.symName (c.type.toNat - 1)

def contextText (p : Policydb) (c : Context) : Text := namesText p c ++ rangeText p c

theorem contextStructToString_eq (p : Policydb) {c : Context} (h : c.len = 0) :
    contextStructToString p true c = .ok (contextText p c, (contextText p c).length + 1) := by
  rw [contextStructToString, if_neg (not_not.mpr h), if_neg (by decide), mlsSidToContext_eq, mlsComputeContextLen_eq]
  simp [contextText, namesText]
  omega

theorem stringToContextStruct_names (hp : Plain p) (h : Held p c) {memory : Memory} {s : Text}
    (hs : s = [] ∨ ∃ t, s = ':' :: t) {defcon : Option (Option Context)} {moved : Nat}
    (hread : mlsContextToSid p memory s.head? s.tail defcon = .ok (c.low, c.high, moved)) (n : Nat) :
    stringToContextStruct p memory (namesText p c ++ s) n defcon =
      if (namesText p c).length + 1 + moved < n then .error (-einval) else .ok c := by
  obtain ⟨hrole₁, hrole₂, huser₁, huser₂, htype₁, htype₂, hmls⟩ := inRanges_of_isvalid h.valid
  obtain ⟨hui, u, hu, -, huval⟩ := datum_of_value hp.complete.users huser₁ huser₂
  obtain ⟨hri, r, hr, -, hrval⟩ := datum_of_value hp.complete.roles hrole₁ hrole₂
  obtain ⟨hti, t, ht, ht', htval⟩ := datum_of_value hp.complete.types htype₁ htype₂
  have htype : cut (· == ':') (p.types.symName (c.type.toNat - 1) ++ s) =
      (p.types.symName (c.type.toNat - 1), s.head?, s.tail) := by
    have hname := symName_stop (hp.types _ hti)
    rcases hs with rfl | ⟨t, rfl⟩
    · rw [List.append_nil]
      exact cut_word hname
    · exact cut_append hname (beq_self_eq_true _)
  have hlen : (p.users.symName (c.user.toNat - 1)).length + 1 + ((p.roles.symName (c.role.toNat - 1)).length + 1) +
      ((p.types.symName (c.type.toNat - 1)).length + 1) + moved = (namesText p c).length + 1 + moved := by
    simp [namesText]
    omega
  have hcontext : ({ user := u.value, role := r.value, type := t.value, low := c.low, high := c.high } : Context) = c := by
    rw [huval, hrval, htval, ← h.known.1, ← h.known.2]
  rw [namesText, List.append_assoc, List.append_assoc, List.cons_append, List.cons_append, stringToContextStruct,
    cut_append (symName_stop (hp.users _ hui)) (beq_self_eq_true _)]
  dsimp only
  rw [cut_append (symName_stop (hp.roles _ hri)) (beq_self_eq_true _)]
  dsimp only
  rw [htype, if_neg (Option.some_ne_none _), hu]
  dsimp only
  rw [if_neg (Option.some_ne_none _), hr]
  dsimp only
  rw [ht]
  dsimp only
  rw [h.ordinary t ht', if_neg Bool.false_ne_true, hread, Except.bind, hcontext]
  dsimp only
  rw [hlen, h.valid, if_neg Bool.false_ne_true.symm, namesText, List.append_assoc, List.cons_append]

theorem stringToContextStruct_contextText (hp : Plain p) (h : Held p c) {n : Nat} (hn : n ≤ (contextText p c).length + 1)
    (defcon : Option (Option Context)) : stringToContextStruct p ample (contextText p c) n defcon = .ok c := by
  have hs : rangeText p c = [] ∨ ∃ t, rangeText p c = ':' :: t := by
    rw [rangeText]
    split
    · exact Or.inl rfl
    · exact Or.inr ⟨_, rfl⟩
  rw [contextText, stringToContextStruct_names hp h hs (mlsContextToSid_rangeText hp h defcon), if_neg]
  rw [contextText, List.length_append] at hn
  omega

end roundTrip

section accepted

variable {p : Policydb} {memory : Nat → Bool} {e e' : Ebitmap}

theorem setBits_canonical {bs : List Nat} (h : Canonical e) (hbs : ∀ b ∈ bs, b < 2 ^ 31)
    (hset : setBits memory bs e = .ok e') : Canonical e' :=
  (Holds.setBits ⟨h, fun _ => Iff.rfl⟩ hbs hset).canonical

theorem readPiece_canonical {piece : Text} (hp : p.cats.Complete CatDatum.value) (h : Canonical e)
    (hread : readPiece p memory piece e = .ok e') : Canonical e' := by
  have hsmall := hp.small
  rw [readPiece] at hread
  split at hread
  · exact absurd hread (by simp)
  next d hd =>
  obtain ⟨hpos, hle⟩ := hp.bounded _ d hd
  obtain ⟨e₁, he₁, hrest⟩ := bind_eq_ok hread
  have h₁ : Canonical e₁ := by
    apply setBits_canonical h _ he₁
    intro b hb
    rw [List.mem_singleton.mp hb]
    bv_omega
  split at hrest
  · exact Except.ok.inj hrest ▸ h₁
  split at hrest
  · exact absurd hrest (by simp)
  next r hr =>
  obtain ⟨-, hrle⟩ := hp.bounded _ r hr
  split at hrest
  · exact absurd hrest (by simp)
  · apply setBits_canonical h₁ _ hrest
    intro b hb
    rw [List.mem_range'_1] at hb
    omega

theorem readCats_canonical {piece s : Text} {out : Ebitmap × Option Char × Text} (hp : p.cats.Complete CatDatum.value)
    (h : Canonical e) (hread : readCats p memory e piece s = .ok out) : Canonical out.1 := by
  induction s generalizing e piece with
  | nil =>
      obtain ⟨e₁, he₁, hout⟩ := bind_eq_ok hread
      exact Except.ok.inj hout ▸ readPiece_canonical hp h he₁
  | cons c s ih =>
      rw [readCats] at hread
      split at hread
      · obtain ⟨e₁, he₁, hout⟩ := bind_eq_ok hread
        exact ih (readPiece_canonical hp h he₁) hout
      split at hread
      · obtain ⟨e₁, he₁, hout⟩ := bind_eq_ok hread
        exact Except.ok.inj hout ▸ readPiece_canonical hp h he₁
      · exact ih h hread

theorem readLevel_canonical {field : Text × Option Char × Text} {out : MlsLevel × Option Char × Text}
    (hp : p.cats.Complete CatDatum.value) (hread : readLevel p memory field = .ok out) : Canonical out.1.cat := by
  rw [readLevel] at hread
  split at hread
  · exact absurd hread (by simp)
  split at hread
  · obtain ⟨cats, hcats, hout⟩ := bind_eq_ok hread
    exact Except.ok.inj hout ▸ readCats_canonical hp canonical_init hcats
  · exact Except.ok.inj hread ▸ canonical_init

theorem readRange_canonical {memory : Memory} {s : Text} {out : MlsLevel × MlsLevel × Text}
    (hp : p.cats.Complete CatDatum.value) (hread : readRange p memory s = .ok out) :
    Canonical out.1.cat ∧ Canonical out.2.1.cat := by
  obtain ⟨low, hlow, hrest⟩ := bind_eq_ok hread
  have hl := readLevel_canonical hp hlow
  split at hrest
  · obtain ⟨high, hhigh, hout⟩ := bind_eq_ok hrest
    exact Except.ok.inj hout ▸ ⟨hl, readLevel_canonical hp hhigh⟩
  split at hrest
  · exact absurd hrest (by simp)
  · exact Except.ok.inj hrest ▸ ⟨hl, hl⟩

/-- The default context, if there is one, has canonical category sets. -/
def Tidied (defcon : Option (Option Context)) : Prop :=
  ∀ c, defcon.join = some c → Canonical c.low.cat ∧ Canonical c.high.cat

theorem mlsContextToSid_canonical {memory : Memory} {oldc : Option Char} {s : Text} {defcon : Option (Option Context)}
    (hp : p.cats.Complete CatDatum.value) (hdef : Tidied defcon) {out : MlsLevel × MlsLevel × Nat}
    (hread : mlsContextToSid p memory oldc s defcon = .ok out) :
    Canonical out.1.cat ∧ Canonical out.2.1.cat ∧ (p.mlsEnabled = false → out.1 = levelInit ∧ out.2.1 = levelInit) := by
  rw [mlsContextToSid] at hread
  split at hread
  · exact Except.ok.inj hread ▸ ⟨canonical_init, canonical_init, fun _ => ⟨rfl, rfl⟩⟩
  next hmls =>
  split at hread
  · split at hread
    · exact absurd hread (by simp)
    next c hc =>
    split at hread
    · exact Except.ok.inj hread ▸ ⟨(hdef c hc).1, (hdef c hc).2, fun h => absurd h hmls⟩
    · exact absurd hread (by simp)
  · obtain ⟨range, hrange, hout⟩ := bind_eq_ok hread
    obtain ⟨hlow, hhigh⟩ := readRange_canonical hp hrange
    exact Except.ok.inj hout ▸ ⟨hlow, hhigh, fun h => absurd h hmls⟩

/-- What is known of the context of a text that is accepted. -/
structure Accepted (p : Policydb) (c : Context) : Prop where
  known : c.len = 0 ∧ c.str = []
  valid : policydbContextIsvalid p c = true
  canonical : Canonical c.low.cat ∧ Canonical c.high.cat
  unranged : p.mlsEnabled = false → c.low = levelInit ∧ c.high = levelInit
  type : ∃ nm t, p.types.search nm = some t ∧ t.isAttribute = false ∧ c.type = t.value

theorem accepted_of_stringToContextStruct (hp : p.cats.Complete CatDatum.value) {memory : Memory} {s : Text} {n : Nat}
    {defcon : Option (Option Context)} (hdef : Tidied defcon) {c : Context}
    (hread : stringToContextStruct p memory s n defcon = .ok c) : Accepted p c := by
  rw [stringToContextStruct] at hread
  dsimp only at hread
  split at hread
  · exact absurd hread (by simp)
  split at hread
  · exact absurd hread (by simp)
  split at hread
  · exact absurd hread (by simp)
  split at hread
  · exact absurd hread (by simp)
  split at hread
  · exact absurd hread (by simp)
  next t ht =>
  split at hread
  · exact absurd hread (by simp)
  next hordinary =>
  obtain ⟨out, hout, hrest⟩ := bind_eq_ok hread
  obtain ⟨hlow, hhigh, hnone⟩ := mlsContextToSid_canonical hp hdef hout
  split at hrest
  · exact absurd hrest (by simp)
  split at hrest
  · exact absurd hrest (by simp)
  next hvalid =>
  obtain rfl := Except.ok.inj hrest
  exact ⟨⟨rfl, rfl⟩, Bool.not_eq_false _ ▸ hvalid, ⟨hlow, hhigh⟩, hnone, _, t, ht, Bool.not_eq_true _ ▸ hordinary, rfl⟩

theorem held_of_stringToContextStruct (hp : Plain p) {memory : Memory} {s : Text} {n : Nat}
    {defcon : Option (Option Context)} (hdef : Tidied defcon) {c : Context}
    (hread : stringToContextStruct p memory s n defcon = .ok c) : Held p c := by
  have h := accepted_of_stringToContextStruct hp.complete.cats hdef hread
  obtain ⟨nm, t, ht, hordinary, htype⟩ := h.type
  refine ⟨h.known, h.valid, h.canonical.1, h.canonical.2, fun d hd => ?_, h.unranged⟩
  rw [htype] at hd
  rw [hp.aliases nm t d ht hd, hordinary]

end accepted

/-- A text that is accepted gives a context whose own text, which fills its
buffer, is read as the same context again, whatever length up to the whole
buffer comes with it and whatever default SID. -/
theorem stringToContextStruct_normalises (p : Policydb) (hp : Plain p) :
    (∀ memory s n defcon c, Tidied defcon → stringToContextStruct p memory s n defcon = .ok c → Held p c) ∧
    ∀ c, Held p c → ∃ s len, contextStructToString p true c = .ok (s, len) ∧ s.length + 1 = len ∧
      ∀ n ≤ len, ∀ defcon, stringToContextStruct p ample s n defcon = .ok c := by
  constructor
  · intro memory s n defcon c hdef hread
    exact held_of_stringToContextStruct hp hdef hread
  · intro c hc
    refine ⟨contextText p c, _, contextStructToString_eq p hc.known.1, rfl, ?_⟩
    intro n hn defcon
    exact stringToContextStruct_contextText hp hc hn defcon

def fourCats : Ebitmap := ⟨[⟨0, 15#128⟩], 128⟩

def staffPolicy : Policydb where
  mlsEnabled := true
  classes := listed [] fun _ => ⟨[], []⟩
  roles := listed [['o', 'b', 'j'], ['r']] fun i => ⟨BitVec.ofNat 32 (i + 1), ebitmapInit, ⟨[⟨0, 1#128⟩], 128⟩⟩
  types := listed [['t']] fun i => ⟨BitVec.ofNat 32 (i + 1), 0, false⟩
  users := listed [['u']] fun i => ⟨BitVec.ofNat 32 (i + 1), ⟨[⟨0, 3#128⟩], 128⟩, ⟨1, ebitmapInit⟩, ⟨2, fourCats⟩⟩
  levels := listed [['s', '0'], ['s', '1']] fun i => ⟨⟨BitVec.ofNat 32 (i + 1), fourCats⟩⟩
  cats := listed [['c', '0'], ['c', '1'], ['c', '2'], ['c', '3']] fun i => ⟨BitVec.ofNat 32 (i + 1)⟩
  typeAttrMap := [⟨[⟨0, 1#128⟩], 128⟩]
  teAvtab := avtabInit
  teCondAvtab := avtabInit
  roleAllow := []
  processClass := 0
  processTransPerms := 0

theorem lt_of_getBit_fourCats {b : Nat} (h : ebitmapGetBit fourCats b = true) : b < 4 := by
  have hsmall : ∀ b < 129, ebitmapGetBit fourCats b = true → b < 4 := by decide
  apply hsmall b _ h
  by_contra hlt
  have hbeyond : fourCats.highbit < b := Nat.lt_of_succ_le (Nat.le_of_not_lt hlt)
  rw [ebitmapGetBit, if_pos hbeyond] at h
  exact absurd h Bool.false_ne_true

theorem plain_staffPolicy : Plain staffPolicy where
  complete := by
    constructor <;> simp only [staffPolicy] <;> exact listed_complete (by decide) (by decide) (by decide)
  users := by decide
  roles := by decide
  types := by decide
  levels := by decide
  cats := by decide
  aliases := by
    intro nm d d' hd hd'
    simp only [staffPolicy, listed, Symtab.valToStruct] at hd hd'
    grind
  levelCats := by
    intro nm d hd b hb
    have hcat : d.level.cat = fourCats := by
      simp only [staffPolicy, listed] at hd
      grind
    rw [hcat] at hb
    exact lt_of_getBit_fourCats hb

/-- The text u:r:t:s0:c0,c1-s1:c3,c2,c1.c2,c0 and its context. -/
def staffText : Text :=
  ['u', ':', 'r', ':', 't', ':', 's', '0', ':', 'c', '0', ',', 'c', '1', '-',
    's', '1', ':', 'c', '3', ',', 'c', '2', ',', 'c', '1', '.', 'c', '2', ',', 'c', '0']

def staffContext : Context :=
  { user := 1, role := 2, type := 1, low := ⟨1, ⟨[⟨0, 3#128⟩], 128⟩⟩, high := ⟨2, fourCats⟩ }

theorem stringToContextStruct_normalises_staff : Held staffPolicy staffContext ∧
    ∃ s len, contextStructToString staffPolicy true staffContext = .ok (s, len) ∧ s.length + 1 = len ∧
      ∀ n ≤ len, ∀ defcon, stringToContextStruct staffPolicy ample s n defcon = .ok staffContext := by
  obtain ⟨haccepted, hback⟩ := stringToContextStruct_normalises staffPolicy plain_staffPolicy
  have hheld : Held staffPolicy staffContext := by
    apply haccepted ample staffText 32 none
    · intro c hc
      exact absurd hc.symm (Option.some_ne_none _)
    · rfl
  exact ⟨hheld, hback staffContext hheld⟩

end PigaLinux.ContextText
