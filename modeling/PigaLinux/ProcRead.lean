import PigaLinux.Kernel

namespace PigaLinux.ProcRead

open Kernel

def pageSize : Nat := 4096

def procBlockSize : Nat := pageSize - 1024

def maxNonLfs : Nat := 0x7fffffff

/-- The variables of a read: `room` is how much of the user's buffer can be
written, `out` what was copied there, and `error` the result when nothing was. -/
structure Progress (σ : Type) where
  nbytes : Nat
  room : Nat
  ppos : Nat
  state : σ
  out : List Char
  error : Int

variable {σ : Type}

/-- One round of the loop, with whether the loop goes on. -/
def round (readProc : σ → Nat → List Char × σ) (r : Progress σ) : Progress σ × Bool :=
  let count := min procBlockSize r.nbytes
  let page := (readProc r.state r.ppos).1
  let r := { r with state := (readProc r.state r.ppos).2 }
  if page.length = 0 then (r, false)
  else
    -- start is NULL: the text begins with the page, and what comes before the offset is passed over
    let n := min page.length pageSize - r.ppos
    if n = 0 then (r, false)
    else
      let n := min (min n count) r.room
      if n = 0 then ({ r with error := if r.out = [] then -efault else r.error }, false)
      else
        ({ r with nbytes := r.nbytes - n, room := r.room - n, ppos := r.ppos + n,
                  out := r.out ++ (page.drop r.ppos).take n }, true)

/-- The loop. Each round that goes on copies a byte at least, so nbytes rounds are enough. -/
def rounds (readProc : σ → Nat → List Char × σ) : Nat → Progress σ → Progress σ
  | 0, r => r
  | fuel + 1, r =>
      if r.nbytes = 0 then r
      else
        let (r, more) := round readProc r
        if more then rounds readProc fuel r else r

structure Result (σ : Type) where
  retval : Int
  out : List Char
  ppos : Nat
  state : σ

/-- One read(2) of the file: the outcome of the page's allocation, the size
asked for, how much of the buffer can be written, and the file position. -/
def procFileRead (readProc : σ → Nat → List Char × σ) (alloc : Bool) (nbytes room ppos : Nat) (state : σ) : Result σ :=
  if ppos > maxNonLfs then ⟨0, [], ppos, state⟩
  else
    let nbytes := min nbytes (maxNonLfs - ppos)
    if alloc = false then ⟨-enomem, [], ppos, state⟩
    else
      let r := rounds readProc nbytes ⟨nbytes, room, ppos, state, [], 0⟩
      ⟨if r.out = [] then r.error else r.out.length, r.out, r.ppos, r.state⟩

/-- A client that reads with the given sizes, into buffers of these sizes, until a read gives nothing. There
is no result when that takes more reads than fuel. -/
def readUntilEof (readProc : σ → Nat → List Char × σ) (sizes : Nat → Nat) :
    Nat → Nat → Nat → σ → Option (List Char × σ)
  | 0, _, _, _ => none
  | fuel + 1, i, ppos, state =>
      let r := procFileRead readProc true (sizes i) (sizes i) ppos state
      if r.retval ≤ 0 then some ([], r.state)
      else (readUntilEof readProc sizes fuel (i + 1) r.ppos r.state).map fun x => (r.out ++ x.1, x.2)

section oneShot

structure OneShot (readProc : σ → Nat → List Char × σ) (text : σ → List Char) (next : σ → σ) : Prop where
  first : ∀ s, readProc s 0 = (text s, next s)
  later : ∀ s i, 0 < i → readProc s i = ([], s)
  nonempty : ∀ s, text s ≠ []
  short : ∀ s, (text s).length ≤ procBlockSize

variable {readProc : σ → Nat → List Char × σ} {text : σ → List Char} {next : σ → σ} (h : OneShot readProc text next)
include h

theorem rounds_later (fuel : Nat) (r : Progress σ) (hpos : 0 < r.ppos) : rounds readProc fuel r = r := by
  cases fuel with
  | zero => rfl
  | succ fuel =>
      rw [rounds]
      split
      · rfl
      · simp [round, h.later r.state r.ppos hpos]

theorem procFileRead_later (size room : Nat) {ppos : Nat} (hpos : 0 < ppos) (s : σ) :
    procFileRead readProc true size room ppos s = ⟨0, [], ppos, s⟩ := by
  have hrounds := rounds_later h (min size (maxNonLfs - ppos)) ⟨min size (maxNonLfs - ppos), room, ppos, s, [], 0⟩ hpos
  rw [procFileRead]
  split
  · rfl
  · simp [hrounds]

theorem round_first {nbytes room : Nat} (hnbytes : 0 < nbytes) (hroom : 0 < room) (s : σ) :
    round readProc ⟨nbytes, room, 0, s, [], 0⟩ =
      let n := min (text s).length (min nbytes room)
      (⟨nbytes - n, room - n, n, next s, (text s).take n, 0⟩, true) := by
  have hlen := List.length_pos_iff.mpr (h.nonempty s)
  have hshort := h.short s
  have hblock : procBlockSize ≤ pageSize := by decide
  have hpage : min (text s).length pageSize = (text s).length := Nat.min_eq_left (Nat.le_trans hshort hblock)
  have hcount : min (min (text s).length (min procBlockSize nbytes)) room = min (text s).length (min nbytes room) := by omega
  have hpos : min (text s).length (min nbytes room) ≠ 0 := by omega
  simp only [round, h.first, hpage, Nat.sub_zero, hcount, if_neg (Nat.ne_of_gt hlen), if_neg hpos]
  simp

theorem procFileRead_first {size : Nat} (hsize : 0 < size) (s : σ) :
    procFileRead readProc true size size 0 s =
      ⟨((text s).take size).length, (text s).take size, ((text s).take size).length, next s⟩ := by
  have hlen := List.length_pos_iff.mpr (h.nonempty s)
  have hshort : (text s).length ≤ 3072 := h.short s
  have hmax : maxNonLfs = 2147483647 := rfl
  obtain ⟨fuel, hfuel⟩ : ∃ fuel, min size (maxNonLfs - 0) = fuel + 1 := ⟨min size (maxNonLfs - 0) - 1, by omega⟩
  have hn : min (text s).length (min (fuel + 1) size) = min size (text s).length := by omega
  have hpos : 0 < min size (text s).length := by omega
  have hout : (text s).take (min size (text s).length) = (text s).take size := by
    rw [← List.take_eq_take_min]
  rw [procFileRead, if_neg (by omega), hfuel, if_neg (by decide), rounds, if_neg (by simp), round_first h (Nat.succ_pos _) hsize]
  have hne : (text s).take size ≠ [] := List.ne_nil_of_length_pos (by rwa [List.length_take])
  simp only [hn, hout, if_true]
  rw [rounds_later h _ _ hpos]
  simp only [if_neg hne, List.length_take]

theorem readUntilEof_eq {sizes : Nat → Nat} (hsizes : ∀ i, 0 < sizes i) (fuel : Nat) (s : σ) :
    readUntilEof readProc sizes (fuel + 2) 0 0 s = some ((text s).take (sizes 0), next s) := by
  have hpos : 0 < ((text s).take (sizes 0)).length := by
    have hlen := List.length_pos_iff.mpr (h.nonempty s)
    have hsize := hsizes 0
    rw [List.length_take]
    omega
  have hret : ¬((((text s).take (sizes 0)).length : Nat) : Int) ≤ 0 := by omega
  rw [readUntilEof, procFileRead_first h (hsizes 0)]
  dsimp only
  rw [if_neg hret, readUntilEof, procFileRead_later h _ _ hpos]
  simp

end oneShot

end PigaLinux.ProcRead
