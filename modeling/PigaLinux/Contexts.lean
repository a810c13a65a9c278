import PigaLinux.ExtensibleBitmap

namespace PigaLinux.Contexts

open Kernel ExtensibleBitmap

abbrev Text := List Char

structure MlsLevel where
  sens : U32
  cat : Ebitmap
deriving DecidableEq, Repr

/-- A context: three numbers of the policy and a range, or, when `len` is not
0, a string that the policy does not know. -/
structure Context where
  user : U32
  role : U32
  type : U32
  low : MlsLevel
  high : MlsLevel
  len : U32 := 0
  str : Text := []
deriving DecidableEq, Repr

def mlsLevelEq (l1 l2 : MlsLevel) : Bool := l1.sens == l2.sens && ebitmapCmp l1.cat l2.cat

def mlsLevelDom (l1 l2 : MlsLevel) : Bool := l2.sens ≤ l1.sens && ebitmapContains l1.cat l2.cat

def mlsLevelIncomp (l1 l2 : MlsLevel) : Bool := !mlsLevelDom l1 l2 && !mlsLevelDom l2 l1

def mlsContextCmp (c1 c2 : Context) : Bool :=
  c1.low.sens == c2.low.sens && ebitmapCmp c1.low.cat c2.low.cat && c1.high.sens == c2.high.sens &&
    ebitmapCmp c1.high.cat c2.high.cat

def contextCmp (c1 c2 : Context) : Bool :=
  if c1.len ≠ 0 ∧ c2.len ≠ 0 then c1.len == c2.len && c1.str == c2.str
  else if c1.len ≠ 0 ∨ c2.len ≠ 0 then false
  else c1.user == c2.user && c1.role == c2.role && c1.type == c2.type && mlsContextCmp c1 c2

/-- What a context stands for, once its spare fields are left out: with the bitmaps
of its categories, or with the categories themselves. -/
inductive Sense (γ : Type)
  | known (user role type lowSens highSens : U32) (lowCat highCat : γ)
  | unknown (len : U32) (str : Text)

def sense {γ : Type} (cats : Ebitmap → γ) (c : Context) : Sense γ :=
  if c.len = 0 then .known c.user c.role c.type c.low.sens c.high.sens (cats c.low.cat) (cats c.high.cat)
  else .unknown c.len c.str

def spelling : Context → Sense Ebitmap := sense id

def meaning : Context → Sense (Nat → Bool) := sense ebitmapGetBit

def Cats (P : Ebitmap → Prop) (c : Context) : Prop := c.len = 0 → P c.low.cat ∧ P c.high.cat

section sense

variable {γ : Type} {cats : Ebitmap → γ} {c d : Context}

theorem sense_known (h : c.len = 0) :
    sense cats c = .known c.user c.role c.type c.low.sens c.high.sens (cats c.low.cat) (cats c.high.cat) := if_pos h

theorem sense_unknown (h : c.len ≠ 0) : sense cats c = .unknown c.len c.str := if_neg h

theorem sense_eq_iff : sense cats c = sense cats d ↔
    (c.len ≠ 0 ∧ c.len = d.len ∧ c.str = d.str) ∨
      (c.len = 0 ∧ d.len = 0 ∧ c.user = d.user ∧ c.role = d.role ∧ c.type = d.type ∧ c.low.sens = d.low.sens ∧
        c.high.sens = d.high.sens ∧ cats c.low.cat = cats d.low.cat ∧ cats c.high.cat = cats d.high.cat) := by
  by_cases hc : c.len = 0#32 <;> by_cases hd : d.len = 0#32
  · simp [sense_known hc, sense_known hd, hc, hd]
  · simp [sense_known hc, sense_unknown hd, hc, hd]
  · simp [sense_unknown hc, sense_known hd, hc, hd]
  · simp [sense_unknown hc, sense_unknown hd, hc, hd]

theorem ebitmapCmp_iff {e e' : Ebitmap} : ebitmapCmp e e' = true ↔ e = e' := by
  rw [ebitmapCmp]
  constructor
  · intro h
    split at h
    · cases h
    next hhigh =>
      cases e
      cases e'
      exact congr (congrArg Ebitmap.mk (cmpLoop_iff.mp h)) (not_not.mp hhigh)
  · rintro rfl
    rw [if_neg (not_not.mpr rfl)]
    exact cmpLoop_iff.mpr rfl

theorem contextCmp_iff : contextCmp c d = true ↔ spelling c = spelling d := by
  rw [spelling, sense_eq_iff, contextCmp]
  by_cases hc : c.len = 0#32 <;> by_cases hd : d.len = 0#32
  · simp [hc, hd, mlsContextCmp, ebitmapCmp_iff]
    tauto
  · simp [hc, hd]
  · simp [hc, hd]
  · simp [hc, hd]

theorem meaning_of_spelling (h : spelling c = spelling d) : meaning c = meaning d := by
  rw [spelling, sense_eq_iff] at h
  rw [meaning, sense_eq_iff]
  rcases h with h | ⟨hc, hd, hu, hr, ht, hls, hhs, hlc, hhc⟩
  · exact .inl h
  · exact .inr ⟨hc, hd, hu, hr, ht, hls, hhs, congrArg _ hlc, congrArg _ hhc⟩

theorem Cats.of_spelling {P : Ebitmap → Prop} (h : Cats P c) (hs : spelling c = spelling d) : Cats P d := by
  intro hd
  rw [spelling, sense_eq_iff] at hs
  rcases hs with ⟨hc, hlen, -⟩ | ⟨hc, -, -, -, -, -, -, hlc, hhc⟩
  · exact absurd (hlen.trans hd) hc
  · obtain ⟨hl, hh⟩ := h hc
    exact ⟨(show c.low.cat = d.low.cat from hlc) ▸ hl, (show c.high.cat = d.high.cat from hhc) ▸ hh⟩

theorem canonical_ext {e e' : Ebitmap} (h : Canonical e) (h' : Canonical e') (hbits : ebitmapGetBit e = ebitmapGetBit e') :
    e = e' := by
  apply h.ext h'
  intro b
  rw [← h.laid.getBit, ← h'.laid.getBit, hbits]

/-- In normal form the bitmaps are determined by the categories. -/
theorem spelling_of_meaning (hc : Cats Canonical c) (hd : Cats Canonical d) (h : meaning c = meaning d) :
    spelling c = spelling d := by
  rw [meaning, sense_eq_iff] at h
  rw [spelling, sense_eq_iff]
  rcases h with h | ⟨hcl, hdl, hu, hr, ht, hls, hhs, hlc, hhc⟩
  · exact .inl h
  · obtain ⟨hcl', hch'⟩ := hc hcl
    obtain ⟨hdl', hdh'⟩ := hd hdl
    exact .inr ⟨hcl, hdl, hu, hr, ht, hls, hhs, canonical_ext hcl' hdl' hlc, canonical_ext hch' hdh' hhc⟩

theorem exists_normal (h : Cats Laid c) : ∃ d, Cats Canonical d ∧ meaning d = meaning c := by
  by_cases hc : c.len = 0
  · obtain ⟨hl, hh⟩ := h hc
    refine ⟨{ c with low := ⟨c.low.sens, normalForm c.low.cat⟩, high := ⟨c.high.sens, normalForm c.high.cat⟩ },
      fun _ => ⟨hl.normalForm_canonical, hh.normalForm_canonical⟩, ?_⟩
    rw [meaning, sense_eq_iff]
    exact .inr ⟨hc, hc, rfl, rfl, rfl, rfl, rfl, hl.normalForm_getBit, hh.normalForm_getBit⟩
  · exact ⟨c, fun h => absurd h hc, rfl⟩

end sense

end PigaLinux.Contexts
