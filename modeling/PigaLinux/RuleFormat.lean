import PigaLinux.BitmapFormat
import PigaLinux.RuleTable

namespace PigaLinux.RuleFormat

open Kernel Bytes SortedLists RuleTable

structure Symbols where
  types : Nat
  classes : Nat
deriving DecidableEq, Repr

def policydbTypeIsvalid (p : Symbols) (type : Nat) : Bool := type ≠ 0 && type ≤ p.types

def policydbClassIsvalid (p : Symbols) (tclass : Nat) : Bool := tclass ≠ 0 && tclass ≤ p.classes

def specOrder : List U16 :=
  [avtabAllowed, avtabAuditdeny, avtabAuditallow, avtabTransition, avtabChange, avtabMember]

/-- A rule in the format since POLICYDB_VERSION_AVTAB, which alone is read here;
what becomes of it is up to the caller. -/
def avtabReadItem {σ : Type} (p : Symbols) (insertf : AvtabKey → U32 → σ → Except Int σ) (st : σ) (fp : List Byte) :
    Except Int (σ × List Byte) :=
  (nextEntry 8 fp).bind fun (buf, fp) =>
    let key : AvtabKey := ⟨leValue (buf.take 2), leValue ((buf.drop 2).take 2), leValue ((buf.drop 4).take 2),
      BitVec.ofNat 16 (leValue (buf.drop 6))⟩
    if !policydbTypeIsvalid p key.sourceType || !policydbTypeIsvalid p key.targetType ||
        !policydbClassIsvalid p key.targetClass then .error (-einval)
    else if (specOrder.filter fun spec => key.specified &&& spec != 0).length ≠ 1 then .error (-einval)
    else (nextEntry 4 fp).bind fun (buf, fp) =>
      if key.specified &&& avtabType ≠ 0 ∧ policydbTypeIsvalid p (leValue buf) = false then .error (-einval)
      else (insertf key (BitVec.ofNat 32 (leValue buf)) st).map fun st => (st, fp)

def avtabInsertf (allocated : Nat → Bool) (key : AvtabKey) (data : U32) (h : Avtab) : Except Int Avtab :=
  let out := avtabInsert (allocated h.nel) h key data
  if out.1 = 0 then .ok out.2 else .error out.1

def readItems (p : Symbols) (allocated : Nat → Bool) : Nat → Avtab → List Byte → Except Int (Avtab × List Byte)
  | 0, h, fp => .ok (h, fp)
  | n + 1, h, fp => (avtabReadItem p (avtabInsertf allocated) h fp).bind fun (h, fp) => readItems p allocated n h fp

def avtabRead (p : Symbols) (slots : Bool) (allocated : Nat → Bool) (fp : List Byte) : Except Int (Avtab × List Byte) :=
  (nextEntry 4 fp).bind fun (buf, fp) =>
    if leValue buf = 0 then .error (-einval)
    else (avtabAlloc slots avtabInit (leValue buf)).bind fun h => readItems p allocated (leValue buf) h fp

def avtabWriteItem (n : AvtabNode) : List Byte :=
  leBytes 2 n.key.sourceType ++ leBytes 2 n.key.targetType ++ leBytes 2 n.key.targetClass ++
    leBytes 2 n.key.specified.toNat ++ leBytes 4 n.data.toNat

def avtabWrite (h : Avtab) : List Byte :=
  leBytes 4 h.nel ++ (List.range h.nslot).flatMap fun i => (chain h i).flatMap avtabWriteItem

section items

variable {σ : Type} {p : Symbols} {n : AvtabNode}

structure Readable (p : Symbols) (key : AvtabKey) (data : U32) : Prop where
  source : policydbTypeIsvalid p key.sourceType = true ∧ key.sourceType < 2 ^ 16
  target : policydbTypeIsvalid p key.targetType = true ∧ key.targetType < 2 ^ 16
  tclass : policydbClassIsvalid p key.targetClass = true ∧ key.targetClass < 2 ^ 16
  single : (specOrder.filter fun spec => key.specified &&& spec != 0).length = 1
  type : key.specified &&& avtabType ≠ 0 → policydbTypeIsvalid p data.toNat = true

theorem leValue_lt_of_length {bs : List Byte} {k : Nat} (h : bs.length ≤ k) : leValue bs < 256 ^ k :=
  Nat.lt_of_lt_of_le (leValue_lt bs) (Nat.pow_le_pow_right (by decide) h)

theorem length_of_nextEntry {bytes : Nat} {fp buf rest : List Byte} (h : nextEntry bytes fp = .ok (buf, rest)) :
    buf.length = bytes := by
  rw [nextEntry] at h
  split at h
  · cases h
  next hle =>
    obtain ⟨rfl, -⟩ := Prod.mk.inj (Except.ok.inj h)
    exact List.length_take_of_le (Nat.le_of_not_gt hle)

theorem map_eq_ok {α β : Type} {x : Except Int α} {f : α → β} {b : β} (h : x.map f = .ok b) : ∃ a, x = .ok a ∧ f a = b := by
  cases x with
  | error err => cases h
  | ok a => exact ⟨a, rfl, Except.ok.inj h⟩

theorem avtabReadItem_cases {insertf : AvtabKey → U32 → σ → Except Int σ} {st : σ} {fp : List Byte} {out : σ × List Byte}
    (h : avtabReadItem p insertf st fp = .ok out) :
    ∃ key data, Readable p key data ∧ insertf key data st = .ok out.1 := by
  rw [avtabReadItem] at h
  obtain ⟨⟨buf, fp'⟩, hbuf, h⟩ := bind_eq_ok h
  dsimp only at h
  split at h
  · cases h
  next hvalid =>
    split at h
    · cases h
    next hsingle =>
      obtain ⟨⟨buf', fp''⟩, hbuf', h⟩ := bind_eq_ok h
      dsimp only at h
      split at h
      · cases h
      next htype =>
        obtain ⟨st', hinsert, rfl⟩ := map_eq_ok h
        have hlen := length_of_nextEntry hbuf
        have hlen' := length_of_nextEntry hbuf'
        have hdata : (BitVec.ofNat 32 (leValue buf')).toNat = leValue buf' :=
          Nat.mod_eq_of_lt (leValue_lt_of_length (Nat.le_of_eq hlen'))
        simp only [Bool.or_eq_true, Bool.not_eq_true', not_or, Bool.not_eq_false] at hvalid
        refine ⟨_, _, ?_, hinsert⟩
        refine ⟨⟨hvalid.1.1, ?_⟩, ⟨hvalid.1.2, ?_⟩, ⟨hvalid.2, ?_⟩, not_not.mp hsingle, ?_⟩
        · exact leValue_lt_of_length (List.length_take_le _ _)
        · exact leValue_lt_of_length (List.length_take_le _ _)
        · exact leValue_lt_of_length (List.length_take_le _ _)
        · intro hne
          rw [hdata]
          exact Bool.not_eq_false _ ▸ fun hfalse => htype ⟨hne, hfalse⟩

theorem fields_of_append {a b c d : List Byte} (ha : a.length = 2) (hb : b.length = 2) (hc : c.length = 2) :
    (a ++ b ++ c ++ d).take 2 = a ∧ ((a ++ b ++ c ++ d).drop 2).take 2 = b ∧ ((a ++ b ++ c ++ d).drop 4).take 2 = c ∧
      (a ++ b ++ c ++ d).drop 6 = d := by
  refine ⟨?_, ?_, ?_, List.drop_left' (by simp [ha, hb, hc])⟩
  · rw [List.append_assoc, List.append_assoc, List.take_left' ha]
  · rw [List.append_assoc, List.append_assoc, List.drop_left' ha, List.take_left' hb]
  · rw [List.append_assoc, List.drop_left' (by simp [ha, hb]), List.take_left' hc]

theorem avtabReadItem_writeItem (insertf : AvtabKey → U32 → σ → Except Int σ) (h : Readable p n.key n.data) (st : σ)
    (rest : List Byte) :
    avtabReadItem p insertf st (avtabWriteItem n ++ rest) = (insertf n.key n.data st).map fun st => (st, rest) := by
  have htwo := length_leBytes 2
  have hkey : (leBytes 2 n.key.sourceType ++ leBytes 2 n.key.targetType ++ leBytes 2 n.key.targetClass ++
      leBytes 2 n.key.specified.toNat).length = 8 := by
    simp [length_leBytes]
  have hspecified : BitVec.ofNat 16 (leValue (leBytes 2 n.key.specified.toNat)) = n.key.specified := by
    rw [leValue_leBytes_of_lt n.key.specified.isLt, BitVec.ofNat_toNat, BitVec.setWidth_eq]
  have hdata : leValue (leBytes 4 n.data.toNat) = n.data.toNat := leValue_leBytes_of_lt n.data.isLt
  rw [avtabReadItem, avtabWriteItem, List.append_assoc, nextEntry_append hkey]
  dsimp only [Except.bind]
  rw [nextEntry_append (length_leBytes 4 n.data.toNat)]
  dsimp only
  obtain ⟨hfirst, hsecond, hthird, hfourth⟩ := fields_of_append (d := leBytes 2 n.key.specified.toNat)
    (htwo n.key.sourceType) (htwo n.key.targetType) (htwo n.key.targetClass)
  rw [hfirst, hsecond, hthird, hfourth, leValue_leBytes_of_lt h.source.2, leValue_leBytes_of_lt h.target.2,
    leValue_leBytes_of_lt h.tclass.2, hspecified, hdata, h.source.1, h.target.1, h.tclass.1, if_neg (by decide),
    if_neg (not_not.mpr h.single), if_neg, BitVec.ofNat_toNat, BitVec.setWidth_eq]
  rintro ⟨hne, hinvalid⟩
  rw [h.type hne] at hinvalid
  cases hinvalid

end items

section tables

variable {p : Symbols} {allocated : Nat → Bool} {h t : Avtab} {n : AvtabNode} {ns rs : List AvtabNode}

def rule (n : AvtabNode) : AvtabKey × U32 := (n.key, n.data)

structure Sound (p : Symbols) (h : Avtab) (rs : List AvtabNode) : Prop where
  holds : Holds h rs
  readable : ∀ n ∈ rs, Readable p n.key n.data
  distinct : rs.Pairwise fun n m => matching m.key n = false

theorem avtabInsert_frame (allocated : Bool) (h : Avtab) (key : AvtabKey) (data : U32) :
    (avtabInsert allocated h key data).2.nslot = h.nslot ∧ (avtabInsert allocated h key data).2.mask = h.mask := by
  rw [avtabInsert]
  split
  · exact ⟨rfl, rfl⟩
  · split
    · exact ⟨rfl, rfl⟩
    · split
      · exact ⟨rfl, rfl⟩
      · exact ⟨rfl, rfl⟩

theorem Sound.insertf (hs : Sound p h rs) {key : AvtabKey} {data : U32} (hr : Readable p key data)
    (hinsert : avtabInsertf allocated key data h = .ok t) :
    Sound p t (rs ++ [⟨rs.length, key, data⟩]) ∧ t.nslot = h.nslot ∧ t.mask = h.mask := by
  obtain ⟨hholds, hrc⟩ := hs.holds.insert (allocated h.nel) key data
  rw [avtabInsertf] at hinsert
  split at hinsert
  next hzero =>
    obtain rfl := Except.ok.inj hinsert
    rw [hzero] at hrc
    have hany : rs.any (matching key) = false := by
      apply Bool.eq_false_iff.mpr
      intro hany
      rw [if_pos hany] at hrc
      cases hrc
    have hallocated : allocated h.nel = true := by
      by_contra hno
      rw [hany, if_neg Bool.false_ne_true, if_neg hno] at hrc
      cases hrc
    rw [hallocated]
    rw [specStep, hany, hallocated] at hholds
    refine ⟨⟨hholds, ?_, ?_⟩, avtabInsert_frame _ h key data⟩
    · exact List.forall_mem_append.mpr ⟨hs.readable, fun _ hn => List.mem_singleton.mp hn ▸ hr⟩
    · refine List.pairwise_append.mpr ⟨hs.distinct, List.pairwise_singleton _ _, ?_⟩
      intro n hn m hm
      rw [List.mem_singleton.mp hm]
      exact Bool.eq_false_iff.mpr fun hmatch => List.any_eq_false.mp hany n hn hmatch
  next => cases hinsert

theorem Sound.readItems {n : Nat} {fp rest : List Byte} (hs : Sound p h rs)
    (hread : readItems p allocated n h fp = .ok (t, rest)) :
    (∃ rs', Sound p t rs' ∧ rs'.length = rs.length + n) ∧ t.nslot = h.nslot ∧ t.mask = h.mask := by
  induction n generalizing h rs fp with
  | zero =>
      obtain ⟨rfl, -⟩ := Prod.mk.inj (Except.ok.inj hread)
      exact ⟨⟨rs, hs, rfl⟩, rfl, rfl⟩
  | succ n ih =>
      rw [RuleFormat.readItems] at hread
      obtain ⟨⟨h', fp'⟩, hitem, hread⟩ := bind_eq_ok hread
      obtain ⟨key, data, hr, hinsert⟩ := avtabReadItem_cases hitem
      obtain ⟨hs', hslot, hmask⟩ := hs.insertf hr hinsert
      obtain ⟨⟨rs', hsound, hlen⟩, hslot', hmask'⟩ := ih hs' hread
      refine ⟨⟨rs', hsound, ?_⟩, hslot'.trans hslot, hmask'.trans hmask⟩
      rw [hlen, List.length_append, List.length_singleton]
      omega

theorem matching_symm {n m : AvtabNode} (h : matching m.key n = false) : matching n.key m = false := by
  apply Bool.eq_false_iff.mpr
  intro hmatch
  obtain ⟨htriple, hshares⟩ := wanted_iff.mp hmatch
  apply Bool.eq_false_iff.mp h
  refine wanted_iff.mpr ⟨htriple.symm, ?_⟩
  rwa [shares, plain, BitVec.and_comm, BitVec.and_comm n.key.specified, ← BitVec.and_assoc] at hshares

theorem avtabInsertf_snoc (hready : h.htable.isSome = true)
    (hle : ∀ m ∈ chain h (avtabHash n.key h.mask), nodeTriple m ≤ nodeTriple n)
    (hdistinct : ∀ m ∈ chain h (avtabHash n.key h.mask), matching n.key m = false) :
    ∃ t, avtabInsertf (fun _ => true) n.key n.data h = .ok t ∧ t.htable.isSome = true ∧ t.nel = h.nel + 1 ∧
      t.nslot = h.nslot ∧ t.mask = h.mask ∧
      ∀ i, (chain t i).map rule = (chain h i).map rule ++ if avtabHash n.key h.mask = i then [rule n] else [] := by
  obtain ⟨tab, htab⟩ := Option.isSome_iff_exists.mp hready
  have hchain : ∀ i, chain h i = tab i := fun i => by rw [chain, htab]
  rw [hchain] at hle hdistinct
  have hloop : insertLoop true (plain n.key.specified) ⟨h.nel, n.key, n.data⟩ (tab (avtabHash n.key h.mask)) =
      some (tab (avtabHash n.key h.mask) ++ [⟨h.nel, n.key, n.data⟩]) := insertLoop_snoc true hle hdistinct
  have hinsert : avtabInsertf (fun _ => true) n.key n.data h = .ok { h with
      htable := some (Function.update tab (avtabHash n.key h.mask)
        (tab (avtabHash n.key h.mask) ++ [⟨h.nel, n.key, n.data⟩]))
      nel := h.nel + 1 } := by
    simp only [avtabInsertf, avtabInsert, htab, hloop, if_true]
  refine ⟨_, hinsert, rfl, rfl, rfl, rfl, fun i => ?_⟩
  change (Function.update tab _ _ i).map rule = _
  rw [hchain]
  split
  next hi =>
    subst hi
    rw [Function.update_self, List.map_append]
    rfl
  next hi => rw [Function.update_of_ne (Ne.symm hi), List.append_nil]

/-- The items of a table in the order of its chains, read into an empty table. -/
theorem readItems_writeItems {r : List AvtabNode} (hready : h.htable.isSome = true)
    (hchain : ∀ i, (chain h i).map rule = (r.filter fun n => avtabHash n.key h.mask = i).map rule)
    (hreadable : ∀ n ∈ ns, Readable p n.key n.data)
    (hsorted : ∀ i, Sorted nodeTriple ((r ++ ns).filter fun n => avtabHash n.key h.mask = i))
    (hdistinct : (r ++ ns).Pairwise fun n m => matching m.key n = false) (rest : List Byte) :
    ∃ t, readItems p (fun _ => true) ns.length h (ns.flatMap avtabWriteItem ++ rest) = .ok (t, rest) ∧
      t.nel = h.nel + ns.length ∧ t.nslot = h.nslot ∧
      ∀ i, (chain t i).map rule = ((r ++ ns).filter fun n => avtabHash n.key h.mask = i).map rule := by
  induction ns generalizing h r with
  | nil =>
      rw [List.append_nil]
      exact ⟨h, rfl, rfl, rfl, hchain⟩
  | cons n ns ih =>
      obtain ⟨hn, hreadable⟩ := List.forall_mem_cons.mp hreadable
      have hsplit : r ++ n :: ns = r ++ [n] ++ ns := by rw [List.append_assoc]; rfl
      rw [hsplit] at hsorted hdistinct ⊢
      -- what stands in the chain of the rule was read before it
      have hbefore : ∀ m ∈ chain h (avtabHash n.key h.mask), ∃ m' ∈ r, m'.key = m.key ∧
          avtabHash m'.key h.mask = avtabHash n.key h.mask := by
        intro m hm
        have hmem := List.mem_map_of_mem (f := rule) hm
        rw [hchain, List.mem_map] at hmem
        obtain ⟨m', hm', heq⟩ := hmem
        rw [List.mem_filter, decide_eq_true_iff] at hm'
        exact ⟨m', hm'.1, (Prod.mk.inj heq).1, hm'.2⟩
      have hhash : decide (avtabHash n.key h.mask = avtabHash n.key h.mask) = true := decide_eq_true rfl
      have hle : ∀ m ∈ chain h (avtabHash n.key h.mask), nodeTriple m ≤ nodeTriple n := by
        intro m hm
        obtain ⟨m', hm', hkey, hslot⟩ := hbefore m hm
        have hrun := hsorted (avtabHash n.key h.mask)
        rw [List.filter_append, List.filter_append] at hrun
        have hpair := (List.pairwise_append.mp (List.pairwise_append.mp hrun).1).2.2 m'
          (List.mem_filter.mpr ⟨hm', decide_eq_true hslot⟩) n (List.mem_filter.mpr ⟨List.mem_singleton_self n, hhash⟩)
        rwa [nodeTriple, hkey] at hpair
      have hmiss : ∀ m ∈ chain h (avtabHash n.key h.mask), matching n.key m = false := by
        intro m hm
        obtain ⟨m', hm', hkey, -⟩ := hbefore m hm
        have hpair := (List.pairwise_append.mp (List.pairwise_append.mp hdistinct).1).2.2 m' hm' n (List.mem_singleton_self n)
        rw [matching, wants, wanted, shares, nodeTriple, hkey] at hpair
        exact hpair
      obtain ⟨h', hinsert, hready', hnel, hslot, hmask, hchain'⟩ := avtabInsertf_snoc hready hle hmiss
      obtain ⟨t, hread, htnel, htslot, htchain⟩ := ih (r := r ++ [n]) hready' (by
        intro i
        rw [hchain', hchain, hmask, List.filter_append, List.map_append]
        congr 1
        split
        next hi => simp [hi]
        next hi => simp [hi]) hreadable (by rw [hmask]; exact hsorted) hdistinct
      refine ⟨t, ?_, ?_, htslot.trans hslot, by rw [hmask] at htchain; exact htchain⟩
      · rw [List.length_cons, List.flatMap_cons, List.append_assoc, readItems, avtabReadItem_writeItem _ hn, hinsert]
        exact hread
      · rw [htnel, hnel, List.length_cons]
        omega

theorem mask_lt (hpos : 0 < h.nslot) (hmask : h.mask = h.nslot - 1) (key : AvtabKey) : avtabHash key h.mask < h.nslot := by
  have hle : avtabHash key h.mask ≤ h.mask := Nat.and_le_right
  omega

theorem slotsFor_pos (nrules : Nat) : 0 < slotsFor nrules := by
  rw [slotsFor]
  generalize (if shiftLoop 32 nrules 0 > 2 then shiftLoop 32 nrules 0 - 2 else shiftLoop 32 nrules 0) = shift
  split
  · decide
  · exact Nat.two_pow_pos shift

/-- The nodes in the order in which avtab_write finds them. -/
def written (h : Avtab) : List AvtabNode := (List.range h.nslot).flatMap (chain h)

theorem chain_hash (hh : Holds h rs) : ∀ i, ∀ n ∈ chain h i, avtabHash n.key h.mask = i := by
  intro i n hn
  have hmem := (hh.content i).mem_iff.mp hn
  exact of_decide_eq_true (List.mem_filter.mp hmem).2

theorem written_perm (hh : Holds h rs) (hpos : 0 < h.nslot) (hmask : h.mask = h.nslot - 1) : (written h).Perm rs := by
  have hchains : (written h).Perm ((List.range h.nslot).flatMap fun i => rs.filter fun n => avtabHash n.key h.mask = i) :=
    List.Perm.flatMap_left _ fun i _ => hh.content i
  have hall : (rs.filter fun n => avtabHash n.key h.mask < h.nslot) = rs := by
    rw [List.filter_eq_self]
    exact fun n _ => decide_eq_true (mask_lt hpos hmask n.key)
  have hbuckets := flatMap_filter_perm (fun n : AvtabNode => avtabHash n.key h.mask) h.nslot rs
  rw [hall] at hbuckets
  exact hchains.trans hbuckets

theorem filter_written (hh : Holds h rs) (hpos : 0 < h.nslot) (hmask : h.mask = h.nslot - 1) (i : Nat) :
    (written h).filter (fun n => avtabHash n.key h.mask = i) = chain h i := by
  rw [written, filter_flatMap_range (chain_hash hh)]
  split
  · rfl
  next hge =>
    refine (List.eq_nil_iff_forall_not_mem.mpr fun n hn => hge ?_).symm
    rw [← chain_hash hh i n hn]
    exact mask_lt hpos hmask n.key

theorem searchLoop_map {specified : U16} {key : AvtabKey} {xs ys : List AvtabNode} (hrules : xs.map rule = ys.map rule) :
    (searchLoop specified key xs).map rule = (searchLoop specified key ys).map rule := by
  induction xs generalizing ys with
  | nil => rw [List.map_eq_nil_iff.mp hrules.symm]
  | cons x xs ih =>
      cases ys with
      | nil => cases hrules
      | cons y ys =>
          obtain ⟨hrule, hrest⟩ := List.cons.inj hrules
          obtain ⟨hkey, -⟩ := Prod.mk.inj hrule
          -- the tests of the walk read the key alone
          have hhits : hits key specified x = hits key specified y := by rw [hits, hits, hkey]
          have hpassed : passed key x = passed key y := by rw [passed, passed, hkey]
          rw [searchLoop, searchLoop, hhits, hpassed]
          split
          · exact hrules
          · split
            · rfl
            · exact ih hrest

theorem visitLoop_map {specified : U16} {fuel : Nat} {xs ys : List AvtabNode} (hrules : xs.map rule = ys.map rule) :
    (visitLoop specified fuel xs).map rule = (visitLoop specified fuel ys).map rule := by
  induction fuel generalizing xs ys with
  | zero => rfl
  | succ fuel ih =>
      cases xs with
      | nil => rw [List.map_eq_nil_iff.mp hrules.symm]
      | cons x xs =>
          cases ys with
          | nil => cases hrules
          | cons y ys =>
              obtain ⟨hrule, hrest⟩ := List.cons.inj hrules
              have hkey : x.key = y.key := (Prod.mk.inj hrule).1
              rw [visitLoop, visitLoop, List.map_cons, List.map_cons, hrule, avtabSearchNodeNext, avtabSearchNodeNext, hkey]
              exact congrArg _ (ih (searchLoop_map hrest))

structure SameRules (t h : Avtab) : Prop where
  nel : t.nel = h.nel
  nslot : t.nslot = h.nslot
  mask : t.mask = h.mask
  chains : ∀ i, (chain t i).map rule = (chain h i).map rule

theorem SameRules.searchNode {t h : Avtab} (hsame : SameRules t h) (key : AvtabKey) :
    (avtabSearchNode t key).map rule = (avtabSearchNode h key).map rule := by
  rw [avtabSearchNode_eq, avtabSearchNode_eq, hsame.mask]
  exact searchLoop_map (hsame.chains _)

theorem SameRules.search {t h : Avtab} (hsame : SameRules t h) (key : AvtabKey) : avtabSearch t key = avtabSearch h key := by
  have hhead := congrArg (fun rules => rules.head?.map Prod.snd) (hsame.searchNode key)
  simp only [List.head?_map, Option.map_map] at hhead
  exact hhead

theorem SameRules.visited {t h : Avtab} (hsame : SameRules t h) (key : AvtabKey) :
    (visited t key).map rule = (visited h key).map rule := by
  have hlength := congrArg List.length (hsame.searchNode key)
  rw [List.length_map, List.length_map] at hlength
  rw [RuleTable.visited, RuleTable.visited, hlength]
  exact visitLoop_map (hsame.searchNode key)

/-- The table for n rules that avtab_alloc hands to the reader. -/
def emptyTable (n : Nat) : Avtab := ⟨some fun _ => [], 0, slotsFor n, slotsFor n - 1⟩

theorem emptyTable_sound (n : Nat) : Sound p (emptyTable n) [] :=
  ⟨⟨rfl, fun _ => .nil, fun _ => .nil, rfl⟩, fun _ hn => absurd hn List.not_mem_nil, .nil⟩

theorem avtabAlloc_eq_ok {slots : Bool} {n : Nat} (hn : n ≠ 0) :
    avtabAlloc slots avtabInit n = .ok h ↔ slots = true ∧ h = emptyTable n := by
  rw [avtabAlloc, if_neg hn]
  constructor
  · intro halloc
    cases slots with
    | true => exact ⟨rfl, (Except.ok.inj halloc).symm⟩
    | false => cases halloc
  · rintro ⟨rfl, rfl⟩
    rfl

/-- A table of the reader, of the size that its rules ask for. -/
structure Filled (p : Symbols) (h : Avtab) (rs : List AvtabNode) : Prop extends Sound p h rs where
  some : rs.length ≠ 0
  few : rs.length < 2 ^ 32
  nslot : h.nslot = slotsFor rs.length
  mask : h.mask = slotsFor rs.length - 1

theorem avtabRead_filled {slots : Bool} {allocated : Nat → Bool} {fp rest : List Byte}
    (hread : avtabRead p slots allocated fp = .ok (h, rest)) : ∃ rs, Filled p h rs := by
  rw [avtabRead] at hread
  obtain ⟨⟨buf, fp'⟩, hbuf, hread⟩ := bind_eq_ok hread
  dsimp only at hread
  split at hread
  · cases hread
  next hnel =>
    obtain ⟨h₀, halloc, hread⟩ := bind_eq_ok hread
    obtain ⟨-, rfl⟩ := (avtabAlloc_eq_ok hnel).mp halloc
    obtain ⟨⟨rs, hsound, hlen⟩, hslot, hmask⟩ := (emptyTable_sound _).readItems hread
    rw [List.length_nil, Nat.zero_add] at hlen
    have hlt : leValue buf < 2 ^ 32 := leValue_lt_of_length (Nat.le_of_eq (length_of_nextEntry hbuf))
    rw [← hlen] at hnel hlt hslot hmask
    exact ⟨rs, hsound, hnel, hlt, hslot, hmask⟩

theorem Filled.mask_eq (hf : Filled p h rs) : h.mask = h.nslot - 1 := by rw [hf.mask, hf.nslot]

theorem Filled.nslot_pos (hf : Filled p h rs) : 0 < h.nslot := hf.nslot ▸ slotsFor_pos _

/-- The rules come back in the order of their chains, into an empty table of the same size. -/
theorem Filled.rules_again (hf : Filled p h rs) (tail : List Byte) :
    ∃ t, readItems p (fun _ => true) rs.length (emptyTable rs.length) ((written h).flatMap avtabWriteItem ++ tail) =
        .ok (t, tail) ∧ SameRules t h := by
  have hperm := written_perm hf.holds hf.nslot_pos hf.mask_eq
  have hlength := hperm.length_eq
  have hmask : (emptyTable rs.length).mask = h.mask := hf.mask.symm
  have hchains : ∀ i, (written h).filter (fun n => avtabHash n.key (emptyTable rs.length).mask = i) = chain h i := by
    rw [hmask]
    exact filter_written hf.holds hf.nslot_pos hf.mask_eq
  have hdistinct : (written h).Pairwise fun n m => matching m.key n = false :=
    (hperm.pairwise_iff fun hmiss => matching_symm hmiss).mpr hf.distinct
  have hreadable : ∀ n ∈ written h, Readable p n.key n.data := fun n hn => hf.readable n (hperm.mem_iff.mp hn)
  have hsorted : ∀ i, Sorted nodeTriple (([] ++ written h).filter
      fun n => avtabHash n.key (emptyTable rs.length).mask = i) := by
    intro i
    rw [List.nil_append, hchains]
    exact hf.holds.sorted i
  obtain ⟨t, hitems, hcount, hslot, hrules⟩ :=
    readItems_writeItems (r := []) (h := emptyTable rs.length) rfl (fun _ => rfl) hreadable hsorted hdistinct tail
  rw [hlength] at hitems hcount
  obtain ⟨-, -, hmask'⟩ := (emptyTable_sound _).readItems hitems
  have hnel : t.nel = h.nel := by
    rw [hcount, hf.holds.nel]
    exact Nat.zero_add _
  have hsame : ∀ i, (chain t i).map rule = (chain h i).map rule := by
    intro i
    rw [hrules, List.nil_append, hchains]
  exact ⟨t, hitems, hnel, hslot.trans hf.nslot.symm, hmask'.trans hmask, hsame⟩

/-- A rule table that was read, written and read again is the same table,
chain by chain: nothing is refused, and every search finds what it found. -/
theorem avtabRead_avtabWrite (p : Symbols) (slots : Bool) (allocated : Nat → Bool) (fp rest : List Byte) (h : Avtab)
    (hread : avtabRead p slots allocated fp = .ok (h, rest)) (tail : List Byte) :
    ∃ t, avtabRead p true (fun _ => true) (avtabWrite h ++ tail) = .ok (t, tail) ∧ SameRules t h ∧
      ∀ key, avtabSearch t key = avtabSearch h key ∧ (visited t key).map rule = (visited h key).map rule := by
  obtain ⟨rs, hf⟩ := avtabRead_filled hread
  obtain ⟨t, hitems, hsame⟩ := hf.rules_again tail
  have hbytes : (written h).flatMap avtabWriteItem =
      (List.range h.nslot).flatMap fun i => (chain h i).flatMap avtabWriteItem := List.flatMap_assoc
  have halloc : avtabAlloc true avtabInit rs.length = .ok (emptyTable rs.length) :=
    (avtabAlloc_eq_ok hf.some).mpr ⟨rfl, rfl⟩
  refine ⟨t, ?_, hsame, fun key => ⟨hsame.search key, hsame.visited key⟩⟩
  rw [avtabRead, avtabWrite, List.append_assoc, nextEntry_append (length_leBytes 4 h.nel)]
  dsimp only [Except.bind]
  rw [hf.holds.nel, leValue_leBytes_of_lt hf.few, if_neg hf.some, halloc, ← hbytes]
  exact hitems

theorem avtabRead_avtabWrite_twoRules :
    ∃ h t, avtabRead ⟨3, 6⟩ true (fun _ => true) (leBytes 4 2 ++ avtabWriteItem ⟨0, ⟨1, 2, 6, avtabAllowed⟩, 2⟩ ++
        avtabWriteItem ⟨1, ⟨1, 2, 6, avtabAuditdeny⟩, 5⟩) = .ok (h, []) ∧
      avtabRead ⟨3, 6⟩ true (fun _ => true) (avtabWrite h ++ [7]) = .ok (t, [7]) ∧
      ∀ key, avtabSearch t key = avtabSearch h key := by
  obtain ⟨h, hread⟩ : ∃ h, avtabRead ⟨3, 6⟩ true (fun _ => true) (leBytes 4 2 ++
      avtabWriteItem ⟨0, ⟨1, 2, 6, avtabAllowed⟩, 2⟩ ++ avtabWriteItem ⟨1, ⟨1, 2, 6, avtabAuditdeny⟩, 5⟩) = .ok (h, []) :=
    ⟨_, rfl⟩
  obtain ⟨t, hagain, -, hsearch⟩ := avtabRead_avtabWrite ⟨3, 6⟩ true (fun _ => true) _ [] h hread [7]
  exact ⟨h, t, hread, hagain, fun key => (hsearch key).1⟩

end tables

end PigaLinux.RuleFormat
