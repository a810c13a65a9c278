import PigaLinux.ContextText
import PigaLinux.Getsid
import PigaLinux.SidTable

namespace PigaLinux.SidContexts

open Kernel Ppp Getsid ExtensibleBitmap Contexts SidTable
open Piga (Link)

abbrev Normal : Context → Prop := Cats Canonical

/-- What a text is taken for. A category set that comes from a text is built bit by bit. -/
structure Parser where
  parse : String → Option Context
  normal : ∀ c x, parse c = some x → Normal x

/-- Texts are read by string_to_context_struct without a default SID. -/
def parserOf (p : PolicyDatabase.Policydb) (hp : p.cats.Complete PolicyDatabase.CatDatum.value)
    (memory : ContextText.Memory) : Parser where
  parse c := (ContextText.stringToContextStruct p memory c.toList c.length none).toOption
  normal c x h := by
    cases hread : ContextText.stringToContextStruct p memory c.toList c.length none with
    | error rc =>
        rw [hread] at h
        exact absurd h.symm (Option.some_ne_none _)
    | ok y =>
        rw [hread] at h
        obtain rfl : y = x := Option.some.inj h
        have hdef : ContextText.Tidied none := fun d hd => absurd hd.symm (Option.some_ne_none _)
        exact fun _ => (ContextText.accepted_of_stringToContextStruct hp hdef hread).canonical

def securityContextToSid (parser : Parser) (alloc : Bool) (s : Sidtab) (c : String) : Option U32 :=
  match parser.parse c with
  | none => none
  | some context =>
      match (sidtabContextToSid s context alloc).1 with
      | .ok sid => some sid
      | .error _ => none

/-- The number that is read back from /proc/piga/getsid for a context. -/
def getsid (parser : Parser) (alloc : Bool) (s : Sidtab) (v : U32) (c : Getsid.Text) : U32 :=
  (strtoul (exchange (securityContextToSid parser alloc s) v c.text).1).setWidth 32

def after (s : Sidtab) (calls : List (Context × Bool)) : Sidtab :=
  calls.foldl (fun s e => (sidtabContextToSid s e.1 e.2).2) s

def Answered (parser : Parser) (s : Sidtab) (calls : List (Context × Bool)) (c : Getsid.Text) (x : Context) (k : U32) :
    Prop :=
  parser.parse c.text = some x ∧ ∃ past alloc v future, calls = past ++ (x, alloc) :: future ∧
    getsid parser alloc (after s past) v c = k

/-- SIDs stand for contexts in every table that lookups of contexts in P can lead to. -/
structure ComparesContexts (P : Context → Prop) (s : Sidtab) : Prop where
  sids : ∀ parser calls c x k, (∀ e ∈ calls, P e.1) → Answered parser s calls c x k → k ≠ 0 →
    ∀ n ∈ nodes (after s calls), meaning n.context = meaning x ↔ n.sid = k
  matched : ∀ parser calls c d x y (l : Link), (∀ e ∈ calls, P e.1) → Answered parser s calls c x l.cs →
    Answered parser s calls d y l.cc → l.cs ≠ 0 → l.cc ≠ 0 →
      ∀ (a : Access), ∀ n ∈ nodes (after s calls), ∀ m ∈ nodes (after s calls), a.ssid = n.sid → a.tsid = m.sid →
        ((l.cs = a.ssid ∧ l.cc = a.tsid) ↔ meaning n.context = meaning x ∧ meaning m.context = meaning y)

theorem getsid_eq {parser : Parser} {c : Getsid.Text} {x : Context} (hx : parser.parse c.text = some x) (alloc : Bool)
    (s : Sidtab) (v : U32) :
    getsid parser alloc s v c = match (sidtabContextToSid s x alloc).1 with
      | .ok sid => sid
      | .error _ => 0 := by
  rw [getsid, strtoul_exchange, securityContextToSid, hx]
  dsimp only
  cases (sidtabContextToSid s x alloc).1 with
  | ok sid => rfl
  | error rc => rfl

theorem eq_of_sid_eq {s : Sidtab} {n m : Node} (hn : n ∈ nodes s) (hm : m ∈ nodes s) (h : n.sid = m.sid) : n = m :=
  Chains.eq_of_key_eq hn hm (congrArg BitVec.toNat h)

theorem has_iff {s : Sidtab} {k : U32} : Chains.has s.htable k.toNat = true ↔ ∃ n ∈ nodes s, n.sid = k := by
  rw [Chains.has_iff]
  constructor
  · rintro ⟨n, hn, hk⟩
    exact ⟨n, hn, BitVec.eq_of_toNat_eq hk⟩
  · rintro ⟨n, hn, rfl⟩
    exact ⟨n, hn, rfl⟩

theorem mem_nodes_insert {s s' : Sidtab} {sid : U32} {x : Context} {h : Chains.has s.htable sid.toNat = false}
    (hins : s'.htable = Chains.insert s.htable ⟨sid, x⟩ h) {n : Node} : n ∈ nodes s' ↔ n = ⟨sid, x⟩ ∨ n ∈ nodes s := by
  rw [nodes, hins]
  exact Chains.mem_entries_insert

section invariant

variable {P : Context → Prop} {s : Sidtab} {x y : Context} {alloc : Bool} {k : U32}

structure Sound (s : Sidtab) : Prop where
  nonzero : ∀ n ∈ nodes s, n.sid ≠ 0
  nextSid : s.nextSid ≠ 0
  normal : ∀ n ∈ nodes s, Normal n.context
  distinct : ∀ a ∈ nodes s, ∀ b ∈ nodes s, meaning a.context = meaning b.context → a.sid = b.sid

theorem absent_of_nonzero (hz : ∀ n ∈ nodes s, n.sid ≠ 0) (hf : found s x = 0) :
    ∀ n ∈ nodes s, spelling n.context ≠ spelling x := by
  cases hx : first s x with
  | none => exact first_eq_none hx
  | some n =>
      rw [found, hx] at hf
      exact absurd hf (hz n (first_eq_some hx).1)

theorem Sound.of_same {s' : Sidtab} (h : Sound s) (hs : SameNodes s s') : Sound s' := by
  obtain ⟨hz, hnext, hnormal, hd⟩ := h
  rw [← hs.nodes] at hz hnormal hd
  rw [← hs.nextSid] at hnext
  exact ⟨hz, hnext, hnormal, hd⟩

/-- A new SID leaves the table sound: its context is new, and the numbers end before they start again at 0. -/
theorem Sound.fresh {s' : Sidtab} (hs : Sound s) (hx : Normal x) (h : Chains.has s.htable s.nextSid.toNat = false)
    (hins : s'.htable = Chains.insert s.htable ⟨s.nextSid, x⟩ h) (hnext : s'.nextSid = s.nextSid + 1)
    (hmax : s.nextSid ≠ uintMax) (hf : found s x = 0) : Sound s' := by
  have hnew : ∀ n ∈ nodes s, meaning n.context ≠ meaning x := fun n hn hm =>
    absent_of_nonzero hs.nonzero hf n hn (spelling_of_meaning (hs.normal n hn) hx hm)
  refine ⟨?_, ?_, ?_, ?_⟩
  · intro n hn
    rcases (mem_nodes_insert hins).mp hn with rfl | hn
    · exact hs.nextSid
    · exact hs.nonzero n hn
  · rw [hnext]
    rw [uintMax] at hmax
    bv_omega
  · intro n hn
    rcases (mem_nodes_insert hins).mp hn with rfl | hn
    · exact hx
    · exact hs.normal n hn
  · intro a ha b hb hab
    rcases (mem_nodes_insert hins).mp ha with rfl | ha <;> rcases (mem_nodes_insert hins).mp hb with rfl | hb
    · rfl
    · exact absurd hab.symm (hnew b hb)
    · exact absurd hab (hnew a ha)
    · exact hs.distinct a ha b hb hab

theorem cached_fresh {s' : Sidtab} {h : Chains.has s.htable s.nextSid.toNat = false}
    (hins : s'.htable = Chains.insert s.htable ⟨s.nextSid, x⟩ h)
    (hc : ∀ i n, s'.cache i = some n → first s n.context = some n)
    (habsent : ∀ n ∈ nodes s, spelling n.context ≠ spelling x) : Cached s' := by
  intro i n hn
  have hfirst := hc i n hn
  have hne : contextCmp x n.context = false := by
    rw [Bool.eq_false_iff]
    intro hx
    exact habsent n (first_eq_some hfirst).1 (contextCmp_iff.mp hx).symm
  rw [first, nodes, hins]
  exact (Chains.find?_entries_insert (p := fun m : Node => contextCmp m.context n.context) hne).trans hfirst

structure Inv (s : Sidtab) : Prop where
  sound : Sound s
  cached : Cached s

theorem Inv.step (h : Inv s) (hx : Normal x) (alloc : Bool) : Inv (sidtabContextToSid s x alloc).2 := by
  have ho := sidtabContextToSid_outcome h.cached x alloc
  generalize sidtabContextToSid s x alloc = res at ho
  cases ho with
  | hit s' hs hc _ => exact ⟨h.sound.of_same hs, hc⟩
  | refused rc s' hs hc _ _ => exact ⟨h.sound.of_same hs, hc⟩
  | fresh s' hhas hins hnext _ hc hmax hf =>
      exact ⟨h.sound.fresh hx hhas hins hnext hmax hf, cached_fresh hins hc (absent_of_nonzero h.sound.nonzero hf)⟩

def Stands (s : Sidtab) (x : Context) (k : U32) : Prop := ∃ m ∈ nodes s, m.sid = k ∧ spelling m.context = spelling x

theorem stands_of_ok (hc : Cached s) (hk : (sidtabContextToSid s x alloc).1 = .ok k) :
    Stands (sidtabContextToSid s x alloc).2 x k := by
  have ho := sidtabContextToSid_outcome hc x alloc
  generalize sidtabContextToSid s x alloc = res at ho hk
  cases ho with
  | hit s' hs _ hf =>
      obtain rfl : found s x = k := Except.ok.inj hk
      rw [Stands, hs.nodes]
      cases hx : first s x with
      | none =>
          rw [found, hx] at hf
          exact absurd rfl hf
      | some n =>
          obtain ⟨hn, hm⟩ := first_eq_some hx
          refine ⟨n, hn, ?_, hm⟩
          rw [found, hx]
          rfl
  | refused rc s' _ _ _ _ => exact absurd hk (by simp)
  | fresh s' hhas hins _ _ _ _ _ =>
      obtain rfl : s.nextSid = k := Except.ok.inj hk
      exact ⟨_, (mem_nodes_insert hins).mpr (.inl rfl), rfl, rfl⟩

theorem Stands.step (hc : Cached s) (h : Stands s x k) (y : Context) (alloc : Bool) :
    Stands (sidtabContextToSid s y alloc).2 x k := by
  obtain ⟨m, hm, hsid, hspell⟩ := h
  have ho := sidtabContextToSid_outcome hc y alloc
  generalize sidtabContextToSid s y alloc = res at ho
  cases ho with
  | hit s' hs _ _ => exact ⟨m, hs.nodes ▸ hm, hsid, hspell⟩
  | refused rc s' hs _ _ _ => exact ⟨m, hs.nodes ▸ hm, hsid, hspell⟩
  | fresh s' hhas hins _ _ _ _ _ => exact ⟨m, (mem_nodes_insert hins).mpr (.inr hm), hsid, hspell⟩

theorem Stands.compare (hs : Sound s) (h : Stands s x k) :
    ∀ n ∈ nodes s, meaning n.context = meaning x ↔ n.sid = k := by
  obtain ⟨m, hm, hsid, hspell⟩ := h
  have hmean := meaning_of_spelling hspell
  intro n hn
  constructor
  · intro hx
    rw [hs.distinct n hn m hm (hx.trans hmean.symm), hsid]
  · intro hk
    rw [eq_of_sid_eq hn hm (hk.trans hsid.symm), hmean]

theorem Inv.after (h : Inv s) {calls : List (Context × Bool)} (hcalls : ∀ e ∈ calls, Normal e.1) : Inv (after s calls) := by
  induction calls generalizing s with
  | nil => exact h
  | cons e calls ih =>
      rw [List.forall_mem_cons] at hcalls
      exact ih (h.step hcalls.1 e.2) hcalls.2

theorem Stands.after (hi : Inv s) (h : Stands s x k) {calls : List (Context × Bool)} (hcalls : ∀ e ∈ calls, Normal e.1) :
    Stands (after s calls) x k := by
  induction calls generalizing s with
  | nil => exact h
  | cons e calls ih =>
      rw [List.forall_mem_cons] at hcalls
      exact ih (hi.step hcalls.1 e.2) (h.step hi.cached e.1 e.2) hcalls.2

theorem ok_of_getsid {parser : Parser} {c : Getsid.Text} {v : U32} (hx : parser.parse c.text = some x)
    (hne : getsid parser alloc s v c ≠ 0) :
    (sidtabContextToSid s x alloc).1 = .ok (getsid parser alloc s v c) := by
  rw [getsid_eq hx] at hne ⊢
  cases hr : (sidtabContextToSid s x alloc).1 with
  | ok sid => rfl
  | error rc =>
      rw [hr] at hne
      exact absurd rfl hne

theorem compares_of_inv (h : Inv s) (hP : ∀ x, P x → Normal x) : ComparesContexts P s := by
  have hsids : ∀ parser calls c x k, (∀ e ∈ calls, P e.1) → Answered parser s calls c x k → k ≠ 0 →
      ∀ n ∈ nodes (SidContexts.after s calls), meaning n.context = meaning x ↔ n.sid = k := by
    rintro parser calls c x k hcalls ⟨hx, past, alloc, v, future, rfl, rfl⟩ hne
    have hbefore : ∀ e ∈ past, Normal e.1 := fun e he => hP _ (hcalls e (List.mem_append_left _ he))
    have hpast := h.after hbefore
    have hfuture : ∀ e ∈ future, Normal e.1 := fun e he =>
      hP _ (hcalls e (List.mem_append_right _ (List.mem_cons_of_mem _ he)))
    have hfull : SidContexts.after s (past ++ (x, alloc) :: future) =
        SidContexts.after (sidtabContextToSid (SidContexts.after s past) x alloc).2 future :=
      List.foldl_append
    have hnext := hpast.step (parser.normal _ x hx) alloc
    rw [hfull]
    exact ((stands_of_ok hpast.cached (ok_of_getsid hx hne)).after hnext hfuture).compare (hnext.after hfuture).sound
  refine ⟨hsids, ?_⟩
  intro parser calls c d x y l hcalls hc hd hcs hcc a n hn m hm hss hts
  rw [hss, hts, hsids parser calls c x l.cs hcalls hc hcs n hn, hsids parser calls d y l.cc hcalls hd hcc m hm]
  exact and_congr eq_comm eq_comm

end invariant

section necessity

variable {P : Context → Prop} {s : Sidtab}

def anyText : Getsid.Text := ⟨"c", by decide⟩

def readsAs (x : Context) (hx : Normal x) : Parser where
  parse _ := some x
  normal _ _ h := Option.some.inj h ▸ hx

theorem ComparesContexts.one (h : ComparesContexts P s) {calls : List (Context × Bool)} (hcalls : ∀ e ∈ calls, P e.1)
    {x : Context} (hP : P x) (hx : Normal x) (alloc : Bool) {k : U32}
    (hk : (sidtabContextToSid (after s calls) x alloc).1 = .ok k) (hne : k ≠ 0) :
    ∀ n ∈ nodes (sidtabContextToSid (after s calls) x alloc).2, meaning n.context = meaning x → n.sid = k := by
  intro n hn hmean
  have hall : ∀ e ∈ calls ++ [(x, alloc)], P e.1 := by
    intro e he
    rcases List.mem_append.mp he with he | he
    · exact hcalls e he
    · rw [List.mem_singleton.mp he]
      exact hP
  have hafter : after s (calls ++ [(x, alloc)]) = (sidtabContextToSid (after s calls) x alloc).2 := List.foldl_append
  refine (h.sids (readsAs x hx) (calls ++ [(x, alloc)]) anyText x k hall ⟨rfl, calls, alloc, 0, [], rfl, ?_⟩ hne n
    (hafter ▸ hn)).mp hmean
  rw [getsid_eq (x := x) rfl, hk]

structure Room (left : Nat) (s : Sidtab) : Prop where
  below : ∀ n ∈ nodes s, n.sid.toNat < s.nextSid.toNat
  pos : 0 < s.nextSid.toNat
  small : s.nextSid.toNat + left < 2 ^ 32
  shutdown : s.shutdown = false

inductive Looked (left : Nat) (s : Sidtab) (x : Context) : Except Int U32 × Sidtab → Prop
  | hit (s' : Sidtab) (n : Node) : SameNodes s s' → Cached s' → n ∈ nodes s → n.sid ≠ 0 →
      spelling n.context = spelling x → Looked left s x (.ok n.sid, s')
  | fresh (s' : Sidtab) : (∀ n, n ∈ nodes s' ↔ n = ⟨s.nextSid, x⟩ ∨ n ∈ nodes s) → Room left s' →
      ((∀ n ∈ nodes s, n.sid ≠ 0) → Cached s') → Looked left s x (.ok s.nextSid, s')

theorem Room.lookup {left : Nat} (h : Room (left + 1) s) (hpos : 0 < left) (hc : Cached s) (x : Context) :
    Looked left s x (sidtabContextToSid s x true) := by
  have hsmall := h.small
  have hfree : Chains.has s.htable s.nextSid.toNat = false := by
    rw [← Bool.not_eq_true, has_iff]
    rintro ⟨n, hn, hk⟩
    exact absurd (hk ▸ h.below n hn) (Nat.lt_irrefl _)
  have hmax : s.nextSid ≠ uintMax := by
    intro he
    rw [he, show uintMax.toNat = 4294967295 from rfl] at hsmall
    omega
  have ho := sidtabContextToSid_outcome hc x true
  generalize sidtabContextToSid s x true = res at ho
  cases ho with
  | hit s' hs hc' hf =>
      cases hx : first s x with
      | none =>
          rw [found, hx] at hf
          exact absurd rfl hf
      | some n =>
          obtain ⟨hn, hspell⟩ := first_eq_some hx
          rw [found, hx] at hf ⊢
          exact .hit s' n hs hc' hn hf hspell
  | refused rc s' _ _ _ hwhy =>
      rcases hwhy with hwhy | hwhy | hwhy | hwhy
      · exact absurd hwhy hmax
      · rw [h.shutdown] at hwhy
        exact absurd hwhy (by decide)
      · rw [hfree] at hwhy
        exact absurd hwhy (by decide)
      · exact absurd hwhy (by decide)
  | fresh s' hhas hins hnext hdown hcache _ hf =>
      have hnodes (n : Node) : n ∈ nodes s' ↔ n = ⟨s.nextSid, x⟩ ∨ n ∈ nodes s := mem_nodes_insert hins
      have hsucc : s'.nextSid.toNat = s.nextSid.toNat + 1 := by
        rw [hnext, BitVec.toNat_add_of_lt]
        · rfl
        · change s.nextSid.toNat + 1 < 2 ^ 32
          omega
      refine .fresh s' hnodes ⟨?_, by omega, by omega, hdown.trans h.shutdown⟩ fun hz =>
        cached_fresh hins hcache (absent_of_nonzero hz hf)
      intro n hn
      rcases (hnodes n).mp hn with rfl | hn
      · change s.nextSid.toNat < _
        omega
      · have := h.below n hn
        omega

theorem Room.nextSid_ne_zero {left : Nat} (h : Room left s) : s.nextSid ≠ 0 := by
  intro he
  have hpos := h.pos
  rw [he] at hpos
  exact absurd hpos (by decide)

theorem ComparesContexts.answer (h : ComparesContexts P s) (hnormal : ∀ x, Normal x → P x)
    {calls : List (Context × Bool)} (hcalls : ∀ e ∈ calls, P e.1) (hroom : Room 2 (after s calls))
    (hc : Cached (after s calls)) {x : Context} (hx : Normal x) :
    ∃ k, k ≠ 0 ∧ ∀ n ∈ nodes (after s calls), meaning n.context = meaning x →
      n.sid = k ∧ spelling n.context = spelling x := by
  have hone (k : U32) := h.one (k := k) hcalls (hnormal x hx) hx true
  have hlook := hroom.lookup Nat.one_pos hc x
  generalize sidtabContextToSid (after s calls) x true = res at hone hlook
  cases hlook with
  | hit s' m hs _ hm hne hspell =>
      refine ⟨m.sid, hne, ?_⟩
      intro n hn hmean
      have hsid := hone _ rfl hne n (by rw [hs.nodes]; exact hn) hmean
      obtain rfl := eq_of_sid_eq hn hm hsid
      exact ⟨rfl, hspell⟩
  | fresh s' hnodes _ _ =>
      refine ⟨_, hroom.nextSid_ne_zero, ?_⟩
      intro n hn hmean
      have hsid := hone _ rfl hroom.nextSid_ne_zero n ((hnodes n).mpr (.inr hn)) hmean
      exact absurd (hsid ▸ hroom.below n hn) (Nat.lt_irrefl _)

/-- A context that is handed in is in normal form, or it gets a SID beside the one that getsid gives to its meaning. -/
theorem ComparesContexts.normal (h : ComparesContexts P s) (hnormal : ∀ x, Normal x → P x) (hroom : Room 3 s)
    (hc : Cached s) (hnodes : ∀ n ∈ nodes s, n.sid ≠ 0 ∧ Normal n.context) {y : Context} (hy : P y)
    (hlaid : Cats Laid y) : Normal y := by
  have hlook := hroom.lookup Nat.two_pos hc y
  have hafter : after s [(y, true)] = (sidtabContextToSid s y true).2 := rfl
  generalize sidtabContextToSid s y true = res at hlook hafter
  cases hlook with
  | hit s' n _ _ hn _ hspell => exact (hnodes n hn).2.of_spelling hspell
  | fresh s' hmem hroom' hc' =>
      obtain ⟨x, hx, hmean⟩ := exists_normal hlaid
      have hcalls : ∀ e ∈ [(y, true)], P e.1 := List.forall_mem_singleton.mpr hy
      rw [← show after s [(y, true)] = s' from hafter] at hmem hroom' hc'
      obtain ⟨k, -, hk⟩ := h.answer hnormal hcalls hroom' (hc' fun n hn => (hnodes n hn).1) hx
      exact hx.of_spelling (hk _ ((hmem _).mpr (.inl rfl)) hmean.symm).2.symm

end necessity

section isids

theorem sidtabInsert_ok {s s' : Sidtab} {sid : U32} {context : Context} {alloc : Bool}
    (h : sidtabInsert s sid context alloc = .ok s') :
    s'.cache = s.cache ∧ s'.shutdown = s.shutdown ∧ (∀ n, n ∈ nodes s' ↔ n = ⟨sid, context⟩ ∨ n ∈ nodes s) ∧
      s'.nextSid = if s.nextSid ≤ sid then sid + 1 else s.nextSid := by
  rw [sidtabInsert] at h
  split at h
  next hhas =>
    split at h
    · exact absurd h (by simp)
    · obtain rfl := Except.ok.inj h
      exact ⟨rfl, rfl, fun n => mem_nodes_insert (h := hhas) rfl, rfl⟩
  next => exact absurd h (by simp)

theorem Room.insert {left : Nat} {s s' : Sidtab} {sid : U32} {context : Context} {alloc : Bool} (h : Room left s)
    (hsid : sid.toNat + 1 + left < 2 ^ 32) (hins : sidtabInsert s sid context alloc = .ok s') : Room left s' := by
  obtain ⟨-, hdown, hnodes, hnext⟩ := sidtabInsert_ok hins
  have hle : sid.toNat < s'.nextSid.toNat ∧ s.nextSid.toNat ≤ s'.nextSid.toNat ∧ s'.nextSid.toNat + left < 2 ^ 32 := by
    have hsmall := h.small
    rw [hnext]
    split
    next hge =>
      have hsucc : (sid + 1).toNat = sid.toNat + 1 := BitVec.toNat_add_of_lt (by change sid.toNat + 1 < 2 ^ 32; omega)
      rw [BitVec.le_def] at hge
      omega
    next hlt =>
      rw [BitVec.not_le, BitVec.lt_def] at hlt
      omega
  have hpos := h.pos
  refine ⟨?_, by omega, hle.2.2, hdown.trans h.shutdown⟩
  intro n hn
  rcases (hnodes n).mp hn with rfl | hn
  · exact hle.1
  · have := h.below n hn
    omega

theorem loadIsids_ok {left : Nat} {alloc : Nat → Bool} {i : Nat} {isids : List (U32 × Context)} {s s' : Sidtab}
    (hroom : Room left s) (hsids : ∀ e ∈ isids, e.1.toNat + 1 + left < 2 ^ 32)
    (h : loadIsids alloc i isids s = .ok s') :
    s'.cache = s.cache ∧ Room left s' ∧ ∀ n, n ∈ nodes s' ↔ n ∈ nodes s ∨ (n.sid, n.context) ∈ isids := by
  induction isids generalizing i s with
  | nil =>
      obtain rfl := Except.ok.inj h
      exact ⟨rfl, hroom, fun n => by simp⟩
  | cons e isids ih =>
      obtain ⟨sid, context⟩ := e
      rw [List.forall_mem_cons] at hsids
      rw [loadIsids] at h
      split at h
      · exact absurd h (by simp)
      · cases hi : sidtabInsert s sid context (alloc i) with
        | error rc =>
            rw [hi] at h
            exact absurd h (by simp)
        | ok s₁ =>
            rw [hi] at h
            obtain ⟨hcache, -, hnodes, -⟩ := sidtabInsert_ok hi
            obtain ⟨hcache', hroom', hnodes'⟩ := ih (hroom.insert hsids.1 hi) hsids.2 h
            refine ⟨hcache'.trans hcache, hroom', fun n => ?_⟩
            rw [hnodes', hnodes, List.mem_cons, Prod.mk.injEq, Node.mk.injEq]
            tauto

theorem room_init : Room 3 sidtabInit where
  below n hn := absurd hn (by simp [nodes, sidtabInit, Chains.entries, Chains.empty])
  pos := by decide
  small := by decide
  shutdown := rfl

/-- What is asked of the initial SIDs of a policy. -/
structure Distinct (isids : List (U32 × Context)) : Prop where
  nonzero : ∀ e ∈ isids, e.1 ≠ 0
  normal : ∀ e ∈ isids, Normal e.2
  distinct : ∀ e ∈ isids, ∀ e' ∈ isids, meaning e.2 = meaning e'.2 → e.1 = e'.1

/-- SIDs stand for contexts in every table that a policy's initial SIDs can grow to exactly when no initial
SID is 0, no two of them have one context, and every category set, of theirs and of the contexts that are
handed in, is in normal form. -/
theorem comparesContexts_iff (isids : List (U32 × Context)) (alloc : Nat → Bool) (s : Sidtab)
    (h : policydbLoadIsids isids alloc = .ok s) (hsids : ∀ e ∈ isids, e.1.toNat < 2 ^ 32 - 4)
    (hlaid : ∀ e ∈ isids, Cats Laid e.2) (P : Context → Prop) (hnormal : ∀ x, Normal x → P x)
    (hP : ∀ x, P x → Cats Laid x) : ComparesContexts P s ↔ Distinct isids ∧ ∀ x, P x → Normal x := by
  obtain ⟨hcache, hroom, hnodes⟩ := loadIsids_ok room_init (fun e he => by have := hsids e he; omega) h
  have hmem (n : Node) : n ∈ nodes s ↔ (n.sid, n.context) ∈ isids := by
    rw [hnodes, or_iff_right]
    exact fun hn => absurd (room_init.below n hn) (by simp [nodes, sidtabInit, Chains.entries, Chains.empty] at hn)
  have hcached : Cached s := by
    intro i n hn
    rw [hcache] at hn
    exact absurd hn (by simp [sidtabInit])
  have hroom2 : Room 2 s := ⟨hroom.below, hroom.pos, by have := hroom.small; omega, hroom.shutdown⟩
  constructor
  · intro hs
    have hnil : ∀ e ∈ ([] : List (Context × Bool)), P e.1 := fun e he => absurd he List.not_mem_nil
    have hanswer {x : Context} (hx : Normal x) := hs.answer hnormal hnil hroom2 hcached hx
    have hone : ∀ e ∈ isids, e.1 ≠ 0 ∧ Normal e.2 ∧ ∀ e' ∈ isids, meaning e.2 = meaning e'.2 → e.1 = e'.1 := by
      intro e he
      -- getsid is asked for the normal spelling of the context
      obtain ⟨x, hx, hmean⟩ := exists_normal (hlaid e he)
      obtain ⟨k, hne, hk⟩ := hanswer hx
      obtain ⟨hsid, hspell⟩ := hk ⟨e.1, e.2⟩ ((hmem _).mpr he) hmean.symm
      refine ⟨fun h0 => hne (hsid.symm.trans h0), hx.of_spelling hspell.symm, ?_⟩
      intro e' he' hm
      exact hsid.trans (hk ⟨e'.1, e'.2⟩ ((hmem _).mpr he') (hm.symm.trans hmean.symm)).1.symm
    refine ⟨⟨fun e he => (hone e he).1, fun e he => (hone e he).2.1, fun e he => (hone e he).2.2⟩, ?_⟩
    intro y hy
    have hboth : ∀ n ∈ nodes s, n.sid ≠ 0 ∧ Normal n.context := fun n hn =>
      have he := hone _ ((hmem n).mp hn)
      ⟨he.1, he.2.1⟩
    exact hs.normal hnormal hroom hcached hboth hy (hP y hy)
  · rintro ⟨hd, hPn⟩
    refine compares_of_inv ⟨⟨?_, hroom.nextSid_ne_zero, ?_, ?_⟩, hcached⟩ hPn
    · exact fun n hn => hd.nonzero _ ((hmem n).mp hn)
    · exact fun n hn => hd.normal _ ((hmem n).mp hn)
    · exact fun a ha b hb => hd.distinct _ ((hmem a).mp ha) _ ((hmem b).mp hb)

end isids

def unlabeledContext : Context := { user := 1, role := 1, type := 5, low := ⟨1, ebitmapInit⟩, high := ⟨1, ebitmapInit⟩ }

theorem unlabeledContext_normal : Normal unlabeledContext := fun _ => ⟨canonical_init, canonical_init⟩

/-- The initial SIDs unlabeled and any_socket, with one context. -/
def sharedIsids : List (U32 × Context) := [(3, unlabeledContext), (8, unlabeledContext)]

def sharedTable : Sidtab :=
  match policydbLoadIsids sharedIsids (fun _ => true) with
  | .ok s => s
  | .error _ => sidtabInit

theorem shared_context_two_sids :
    policydbLoadIsids sharedIsids (fun _ => true) = .ok sharedTable ∧
      getsid (readsAs unlabeledContext unlabeledContext_normal) true sharedTable 0 anyText = 3 ∧
      (⟨8, unlabeledContext⟩ : Node) ∈ nodes sharedTable ∧ ¬ComparesContexts Normal sharedTable := by
  have hget : getsid (readsAs unlabeledContext unlabeledContext_normal) true sharedTable 0 anyText = 3 := by decide
  have hmem : (⟨8, unlabeledContext⟩ : Node) ∈ nodes sharedTable := by decide
  refine ⟨rfl, hget, hmem, ?_⟩
  intro h
  have hnil : ∀ e ∈ ([] : List (Context × Bool)), Normal e.1 := fun e he => absurd he List.not_mem_nil
  have hone := h.one hnil unlabeledContext_normal unlabeledContext_normal true (k := 3) (by decide) (by decide)
    ⟨8, unlabeledContext⟩ (by decide) rfl
  exact absurd hone (by decide)

theorem comparesContexts_iff_shared :
    ComparesContexts Normal sharedTable ↔ Distinct sharedIsids ∧ ∀ x, Normal x → Normal x :=
  comparesContexts_iff sharedIsids (fun _ => true) sharedTable rfl (by decide)
    (by
      intro e he
      rcases List.mem_cons.mp he with rfl | he
      · exact fun _ => ⟨canonical_init.laid, canonical_init.laid⟩
      · rw [List.mem_singleton.mp he]
        exact fun _ => ⟨canonical_init.laid, canonical_init.laid⟩)
    Normal (fun _ hx => hx) fun _ hx h => ⟨(hx h).1.laid, (hx h).2.laid⟩

end PigaLinux.SidContexts
