import PigaLinux.Ppp
import Mathlib.Data.List.TakeWhile

namespace PigaLinux.Getsid

open Kernel PppSyntax Ppp

/-- What security_context_to_sid finds for a context, and none when it fails. -/
abbrev Resolver := String → Option U32

/-- The text that a C string holds: what stands before its first NUL. -/
def cString (cs : List Char) : String := String.ofList (cs.takeWhile (fun c => c ≠ '\x00'))

/-- The new value of the variable `sid`. The buffer is none when it cannot be
copied; its last byte is overwritten by the NUL. -/
def pigaProcGetsidWrite (securityContextToSid : Resolver) (sid : U32) (buffer : Option (List Char)) : Int × U32 :=
  match buffer with
  | none => (-efault, sid)
  | some tmp => (tmp.length, (securityContextToSid (cString tmp.dropLast)).getD 0)

def printU (n : U32) : List Char := Nat.toDigits 10 n.toNat

def pigaProcGetsidRead (sid : U32) (offset : Nat) : List Char × U32 :=
  if offset > 0 then ([], sid) else (printU sid ++ ['\n'], 0)

def getline (text : List Char) : String := String.ofList (text.takeWhile (fun c => c ≠ '\n'))

/-- What PPP does with the file for one context: a line written, a line read. -/
def exchange (securityContextToSid : Resolver) (sid : U32) (c : String) : String × U32 :=
  let sid := (pigaProcGetsidWrite securityContextToSid sid (some (c.toList ++ ['\n']))).2
  (getline (pigaProcGetsidRead sid 0).1, (pigaProcGetsidRead sid 0).2)

structure Text where
  text : String
  clean : '\x00' ∉ text.toList

theorem write_text (R : Resolver) (sid : U32) (c : Text) :
    (pigaProcGetsidWrite R sid (some (c.text.toList ++ ['\n']))).2 = (R c.text).getD 0 := by
  have hc : c.text.toList.takeWhile (fun x => x ≠ '\x00') = c.text.toList := by
    rw [List.takeWhile_eq_self_iff]
    intro x hx
    rw [decide_eq_true_eq]
    rintro rfl
    exact c.clean hx
  rw [pigaProcGetsidWrite, List.dropLast_concat, cString, hc, String.ofList_toList]

theorem isDigit_eq (c : Char) : PppSyntax.isDigit c = c.isDigit := rfl

theorem isSpace_of_isDigit {c : Char} (h : PppSyntax.isDigit c = true) : isSpace c = false := by
  rw [PppSyntax.isDigit, Bool.and_eq_true, decide_eq_true_eq, decide_eq_true_eq] at h
  have hlow : 48 ≤ c.toNat := UInt32.le_iff_toNat_le.mp h.1
  have hne : c ≠ ' ' := by
    rintro rfl
    exact absurd hlow (by decide)
  have hhigh : ¬c ≤ '\r' := fun hc => by
    have hle : c.toNat ≤ 13 := UInt32.le_iff_toNat_le.mp hc
    omega
  simp [isSpace, hne, hhigh]

theorem isDigit_of_mem_printU {n : U32} {c : Char} (h : c ∈ printU n) : PppSyntax.isDigit c = true := by
  rw [isDigit_eq]
  exact Nat.isDigit_of_mem_toDigits (by decide) (by decide) h

theorem digits_eq_ofDigitChars {cs : List Char} (h : ∀ c ∈ cs, PppSyntax.isDigit c = true) (n : Nat) :
    digits n cs = Nat.ofDigitChars 10 cs n := by
  induction cs generalizing n with
  | nil => rfl
  | cons c cs ih =>
      rw [digits, if_pos (h c List.mem_cons_self), ih (fun d hd => h d (List.mem_cons_of_mem _ hd))]
      rfl

theorem digits_printU (n : U32) : digits 0 (printU n) = n.toNat := by
  rw [digits_eq_ofDigitChars (fun c hc => isDigit_of_mem_printU hc)]
  exact Nat.ofDigitChars_toDigits (by decide) (by decide)

theorem getline_read (n : U32) : getline (pigaProcGetsidRead n 0).1 = String.ofList (printU n) := by
  rw [pigaProcGetsidRead, if_neg (by decide), getline, List.takeWhile_append_of_pos, List.takeWhile_cons_of_neg]
  · simp
  · decide
  · intro c hc
    rw [decide_eq_true_eq]
    rintro rfl
    exact absurd (isDigit_of_mem_printU hc) (by decide)

theorem strtoul_printU (n : U32) : strtoul (String.ofList (printU n)) = n.setWidth 64 := by
  have hdrop : (printU n).dropWhile isSpace = printU n := by
    apply List.dropWhile_eq_self_iff.mpr
    intro hpos
    rw [isSpace_of_isDigit (isDigit_of_mem_printU (List.getElem_mem hpos))]
    exact Bool.false_ne_true
  have hsign : ∀ c cs, printU n = c :: cs → c ≠ '-' ∧ c ≠ '+' := by
    intro c cs h
    have hc : PppSyntax.isDigit c = true := isDigit_of_mem_printU (h ▸ List.mem_cons_self)
    constructor
    · rintro rfl
      exact absurd hc (by decide)
    · rintro rfl
      exact absurd hc (by decide)
  have hlt : n.toNat < 2 ^ 64 := by
    have := n.isLt
    omega
  rw [strtoul, String.toList_ofList, hdrop]
  split
  · next cs h => exact absurd rfl (hsign _ _ h).1
  · next cs h => exact absurd rfl (hsign _ _ h).2
  · rw [digits_printU, if_pos hlt, BitVec.ofNat_toNat]

theorem printU_injective {m n : U32} (h : printU m = printU n) : m = n := by
  apply BitVec.eq_of_toNat_eq
  rw [← digits_printU m, h, digits_printU]

theorem strtoul_exchange (R : Resolver) (sid : U32) (c : Text) :
    (strtoul (exchange R sid c.text).1).setWidth 32 = (R c.text).getD 0 := by
  rw [exchange, write_text, getline_read, strtoul_printU]
  simp

section clients

variable {ι : Type}

inductive Call
  | write (c : Text)
  | read

def perform (R : Resolver) (sid : U32) : Call → List Char × U32
  | .write c => ([], (pigaProcGetsidWrite R sid (some (c.text.toList ++ ['\n']))).2)
  | .read => pigaProcGetsidRead sid 0

def after (R : Resolver) (sid : U32) (es : List (ι × Call)) : U32 :=
  es.foldl (fun sid e => (perform R sid e.2).2) sid

def calls [DecidableEq ι] (i : ι) (es : List (ι × Call)) : List Call := (es.filter (fun e => e.1 = i)).map Prod.snd

def lastWritten [DecidableEq ι] (i : ι) (es : List (ι × Call)) : Option Text :=
  (calls i es).foldl (fun last e => match e with
    | .write c => some c
    | .read => last) none

def AnswersOwn [DecidableEq ι] (R : Resolver) (sid : U32) (es : List (ι × Call)) : Prop :=
  ∀ past i rest c, es = past ++ (i, .read) :: rest → lastWritten i past = some c →
    (perform R (after R sid past) .read).1 = printU ((R c.text).getD 0) ++ ['\n']

theorem after_snoc_write (R : Resolver) (sid : U32) (es : List (ι × Call)) (i : ι) (c : Text) :
    after R sid (es ++ [(i, .write c)]) = (R c.text).getD 0 := by
  rw [after, List.foldl_append]
  exact write_text R (after R sid es) c

theorem after_snoc_read (R : Resolver) (sid : U32) (es : List (ι × Call)) (i : ι) :
    after R sid (es ++ [(i, .read)]) = 0 := by
  rw [after, List.foldl_append]
  rfl

theorem read_eq_iff (R : Resolver) (m n : U32) : (perform R m .read).1 = printU n ++ ['\n'] ↔ m = n := by
  constructor
  · intro h
    exact printU_injective (List.append_cancel_right h)
  · rintro rfl
    rfl

def onlyKnown (c : String) : Resolver := fun d => if d = c then some 1 else none

theorem write_of_after_onlyKnown {c : Text} {past : List (ι × Call)}
    (h : after (onlyKnown c.text) 0 past = 1) : ∃ before j, past = before ++ [(j, .write c)] := by
  rcases List.eq_nil_or_concat past with rfl | ⟨before, ⟨j, e⟩, hpast⟩
  · have hz : (0 : U32) = 1 := h
    exact absurd hz (by decide)
  · rw [List.concat_eq_append] at hpast
    subst hpast
    cases e with
    | read =>
        rw [after_snoc_read] at h
        exact absurd h (by decide)
    | write d =>
        rw [after_snoc_write, onlyKnown] at h
        by_cases hd : d.text = c.text
        · obtain ⟨d, hclean⟩ := d
          obtain rfl : d = c.text := hd
          exact ⟨before, j, rfl⟩
        · rw [if_neg hd] at h
          exact absurd h (by decide)

/-- No read is given another client's SID, whatever the SIDs are, exactly when
each read comes directly after a write of the reader's own context. -/
theorem answersOwn_iff [DecidableEq ι] (es : List (ι × Call)) :
    (∀ R sid, AnswersOwn R sid es) ↔
      ∀ past i rest c, es = past ++ (i, .read) :: rest → lastWritten i past = some c →
        ∃ before j, past = before ++ [(j, .write c)] := by
  constructor
  · intro h past i rest c hes hc
    apply write_of_after_onlyKnown
    have hread := h (onlyKnown c.text) 0 past i rest c hes hc
    rw [read_eq_iff] at hread
    rw [hread, onlyKnown, if_pos rfl]
    rfl
  · intro h R sid past i rest c hes hc
    obtain ⟨before, j, rfl⟩ := h past i rest c hes hc
    rw [after_snoc_write, read_eq_iff]

end clients

def shadowText : Text := ⟨"system_u:object_r:shadow_t", by decide⟩

def devptsText : Text := ⟨"root:object_r:user_devpts_t", by decide⟩

def twoKnown : Resolver := fun c =>
  if c = shadowText.text then some 102 else if c = devptsText.text then some 103 else none

def crossed : List (Bool × Call) :=
  [(false, .write shadowText), (true, .write devptsText), (false, .read), (true, .read)]

/-- The first client is given the other's SID, and the second one none. -/
theorem clients_mixed_up :
    calls false crossed = [.write shadowText, .read] ∧ calls true crossed = [.write devptsText, .read] ∧
      (perform twoKnown (after twoKnown 0 (crossed.take 2)) .read).1 = "103\n".toList ∧
      (perform twoKnown (after twoKnown 0 (crossed.take 3)) .read).1 = "0\n".toList ∧
      ¬AnswersOwn twoKnown 0 crossed := by
  refine ⟨rfl, rfl, by decide, by decide, ?_⟩
  intro h
  exact absurd (h [(false, .write shadowText), (true, .write devptsText)] false [(true, .read)] shadowText rfl rfl)
    (by decide)

end PigaLinux.Getsid
