import Mathlib.Logic.Basic

namespace PigaLinux.Trace

variable {ι α γ : Type}

/-- A result together with the places that were used to compute it, in order. -/
structure Traced (ι α : Type) where
  value : α
  used : List ι

instance : Monad (Traced ι) where
  pure a := ⟨a, []⟩
  bind x f := ⟨(f x.value).value, x.used ++ (f x.value).used⟩

def visit (i : ι) (a : α) : Traced ι α := ⟨a, [i]⟩

@[simp] theorem value_pure (a : α) : (pure a : Traced ι α).value = a := rfl

@[simp] theorem used_pure (a : α) : (pure a : Traced ι α).used = [] := rfl

@[simp] theorem value_visit (i : ι) (a : α) : (visit i a).value = a := rfl

@[simp] theorem used_visit (i : ι) (a : α) : (visit i a).used = [i] := rfl

@[simp] theorem value_bind (x : Traced ι α) (f : α → Traced ι γ) :
    (x >>= f).value = (f x.value).value := rfl

@[simp] theorem used_bind (x : Traced ι α) (f : α → Traced ι γ) :
    (x >>= f).used = x.used ++ (f x.value).used := rfl

theorem Traced.bind_assoc {β : Type} (x : Traced ι α) (f : α → Traced ι γ) (g : γ → Traced ι β) :
    x >>= f >>= g = x >>= fun a => f a >>= g :=
  congrArg (Traced.mk _) (List.append_assoc x.used (f x.value).used (g (f x.value).value).used)

theorem Traced.bind_pure (x : Traced ι α) : x >>= pure = x := congrArg (Traced.mk x.value) (List.append_nil x.used)

theorem value_foldlM {β : Type} (f : α → β → Traced ι α) (a : α) (bs : List β) :
    (bs.foldlM f a).value = bs.foldl (fun a b => (f a b).value) a := by
  induction bs generalizing a with
  | nil => rfl
  | cons b bs ih =>
      rw [List.foldlM_cons, value_bind, ih]
      rfl

/-- Every place the computation used satisfies P. -/
def Within (P : ι → Prop) (x : Traced ι α) : Prop := ∀ i ∈ x.used, P i

theorem within_pure (P : ι → Prop) (a : α) : Within P (pure a : Traced ι α) := by
  intro i hi
  simp at hi

theorem within_visit {P : ι → Prop} {i : ι} (hi : P i) (a : α) : Within P (visit i a) := by
  intro j hj
  rw [used_visit, List.mem_singleton] at hj
  exact hj ▸ hi

theorem within_bind {P : ι → Prop} {x : Traced ι α} {f : α → Traced ι γ}
    (hx : Within P x) (hf : Within P (f x.value)) : Within P (x >>= f) := by
  intro i hi
  rw [used_bind, List.mem_append] at hi
  exact hi.elim (hx i) (hf i)

theorem Within.mono {P Q : ι → Prop} {x : Traced ι α} (hx : Within P x) (h : ∀ i, P i → Q i) :
    Within Q x := fun i hi => h i (hx i hi)

end PigaLinux.Trace
