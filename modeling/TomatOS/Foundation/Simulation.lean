import Mathlib.Logic.Basic

/-! Two levels of programs that may fail. The results of two runs match if both fail in the
same way or both end, with values that are related. The lower one follows the upper one if
it ends, with a related value, whenever the upper one does. Sequences and loops of programs
inherit both. -/

namespace TomatOS.Foundation

variable {ε α β γ δ σ τ : Type}

inductive Matches (r : α → β → Prop) : Except ε α → Except ε β → Prop
  | ok {a : α} {b : β} : r a b → Matches r (.ok a) (.ok b)
  | error (e : ε) : Matches r (.error e) (.error e)

def Follows (r : α → β → Prop) (x : Except ε α) (y : Except ε β) : Prop :=
  ∀ b, y = .ok b → ∃ a, x = .ok a ∧ r a b

variable {r : α → β → Prop} {r' : γ → δ → Prop} {x : Except ε α} {y : Except ε β}

theorem Matches.bind {f : α → Except ε γ} {g : β → Except ε δ} (h : Matches r x y)
    (hf : ∀ a b, r a b → Matches r' (f a) (g b)) : Matches r' (x >>= f) (y >>= g) := by
  cases h with
  | ok hr => exact hf _ _ hr
  | error e => exact .error e

/-- What the lower level returns if the upper one does. -/
theorem Matches.of_ok {b : β} (h : Matches r x (.ok b)) : ∃ a, x = .ok a ∧ r a b := by
  cases h with
  | ok hr => exact ⟨_, rfl, hr⟩

/-- A loop over the same list at both levels. -/
theorem Matches.foldlM {r : σ → τ → Prop} {f : σ → α → Except ε σ} {g : τ → α → Except ε τ}
    {l : List α} {s : σ} {t : τ} (h : r s t)
    (hstep : ∀ a ∈ l, ∀ s t, r s t → Matches r (f s a) (g t a)) :
    Matches r (l.foldlM f s) (l.foldlM g t) := by
  induction l generalizing s t with
  | nil => exact .ok h
  | cons a l ih =>
    rw [List.foldlM_cons, List.foldlM_cons]
    apply Matches.bind (hstep a List.mem_cons_self s t h)
    intro s' t' h'
    apply ih h'
    intro b hb
    exact hstep b (List.mem_cons_of_mem a hb)

/-! ### One direction -/

theorem Follows.ok {a : α} {b : β} (h : r a b) : Follows r (.ok a : Except ε α) (.ok b) := by
  intro b' hb
  cases hb
  exact ⟨a, rfl, h⟩

theorem Follows.error (e : ε) : Follows r x (.error e) := by
  intro b hb
  cases hb

theorem Follows.mono {r' : α → β → Prop} (h : Follows r x y) (hr : ∀ a b, r a b → r' a b) :
    Follows r' x y := by
  intro b hb
  obtain ⟨a, ha, hab⟩ := h b hb
  exact ⟨a, ha, hr a b hab⟩

/-- What is known of the upper result is known of the related ones. -/
theorem Follows.and {q : β → Prop} (h : Follows r x y) (hq : ∀ b, y = .ok b → q b) :
    Follows (fun a b => r a b ∧ q b) x y := by
  intro b hb
  obtain ⟨a, ha, hab⟩ := h b hb
  exact ⟨a, ha, hab, hq b hb⟩

theorem Follows.bind {f : α → Except ε γ} {g : β → Except ε δ} (h : Follows r x y)
    (hf : ∀ a b, r a b → Follows r' (f a) (g b)) : Follows r' (x >>= f) (y >>= g) := by
  intro d hd
  cases y with
  | error e => cases hd
  | ok b =>
    obtain ⟨a, rfl, hab⟩ := h b rfl
    exact hf a b hab d hd

theorem Follows.foldlM {r : σ → τ → Prop} {f : σ → α → Except ε σ} {g : τ → α → Except ε τ}
    {l : List α} {s : σ} {t : τ} (h : r s t)
    (hstep : ∀ a ∈ l, ∀ s t, r s t → Follows r (f s a) (g t a)) :
    Follows r (l.foldlM f s) (l.foldlM g t) := by
  induction l generalizing s t with
  | nil => exact .ok h
  | cons a l ih =>
    rw [List.foldlM_cons, List.foldlM_cons]
    apply Follows.bind (hstep a List.mem_cons_self s t h)
    intro s' t' h'
    apply ih h'
    intro b hb
    exact hstep b (List.mem_cons_of_mem a hb)

/-- A step above with no counterpart below. -/
theorem Follows.bind_right {g : β → δ} {r' : α → δ → Prop} (h : Follows r x y)
    (hg : ∀ a b, r a b → r' a (g b)) : Follows r' x (y >>= fun b => pure (g b)) := by
  intro d hd
  cases y with
  | error e => cases hd
  | ok b =>
    obtain ⟨a, rfl, hab⟩ := h b rfl
    cases hd
    exact ⟨a, rfl, hg a b hab⟩

/-- A step that cannot fail below. -/
theorem Follows.bind_of {a : α} {z : Except ε γ} {g : β → Except ε δ}
    (h : Follows r (.ok a) y) (hf : ∀ b, r a b → Follows r' z (g b)) :
    Follows r' z (y >>= g) := by
  intro d hd
  cases y with
  | error e => cases hd
  | ok b =>
    obtain ⟨a', ha', hab⟩ := h b rfl
    cases ha'
    exact hf b hab d hd

end TomatOS.Foundation
