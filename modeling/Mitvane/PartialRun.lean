import Mathlib.Init

/-! Computations that may stop with an error, and runs of a partial step function
over a list of inputs. -/
set_option autoImplicit false

namespace PartialRun
variable {ε α β σ ι : Type}

@[simp] theorem bind_eq_ok {x : Except ε α} {f : α → Except ε β} {b : β} :
    (x >>= f) = .ok b ↔ ∃ a, x = .ok a ∧ f a = .ok b := by
  cases x <;> simp [bind,Except.bind]

@[simp] theorem bind_eq_error {x : Except ε α} {f : α → Except ε β} {e : ε} :
    (x >>= f) = .error e ↔ x = .error e ∨ ∃ a, x = .ok a ∧ f a = .error e := by
  cases x <;> simp [bind,Except.bind]

@[simp] theorem map_eq_ok {x : Except ε α} {g : α → β} {b : β} :
    (g <$> x) = .ok b ↔ ∃ a, x = .ok a ∧ g a = b := by
  cases x <;> simp [Functor.map,Except.map]

@[simp] theorem ok_bind (a : α) (f : α → Except ε β) : (Except.ok a >>= f) = f a := rfl

@[simp] theorem pure_eq_ok {a b : α} : (pure a : Except ε α) = .ok b ↔ a = b := by
  simp [pure,Except.pure]

@[simp] theorem pure_ne_error {a : α} {e : ε} : (pure a : Except ε α) ≠ .error e := by
  simp [pure,Except.pure]

theorem toOption_eq_some {x : Except ε α} {a : α} : x.toOption = some a ↔ x = .ok a := by
  cases x <;> simp [Except.toOption]

def require (c : Bool) (e : ε) : Except ε Unit := if c then .ok () else .error e

@[simp] theorem require_eq_error {c : Bool} {e e' : ε} :
    require c e = .error e' ↔ c = false ∧ e = e' := by
  cases c <;> simp [require]

@[simp] theorem mapError_eq_ok {ε' : Type} {x : Except ε α} {f : ε → ε'} {a : α} :
    x.mapError f = .ok a ↔ x = .ok a := by
  cases x with
  | error e =>
    constructor
    · intro h
      cases h
    · intro h
      cases h
  | ok b =>
    constructor
    · intro h
      cases h
      rfl
    · intro h
      cases h
      rfl

@[simp] theorem mapError_eq_error {ε' : Type} {x : Except ε α} {f : ε → ε'} {e : ε'} :
    x.mapError f = .error e ↔ ∃ e₀, x = .error e₀ ∧ f e₀ = e := by
  cases x with
  | error e' =>
    constructor
    · intro h
      cases h
      exact ⟨e',rfl,rfl⟩
    · intro ⟨e₀,h,he⟩
      cases h
      cases he
      rfl
  | ok b =>
    constructor
    · intro h
      cases h
    · intro ⟨e₀,h,_⟩
      cases h

/-- Normal and exceptional postcondition of a computation. -/
def Meets (x : Except ε α) (Q : α → Prop) (E : ε → Prop) : Prop :=
  match x with
  | .ok a => Q a
  | .error e => E e

theorem Meets.of_ok {x : Except ε α} {Q : α → Prop} {E : ε → Prop} (h : Meets x Q E) {a : α}
    (hx : x = .ok a) : Q a := by
  subst hx; exact h

theorem Meets.of_error {x : Except ε α} {Q : α → Prop} {E : ε → Prop} (h : Meets x Q E) {e : ε}
    (hx : x = .error e) : E e := by
  subst hx; exact h

theorem Meets.pure {a : α} {Q : α → Prop} {E : ε → Prop} (h : Q a) :
    Meets (Pure.pure a : Except ε α) Q E := h

theorem Meets.bind {x : Except ε α} {f : α → Except ε β} {P : α → Prop} {Q : β → Prop}
    {E : ε → Prop} (hx : Meets x P E) (hf : ∀ a, P a → Meets (f a) Q E) :
    Meets (x >>= f) Q E := by
  cases x with
  | error e => exact hx
  | ok a => exact hf a hx

theorem Meets.map {x : Except ε α} {g : α → β} {Q : β → Prop} {E : ε → Prop}
    (h : Meets x (fun a => Q (g a)) E) : Meets (g <$> x) Q E := by
  cases x <;> exact h

theorem Meets.mapError {ε' : Type} {x : Except ε α} {g : ε → ε'} {Q : α → Prop} {E : ε' → Prop}
    (h : Meets x Q (fun e => E (g e))) : Meets (x.mapError g) Q E := by
  cases x <;> exact h

theorem Meets.require {c : Bool} {e : ε} {E : ε → Prop} (h : c = false → E e) :
    Meets (PartialRun.require c e) (fun _ => c = true) E := by
  cases c with
  | false => exact h rfl
  | true => rfl

theorem Meets.mono {x : Except ε α} {P Q : α → Prop} {D E : ε → Prop} (h : Meets x P D)
    (hQ : ∀ a, P a → Q a) (hE : ∀ e, D e → E e) : Meets x Q E := by
  cases x with
  | error e => exact hE e h
  | ok a => exact hQ a h

/-- Two computations stop with the same error, or both return with related results. -/
def Related (R : α → β → Prop) : Except ε α → Except ε β → Prop
  | .ok a, .ok b => R a b
  | .error e, .error e' => e = e'
  | _, _ => False

theorem Related.bind {α' β' : Type} {R : α → β → Prop} {S : α' → β' → Prop} {x : Except ε α}
    {y : Except ε β} {f : α → Except ε α'} {g : β → Except ε β'} (h : Related R x y)
    (hf : ∀ a b, x = .ok a → y = .ok b → R a b → Related S (f a) (g b)) :
    Related S (x >>= f) (y >>= g) := by
  cases x with
  | error e =>
    cases y with
    | error e' => exact h
    | ok b => exact h.elim
  | ok a =>
    cases y with
    | error e' => exact h.elim
    | ok b => exact hf a b rfl rfl h

theorem Related.imp {R S : α → β → Prop} {x : Except ε α} {y : Except ε β} (h : Related R x y)
    (himp : ∀ a b, x = .ok a → y = .ok b → R a b → S a b) : Related S x y := by
  cases x with
  | error e =>
    cases y with
    | error e' => exact h
    | ok b => exact h.elim
  | ok a =>
    cases y with
    | error e' => exact h.elim
    | ok b => exact himp a b rfl rfl h

theorem Related.of_ok {R : α → β → Prop} {x : Except ε α} {y : Except ε β} (h : Related R x y)
    {a : α} (hx : x = .ok a) : ∃ b, y = .ok b ∧ R a b := by
  subst hx
  cases y with
  | error e' => exact h.elim
  | ok b => exact ⟨b,rfl,h⟩

theorem Related.of_error {R : α → β → Prop} {x : Except ε α} {y : Except ε β}
    (h : Related R x y) {e : ε} (hx : x = .error e) : y = .error e := by
  subst hx
  cases y with
  | error e' => exact congrArg Except.error (Eq.symm h)
  | ok b => exact h.elim

/-- Feed the inputs to `step` until one of them makes it stop. The result is the
list of inputs on which `step` returned, and the state after them. -/
def drain (step : σ → ι → Except ε σ) : σ → List ι → List ι × σ
  | s, [] => ([],s)
  | s, i :: is =>
    match step s i with
    | .ok s' => (i :: (drain step s' is).1,(drain step s' is).2)
    | .error _ => ([],s)

theorem drain_induction {step : σ → ι → Except ε σ} {R : σ → List ι → σ → Prop}
    (nil : ∀ s, R s [] s)
    (cons : ∀ {s i s' done t}, step s i = .ok s' → R s' done t → R s (i :: done) t)
    (s : σ) (is : List ι) : R s (drain step s is).1 (drain step s is).2 := by
  induction is generalizing s with
  | nil => exact nil s
  | cons i is ih =>
    cases h : step s i with
    | error e => simpa [drain,h] using nil s
    | ok s' => simpa [drain,h] using cons h (ih s')

theorem drain_invariant {step : σ → ι → Except ε σ} {P : σ → Prop}
    (hstep : ∀ {s i s'}, step s i = .ok s' → P s → P s')
    (s : σ) (is : List ι) (h : P s) : P (drain step s is).2 :=
  drain_induction (R := fun s _ t => P s → P t) (fun _ hs => hs)
    (fun hs ht hp => ht (hstep hs hp)) s is h

theorem drain_done_append (step : σ → ι → Except ε σ) (s : σ) (is js : List ι) :
    (drain step s is).1 <+: (drain step s (is ++ js)).1 := by
  induction is generalizing s with
  | nil => exact List.nil_prefix
  | cons i is ih =>
    cases h : step s i with
    | error e => simp [drain,h]
    | ok s' => simpa [drain,h] using ih s'

/-- A run stops at the first input on which the step function does not return,
and nowhere else. -/
theorem drain_stops (step : σ → ι → Except ε σ) (s : σ) (is : List ι) :
    ∃ rest, is = (drain step s is).1 ++ rest ∧
      (rest = [] ∨ ∃ i tail e, rest = i :: tail ∧ step (drain step s is).2 i = .error e) := by
  induction is generalizing s with
  | nil => exact ⟨[],rfl,.inl rfl⟩
  | cons i is ih =>
    cases h : step s i with
    | error e => exact ⟨i :: is,by simp [drain,h],.inr ⟨i,is,e,rfl,by simp [drain,h]⟩⟩
    | ok s' =>
      obtain ⟨rest,hrest,hend⟩ := ih s'
      refine ⟨rest,?_,?_⟩
      · simpa [drain,h] using hrest
      · simpa [drain,h] using hend

/-- `t` is reached from `s` by steps that all return, on the given inputs. -/
inductive Reaches (step : σ → ι → Except ε σ) (s : σ) : List ι → σ → Prop where
  | nil : Reaches step s [] s
  | snoc {done : List ι} {t t' : σ} {i : ι} : Reaches step s done t → step t i = .ok t' →
      Reaches step s (done ++ [i]) t'

/-- A run goes on with steps that are computed in one go. -/
theorem Reaches.foldlM {step : σ → ι → Except ε σ} {s m t : σ} {done rest : List ι}
    (h : Reaches step s done m) (hrest : rest.foldlM step m = .ok t) :
    Reaches step s (done ++ rest) t := by
  induction rest generalizing done m with
  | nil =>
    cases hrest
    rwa [List.append_nil]
  | cons i rest ih =>
    rw [List.foldlM_cons] at hrest
    obtain ⟨m',hm',hrest⟩ := bind_eq_ok.mp hrest
    rw [List.append_cons]
    exact ih (h.snoc hm') hrest

theorem Reaches.nil_eq {step : σ → ι → Except ε σ} {s t : σ} (h : Reaches step s [] t) :
    t = s := by
  generalize hd : ([] : List ι) = done at h
  cases h with
  | nil => rfl
  | snoc _ _ => simp at hd

theorem Reaches.of_singleton {step : σ → ι → Except ε σ} {s t : σ} {i : ι}
    (h : Reaches step s [i] t) : step s i = .ok t := by
  generalize hd : [i] = done at h
  cases h with
  | nil => simp at hd
  | @snoc done m _ j hr hs =>
    have hsnoc : [] ++ [i] = done ++ [j] := hd
    obtain ⟨hnil,hj⟩ := List.append_inj' hsnoc rfl
    cases hj
    subst hnil
    rw [hr.nil_eq] at hs
    exact hs

theorem Reaches.split {step : σ → ι → Except ε σ} {s t : σ} {done rest : List ι}
    (h : Reaches step s (done ++ rest) t) :
    ∃ m, Reaches step s done m ∧ Reaches step m rest t := by
  generalize hd : done ++ rest = inputs at h
  induction h generalizing rest with
  | nil =>
    obtain ⟨rfl,rfl⟩ := List.append_eq_nil_iff.mp hd
    exact ⟨s,.nil,.nil⟩
  | @snoc inputs t t' i hr hs ih =>
    rcases List.eq_nil_or_concat rest with rfl | ⟨rest',j,rfl⟩
    · rw [List.append_nil] at hd
      subst hd
      exact ⟨t',hr.snoc hs,.nil⟩
    · rw [List.concat_eq_append] at hd ⊢
      rw [← List.append_assoc] at hd
      obtain ⟨hinit,hj⟩ := List.append_inj' hd rfl
      cases hj
      obtain ⟨m,hdone,hrest⟩ := ih hinit
      exact ⟨m,hdone,hrest.snoc hs⟩

end PartialRun
