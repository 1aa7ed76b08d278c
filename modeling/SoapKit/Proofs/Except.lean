import Mathlib.Data.List.Forall2

/-!
# Computations that may fail

What a computation went through when it succeeds: both halves of a sequence, every member of a list,
every step of a run. And what it ends with when it does not: the first error on the way.
-/

namespace SoapKit

variable {ε α β σ : Type}

theorem bind_eq_ok {x : Except ε α} {f : α → Except ε β} {b : β} :
    x >>= f = .ok b ↔ ∃ a, x = .ok a ∧ f a = .ok b := by
  constructor
  · intro h
    cases x with
    | error e => cases h
    | ok a => exact ⟨a, rfl, h⟩
  · rintro ⟨a, rfl, h⟩
    exact h

theorem map_eq_ok {x : Except ε α} {f : α → β} {b : β} :
    f <$> x = .ok b ↔ ∃ a, x = .ok a ∧ f a = b := by
  cases x <;> simp [Functor.map, Except.map]

theorem mapError_bind {ε' : Type} (f : ε → ε') (x : Except ε α) (k : α → Except ε β) :
    (x >>= k).mapError f = x.mapError f >>= fun a => (k a).mapError f := by
  cases x <;> rfl

theorem toOption_eq_some {x : Except ε α} {a : α} : x.toOption = some a ↔ x = .ok a := by
  cases x with
  | error e => simp [Except.toOption]
  | ok b => simp [Except.toOption]

theorem eq_error_of_match {x : Except ε α} {e : ε}
    (h : (match x with
      | .ok _ => none
      | .error e => some e) = some e) : x = .error e := by
  cases x with
  | ok a => cases h
  | error e' => rw [Option.some.inj h]

theorem exists_eq_ok {x : Except ε α} (h : x.toOption.isSome = true) : ∃ a, x = .ok a :=
  (Option.isSome_iff_exists.1 h).imp fun _ => toOption_eq_some.1

/-- A list is gone through successfully when every member is. -/
theorem mapM_eq_ok_iff {f : α → Except ε β} {xs : List α} {ys : List β} :
    xs.mapM f = .ok ys ↔ List.Forall₂ (fun x y => f x = .ok y) xs ys := by
  induction xs generalizing ys with
  | nil =>
    rw [List.mapM_nil, List.forall₂_nil_left_iff]
    constructor
    · intro h
      cases h
      rfl
    · rintro rfl
      rfl
  | cons x rest ih =>
    rw [List.mapM_cons, List.forall₂_cons_left_iff]
    constructor
    · intro h
      obtain ⟨y, hy, h⟩ := bind_eq_ok.1 h
      obtain ⟨others, hothers, h⟩ := bind_eq_ok.1 h
      cases h
      exact ⟨y, others, hy, ih.1 hothers, rfl⟩
    · rintro ⟨y, others, hy, hothers, rfl⟩
      rw [hy, ih.2 hothers]
      rfl

theorem mapM_eq_some_iff {f : α → Option β} {xs : List α} {ys : List β} :
    xs.mapM f = some ys ↔ List.Forall₂ (fun x y => f x = some y) xs ys := by
  induction xs generalizing ys with
  | nil =>
    rw [List.mapM_nil, List.forall₂_nil_left_iff]
    exact ⟨fun h => (Option.some.inj h).symm, fun h => congrArg some h.symm⟩
  | cons x rest ih =>
    rw [List.mapM_cons, List.forall₂_cons_left_iff]
    constructor
    · intro h
      obtain ⟨y, hy, h⟩ := Option.bind_eq_some_iff.1 h
      obtain ⟨others, hothers, h⟩ := Option.bind_eq_some_iff.1 h
      exact ⟨y, others, hy, ih.1 hothers, (Option.some.inj h).symm⟩
    · rintro ⟨y, others, hy, hothers, rfl⟩
      rw [hy, ih.2 hothers]
      rfl

theorem exists_mem_of_forall₂ {R : α → β → Prop} {xs : List α} {ys : List β}
    (h : List.Forall₂ R xs ys) {y : β} (hy : y ∈ ys) : ∃ x ∈ xs, R x y := by
  induction h with
  | nil => cases hy
  | cons hxy _ ih =>
    rcases List.mem_cons.1 hy with rfl | hy
    · exact ⟨_, List.mem_cons_self, hxy⟩
    · obtain ⟨x, hx, hxy⟩ := ih hy
      exact ⟨x, List.mem_cons_of_mem _ hx, hxy⟩

theorem exists_forall₂ {R : α → β → Prop} {xs : List α} (h : ∀ x ∈ xs, ∃ y, R x y) :
    ∃ ys, List.Forall₂ R xs ys := by
  induction xs with
  | nil => exact ⟨[], .nil⟩
  | cons x rest ih =>
    rw [List.forall_mem_cons] at h
    obtain ⟨y, hy⟩ := h.1
    obtain ⟨ys, hys⟩ := ih h.2
    exact ⟨y :: ys, .cons hy hys⟩

theorem forall₂_comp {γ : Type} {R : α → β → Prop} {S : β → γ → Prop} {xs : List α} {ys : List β}
    {zs : List γ} (h : List.Forall₂ R xs ys) (h' : List.Forall₂ S ys zs) :
    List.Forall₂ (fun x z => ∃ y, R x y ∧ S y z) xs zs := by
  induction h generalizing zs with
  | nil =>
    cases h'
    exact .nil
  | cons hxy _ ih =>
    cases h' with
    | cons hyz hrest => exact .cons ⟨_, hxy, hyz⟩ (ih hrest)

theorem map_eq_of_forall₂ {γ : Type} {R : α → β → Prop} {f : α → γ} {g : β → γ}
    (hfg : ∀ {x y}, R x y → g y = f x) {xs : List α} {ys : List β} (h : List.Forall₂ R xs ys) :
    ys.map g = xs.map f := by
  induction h with
  | nil => rfl
  | cons hxy _ ih => rw [List.map_cons, List.map_cons, hfg hxy, ih]

/-- What every step of a run keeps is kept by the run. -/
theorem foldlM_keeps_of_forall {P : σ → Prop} {step : σ → α → Except ε σ} {s s' : σ}
    {xs : List α} (hstep : ∀ x ∈ xs, ∀ {s s'}, P s → step s x = .ok s' → P s') (hs : P s)
    (h : xs.foldlM step s = .ok s') : P s' := by
  induction xs generalizing s with
  | nil =>
    cases h
    exact hs
  | cons x rest ih =>
    rw [List.foldlM_cons] at h
    obtain ⟨next, hnext, h⟩ := bind_eq_ok.1 h
    exact ih (fun y hy => hstep y (List.mem_cons_of_mem x hy))
      (hstep x List.mem_cons_self hs hnext) h

theorem foldlM_keeps {P : σ → Prop} {step : σ → α → Except ε σ}
    (hstep : ∀ {s s' x}, P s → step s x = .ok s' → P s') {s s' : σ} {xs : List α} (hs : P s)
    (h : xs.foldlM step s = .ok s') : P s' :=
  foldlM_keeps_of_forall (fun _ _ => hstep) hs h

/-! ## Computations that succeed more often -/

/-- Where a computation succeeds another one does, with the same result. -/
def Extends (x' x : Except ε α) : Prop :=
  ∀ a, x = .ok a → x' = .ok a

namespace Extends

variable {x x' y y' : Except ε α}

protected theorem rfl : Extends x x :=
  fun _ h => h

theorem error {e : ε} : Extends x (.error e) := by
  intro a h
  cases h

theorem bind {f f' : α → Except ε β} (hx : Extends x' x) (hf : ∀ a, Extends (f' a) (f a)) :
    Extends (x' >>= f') (x >>= f) := by
  intro b h
  obtain ⟨a, ha, hb⟩ := bind_eq_ok.1 h
  exact bind_eq_ok.2 ⟨a, hx a ha, hf a b hb⟩

theorem ite {c : Prop} [Decidable c] (hx : Extends x' x) (hy : Extends y' y) :
    Extends (if c then x' else y') (if c then x else y) := by
  by_cases hc : c
  · simpa only [hc, if_true] using hx
  · simpa only [hc, if_false] using hy

theorem mapM {f f' : α → Except ε β} (hf : ∀ a, Extends (f' a) (f a)) (xs : List α) :
    Extends (xs.mapM f') (xs.mapM f) := by
  intro ys h
  exact mapM_eq_ok_iff.2 ((mapM_eq_ok_iff.1 h).imp fun a b => hf a b)

end Extends

/-! ## Computations that fail in one way only -/

/-- All errors of a computation are of a kind. -/
def FailsOnly (P : ε → Prop) (x : Except ε α) : Prop :=
  ∀ e, x = .error e → P e

namespace FailsOnly

variable {P : ε → Prop} {x y : Except ε α}

theorem ok {a : α} : FailsOnly P (.ok a) := by
  intro e h
  cases h

theorem error {e : ε} (h : P e) : FailsOnly P (.error e : Except ε α) := by
  rintro _ ⟨⟩
  exact h

theorem bind {f : α → Except ε β} (hx : FailsOnly P x) (hf : ∀ a, FailsOnly P (f a)) :
    FailsOnly P (x >>= f) := by
  cases x with
  | error e => exact error (hx e rfl)
  | ok a => exact hf a

theorem ite {c : Prop} [Decidable c] (hx : FailsOnly P x) (hy : FailsOnly P y) :
    FailsOnly P (if c then x else y) := by
  by_cases hc : c
  · simpa only [hc, if_true] using hx
  · simpa only [hc, if_false] using hy

theorem mapM {f : α → Except ε β} (hf : ∀ a, FailsOnly P (f a)) (xs : List α) :
    FailsOnly P (xs.mapM f) := by
  induction xs with
  | nil => exact ok
  | cons a rest ih =>
    rw [List.mapM_cons]
    exact (hf a).bind fun b => ih.bind fun bs => ok

theorem foldlM {step : σ → α → Except ε σ} (hstep : ∀ s a, FailsOnly P (step s a)) (xs : List α)
    (s : σ) : FailsOnly P (xs.foldlM step s) := by
  induction xs generalizing s with
  | nil => exact ok
  | cons a rest ih =>
    rw [List.foldlM_cons]
    exact (hstep s a).bind ih

end FailsOnly

/-! ## How computations end -/

/-- A computation ends with the error that is given, and with a result where none is given. -/
def EndsWith (x : Except ε α) : Option ε → Prop
  | some e => x = .error e
  | none => ∃ a, x = .ok a

theorem findSome?_cons_eq_or (g : α → Option β) (a : α) (rest : List α) :
    (a :: rest).findSome? g = (g a).or (rest.findSome? g) := by
  rw [← List.singleton_append, List.findSome?_append, List.findSome?_singleton]

namespace EndsWith

variable {x : Except ε α} {first second : Option ε}

theorem ok (a : α) : EndsWith (.ok a : Except ε α) none :=
  ⟨a, rfl⟩

theorem error (e : ε) : EndsWith (.error e : Except ε α) (some e) :=
  rfl

theorem eq_ok_iff (h : EndsWith x first) : (∃ a, x = .ok a) ↔ first = none := by
  cases first with
  | none => exact ⟨fun _ => rfl, fun _ => h⟩
  | some e =>
    obtain rfl : x = .error e := h
    simp

theorem eq_error_iff (h : EndsWith x first) {e : ε} : x = .error e ↔ first = some e := by
  cases first with
  | none =>
    obtain ⟨a, rfl⟩ := h
    simp
  | some e' =>
    obtain rfl : x = .error e' := h
    simp

/-- A sequence ends with the error of its first half, if there is one. -/
theorem bind {f : α → Except ε β} (hx : EndsWith x first)
    (hf : ∀ a, x = .ok a → EndsWith (f a) second) : EndsWith (x >>= f) (first.or second) := by
  cases first with
  | none =>
    obtain ⟨a, rfl⟩ := hx
    exact hf a rfl
  | some e =>
    obtain rfl : x = .error e := hx
    exact error e

theorem bind_ok {f : α → β} (hx : EndsWith x first) :
    EndsWith (x >>= fun a => .ok (f a)) first := by
  have h : EndsWith (x >>= fun a => .ok (f a)) (first.or none) := hx.bind fun a _ => ok (f a)
  rwa [Option.or_none] at h

/-- Going through a list ends with the error of the first member that has one. -/
theorem mapM {f : α → Except ε β} {g : α → Option ε} (hf : ∀ a, EndsWith (f a) (g a))
    (xs : List α) : EndsWith (xs.mapM f) (xs.findSome? g) := by
  induction xs with
  | nil => exact ok []
  | cons a rest ih =>
    rw [List.mapM_cons, findSome?_cons_eq_or]
    exact (hf a).bind fun b _ => ih.bind_ok

end EndsWith

end SoapKit
