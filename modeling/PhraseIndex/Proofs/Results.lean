import Mathlib.Data.List.Forall2
import PhraseIndex.Error

/-!
# Steps that may fail

How a chain of steps that may fail comes to its result: every step did (`bind_eq_ok_iff`, `mapM_eq_ok_iff`), and every
condition on the way held (`require_eq_ok_iff`). When it fails, one of the steps did (`bind_eq_error_iff`,
`mapM_error`). What each step keeps the whole chain keeps (`foldlM_induct`).
-/

namespace PhraseIndex

theorem bind_eq_ok_iff {α β ε : Type} {x : Except ε α} {f : α → Except ε β} {r : β} :
    x >>= f = .ok r ↔ ∃ a, x = .ok a ∧ f a = .ok r := by
  cases x with
  | error e => simp [bind, Except.bind]
  | ok a => simp [bind, Except.bind]

theorem bind_eq_error_iff {α β ε : Type} {x : Except ε α} {f : α → Except ε β} {e : ε} :
    x >>= f = .error e ↔ x = .error e ∨ ∃ a, x = .ok a ∧ f a = .error e := by
  cases x with
  | error e => simp [bind, Except.bind]
  | ok a => simp [bind, Except.bind]

theorem map_eq_error_iff {α β ε : Type} {x : Except ε α} {f : α → β} {e : ε} : f <$> x = .error e ↔ x = .error e := by
  cases x with
  | error e => simp [Functor.map, Except.map]
  | ok a => simp [Functor.map, Except.map]

theorem map_eq_ok_iff {α β ε : Type} {x : Except ε α} {f : α → β} {r : β} :
    f <$> x = .ok r ↔ ∃ a, x = .ok a ∧ f a = r := by
  cases x with
  | error e => simp [Functor.map, Except.map]
  | ok a => simp [Functor.map, Except.map]

theorem mapError_eq_ok_iff {α ε ε' : Type} {x : Except ε α} {f : ε → ε'} {a : α} :
    x.mapError f = .ok a ↔ x = .ok a := by
  cases x with
  | error e => simp [Except.mapError]
  | ok a => simp [Except.mapError]

theorem exists_of_mapError {α ε ε' : Type} {x : Except ε α} {f : ε → ε'} {e : ε'} (h : x.mapError f = .error e) :
    ∃ cause, f cause = e := by
  cases x with
  | error cause => exact ⟨cause, Except.error.inj h⟩
  | ok a => cases h

theorem toOption_eq_some_iff {α ε : Type} {x : Except ε α} {a : α} : x.toOption = some a ↔ x = .ok a := by
  cases x with
  | error e => simp [Except.toOption]
  | ok a => simp [Except.toOption]

theorem exists_error_of_isOk {α ε : Type} {x : Except ε α} (h : x.isOk = false) : ∃ e, x = .error e := by
  cases x with
  | ok a => cases h
  | error e => exact ⟨e, rfl⟩

theorem toOption_map {α β ε : Type} (f : α → β) (x : Except ε α) : (f <$> x).toOption = x.toOption.map f := by
  cases x <;> rfl

theorem require_eq_error_iff {condition : Bool} {e e' : Error} :
    require condition e = .error e' ↔ condition = false ∧ e = e' := by
  cases condition <;> simp [require]

theorem require_eq_ok_iff {condition : Bool} {e : Error} {u : Unit} :
    require condition e = .ok u ↔ condition = true := by
  cases condition <;> simp [require]

/-- The condition that was refused tells the kind. -/
theorem kind_of_require {condition : Bool} {e e' : Error} (h : require condition e = .error e') : e'.kind = e.kind := by
  rw [(require_eq_error_iff.1 h).2]

/-- A list is mapped if each of its elements is. -/
theorem mapM_eq_ok_iff {α β ε : Type} {f : α → Except ε β} {xs : List α} {ys : List β} :
    xs.mapM f = .ok ys ↔ List.Forall₂ (fun x y => f x = .ok y) xs ys := by
  induction xs generalizing ys with
  | nil => cases ys <;> simp [pure, Except.pure]
  | cons x xs ih =>
    rw [List.mapM_cons]
    cases hx : f x with
    | error e => cases ys <;> simp [bind, Except.bind, hx]
    | ok y =>
      cases hr : xs.mapM f with
      | error e => cases ys <;> simp [bind, Except.bind, hx, hr, ← ih]
      | ok rest => cases ys <;> simp [bind, Except.bind, pure, Except.pure, hx, hr, ← ih]

theorem mapM_cons_eq_ok_iff {α β ε : Type} {f : α → Except ε β} {x : α} {xs : List α} {ys : List β} :
    (x :: xs).mapM f = .ok ys ↔ ∃ y rest, f x = .ok y ∧ xs.mapM f = .ok rest ∧ y :: rest = ys := by
  simp only [List.mapM_cons, bind_eq_ok_iff, pure, Except.pure, Except.ok.injEq, exists_and_left]

/-- A list is mapped if both its parts are. -/
theorem mapM_append_eq_ok_iff {α β ε : Type} {f : α → Except ε β} {xs xs' : List α} {ys : List β} :
    (xs ++ xs').mapM f = .ok ys ↔ ∃ front back, xs.mapM f = .ok front ∧ xs'.mapM f = .ok back ∧ front ++ back = ys := by
  simp only [List.mapM_append, bind_eq_ok_iff, pure, Except.pure, Except.ok.injEq, exists_and_left]

/-- The elements of a mapped list are the results. -/
theorem mem_iff_of_mapM {α β ε : Type} {f : α → Except ε β} {xs : List α} {ys : List β} (h : xs.mapM f = .ok ys)
    {y : β} :
    y ∈ ys ↔ ∃ x ∈ xs, f x = .ok y := by
  have hall := mapM_eq_ok_iff.1 h
  clear h
  induction hall with
  | nil => simp
  | cons hxy _ ih => simp [ih, hxy, eq_comm]

/-- No element of a mapped list fails. -/
theorem exists_of_mapM {α β ε : Type} {f : α → Except ε β} {xs : List α} {ys : List β} (h : xs.mapM f = .ok ys) {x : α}
    (hx : x ∈ xs) : ∃ y, f x = .ok y := by
  induction xs generalizing ys with
  | nil => cases hx
  | cons z xs ih =>
    obtain ⟨y, rest, hz, hrest, -⟩ := mapM_cons_eq_ok_iff.1 h
    rcases List.mem_cons.1 hx with rfl | hx
    · exact ⟨y, hz⟩
    · exact ih hrest hx

/-- A list is mapped if no element fails. -/
theorem mapM_isOk {α β ε : Type} {f : α → Except ε β} {xs : List α} (h : ∀ x ∈ xs, ∃ y, f x = .ok y) :
    ∃ ys, xs.mapM f = .ok ys := by
  induction xs with
  | nil => exact ⟨[], rfl⟩
  | cons x xs ih =>
    obtain ⟨y, hy⟩ := h x List.mem_cons_self
    obtain ⟨ys, hys⟩ := ih fun z hz => h z (List.mem_cons_of_mem _ hz)
    exact ⟨y :: ys, mapM_eq_ok_iff.2 (.cons hy (mapM_eq_ok_iff.1 hys))⟩

/-- A list cannot be mapped for one of its elements. -/
theorem mapM_error {α β ε : Type} {f : α → Except ε β} {xs : List α} {e : ε} (h : xs.mapM f = .error e) :
    ∃ x ∈ xs, f x = .error e := by
  induction xs with
  | nil => cases h
  | cons x xs ih =>
    rw [List.mapM_cons] at h
    rcases bind_eq_error_iff.1 h with hx | ⟨y, -, h⟩
    · exact ⟨x, List.mem_cons_self, hx⟩
    · rcases bind_eq_error_iff.1 h with hrest | ⟨ys, -, h⟩
      · obtain ⟨z, hz, he⟩ := ih hrest
        exact ⟨z, List.mem_cons_of_mem _ hz, he⟩
      · cases h

/-- A fold goes on with the rest. -/
theorem foldlM_append_of_ok {α β ε : Type} {f : β → α → Except ε β} {xs : List α} {acc b : β}
    (h : xs.foldlM f acc = .ok b) (ys : List α) : (xs ++ ys).foldlM f acc = ys.foldlM f b := by
  rw [List.foldlM_append, h]
  rfl

/-- Folds over rests that do the same do the same. -/
theorem foldlM_append_congr {α β ε : Type} {f : β → α → Except ε β} {ys zs : List α}
    (h : ∀ acc, ys.foldlM f acc = zs.foldlM f acc) (xs : List α) (acc : β) :
    (xs ++ ys).foldlM f acc = (xs ++ zs).foldlM f acc := by
  rw [List.foldlM_append, List.foldlM_append]
  exact congrArg _ (funext h)

/-- A fold without failures. -/
theorem foldlM_eq_foldl {α β ε : Type*} {f : β → α → Except ε β} {g : β → α → β} {xs : List α}
    (h : ∀ acc, ∀ x ∈ xs, f acc x = .ok (g acc x)) (acc : β) : xs.foldlM f acc = .ok (xs.foldl g acc) := by
  induction xs generalizing acc with
  | nil => rfl
  | cons x xs ih =>
    rw [List.foldlM_cons, h acc x List.mem_cons_self, List.foldl_cons]
    exact ih (fun acc y hy => h acc y (List.mem_cons_of_mem _ hy)) (g acc x)

/-- What every element keeps, without failing, the whole fold keeps. -/
theorem foldlM_induct {α β ε : Type} {P : β → Prop} {f : β → α → Except ε β} {xs : List α} {acc : β}
    (h : ∀ acc, ∀ x ∈ xs, P acc → ∃ b, f acc x = .ok b ∧ P b) (hacc : P acc) :
    ∃ b, xs.foldlM f acc = .ok b ∧ P b := by
  induction xs generalizing acc with
  | nil => exact ⟨acc, rfl, hacc⟩
  | cons x xs ih =>
    obtain ⟨b, hb, hP⟩ := h acc x List.mem_cons_self hacc
    rw [List.foldlM_cons, hb]
    exact ih (fun acc y hy => h acc y (List.mem_cons_of_mem _ hy)) hP

end PhraseIndex
