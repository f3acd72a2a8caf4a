import Mathlib.Data.List.Induction
import Mathlib.Data.List.Infix

/-!
# Runs of steps

A step of a system can be made in some states and not in others. `Steps.run` makes the steps of a list in their order,
if all of them can be made. `Steps.Always` puts a condition on every step of a run; what the steps keep under it the run
keeps (`Steps.run_invariant`).
-/

namespace PhraseIndex

namespace Steps

variable {State Action : Type}

/-- The steps in this order, if all of them can be made. -/
def run (step : State → Action → Option State) (s : State) (actions : List Action) : Option State :=
  actions.foldlM step s

/-- Whenever a step is made, the condition holds. -/
def Always (step : State → Action → Option State) (ok : State → Action → Prop) : State → List Action → Prop
  | _, [] => True
  | s, a :: actions => ok s a ∧ ∀ s' ∈ step s a, Always step ok s' actions

instance decidableAlways {step : State → Action → Option State} {ok : State → Action → Prop}
    [∀ s a, Decidable (ok s a)] : ∀ s actions, Decidable (Always step ok s actions)
  | _, [] => isTrue trivial
  | s, a :: actions =>
    have : ∀ s', Decidable (Always step ok s' actions) := fun s' => decidableAlways s' actions
    inferInstanceAs (Decidable (ok s a ∧ ∀ s' ∈ step s a, Always step ok s' actions))

variable {step : State → Action → Option State} {ok : State → Action → Prop} {s s' s'' : State} {a : Action}
  {actions past more : List Action}

/-! ## Parts of a run -/

@[simp] theorem run_nil (s : State) : run step s [] = some s := rfl

theorem run_cons : run step s (a :: actions) = some s'' ↔
    ∃ s', step s a = some s' ∧ run step s' actions = some s'' := by
  rw [run, List.foldlM_cons]
  exact Option.bind_eq_some_iff

theorem run_append : run step s (actions ++ more) = some s'' ↔
    ∃ s', run step s actions = some s' ∧ run step s' more = some s'' := by
  rw [run, List.foldlM_append]
  exact Option.bind_eq_some_iff

theorem run_singleton : run step s [a] = some s' ↔ step s a = some s' := by
  rw [run_cons]
  simp

/-- A prefix of a run is a run. -/
theorem exists_run_of_le (hr : (run step s actions).isSome) (hp : past <+: actions) :
    ∃ s', run step s past = some s' := by
  obtain ⟨rest, rfl⟩ := hp
  obtain ⟨last, hlast⟩ := Option.isSome_iff_exists.1 hr
  obtain ⟨s', hs', -⟩ := run_append.1 hlast
  exact ⟨s', hs'⟩

/-- Steps that can always be made. -/
theorem run_some (step : State → Action → State) (s : State) (actions : List Action) :
    run (fun s a => some (step s a)) s actions = some (actions.foldl step s) := by
  induction actions generalizing s with
  | nil => rfl
  | cons a actions ih => exact run_cons.2 ⟨step s a, rfl, ih _⟩

/-! ## Conditions on all steps -/

theorem always_append : Always step ok s (actions ++ more) ↔
    Always step ok s actions ∧ ∀ s' ∈ run step s actions, Always step ok s' more := by
  induction actions generalizing s with
  | nil => simp [Always]
  | cons a actions ih =>
    simp only [List.cons_append, Always, ih, Option.mem_def]
    constructor
    · rintro ⟨hok, hrest⟩
      refine ⟨⟨hok, fun s' hs => (hrest s' hs).1⟩, ?_⟩
      intro s'' hs
      obtain ⟨s', hstep, hrun⟩ := run_cons.1 hs
      exact (hrest s' hstep).2 s'' hrun
    · rintro ⟨⟨hok, hrest⟩, hmore⟩
      exact ⟨hok, fun s' hs => ⟨hrest s' hs, fun s'' hrun => hmore s'' (run_cons.2 ⟨s', hs, hrun⟩)⟩⟩

/-- Where steps can always be made, the condition holds for the last one after the others. -/
theorem always_concat {step : State → Action → State} : Always (fun s a => some (step s a)) ok s (actions ++ [a]) ↔
    Always (fun s a => some (step s a)) ok s actions ∧ ok (actions.foldl step s) a := by
  rw [always_append, run_some]
  simp [Always]

/-- What every step keeps under a condition, a run keeps under it. -/
theorem run_invariant {P : State → Prop} (hstep : ∀ {s a s'}, P s → ok s a → step s a = some s' → P s') (h : P s)
    (ha : Always step ok s actions) (hr : run step s actions = some s') : P s' := by
  induction actions generalizing s with
  | nil =>
    cases hr
    exact h
  | cons a actions ih =>
    obtain ⟨s₁, hs, hrest⟩ := run_cons.1 hr
    exact ih (hstep h ha.1 hs) (ha.2 s₁ hs) hrest

/-- A condition on all steps may be shown under the assumption that it held before. -/
theorem always_of_past
    (h : ∀ past a s', past ++ [a] <+: actions → run step s past = some s' → Always step ok s past → ok s' a) :
    Always step ok s actions := by
  have hpast : ∀ past, past <+: actions → Always step ok s past := by
    intro past
    induction past using List.reverseRecOn with
    | nil =>
      intro _
      exact trivial
    | append_singleton past a ih =>
      intro hp
      have halways := ih ((List.prefix_append past [a]).trans hp)
      exact always_append.2 ⟨halways, fun s' hs => ⟨h past a s' hp hs halways, fun _ _ => trivial⟩⟩
  exact hpast actions List.prefix_rfl

theorem always_of_forall (h : ∀ s, ∀ a ∈ actions, ok s a) : Always step ok s actions := by
  induction actions generalizing s with
  | nil => trivial
  | cons a actions ih =>
    exact ⟨h s a List.mem_cons_self, fun s' _ => ih fun s b hb => h s b (List.mem_cons_of_mem _ hb)⟩

end Steps

end PhraseIndex
