import Mathlib.Data.List.Basic

/-!
# Iterators that make each item from the one before

`Successors` holds the item that it yields next; a call yields it and makes the one
after.  `Yields` describes the whole sequence, `steps_of_yields` what any number of calls
returns, also after the last item, and `collect_of_yields` what a loop over it visits.
-/

namespace Lib

/-- The item that is yielded next, if there is one. -/
structure Successors (α : Type) where
  next : Option α
  deriving DecidableEq, Repr

namespace Successors

variable {α : Type} {succ : α → Option (Option α)} {it : Successors α} {xs : List α}

/-- One call.  `succ` gives the item after one, if there is one, and has no result
where it panics. -/
def step (succ : α → Option (Option α)) (it : Successors α) : Option (Option α × Successors α) :=
  match it.next with
  | none => some (none, it)
  | some item => (succ item).map fun next => (some item, ⟨next⟩)

/-- What `n` calls return. -/
def steps (succ : α → Option (Option α)) :
    Nat → Successors α → Option (List (Option α) × Successors α)
  | 0, it => some ([], it)
  | n + 1, it => do
    let (item, it) ← step succ it
    let (items, it) ← steps succ n it
    some (item :: items, it)

/-- What a loop visits; no result where a call panics, or where `n` calls do not come to an
end. -/
def collect (succ : α → Option (Option α)) : Nat → Successors α → Option (List α)
  | 0, _ => none
  | n + 1, it => do
    match ← step succ it with
    | (none, _) => some []
    | (some item, it) => (collect succ n it).map (item :: ·)

/-- The iterator yields `xs` and then nothing. -/
inductive Yields (succ : α → Option (Option α)) : Successors α → List α → Prop
  | done : Yields succ ⟨none⟩ []
  | item {x : α} {next : Option α} {xs : List α} (h : succ x = some next)
      (rest : Yields succ ⟨next⟩ xs) : Yields succ ⟨some x⟩ (x :: xs)

theorem step_some {x : α} {next : Option α} (h : succ x = some next) :
    step succ ⟨some x⟩ = some (some x, ⟨next⟩) := by
  show (succ x).map _ = _
  rw [h]
  rfl

theorem steps_succ {n : Nat} {item : Option α} {items : List (Option α)} {it' it'' : Successors α}
    (h : step succ it = some (item, it')) (h' : steps succ n it' = some (items, it'')) :
    steps succ (n + 1) it = some (item :: items, it'') := by
  rw [steps, h]
  show (steps succ n it').bind _ = _
  rw [h']
  rfl

/-- **Any number of calls** returns the items in order, and after the last nothing. -/
theorem steps_of_yields (h : Yields succ it xs) (n : Nat) :
    ∃ it', steps succ n it = some ((xs.take n).map some ++ List.replicate (n - xs.length) none, it') ∧
      Yields succ it' (xs.drop n) := by
  induction n generalizing it xs with
  | zero => exact ⟨it, by rw [List.take_zero, Nat.zero_sub]; rfl, h⟩
  | succ n ih =>
    cases h with
    | done =>
      obtain ⟨it', hsteps, hrest⟩ := ih .done
      rw [List.take_nil, List.length_nil, Nat.sub_zero] at hsteps
      rw [List.drop_nil] at hrest
      exact ⟨it', steps_succ rfl hsteps, hrest⟩
    | @item x next xs hx rest =>
      obtain ⟨it', hsteps, hrest⟩ := ih rest
      refine ⟨it', ?_, hrest⟩
      rw [List.take_succ_cons, List.length_cons, Nat.succ_sub_succ]
      exact steps_succ (step_some hx) hsteps

theorem collect_of_yields (h : Yields succ it xs) {n : Nat} (hn : xs.length < n) :
    collect succ n it = some xs := by
  induction h generalizing n with
  | done =>
    obtain ⟨n, rfl⟩ := Nat.exists_eq_succ_of_ne_zero (Nat.ne_of_gt hn)
    rfl
  | @item x next xs hx rest ih =>
    obtain ⟨n, rfl⟩ := Nat.exists_eq_succ_of_ne_zero (Nat.ne_of_gt (Nat.zero_lt_of_lt hn))
    rw [collect, step_some hx]
    show (collect succ n ⟨next⟩).map _ = _
    rw [ih (Nat.lt_of_succ_lt_succ hn)]
    rfl

end Successors

end Lib
