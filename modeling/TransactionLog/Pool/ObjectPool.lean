import Mathlib.Algebra.Order.Ring.Nat
import Mathlib.Data.List.Infix
import Mathlib.Data.List.Perm.Basic

/-!
# The object pool

The pool keeps returned objects for reuse, the one returned last on top.  It also
keeps the least number of objects available since the last maintenance, which
`reclaimUnused` discards: as many objects as were never needed in between.

`run_conserves` says where the objects are at any time, that the number discarded
is that minimum, and that the takes since the last maintenance would have found
an object without the discarded ones as well.
-/

namespace TransactionLog

/-- The available objects, oldest first, and the least number of them in this window. -/
structure ObjectPool (α : Type) where
  available : List α
  minAvailable : Nat
  le : minAvailable ≤ available.length

namespace ObjectPool

variable {α : Type}

theorem zero_le_empty : 0 ≤ ([] : List α).length := Nat.le_refl 0

def new : ObjectPool α := ⟨[], 0, zero_le_empty⟩

def len (pool : ObjectPool α) : Nat := pool.available.length

def tryTake (pool : ObjectPool α) : Option α × ObjectPool α :=
  (pool.available.getLast?,
    ⟨pool.available.dropLast, min pool.minAvailable pool.available.dropLast.length,
      Nat.min_le_right _ _⟩)

/-- Takes an object, or the one that `create` makes; a factory that panics makes none. -/
def takeOrElse (pool : ObjectPool α) (create : Option α) : Option α × ObjectPool α :=
  (pool.tryTake.1.or create, pool.tryTake.2)

def put (pool : ObjectPool α) (object : α) : ObjectPool α :=
  ⟨pool.available ++ [object], pool.minAvailable,
    Nat.le_trans pool.le (List.prefix_append _ _).length_le⟩

/-- Discards the minimum.  The subtraction does not underflow, by `le`. -/
def reclaimUnused (pool : ObjectPool α) : Nat × ObjectPool α :=
  let retain := pool.available.length - pool.minAvailable
  (pool.minAvailable, ⟨pool.available.take retain, retain, by
    rw [List.length_take]
    exact Nat.le_min.mpr ⟨Nat.le_refl _, Nat.sub_le _ _⟩⟩)

/-! ## Runs -/

inductive Op (α : Type) where
  | put (object : α)
  | tryTake
  | takeOrElse (create : Option α)
  | reclaimUnused

def step (pool : ObjectPool α) : Op α → ObjectPool α
  | .put object => pool.put object
  | .tryTake => pool.tryTake.2
  | .takeOrElse create => (pool.takeOrElse create).2
  | .reclaimUnused => pool.reclaimUnused.2

/-- The object that an operation takes out of the pool. -/
def found (pool : ObjectPool α) : Op α → Option α
  | .tryTake | .takeOrElse _ => pool.tryTake.1
  | .put _ | .reclaimUnused => none

/-- The objects that an operation destroys. -/
def discarded (pool : ObjectPool α) : Op α → List α
  | .reclaimUnused => pool.available.drop pool.reclaimUnused.2.available.length
  | .put _ | .tryTake | .takeOrElse _ => []

def Op.puts : Op α → List α
  | .put object => [object]
  | .tryTake | .takeOrElse _ | .reclaimUnused => []

def run : ObjectPool α → List (Op α) → ObjectPool α
  | pool, [] => pool
  | pool, op :: ops => run (pool.step op) ops

/-- The objects put by the operations, in order. -/
def puts (ops : List (Op α)) : List α := ops.flatMap Op.puts

/-- What each of the operations has taken out of the pool. -/
def allFound : ObjectPool α → List (Op α) → List (Option α)
  | _, [] => []
  | pool, op :: ops => pool.found op :: allFound (pool.step op) ops

/-- The objects taken by the operations. -/
def taken (pool : ObjectPool α) (ops : List (Op α)) : List α :=
  (allFound pool ops).flatMap Option.toList

def allDiscarded : ObjectPool α → List (Op α) → List α
  | _, [] => []
  | pool, op :: ops => pool.discarded op ++ allDiscarded (pool.step op) ops

/-- The number of available objects before, between and after the operations. -/
def counts : ObjectPool α → List (Op α) → List Nat
  | pool, [] => [pool.len]
  | pool, op :: ops => pool.len :: counts (pool.step op) ops

/-- No maintenance among the operations. -/
def Window (ops : List (Op α)) : Prop := Op.reclaimUnused ∉ ops

/-- The pool is new, or maintenance was the last operation on it. -/
def Fresh (ops : List (Op α)) : Prop := ops = [] ∨ ∃ before, ops = before ++ [.reclaimUnused]

theorem run_append : ∀ (ops ops' : List (Op α)) (pool : ObjectPool α),
    run pool (ops ++ ops') = run (run pool ops) ops'
  | [], _, _ => rfl
  | _ :: ops, ops', _ => run_append ops ops' _

/-! ### Where the objects are -/

theorem perm_tryTake (pool : ObjectPool α) :
    pool.available.Perm (pool.tryTake.2.available ++ pool.tryTake.1.toList) := by
  cases hlast : pool.available.getLast? with
  | none =>
    have hnil := List.getLast?_eq_none_iff.mp hlast
    simp [tryTake, hnil]
  | some object =>
    obtain ⟨others, hsplit⟩ := List.getLast?_eq_some_iff.mp hlast
    simp [tryTake, hsplit]

/-- One operation moves objects, and neither makes nor loses any. -/
theorem step_perm (pool : ObjectPool α) (op : Op α) :
    (pool.available ++ op.puts).Perm
      ((pool.step op).available ++ ((pool.found op).toList ++ pool.discarded op)) := by
  cases op with
  | put object => simp [Op.puts, step, put, found, discarded]
  | tryTake => simpa [Op.puts, step, found, discarded] using pool.perm_tryTake
  | takeOrElse create => simpa [Op.puts, step, takeOrElse, found, discarded] using pool.perm_tryTake
  | reclaimUnused =>
    have hlen : (pool.available.take (pool.available.length - pool.minAvailable)).length =
        pool.available.length - pool.minAvailable := by
      rw [List.length_take]
      omega
    simp only [Op.puts, step, found, discarded, reclaimUnused, hlen, List.append_nil,
      Option.toList_none, List.nil_append, List.take_append_drop]
    exact List.Perm.refl _

theorem run_perm : ∀ (ops : List (Op α)) (pool : ObjectPool α),
    (pool.available ++ puts ops).Perm
      ((run pool ops).available ++ (taken pool ops ++ allDiscarded pool ops)) := by
  classical
  intro ops
  induction ops with
  | nil =>
    intro pool
    simp [puts, run, taken, allFound, allDiscarded]
  | cons op ops ih =>
    intro pool
    refine List.perm_iff_count.mpr fun object => ?_
    have hstep := (pool.step_perm op).count_eq object
    have hrun := (ih (pool.step op)).count_eq object
    simp only [puts, taken, run, allFound, allDiscarded, List.flatMap_cons,
      List.count_append] at hstep hrun ⊢
    omega

/-- The available objects are in the order in which they were put. -/
theorem step_sublist {pool : ObjectPool α} {objects : List α}
    (h : pool.available.Sublist objects) (op : Op α) :
    (pool.step op).available.Sublist (objects ++ op.puts) := by
  cases op with
  | put object => exact h.append (List.Sublist.refl _)
  | tryTake | takeOrElse create =>
    simp only [Op.puts, List.append_nil]
    exact (List.dropLast_sublist _).trans h
  | reclaimUnused =>
    simp only [Op.puts, List.append_nil]
    exact (List.take_sublist _ _).trans h

theorem run_sublist : ∀ (ops : List (Op α)) {pool : ObjectPool α} {objects : List α},
    pool.available.Sublist objects → (run pool ops).available.Sublist (objects ++ puts ops) := by
  intro ops
  induction ops with
  | nil =>
    intro pool objects h
    rwa [puts, List.flatMap_nil, List.append_nil]
  | cons op ops ih =>
    intro pool objects h
    have hrun := ih (step_sublist h op)
    rwa [List.append_assoc] at hrun

/-! ### The minimum of a window -/

theorem len_put (pool : ObjectPool α) (object : α) : (pool.put object).len = pool.len + 1 := by
  rw [len, put, List.length_append]
  rfl

theorem len_tryTake (pool : ObjectPool α) : pool.tryTake.2.len = pool.len - 1 := List.length_dropLast

theorem isSome_tryTake (pool : ObjectPool α) : pool.tryTake.1.isSome = true ↔ 0 < pool.len := by
  rw [tryTake, List.getLast?_isSome, len, List.length_pos_iff]

/-- What the operations of a window do to the counts. -/
theorem step_window (pool : ObjectPool α) {op : Op α} (h : op ≠ .reclaimUnused) :
    ((pool.step op).len = pool.len + 1 ∧ (pool.step op).minAvailable = pool.minAvailable ∧
      ∀ pool' : ObjectPool α, (pool'.step op).len = pool'.len + 1 ∧ pool'.found op = none) ∨
    ((pool.step op).minAvailable = min pool.minAvailable (pool.step op).len ∧
      ∀ pool' : ObjectPool α, (pool'.step op).len = pool'.len - 1 ∧
        ((pool'.found op).isSome = true ↔ 0 < pool'.len)) := by
  cases op with
  | put object => exact .inl ⟨pool.len_put object, rfl, fun pool' => ⟨pool'.len_put object, rfl⟩⟩
  | tryTake => exact .inr ⟨rfl, fun pool' => ⟨pool'.len_tryTake, pool'.isSome_tryTake⟩⟩
  | takeOrElse create => exact .inr ⟨rfl, fun pool' => ⟨pool'.len_tryTake, pool'.isSome_tryTake⟩⟩
  | reclaimUnused => exact absurd rfl h

theorem window_cons {op : Op α} {ops : List (Op α)} (h : Window (op :: ops)) :
    op ≠ .reclaimUnused ∧ Window ops :=
  ⟨fun hop => h (hop ▸ List.mem_cons_self ..), fun hops => h (List.mem_cons_of_mem _ hops)⟩

theorem len_mem_counts (pool : ObjectPool α) (ops : List (Op α)) : pool.len ∈ counts pool ops := by
  cases ops <;> exact List.mem_cons_self ..

/-- In a window the kept minimum is the least of the counts and of where it started. -/
theorem minAvailable_run : ∀ (ops : List (Op α)) (pool : ObjectPool α), Window ops →
    (∀ n ∈ counts pool ops, (run pool ops).minAvailable ≤ n) ∧
      (run pool ops).minAvailable ≤ pool.minAvailable ∧
      ((run pool ops).minAvailable = pool.minAvailable ∨
        (run pool ops).minAvailable ∈ counts pool ops) := by
  intro ops
  induction ops with
  | nil =>
    intro pool _
    exact ⟨fun n hn => List.mem_singleton.mp hn ▸ pool.le, Nat.le_refl _, .inl rfl⟩
  | cons op ops ih =>
    intro pool h
    obtain ⟨hop, hops⟩ := window_cons h
    obtain ⟨hle, hmin, hmem⟩ := ih (pool.step op) hops
    have hstep : (pool.step op).minAvailable ≤ pool.minAvailable ∧
        ((pool.step op).minAvailable = pool.minAvailable ∨
          (pool.step op).minAvailable = (pool.step op).len) := by
      rcases step_window pool hop with ⟨-, hsame, -⟩ | ⟨htake, -⟩ <;> omega
    have hbelow : (run pool (op :: ops)).minAvailable ≤ pool.minAvailable :=
      Nat.le_trans hmin hstep.1
    refine ⟨fun n hn => ?_, hbelow, ?_⟩
    · rcases List.mem_cons.mp hn with rfl | hn
      · exact Nat.le_trans hbelow pool.le
      · exact hle n hn
    · rcases hmem with hmem | hmem
      · rcases hstep.2 with hsame | hlen
        · exact .inl (hmem.trans hsame)
        · refine .inr (List.mem_cons_of_mem _ ?_)
          rw [run, hmem, hlen]
          exact len_mem_counts _ _
      · exact .inr (List.mem_cons_of_mem _ hmem)

/-- With `k` objects fewer, where never fewer than `k` were available, the takes of a
window find an object as before. -/
theorem replay : ∀ (ops : List (Op α)) {pool pool' : ObjectPool α} {k : Nat}, Window ops →
    (∀ n ∈ counts pool ops, k ≤ n) → pool'.len + k = pool.len →
    List.Forall₂ (fun o o' : Option α => o.isSome = true → o'.isSome = true)
      (allFound pool ops) (allFound pool' ops) := by
  intro ops
  induction ops with
  | nil => exact fun _ _ _ => .nil
  | cons op ops ih =>
    intro pool pool' k h hk hlen
    obtain ⟨hop, hops⟩ := window_cons h
    have hnow := hk _ (len_mem_counts pool _)
    have hnext := hk _ (List.mem_cons_of_mem _ (len_mem_counts (pool.step op) ops))
    have hrest : ∀ n ∈ counts (pool.step op) ops, k ≤ n := fun n hn =>
      hk n (List.mem_cons_of_mem _ hn)
    rcases step_window pool hop with ⟨hput, -, hall⟩ | ⟨-, hall⟩
    · refine .cons (fun hfound => ?_) (ih hops hrest (by rw [(hall pool').1]; omega))
      rw [(hall pool).2] at hfound
      cases hfound
    · have htake := (hall pool).1
      refine .cons (fun hfound => ?_) (ih hops hrest (by rw [(hall pool').1]; omega))
      have hpos := (hall pool).2.mp hfound
      exact (hall pool').2.mpr (by omega)

theorem minAvailable_fresh {ops : List (Op α)} (h : Fresh ops) :
    (run new ops).minAvailable = (run new ops).len := by
  rcases h with rfl | ⟨before, rfl⟩
  · rfl
  · rw [run_append]
    show _ = (List.take _ _).length
    rw [List.length_take, Nat.min_eq_left (Nat.sub_le _ _)]
    rfl

/-- **The pool conserves its objects and discards only what was not needed.**  Every object
put is available, was taken or was discarded, and a take returns the available one put
last.  Maintenance discards the least number of objects available since the last one and
keeps the oldest; and with that many fewer from the start, the takes in between would have
found objects as they did. -/
theorem run_conserves (ops : List (Op α)) :
    let pool := run new ops
    pool.minAvailable ≤ pool.len ∧
    (puts ops).Perm (pool.available ++ (taken new ops ++ allDiscarded new ops)) ∧
    pool.available.Sublist (puts ops) ∧
    (pool.tryTake.1 = pool.available.getLast? ∧
      ∀ create, (pool.takeOrElse create).1 = pool.available.getLast?.or create) ∧
    ∀ before window, ops = before ++ window → Fresh before → Window window →
      let start := run new before
      let removed := pool.reclaimUnused.1
      removed ∈ counts start window ∧ (∀ n ∈ counts start window, removed ≤ n) ∧
      (pool.reclaimUnused.2.available = pool.available.take (pool.len - removed) ∧
        pool.discarded .reclaimUnused = pool.available.drop (pool.len - removed)) ∧
      ∀ start' : ObjectPool α, start'.len + removed = start.len →
        List.Forall₂ (fun o o' : Option α => o.isSome = true → o'.isSome = true)
          (allFound start window) (allFound start' window) := by
  refine ⟨(run new ops).le, run_perm ops new, run_sublist ops (List.Sublist.refl _),
    ⟨rfl, fun _ => rfl⟩, ?_⟩
  rintro before window rfl hfresh hwindow
  obtain ⟨hle, -, hmem⟩ := minAvailable_run window (run new before) hwindow
  rw [run_append]
  have hlen : (run (run new before) window).reclaimUnused.2.available.length =
      (run (run new before) window).len - (run (run new before) window).minAvailable := by
    show (List.take _ _).length = _
    rw [List.length_take, Nat.min_eq_left (Nat.sub_le _ _)]
    rfl
  refine ⟨?_, hle, ⟨rfl, congrArg (List.drop · _) hlen⟩, fun start' h => replay window hwindow hle h⟩
  rcases hmem with hmem | hmem
  · rw [minAvailable_fresh hfresh] at hmem
    show (run (run new before) window).minAvailable ∈ _
    rw [hmem]
    exact len_mem_counts _ _
  · exact hmem

end ObjectPool

end TransactionLog
