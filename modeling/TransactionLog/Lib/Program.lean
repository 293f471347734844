import Mathlib.Algebra.Order.Ring.Nat
import Mathlib.Data.List.Infix
import Mathlib.Logic.Relation

/-!
# Programs that call a system under a plan

A program of type `Io σ ε α` runs against a system in state `σ`.  Every call it
makes to the system is answered by the next entry of a *plan*: the call goes
through, it goes through partly (a short read or write), or it fails with a
fault.  A plan ends in one of two ways.  `stop` means that the program goes no
further: its future is dropped or its process ends, at the point just before the
next call.  `calm` means that every further call goes through whole.

Quantifying over all plans therefore covers every schedule of partial transfers
and faults together with every point at which the program can be abandoned.  A
`Smooth` plan is one without faults: it may only split transfers.

`Triple c P m Q X` is the program logic.  From a state satisfying `P`, a
completed run of `m` ends in `Q`, and any other exit (an error, an abandoned
run, a panic) ends in `X`.  The mode `c` limits the plan: to the smooth ones where
`c.calm` holds, and to the faults in `c.faults` otherwise.  Since `X` may mention
`c`, one triple states what holds at every exit of every plan and that the runs
without faults complete.
-/

namespace Lib

/-! ## Plans -/

/-- What a failed call reports. -/
inductive ErrorKind where
  | notFound
  | alreadyExists
  | isADirectory
  | notADirectory
  | interrupted
  | writeZero
  | unexpectedEof
  | invalidInput
  | device (code : Nat)
  deriving DecidableEq, Repr

/-- The errors a call may report whatever the state of the system is.  Errors
about the state itself, such as `notFound`, are not among them. -/
inductive Fault where
  | interrupted
  | device (code : Nat)
  deriving DecidableEq, Repr

def Fault.kind : Fault → ErrorKind
  | .interrupted => .interrupted
  | .device code => .device code

/-- How the system answers one call.  `upTo n slack` moves few bytes: a write
accepts at most `n`, and a read delivers at most `n`, but at least one, into a
buffer that has `slack` bytes more than the reader asked for. -/
inductive Answer where
  | all
  | upTo (n slack : Nat)
  | fault (f : Fault)
  deriving DecidableEq, Repr

/-- The number of bytes a write of `len` bytes has accepted. -/
def Answer.accepted (len : Nat) : Answer → Nat
  | .upTo n _ => min n len
  | _ => len

/-- The number of bytes a read delivers from `available` ones when the reader
made room for `needed`. -/
def Answer.received (needed available : Nat) : Answer → Nat
  | .upTo n slack => min (max n 1) (min (needed + slack) available)
  | _ => available

theorem Answer.accepted_le (a : Answer) (len : Nat) : a.accepted len ≤ len := by
  cases a <;> simp only [accepted] <;> omega

theorem Answer.received_le (a : Answer) (needed available : Nat) :
    a.received needed available ≤ available := by
  cases a <;> simp only [received] <;> omega

/-- A read into a buffer with room delivers nothing only at the end of input. -/
theorem Answer.received_eq_zero {a : Answer} {needed available : Nat} (h : 0 < needed) :
    a.received needed available = 0 ↔ available = 0 := by
  cases a <;> simp only [received]
  omega

inductive Plan where
  | stop
  | calm
  | next (a : Answer) (rest : Plan)
  deriving DecidableEq, Repr

def Plan.length : Plan → Nat
  | .next _ rest => rest.length + 1
  | _ => 0

/-- The plan that begins with the given answers. -/
def Plan.after (plan : Plan) (answers : List Answer) : Plan := answers.foldr .next plan

theorem Plan.length_after (plan : Plan) : ∀ answers : List Answer,
    (plan.after answers).length = answers.length + plan.length
  | [] => (Nat.zero_add _).symm
  | a :: answers => by
    show (plan.after answers).length + 1 = _
    rw [plan.length_after answers, List.length_cons]
    omega

/-- What is known of a plan: whether it is free of faults, and which ones it may hold.
A write that accepts nothing counts as one. -/
structure Mode where
  calm : Prop
  faults : Fault → Prop

def Plan.Within (c : Mode) : Plan → Prop
  | .stop => ¬ c.calm
  | .calm => True
  | .next .all rest => rest.Within c
  | .next (.upTo n _) rest => (c.calm → 0 < n) ∧ rest.Within c
  | .next (.fault f) rest => (¬ c.calm ∧ c.faults f) ∧ rest.Within c

/-- A plan without faults: every call goes through, whole or in part. -/
def Plan.Smooth (plan : Plan) : Prop := plan.Within ⟨True, fun _ => True⟩

theorem Plan.within_of_not_calm {c : Mode} (hc : ¬ c.calm) (hf : ∀ f, c.faults f) :
    ∀ plan : Plan, plan.Within c
  | .stop => hc
  | .calm => trivial
  | .next .all rest => rest.within_of_not_calm hc hf
  | .next (.upTo _ _) rest => ⟨fun h => absurd h hc, rest.within_of_not_calm hc hf⟩
  | .next (.fault f) rest => ⟨⟨hc, hf f⟩, rest.within_of_not_calm hc hf⟩

/-- Every plan may be used where nothing is known. -/
theorem Plan.within_any (plan : Plan) : plan.Within ⟨False, fun _ => True⟩ :=
  plan.within_of_not_calm id fun _ => trivial

/-- Every plan may be used where it is known whether it is the calm one. -/
theorem Plan.within_self (plan : Plan) : plan.Within ⟨plan = .calm, fun _ => True⟩ := by
  by_cases h : plan = .calm
  · rw [h]
    trivial
  · exact plan.within_of_not_calm h fun _ => trivial

/-- Every plan may be used where it is known whether it is smooth. -/
theorem Plan.within_smooth (plan : Plan) : plan.Within ⟨plan.Smooth, fun _ => True⟩ := by
  by_cases h : plan.Smooth
  · rw [eq_true h]
    exact h
  · exact plan.within_of_not_calm h fun _ => trivial

/-- A system together with the plan for the calls still to come. -/
structure World (σ : Type) where
  sys : σ
  plan : Plan

/-- The ways to leave a program without a result. -/
inductive Exit (ε : Type) where
  | error (e : ε)
  | stopped
  | panicked
  deriving DecidableEq, Repr

/-- An exit with another error. -/
def Exit.map {ε ε' : Type} (g : ε → ε') : Exit ε → Exit ε'
  | .error e => .error (g e)
  | .stopped => .stopped
  | .panicked => .panicked

/-! ## Programs -/

def Io (σ ε α : Type) : Type := World σ → Except (Exit ε) α × World σ

namespace Io

variable {σ τ ε ε' α β γ : Type}

def run (m : Io σ ε α) (s : σ) (p : Plan) : Except (Exit ε) α × World σ := m ⟨s, p⟩

instance : Monad (Io σ ε) where
  pure a := fun w => (.ok a, w)
  bind m f := fun w =>
    match m w with
    | (.ok a, w') => f a w'
    | (.error e, w') => (.error e, w')

theorem pure_apply (a : α) (w : World σ) : (pure a : Io σ ε α) w = (.ok a, w) := rfl

theorem bind_apply (m : Io σ ε α) (f : α → Io σ ε β) (w : World σ) :
    (m >>= f) w = match m w with
      | (.ok a, w') => f a w'
      | (.error e, w') => (.error e, w') := rfl

theorem bind_ok {m : Io σ ε α} {f : α → Io σ ε β} {a : α} {w w' : World σ}
    (h : m w = (.ok a, w')) : (m >>= f) w = f a w' := by
  rw [bind_apply, h]

theorem bind_error {m : Io σ ε α} {f : α → Io σ ε β} {e : Exit ε} {w w' : World σ}
    (h : m w = (.error e, w')) : (m >>= f) w = (.error e, w') := by
  rw [bind_apply, h]

/-- What fails is the first of two operations, or the second. -/
theorem bind_eq_error {m : Io σ ε α} {f : α → Io σ ε β} {e : Exit ε} {w w' : World σ}
    (h : (m >>= f) w = (.error e, w')) :
    m w = (.error e, w') ∨ ∃ a w₁, m w = (.ok a, w₁) ∧ f a w₁ = (.error e, w') := by
  rcases hm : m w with ⟨e' | a, w₁⟩
  · rw [bind_error hm] at h
    cases h
    exact .inl rfl
  · rw [bind_ok hm] at h
    exact .inr ⟨a, w₁, rfl, h⟩

theorem bind_assoc (m : Io σ ε α) (f : α → Io σ ε β) (g : β → Io σ ε γ) :
    m >>= f >>= g = m >>= fun a => f a >>= g := by
  funext w
  rcases hm : m w with ⟨e | a, w'⟩
  · rw [bind_error (bind_error hm), bind_error hm]
  · rw [bind_apply (m >>= f), bind_ok hm, bind_ok hm, bind_apply (f a)]

def throw (e : ε) : Io σ ε α := fun w => (.error (.error e), w)

def panic : Io σ ε α := fun w => (.error .panicked, w)

def stop : Io σ ε α := fun w => (.error .stopped, w)

def get : Io σ ε σ := fun w => (.ok w.sys, w)

def modify (f : σ → σ) : Io σ ε Unit := fun w => (.ok (), ⟨f w.sys, w.plan⟩)

def ofExcept : Except ε α → Io σ ε α
  | .ok a => pure a
  | .error e => throw e

/-- A value that is absent exactly where the code panics. -/
def unwrap : Option α → Io σ ε α
  | some a => pure a
  | none => panic

theorem ofExcept_bind (a : α) (f : α → Io σ ε β) : (ofExcept (.ok a) >>= f) = f a := rfl

theorem unwrap_bind (a : α) (f : α → Io σ ε β) : (unwrap (some a) >>= f) = f a := rfl

/-- A run from its result and what it leaves of its plan. -/
theorem run_eq {m : Io σ ε α} {s : σ} {plan rest : Plan} {a : α} (hok : (m.run s plan).1 = .ok a)
    (hrest : (m.run s plan).2.plan = rest) :
    m.run s plan = (.ok a, ⟨(m.run s plan).2.sys, rest⟩) := by
  rw [← hok, ← hrest]

/-- Makes one call: takes the plan's next answer. -/
def ask : Io σ ErrorKind Answer := fun w =>
  match w.plan with
  | .stop => (.error .stopped, w)
  | .calm => (.ok .all, w)
  | .next (.fault f) rest => (.error (.error f.kind), ⟨w.sys, rest⟩)
  | .next a rest => (.ok a, ⟨w.sys, rest⟩)

/-- A call whose effect on the system, when it goes through, is `f`. -/
def call (f : σ → Except ErrorKind (α × σ)) : Io σ ErrorKind α := do
  let _ ← ask
  let s ← get
  match f s with
  | .ok (a, s') => do
    modify fun _ => s'
    pure a
  | .error e => throw e

/-- The result of `m` as a value, where `m` returns or throws. -/
def attempt (m : Io σ ε α) : Io σ ε' (Except ε α) := fun w =>
  match m w with
  | (.ok a, w') => (.ok (.ok a), w')
  | (.error (.error e), w') => (.ok (.error e), w')
  | (.error .stopped, w') => (.error .stopped, w')
  | (.error .panicked, w') => (.error .panicked, w')

def mapErr (f : ε → ε') (m : Io σ ε α) : Io σ ε' α := do
  match ← attempt m with
  | .ok a => pure a
  | .error e => throw (f e)

/-- A call that goes through. -/
theorem call_next {f : σ → Except ErrorKind (α × σ)} {s s' : σ} {r : α} {a : Answer} {rest : Plan}
    (ha : ∀ k, a ≠ .fault k) (h : f s = .ok (r, s')) :
    call f ⟨s, .next a rest⟩ = (.ok r, ⟨s', rest⟩) := by
  have hask : (ask : Io σ ErrorKind Answer) ⟨s, .next a rest⟩ = (.ok a, ⟨s, rest⟩) := by
    cases a with
    | all => rfl
    | upTo n slack => rfl
    | fault k => exact absurd rfl (ha k)
  rw [call, bind_ok hask, bind_ok (show get ⟨s, rest⟩ = (.ok s, ⟨s, rest⟩) from rfl), h]
  rfl

theorem mapErr_ok {g : ε → ε'} {m : Io σ ε α} {a : α} {w w' : World σ}
    (h : m w = (.ok a, w')) : mapErr g m w = (.ok a, w') := by
  rw [mapErr, bind_apply, attempt, h]
  rfl

theorem mapErr_error {g : ε → ε'} {m : Io σ ε α} {e : ε} {w w' : World σ}
    (h : m w = (.error (.error e), w')) : mapErr g m w = (.error (.error (g e)), w') := by
  rw [mapErr, bind_apply, attempt, h]
  rfl

theorem attempt_error {m : Io σ ε α} {e : ε} {w w' : World σ}
    (h : m w = (.error (.error e), w')) :
    (attempt m : Io σ ε' (Except ε α)) w = (.ok (.error e), w') := by
  rw [attempt, h]

/-- Runs `m` on the part of the system that `get` reads and `set` replaces. -/
def zoom (get : σ → τ) (set : τ → σ → σ) (m : Io τ ε α) : Io σ ε α := fun w =>
  let (r, w') := m ⟨get w.sys, w.plan⟩
  (r, ⟨set w'.sys w.sys, w'.plan⟩)

/-- Runs `m` with a local variable of its own beside the system. -/
def withLocal (t : τ) (m : Io (τ × σ) ε α) : Io σ ε (α × τ) := fun w =>
  let (r, w') := m ⟨(t, w.sys), w.plan⟩
  (r.map (·, w'.sys.1), ⟨w'.sys.2, w'.plan⟩)

/-- At most `fuel` turns of a loop: `body` goes on with `inl` and ends with `inr`. -/
def iterate (body : β → Io σ ε (β ⊕ γ)) : Nat → β → Io σ ε γ
  | 0, _ => stop
  | fuel + 1, b => do
    match ← body b with
    | .inl b' => iterate body fuel b'
    | .inr c => pure c

/-- A loop each of whose turns moves some of at most `bound` bytes or meets a fault
that the plan holds.  It turns no more often than that, so running out of fuel is
being stopped. -/
def loop (bound : σ → Nat) (body : β → Io σ ε (β ⊕ γ)) (b : β) : Io σ ε γ := fun w =>
  iterate body (w.plan.length + bound w.sys + 1) b w

/-- Where a turn of a loop leads: to the head of the loop with a smaller `measure` of the
world, or out of it. -/
def Turned (head : β → World σ → Prop) (measure : World σ → Nat) (out : World σ → Prop)
    (w : World σ) : Except (Exit ε) (β ⊕ γ) × World σ → Prop
  | (.ok (.inl b), w') => head b w' ∧ measure w' < measure w
  | (_, w') => out w'

/-- A loop that is given a turn for each unit of the measure leads out of it. -/
theorem iterate_turned {body : β → Io σ ε (β ⊕ γ)} {head : β → World σ → Prop}
    {measure : World σ → Nat} {out : World σ → Prop}
    (hbody : ∀ b w, head b w → Turned head measure out w (body b w)) :
    ∀ (fuel : Nat) (b : β) (w : World σ), head b w → measure w < fuel →
      out (iterate body fuel b w).2 := by
  intro fuel
  induction fuel with
  | zero => exact fun b w _ hlt => absurd hlt (Nat.not_lt_zero _)
  | succ fuel ih =>
    intro b w hhead hlt
    have hturn := hbody b w hhead
    rcases hw : body b w with ⟨e | b' | c, w'⟩
    · rw [iterate, bind_error hw]
      rw [hw] at hturn
      exact hturn
    · rw [iterate, bind_ok hw]
      rw [hw] at hturn
      exact ih b' w' hturn.1 (Nat.lt_of_lt_of_le hturn.2 (Nat.le_of_lt_succ hlt))
    · rw [iterate, bind_ok hw]
      rw [hw] at hturn
      exact hturn

end Io

/-! ## The program logic -/

section Triple

variable {σ τ ε ε' α β γ : Type}

/-- From `P`, a run of `m` that returns ends in `Q`, and any other exit is in `X`.
The plan is within the mode `c` before and after. -/
def Triple (c : Mode) (P : σ → Prop) (m : Io σ ε α) (Q : α → σ → Prop)
    (X : Exit ε → σ → Prop) : Prop :=
  ∀ w : World σ, P w.sys → w.plan.Within c → (m w).2.plan.Within c ∧
    match (m w).1 with
    | .ok a => Q a (m w).2.sys
    | .error e => X e (m w).2.sys

theorem Exit.map_ne_panicked {e : Exit ε} (g : ε → ε') (h : e ≠ .panicked) :
    e.map g ≠ .panicked := by
  cases e with
  | error e => simp [Exit.map]
  | stopped => simp [Exit.map]
  | panicked => exact absurd rfl h

/-- An exit that no calm run has, in a state satisfying `X`. -/
def Faulted (c : Mode) (X : σ → Prop) (e : Exit ε) (s : σ) : Prop :=
  ¬ c.calm ∧ e ≠ .panicked ∧ X s

/-- An exit at a call that was not made or met a fault, in a state satisfying `X`. -/
def Struck (c : Mode) (X : σ → Prop) (e : Exit ErrorKind) (s : σ) : Prop :=
  ¬ c.calm ∧ (e = .stopped ∨ ∃ f : Fault, e = .error f.kind) ∧ X s

theorem Struck.faulted {c : Mode} {X : σ → Prop} {e : Exit ErrorKind} {s : σ}
    (h : Struck c X e s) : Faulted c X e s := by
  obtain ⟨hc, rfl | ⟨f, rfl⟩, hs⟩ := h
  · exact ⟨hc, by simp, hs⟩
  · exact ⟨hc, by simp, hs⟩

theorem Fault.kind_ne_notFound (f : Fault) : f.kind ≠ .notFound := by
  cases f <;> simp [Fault.kind]

theorem Faulted.mono {c : Mode} {X Y : σ → Prop} {e : Exit ε} {s : σ} (h : Faulted c X e s)
    (hX : ∀ s, X s → Y s) : Faulted c Y e s := ⟨h.1, h.2.1, hX s h.2.2⟩

theorem Faulted.map {c : Mode} {X : σ → Prop} {e : Exit ε} {s : σ} (g : ε → ε')
    (h : Faulted c X e s) : Faulted c X (e.map g) s :=
  ⟨h.1, Exit.map_ne_panicked g h.2.1, h.2.2⟩

namespace Triple

variable {c : Mode} {P P' : σ → Prop} {Q Q' : α → σ → Prop} {X X' : Exit ε → σ → Prop}

theorem pure {a : α} (h : ∀ s, P s → Q a s) : Triple c P (Pure.pure a) Q X :=
  fun w hP hc => ⟨hc, h w.sys hP⟩

theorem bind {m : Io σ ε β} {f : β → Io σ ε α} {R : β → σ → Prop}
    (hm : Triple c P m R X) (hf : ∀ b, Triple c (R b) (f b) Q X) : Triple c P (m >>= f) Q X := by
  intro w hP hc
  obtain ⟨hc', hr⟩ := hm w hP hc
  rw [Io.bind_apply]
  rcases hmw : m w with ⟨b | b, w'⟩
  · rw [hmw] at hc' hr
    exact ⟨hc', hr⟩
  · rw [hmw] at hc' hr
    exact hf b w' hr hc'

theorem conseq {m : Io σ ε α} (h : Triple c P m Q X) (hP : ∀ s, P' s → P s)
    (hQ : ∀ a s, Q a s → Q' a s) (hX : ∀ e s, X e s → X' e s) : Triple c P' m Q' X' := by
  intro w hw hc
  obtain ⟨hc', hr⟩ := h w (hP _ hw) hc
  refine ⟨hc', ?_⟩
  rcases hmw : m w with ⟨e | a, w'⟩
  · rw [hmw] at hr
    exact hX e _ hr
  · rw [hmw] at hr
    exact hQ a _ hr

theorem pre {m : Io σ ε α} (h : Triple c P m Q X) (hP : ∀ s, P' s → P s) :
    Triple c P' m Q X :=
  h.conseq hP (fun _ _ h => h) (fun _ _ h => h)

theorem post {m : Io σ ε α} (h : Triple c P m Q X) (hQ : ∀ a s, Q a s → Q' a s) :
    Triple c P m Q' X :=
  h.conseq (fun _ h => h) hQ (fun _ _ h => h)

theorem exits {m : Io σ ε α} (h : Triple c P m Q X) (hX : ∀ e s, X e s → X' e s) :
    Triple c P m Q X' :=
  h.conseq (fun _ h => h) (fun _ _ h => h) hX

/-- A triple may be proved one initial state at a time. -/
theorem ofState {m : Io σ ε α} (h : ∀ s₀, P s₀ → Triple c (fun s => s = s₀) m Q X) :
    Triple c P m Q X :=
  fun w hP hc => h w.sys hP w rfl hc

theorem ofExists {ι : Sort _} {P : ι → σ → Prop} {m : Io σ ε α}
    (h : ∀ i, Triple c (P i) m Q X) : Triple c (fun s => ∃ i, P i s) m Q X :=
  fun w ⟨i, hP⟩ hc => h i w hP hc

/-- A precondition that does not read the state may be taken as a hypothesis. -/
theorem assume {m : Io σ ε α} {φ : Prop} (h : φ → Triple c P m Q X) :
    Triple c (fun s => φ ∧ P s) m Q X :=
  fun w hP hc => h hP.1 w hP.2 hc

theorem throw {e : ε} (h : ∀ s, P s → X (.error e) s) :
    Triple c P (Io.throw e : Io σ ε α) Q X :=
  fun w hP hc => ⟨hc, h w.sys hP⟩

theorem panic (h : ∀ s, P s → X .panicked s) : Triple c P (Io.panic : Io σ ε α) Q X :=
  fun w hP hc => ⟨hc, h w.sys hP⟩

theorem get {Q : σ → σ → Prop} (h : ∀ s, P s → Q s s) :
    Triple c P (Io.get : Io σ ε σ) Q X :=
  fun w hP hc => ⟨hc, h w.sys hP⟩

/-- A program that reads the state first may be proved for that state. -/
theorem getBind {f : σ → Io σ ε α} {s : σ} (h : Triple c (fun s' => s' = s) (f s) Q X) :
    Triple c (fun s' => s' = s) (Io.get >>= f) Q X := by
  refine bind (R := fun t s' => t = s ∧ s' = s) (get fun s h => ⟨h, h⟩) fun t => ?_
  refine assume fun ht => ?_
  subst t
  exact h

theorem modify {f : σ → σ} {Q : Unit → σ → Prop} (h : ∀ s, P s → Q () (f s)) :
    Triple c P (Io.modify f : Io σ ε Unit) Q X :=
  fun w hP hc => ⟨hc, h w.sys hP⟩

theorem unwrap {o : Option α} (hsome : ∀ a s, o = some a → P s → Q a s)
    (hnone : ∀ s, o = none → P s → X .panicked s) :
    Triple c P (Io.unwrap o : Io σ ε α) Q X := by
  cases o with
  | none => exact panic fun s hs => hnone s rfl hs
  | some a => exact pure fun s hs => hsome a s rfl hs

/-- A call goes through, is never made, or fails with a fault. -/
theorem ask {Q : Answer → σ → Prop} {X : Exit ErrorKind → σ → Prop}
    (hall : ∀ s, P s → Q .all s) (hpart : ∀ n k s, (c.calm → 0 < n) → P s → Q (.upTo n k) s)
    (hstop : ∀ s, ¬ c.calm → P s → X .stopped s)
    (hfault : ∀ f s, ¬ c.calm → c.faults f → P s → X (.error (Fault.kind f)) s) :
    Triple c P Io.ask Q X := by
  rintro ⟨s, plan⟩ hP hc
  match plan with
  | .stop => exact ⟨hc, hstop s hc hP⟩
  | .calm => exact ⟨hc, hall s hP⟩
  | .next .all rest => exact ⟨hc, hall s hP⟩
  | .next (.upTo n k) rest => exact ⟨hc.2, hpart n k s hc.1 hP⟩
  | .next (.fault f) rest => exact ⟨hc.2, hfault f s hc.1.1 hc.1.2 hP⟩

theorem call {f : σ → Except ErrorKind (α × σ)} {X : Exit ErrorKind → σ → Prop}
    (hok : ∀ s a s', P s → f s = .ok (a, s') → Q a s')
    (herr : ∀ s e, P s → f s = .error e → X (.error e) s)
    (hstop : ∀ s, ¬ c.calm → P s → X .stopped s)
    (hfault : ∀ k s, ¬ c.calm → c.faults k → P s → X (.error (Fault.kind k)) s) :
    Triple c P (Io.call f) Q X := by
  refine bind (R := fun _ => P)
    (ask (fun _ h => h) (fun _ _ _ _ h => h) hstop hfault) fun _ => ?_
  refine bind (R := fun s s' => s' = s ∧ P s) (get fun s h => ⟨rfl, h⟩) fun s => ?_
  cases hf : f s with
  | ok r =>
    refine bind (R := fun _ => Q r.1) (modify ?_) fun _ => pure fun _ h => h
    rintro _ ⟨rfl, h⟩
    exact hok _ r.1 r.2 h hf
  | error e =>
    refine throw ?_
    rintro _ ⟨rfl, h⟩
    exact herr _ e h hf

/-- A call from one state, which goes through or reports an error about that state. -/
theorem callAt {f : σ → Except ErrorKind (α × σ)} {s : σ} {X : Exit ErrorKind → σ → Prop}
    (h : match f s with
      | .ok r => Q r.1 r.2
      | .error e => X (.error e) s)
    (hX : ∀ e, Struck c (fun s' => s' = s) e s → X e s) :
    Triple c (fun s' => s' = s) (Io.call f) Q X := by
  refine call ?_ ?_ ?_ ?_
  · rintro _ a s' rfl heq
    rw [heq] at h
    exact h
  · rintro _ e rfl heq
    rw [heq] at h
    exact h
  · rintro _ hc rfl
    exact hX _ ⟨hc, .inl rfl, rfl⟩
  · rintro k _ hc - rfl
    exact hX _ ⟨hc, .inr ⟨k, rfl⟩, rfl⟩

theorem attempt {m : Io σ ε α} {Q : Except ε α → σ → Prop} {X : Exit ε' → σ → Prop}
    (h : Triple c P m (fun a => Q (.ok a)) fun x s =>
      match x with
      | .error e => Q (.error e) s
      | .stopped => X .stopped s
      | .panicked => X .panicked s) :
    Triple c P (Io.attempt m) Q X := by
  intro w hP hc
  obtain ⟨hc', hr⟩ := h w hP hc
  unfold Io.attempt
  rcases hmw : m w with ⟨(e | _ | _) | a, w'⟩ <;> rw [hmw] at hc' hr <;> exact ⟨hc', hr⟩

theorem mapErr {m : Io σ ε α} {g : ε → ε'} {X : Exit ε' → σ → Prop}
    (h : Triple c P m Q fun x s =>
      match x with
      | .error e => X (.error (g e)) s
      | .stopped => X .stopped s
      | .panicked => X .panicked s) :
    Triple c P (Io.mapErr g m) Q X := by
  refine bind (R := fun r s => match r with
    | .ok a => Q a s
    | .error e => X (.error (g e)) s) (attempt h) fun r => ?_
  cases r with
  | ok a => exact pure fun _ h => h
  | error e => exact throw fun _ h => h

theorem mapErr_exits {m : Io σ ε α} {g : ε → ε'} {X : Exit ε' → σ → Prop}
    (h : Triple c P m Q fun e s => X (e.map g) s) : Triple c P (Io.mapErr g m) Q X := by
  refine mapErr (h.exits fun e s he => ?_)
  cases e <;> exact he

theorem zoom {g : σ → τ} {set : τ → σ → σ} {m : Io τ ε α}
    (h : ∀ s, P s → Triple c (fun t => t = g s) m (fun a t => Q a (set t s))
      fun e t => X e (set t s)) :
    Triple c P (Io.zoom g set m) Q X := by
  intro w hP hc
  obtain ⟨hc', hr⟩ := h w.sys hP ⟨g w.sys, w.plan⟩ rfl hc
  exact ⟨hc', hr⟩

theorem withLocal {t : τ} {m : Io (τ × σ) ε α} {Q : α × τ → σ → Prop}
    (h : Triple c (fun p => p.1 = t ∧ P p.2) m (fun a p => Q (a, p.1) p.2) fun e p => X e p.2) :
    Triple c P (Io.withLocal t m) Q X := by
  intro w hP hc
  obtain ⟨hc', hr⟩ := h ⟨(t, w.sys), w.plan⟩ ⟨rfl, hP⟩ hc
  unfold Io.withLocal
  rcases hmw : m ⟨(t, w.sys), w.plan⟩ with ⟨e | a, w'⟩ <;> rw [hmw] at hc' hr <;> exact ⟨hc', hr⟩

/-- The induction behind `Triple.loop`: without faults the variant stays below the fuel. -/
theorem iterate {body : β → Io σ ε (β ⊕ γ)} {Q : γ → σ → Prop} {I : β → σ → Prop}
    {v : β → σ → Nat}
    (hbody : ∀ b n, Triple c (fun s => I b s ∧ (c.calm → v b s = n)) (body b) (fun r s =>
      match r with
      | .inl b' => I b' s ∧ (c.calm → v b' s < n)
      | .inr x => Q x s) X)
    (hstop : ∀ b s, ¬ c.calm → I b s → X .stopped s) :
    ∀ fuel b, Triple c (fun s => I b s ∧ (c.calm → v b s < fuel)) (Io.iterate body fuel b) Q X := by
  intro fuel
  induction fuel with
  | zero =>
    rintro b w ⟨hI, hv⟩ hc
    have hn : ¬ c.calm := fun h => absurd (hv h) (Nat.not_lt_zero _)
    exact ⟨hc, hstop b _ hn hI⟩
  | succ fuel ih =>
    intro b
    refine ofState fun s₀ h₀ => ?_
    refine bind (R := fun r s => match r with
      | .inl b' => I b' s ∧ (c.calm → v b' s < v b s₀)
      | .inr x => Q x s) ((hbody b (v b s₀)).pre ?_) fun r => ?_
    · rintro s rfl
      exact ⟨h₀.1, fun _ => rfl⟩
    · cases r with
      | inl b' =>
        exact (ih b').pre fun s h => ⟨h.1, fun hc => by have := h.2 hc; have := h₀.2 hc; omega⟩
      | inr x => exact pure fun _ h => h

/-- The rule for loops.  `I` is the invariant; `v` bounds the turns without faults. -/
theorem loop {bound : σ → Nat} {body : β → Io σ ε (β ⊕ γ)} {b : β} {Q : γ → σ → Prop}
    (I : β → σ → Prop) (v : β → σ → Nat)
    (hbody : ∀ b n, Triple c (fun s => I b s ∧ (c.calm → v b s = n)) (body b) (fun r s =>
      match r with
      | .inl b' => I b' s ∧ (c.calm → v b' s < n)
      | .inr x => Q x s) X)
    (hstop : ∀ b s, ¬ c.calm → I b s → X .stopped s)
    (hinit : ∀ s, P s → I b s ∧ (c.calm → v b s ≤ bound s)) :
    Triple c P (Io.loop bound body b) Q X := by
  intro w hP hc
  have h := hinit w.sys hP
  exact iterate hbody hstop (w.plan.length + bound w.sys + 1) b w
    ⟨h.1, fun hc => by have := h.2 hc; omega⟩ hc

/-! ### Programs that only a fault can stop -/

/-- A call that always goes through, unless it meets a fault. -/
theorem effect {r : σ → α} {g : σ → σ} (h : ∀ s, P s → Q (r s) (g s)) :
    Triple c P (Io.call fun s => .ok (r s, g s)) Q (Faulted c P) := by
  refine call ?_ ?_ ?_ ?_
  · intro s a s' hP heq
    obtain ⟨rfl, rfl⟩ := Prod.mk.inj (Except.ok.inj heq)
    exact h s hP
  · intro s e hP heq
    cases heq
  · exact fun s hc hP => ⟨hc, by simp, hP⟩
  · exact fun k s hc _ hP => ⟨hc, by simp, hP⟩

theorem mapErr_faulted {m : Io σ ε α} {g : ε → ε'} {Y : σ → Prop}
    (h : Triple c P m Q (Faulted c Y)) : Triple c P (Io.mapErr g m) Q (Faulted c Y) :=
  mapErr_exits (h.exits fun _ _ he => he.map g)

theorem ok_of_run {m : Io σ ε α} {s : σ} {plan : Plan} {a : α} {w : World σ} {X : Exit ε → σ → Prop}
    (h : Triple c P m Q X) (hs : P s) (hc : plan.Within c) (hrun : m.run s plan = (.ok a, w)) :
    Q a w.sys := by
  have hresult := (h ⟨s, plan⟩ hs hc).2
  rw [Io.run] at hrun
  rw [hrun] at hresult
  exact hresult

theorem error_of_run {m : Io σ ε α} {s : σ} {plan : Plan} {e : Exit ε} {w : World σ}
    {X : Exit ε → σ → Prop} (h : Triple c P m Q X) (hs : P s) (hc : plan.Within c)
    (hrun : m.run s plan = (.error e, w)) : X e w.sys := by
  have hresult := (h ⟨s, plan⟩ hs hc).2
  rw [Io.run] at hrun
  rw [hrun] at hresult
  exact hresult

end Triple

end Triple

end Lib
