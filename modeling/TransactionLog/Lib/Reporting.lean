import TransactionLog.Lib.Channel

/-!
# Programs that report every device fault

`Reports E m` says of a program that a device fault which one of its calls meets
ends the whole run, with the error that `E` makes of it.  Such a program makes no
further call after the fault: the rest of the plan is the one the fault left.
-/

namespace Lib

/-- How many device faults a plan still holds. -/
def Plan.devices : Plan → Nat
  | .next (.fault (.device _)) rest => rest.devices + 1
  | .next _ rest => rest.devices
  | _ => 0

section Reports

variable {σ τ ε ε' α β γ : Type} {E : ErrorKind → ε} {E' : ErrorKind → ε'}

/-- The run has met no device fault, or ends with the report of one. -/
def Reported (E : ErrorKind → ε) (plan : Plan) (r : Except (Exit ε) α × World σ) : Prop :=
  r.2.plan.devices = plan.devices ∨ ∃ code, r.1 = .error (.error (E (.device code)))

def Reports (E : ErrorKind → ε) (m : Io σ ε α) : Prop := ∀ w, Reported E w.plan (m w)

namespace Reports

/-- A program that makes no call. -/
theorem ofPlan {m : Io σ ε α} (h : ∀ w, (m w).2.plan = w.plan) : Reports E m :=
  fun w => .inl (congrArg Plan.devices (h w))

theorem pure (a : α) : Reports E (Pure.pure a : Io σ ε α) := ofPlan fun _ => rfl

theorem throw (e : ε) : Reports E (Io.throw e : Io σ ε α) := ofPlan fun _ => rfl

theorem panic : Reports E (Io.panic : Io σ ε α) := ofPlan fun _ => rfl

theorem get : Reports E (Io.get : Io σ ε σ) := ofPlan fun _ => rfl

theorem modify (f : σ → σ) : Reports E (Io.modify f : Io σ ε Unit) := ofPlan fun _ => rfl

theorem unwrap (o : Option α) : Reports E (Io.unwrap o : Io σ ε α) := by
  cases o with
  | none => exact panic
  | some a => exact pure a

theorem ofExcept (r : Except ε α) : Reports E (Io.ofExcept r : Io σ ε α) := by
  cases r with
  | ok a => exact pure a
  | error e => exact throw e

theorem ask : Reports id (Io.ask : Io σ ErrorKind Answer) := by
  rintro ⟨s, plan⟩
  match plan with
  | .stop | .calm | .next .all rest | .next (.upTo _ _) rest
  | .next (.fault .interrupted) rest => exact .inl rfl
  | .next (.fault (.device code)) rest => exact .inr ⟨code, rfl⟩

theorem bind {m : Io σ ε α} {f : α → Io σ ε β} (hm : Reports E m) (hf : ∀ a, Reports E (f a)) :
    Reports E (m >>= f) := by
  intro w
  have h := hm w
  rw [Io.bind_apply]
  rcases hmw : m w with ⟨e | a, w'⟩
  · rw [hmw] at h
    rcases h with h | ⟨code, h⟩
    · exact .inl h
    · exact .inr ⟨code, by rw [Except.error.inj h]⟩
  · rw [hmw] at h
    rcases h with h | ⟨code, h⟩
    · rcases hf a w' with h' | h'
      · exact .inl (h'.trans h)
      · exact .inr h'
    · cases h

/-- A program that looks at an error goes on where the error reports no fault. -/
theorem attempt {m : Io σ ε α} {f : Except ε α → Io σ ε' β} (hm : Reports E m)
    (hf : ∀ r, Reports E' (f r))
    (hreport : ∀ code w, ∃ w', f (.error (E (.device code))) w =
      (.error (.error (E' (.device code))), w')) :
    Reports E' (Io.attempt m >>= f) := by
  intro w
  have h := hm w
  rw [Io.bind_apply, Io.attempt]
  rcases hmw : m w with ⟨(e | _ | _) | a, w'⟩
  · rw [hmw] at h
    rcases h with h | ⟨code, h⟩
    · rcases hf (.error e) w' with h' | h'
      · exact .inl (h'.trans h)
      · exact .inr h'
    · obtain ⟨w'', hw⟩ := hreport code w'
      obtain rfl := Exit.error.inj (Except.error.inj h)
      exact .inr ⟨code, congrArg Prod.fst hw⟩
  · rw [hmw] at h
    rcases h with h | ⟨code, h⟩
    · exact .inl h
    · cases h
  · rw [hmw] at h
    rcases h with h | ⟨code, h⟩
    · exact .inl h
    · cases h
  · rw [hmw] at h
    rcases h with h | ⟨code, h⟩
    · rcases hf (.ok a) w' with h' | h'
      · exact .inl (h'.trans h)
      · exact .inr h'
    · cases h

theorem zoom {g : σ → τ} {set : τ → σ → σ} {m : Io τ ε α} (hm : Reports E m) :
    Reports E (Io.zoom g set m) := fun w => hm ⟨g w.sys, w.plan⟩

theorem withLocal {t : τ} {m : Io (τ × σ) ε α} (hm : Reports E m) :
    Reports E (Io.withLocal t m) := by
  intro w
  have h := hm ⟨(t, w.sys), w.plan⟩
  unfold Io.withLocal
  rcases hmw : m ⟨(t, w.sys), w.plan⟩ with ⟨e | a, w'⟩
  · rw [hmw] at h
    rcases h with h | ⟨code, h⟩
    · exact .inl h
    · exact .inr ⟨code, by rw [Except.error.inj h]; rfl⟩
  · rw [hmw] at h
    rcases h with h | ⟨code, h⟩
    · exact .inl h
    · cases h

theorem iterate {body : β → Io σ ε (β ⊕ γ)} (h : ∀ b, Reports E (body b)) :
    ∀ fuel b, Reports E (Io.iterate body fuel b) := by
  intro fuel
  induction fuel with
  | zero => exact fun b => ofPlan fun _ => rfl
  | succ fuel ih =>
    intro b
    refine bind (h b) fun r => ?_
    cases r with
    | inl b' => exact ih b'
    | inr c => exact pure c

theorem loop {bound : σ → Nat} {body : β → Io σ ε (β ⊕ γ)} (h : ∀ b, Reports E (body b)) (b : β) :
    Reports E (Io.loop bound body b) := fun w => iterate h _ b w

theorem read (src : Source σ) (needed : Nat) : Reports id (src.read needed) :=
  bind ask fun _ => bind get fun _ => bind (modify _) fun _ => pure _

end Reports

end Reports

end Lib
