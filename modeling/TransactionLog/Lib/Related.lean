import TransactionLog.Lib.Output

/-!
# Programs on related systems

`Respects R m m'` compares two programs that run from systems related by `R` under one
plan: they have the same result, they leave the same plan and the systems are related
again.  So whoever sees the results only cannot tell one system from the other.

Every combinator of programs has its rule.  A loop that is given more turns than it can
take, `iterate_of_measure`, does the same whatever their number.  `Returns m I` and
`Keeps I m` are facts about one program alone, about its results and about what it leaves.
-/

namespace Lib

variable {σ σ' τ τ' ε ε' α β γ : Type}

/-! ### What programs return -/

/-- Only values with `I` are returned, whatever the system and the plan. -/
def Returns (m : Io σ ε α) (I : α → Prop) : Prop :=
  Triple ⟨False, fun _ => True⟩ (fun _ => True) m (fun a _ => I a) fun _ _ => True

namespace Returns

variable {m : Io σ ε α} {I : α → Prop} {J : β → Prop}

/-- Nothing needs to be known of a program. -/
theorem any (m : Io σ ε α) : Returns m fun _ => True := by
  intro w _ _
  refine ⟨(m w).2.plan.within_any, ?_⟩
  split
  · trivial
  · trivial

theorem of_ok {a : α} {w w' : World σ} (h : Returns m I) (hrun : m w = (.ok a, w')) : I a := by
  have hw := (h w trivial w.plan.within_any).2
  rw [hrun] at hw
  exact hw

theorem pure {a : α} (h : I a) : Returns (Pure.pure a : Io σ ε α) I := Triple.pure fun _ _ => h

theorem throw {e : ε} : Returns (Io.throw e : Io σ ε α) I := Triple.throw fun _ _ => trivial

theorem panic : Returns (Io.panic : Io σ ε α) I := Triple.panic fun _ _ => trivial

theorem unwrap {o : Option α} (h : ∀ a, o = some a → I a) : Returns (Io.unwrap o : Io σ ε α) I :=
  Triple.unwrap (fun a _ ha _ => h a ha) fun _ _ _ => trivial

theorem ofExcept {r : Except ε α} (h : ∀ a, r = .ok a → I a) :
    Returns (Io.ofExcept r : Io σ ε α) I := by
  cases r with
  | ok a => exact pure (h a rfl)
  | error e => exact throw

theorem bind {f : α → Io σ ε β} (hm : Returns m I) (hf : ∀ a, I a → Returns (f a) J) :
    Returns (m >>= f) J :=
  Triple.bind hm fun a => .ofState fun _ ha => (hf a ha).pre fun _ _ => trivial

/-- A program that goes on whatever another one has returned. -/
theorem after {f : α → Io σ ε β} (hf : ∀ a, Returns (f a) J) : Returns (m >>= f) J :=
  bind (any m) fun a _ => hf a

theorem mapErr {g : ε → ε'} (h : Returns m I) : Returns (Io.mapErr g m) I :=
  Triple.mapErr_exits h

theorem attempt (h : Returns m I) :
    Returns (Io.attempt m : Io σ ε' (Except ε α)) fun r => ∀ a, r = .ok a → I a := by
  refine Triple.attempt (h.conseq (fun _ _ => trivial) ?_ ?_)
  · rintro a _ ha _ ⟨⟩
    exact ha
  · rintro (e | _ | _) _ -
    · rintro _ ⟨⟩
    · trivial
    · trivial

theorem zoom {get : σ → τ} {set : τ → σ → σ} {m : Io τ ε α} (h : Returns m I) :
    Returns (Io.zoom get set m) I :=
  Triple.zoom fun _ _ => h.pre fun _ _ => trivial

theorem withLocal {t : τ} {m : Io (τ × σ) ε α} (h : Returns m I) :
    Returns (Io.withLocal t m) fun r => I r.1 :=
  Triple.withLocal (h.pre fun _ _ => trivial)

/-- A loop whose turns keep `I` returns what its last turn does. -/
theorem iterate {body : α → Io σ ε (α ⊕ β)} (h : ∀ a, I a → Returns (body a) (Sum.elim I J)) :
    ∀ fuel a, I a → Returns (Io.iterate body fuel a) J := by
  intro fuel
  induction fuel with
  | zero => exact fun _ _ w _ _ => ⟨w.plan.within_any, trivial⟩
  | succ fuel ih =>
    intro a ha
    refine bind (h a ha) fun r hr => ?_
    cases r with
    | inl a' => exact ih a' hr
    | inr b => exact pure hr

end Returns

/-! ### What programs keep -/

/-- What holds of the system before holds after, however the program ends. -/
def Keeps (I : σ → Prop) (m : Io σ ε α) : Prop :=
  Triple ⟨False, fun _ => True⟩ I m (fun _ => I) fun _ => I

namespace Keeps

variable {I : σ → Prop} {m : Io σ ε α}

theorem run (h : Keeps I m) {s : σ} (hs : I s) (plan : Plan) : I (m.run s plan).2.sys := by
  have hw := (h ⟨s, plan⟩ hs plan.within_any).2
  rw [Io.run]
  rcases hrun : m ⟨s, plan⟩ with ⟨e | a, w⟩
  · rw [hrun] at hw
    exact hw
  · rw [hrun] at hw
    exact hw

theorem pure {a : α} : Keeps I (Pure.pure a : Io σ ε α) := Triple.pure fun _ h => h

theorem throw {e : ε} : Keeps I (Io.throw e : Io σ ε α) := Triple.throw fun _ h => h

theorem bind {f : α → Io σ ε β} (hm : Keeps I m) (hf : ∀ a, Keeps I (f a)) : Keeps I (m >>= f) :=
  Triple.bind hm hf

theorem attempt (h : Keeps I m) : Keeps I (Io.attempt m : Io σ ε' (Except ε α)) := by
  refine Triple.attempt (h.exits fun e s hs => ?_)
  cases e with
  | error e => exact hs
  | stopped => exact hs
  | panicked => exact hs

theorem mapErr {g : ε → ε'} (h : Keeps I m) : Keeps I (Io.mapErr g m) := Triple.mapErr_exits h

theorem call {f : σ → Except ErrorKind (α × σ)} (h : ∀ s a s', I s → f s = .ok (a, s') → I s') :
    Keeps I (Io.call f) :=
  Triple.call h (fun _ _ hs _ => hs) (fun _ _ hs => hs) fun _ _ _ _ hs => hs

theorem zoom {get : σ → τ} {set : τ → σ → σ} {m : Io τ ε α} (h : ∀ t s, I s → I (set t s)) :
    Keeps I (Io.zoom get set m) := by
  refine Triple.zoom fun s hs => ?_
  exact (Returns.any m).conseq (fun _ _ => trivial) (fun _ t _ => h t s hs) fun _ t _ => h t s hs

end Keeps

/-! ### Comparing programs -/

/-- From related systems, the same result, the same plan and related systems. -/
def Respects (R : σ → σ' → Prop) (m : Io σ ε α) (m' : Io σ' ε α) : Prop :=
  ∀ s s' plan, R s s' → ∃ r t t' rest,
    m ⟨s, plan⟩ = (r, ⟨t, rest⟩) ∧ m' ⟨s', plan⟩ = (r, ⟨t', rest⟩) ∧ R t t'

/-- Two systems only, each of which stays as it is. -/
def Exactly (s : σ) (s' : σ') (t : σ) (t' : σ') : Prop := t = s ∧ t' = s'

/-- The same value beside each of two related systems. -/
def Beside (τ : Type) (R : σ → σ' → Prop) (s : τ × σ) (s' : τ × σ') : Prop :=
  s.1 = s'.1 ∧ R s.2 s'.2

namespace Respects

variable {R : σ → σ' → Prop} {m : Io σ ε α} {m' : Io σ' ε α}

theorem pure {a : α} : Respects R (Pure.pure a : Io σ ε α) (Pure.pure a) :=
  fun s s' plan h => ⟨.ok a, s, s', plan, rfl, rfl, h⟩

theorem throw {e : ε} : Respects R (Io.throw e : Io σ ε α) (Io.throw e) :=
  fun s s' plan h => ⟨.error (.error e), s, s', plan, rfl, rfl, h⟩

theorem panic : Respects R (Io.panic : Io σ ε α) Io.panic :=
  fun s s' plan h => ⟨.error .panicked, s, s', plan, rfl, rfl, h⟩

theorem stop : Respects R (Io.stop : Io σ ε α) Io.stop :=
  fun s s' plan h => ⟨.error .stopped, s, s', plan, rfl, rfl, h⟩

theorem modify {f : σ → σ} {f' : σ' → σ'} (h : ∀ s s', R s s' → R (f s) (f' s')) :
    Respects R (Io.modify f : Io σ ε Unit) (Io.modify f') :=
  fun s s' plan hs => ⟨.ok (), f s, f' s', plan, rfl, rfl, h s s' hs⟩

theorem ofExcept {r : Except ε α} : Respects R (Io.ofExcept r : Io σ ε α) (Io.ofExcept r) := by
  cases r with
  | ok a => exact pure
  | error e => exact throw

theorem unwrap {o : Option α} : Respects R (Io.unwrap o : Io σ ε α) (Io.unwrap o) := by
  cases o with
  | none => exact panic
  | some a => exact pure

theorem bind {f : α → Io σ ε β} {f' : α → Io σ' ε β} (hm : Respects R m m')
    (hf : ∀ a, Respects R (f a) (f' a)) : Respects R (m >>= f) (m' >>= f') := by
  intro s s' plan h
  obtain ⟨r, t, t', rest, hrun, hrun', ht⟩ := hm s s' plan h
  cases r with
  | error e => exact ⟨.error e, t, t', rest, Io.bind_error hrun, Io.bind_error hrun', ht⟩
  | ok a =>
    rw [Io.bind_ok hrun, Io.bind_ok hrun']
    exact hf a t t' rest ht

/-- As `bind`, where only some values can be returned. -/
theorem bindOf {I : α → Prop} {f : α → Io σ ε β} {f' : α → Io σ' ε β} (hm : Respects R m m')
    (hI : Returns m I) (hf : ∀ a, I a → Respects R (f a) (f' a)) :
    Respects R (m >>= f) (m' >>= f') := by
  intro s s' plan h
  obtain ⟨r, t, t', rest, hrun, hrun', ht⟩ := hm s s' plan h
  cases r with
  | error e => exact ⟨.error e, t, t', rest, Io.bind_error hrun, Io.bind_error hrun', ht⟩
  | ok a =>
    rw [Io.bind_ok hrun, Io.bind_ok hrun']
    exact hf a (hI.of_ok hrun) t t' rest ht

/-- Programs that read the system first are compared for each pair of systems. -/
theorem getBind {f : σ → Io σ ε α} {f' : σ' → Io σ' ε α}
    (h : ∀ s s', R s s' → Respects R (f s) (f' s')) :
    Respects R (Io.get >>= f) (Io.get >>= f') :=
  fun s s' plan hs => h s s' hs s s' plan hs

/-- Programs that change nothing may be compared for one pair of systems at a time. -/
theorem ofExactly (h : ∀ s s', R s s' → Respects (Exactly s s') m m') : Respects R m m' := by
  intro s s' plan hs
  obtain ⟨r, t, t', rest, hrun, hrun', rfl, rfl⟩ := h s s' hs s s' plan ⟨rfl, rfl⟩
  exact ⟨r, t, t', rest, hrun, hrun', hs⟩

theorem attempt (h : Respects R m m') :
    Respects R (Io.attempt m : Io σ ε' (Except ε α)) (Io.attempt m') := by
  intro s s' plan hs
  obtain ⟨r, t, t', rest, hrun, hrun', ht⟩ := h s s' plan hs
  unfold Io.attempt
  rw [hrun, hrun']
  rcases r with (e | _ | _) | a
  · exact ⟨.ok (.error e), t, t', rest, rfl, rfl, ht⟩
  · exact ⟨.error .stopped, t, t', rest, rfl, rfl, ht⟩
  · exact ⟨.error .panicked, t, t', rest, rfl, rfl, ht⟩
  · exact ⟨.ok (.ok a), t, t', rest, rfl, rfl, ht⟩

theorem mapErr {g : ε → ε'} (h : Respects R m m') :
    Respects R (Io.mapErr g m) (Io.mapErr g m') := by
  refine bind (attempt h) fun r => ?_
  cases r with
  | ok a => exact pure
  | error e => exact throw

/-- A call is answered by the plan alone. -/
theorem ask : Respects R (Io.ask : Io σ ErrorKind Answer) Io.ask := by
  intro s s' plan h
  match plan with
  | .stop => exact ⟨.error .stopped, s, s', .stop, rfl, rfl, h⟩
  | .calm => exact ⟨.ok .all, s, s', .calm, rfl, rfl, h⟩
  | .next .all rest => exact ⟨.ok .all, s, s', rest, rfl, rfl, h⟩
  | .next (.upTo n k) rest => exact ⟨.ok (.upTo n k), s, s', rest, rfl, rfl, h⟩
  | .next (.fault f) rest => exact ⟨.error (.error f.kind), s, s', rest, rfl, rfl, h⟩

/-- The outcomes of one call on two systems: the same value and related systems, or the
same error. -/
def Agreed (R : σ → σ' → Prop) : Except ErrorKind (α × σ) → Except ErrorKind (α × σ') → Prop
  | .ok (a, t), .ok (a', t') => a = a' ∧ R t t'
  | .error e, .error e' => e = e'
  | _, _ => False

theorem call {f : σ → Except ErrorKind (α × σ)} {f' : σ' → Except ErrorKind (α × σ')}
    (h : ∀ s s', R s s' → Agreed R (f s) (f' s')) : Respects R (Io.call f) (Io.call f') := by
  refine bind ask fun _ => ?_
  refine getBind fun s s' hs => ?_
  have hagreed := h s s' hs
  rcases hf : f s with e | ⟨a, t⟩ <;> rcases hf' : f' s' with e' | ⟨a', t'⟩ <;>
    rw [hf, hf'] at hagreed
  · obtain rfl : e = e' := hagreed
    exact throw
  · exact hagreed.elim
  · exact hagreed.elim
  · obtain ⟨rfl, ht⟩ := hagreed
    exact bind (modify fun _ _ _ => ht) fun _ => pure

/-- Parts of the systems that are related, with the systems around them. -/
theorem zoom {S : τ → τ' → Prop} {get : σ → τ} {get' : σ' → τ'} {set : τ → σ → σ}
    {set' : τ' → σ' → σ'} {m : Io τ ε α} {m' : Io τ' ε α} (h : Respects S m m')
    (hget : ∀ s s', R s s' → S (get s) (get' s'))
    (hset : ∀ s s', R s s' → ∀ t t', S t t' → R (set t s) (set' t' s')) :
    Respects R (Io.zoom get set m) (Io.zoom get' set' m') := by
  intro s s' plan hs
  obtain ⟨r, t, t', rest, hrun, hrun', ht⟩ := h (get s) (get' s') plan (hget s s' hs)
  refine ⟨r, set t s, set' t' s', rest, ?_, ?_, hset s s' hs t t' ht⟩
  · rw [Io.zoom, hrun]
  · rw [Io.zoom, hrun']

/-- Whatever runs on parts that are equal. -/
theorem refl (m : Io τ ε α) : Respects Eq m m := by
  rintro s _ plan rfl
  exact ⟨_, _, _, _, rfl, rfl, rfl⟩

/-! ### Loops -/

theorem iterate {body : β → Io σ ε (β ⊕ γ)} {body' : β → Io σ' ε (β ⊕ γ)}
    (h : ∀ b, Respects R (body b) (body' b)) :
    ∀ fuel b, Respects R (Io.iterate body fuel b) (Io.iterate body' fuel b) := by
  intro fuel
  induction fuel with
  | zero => exact fun _ => stop
  | succ fuel ih =>
    intro b
    refine bind (h b) fun r => ?_
    cases r with
    | inl b' => exact ih b'
    | inr c => exact pure

theorem loop {bound : σ → Nat} {bound' : σ' → Nat} {body : β → Io σ ε (β ⊕ γ)}
    {body' : β → Io σ' ε (β ⊕ γ)} {b : β} (hbound : ∀ s s', R s s' → bound s = bound' s')
    (h : ∀ b, Respects R (body b) (body' b)) :
    Respects R (Io.loop bound body b) (Io.loop bound' body' b) := by
  intro s s' plan hs
  simp only [Io.loop, hbound s s' hs]
  exact iterate h _ b s s' plan hs

/-- Loops with turns to spare do the same, however many each has: as long as they turn,
the invariant `I` holds and the measure `v` falls. -/
theorem iterate_of_measure {s : σ} {s' : σ'} {body : β → Io σ ε (β ⊕ γ)}
    {body' : β → Io σ' ε (β ⊕ γ)} (I : β → Prop) (v : β → Nat)
    (h : ∀ b, I b → Respects (Exactly s s') (body b) (body' b))
    (hv : ∀ b, I b → ∀ plan b', (body b ⟨s, plan⟩).1 = .ok (.inl b') → I b' ∧ v b' < v b) :
    ∀ fuel fuel' b, I b → v b < fuel → v b < fuel' →
      Respects (Exactly s s') (Io.iterate body fuel b) (Io.iterate body' fuel' b) := by
  intro fuel
  induction fuel with
  | zero => exact fun _ _ _ hlt => absurd hlt (Nat.not_lt_zero _)
  | succ fuel ih =>
    intro fuel' b hb hlt hlt'
    obtain ⟨fuel', rfl⟩ := Nat.exists_eq_succ_of_ne_zero (Nat.ne_of_gt (Nat.zero_lt_of_lt hlt'))
    rintro _ _ plan ⟨rfl, rfl⟩
    obtain ⟨r, t, t', rest, hrun, hrun', ht⟩ := h b hb _ _ plan ⟨rfl, rfl⟩
    rw [Io.iterate, Io.iterate]
    rcases r with e | b' | c
    · exact ⟨.error e, t, t', rest, Io.bind_error hrun, Io.bind_error hrun', ht⟩
    · rw [Io.bind_ok hrun, Io.bind_ok hrun']
      obtain ⟨hb', hless⟩ := hv b hb plan b' (by rw [hrun])
      exact ih fuel' b' hb' (by omega) (by omega) t t' rest ht
    · rw [Io.bind_ok hrun, Io.bind_ok hrun']
      exact pure t t' rest ht

end Respects

/-! ### Output -/

/-- The destinations do the same to related systems. -/
structure Dest.Respects (R : σ → σ' → Prop) (d : Dest σ) (d' : Dest σ') : Prop where
  accept : ∀ bytes s s', R s s' → R (d.accept bytes s) (d'.accept bytes s')
  flush : ∀ s s', R s s' → R (d.flush s) (d'.flush s')
  sync : ∀ s s', R s s' → R (d.sync s) (d'.sync s')

namespace Dest.Respects

open Lib.Respects (pure throw bind getBind modify attempt mapErr ask zoom loop ofExcept)

variable {R : σ → σ' → Prop} {d : Dest σ} {d' : Dest σ'}

theorem write (h : d.Respects R d') (bytes : List UInt8) :
    Lib.Respects R (d.write bytes) (d'.write bytes) :=
  bind ask fun _ => bind (modify fun s s' hs => h.accept _ s s' hs) fun _ => pure

theorem drain (h : d.Respects R d') (bytes : List UInt8) :
    Lib.Respects R (d.drain bytes) (d'.drain bytes) := by
  refine loop (fun _ _ _ => rfl) fun bs => ?_
  cases bs with
  | nil => exact pure
  | cons b bs =>
    refine bind (attempt (h.write _)) fun r => ?_
    split
    · exact throw
    · exact pure
    · exact pure
    · exact throw

theorem flushCall (h : d.Respects R d') : Lib.Respects R d.flushCall d'.flushCall :=
  bind ask fun _ => modify h.flush

theorem syncCall (h : d.Respects R d') : Lib.Respects R d.syncCall d'.syncCall :=
  bind ask fun _ => modify h.sync

/-- The calls of an output, unusable in the meantime. -/
theorem armed {m : Io σ ErrorKind Unit} {m' : Io σ' ErrorKind Unit} (done : Output → Output)
    (h : Lib.Respects R m m') :
    Lib.Respects (Beside Output R) (Output.armed m done) (Output.armed m' done) := by
  have hstate : ∀ f : Output → Output, ∀ s s', Beside Output R s s' →
      Beside Output R (f s.1, s.2) (f s'.1, s'.2) :=
    fun f s s' hs => ⟨congrArg f hs.1, hs.2⟩
  refine bind (modify (hstate fun o => { o with usable := false })) fun _ => ?_
  refine bind (mapErr (zoom h (fun s s' hs => hs.2) fun s s' hs t t' ht => ⟨hs.1, ht⟩)) fun _ => ?_
  exact modify (hstate fun o => { done o with usable := true })

theorem flushBuffer (h : d.Respects R d') :
    Lib.Respects (Beside Output R) (Output.flushBuffer d) (Output.flushBuffer d') := by
  refine getBind fun s s' hs => ?_
  rw [hs.1]
  refine bind ofExcept fun _ => ?_
  split
  · exact pure
  · exact armed _ (h.drain _)

theorem flushOutput (h : d.Respects R d') :
    Lib.Respects (Beside Output R) (Output.flush d) (Output.flush d') := by
  refine getBind fun s s' hs => ?_
  rw [hs.1]
  exact bind ofExcept fun _ => armed _ h.flushCall

theorem syncOutput (h : d.Respects R d') :
    Lib.Respects (Beside Output R) (Output.syncData d) (Output.syncData d') := by
  refine getBind fun s s' hs => ?_
  rw [hs.1]
  exact bind ofExcept fun _ => armed _ h.syncCall

end Dest.Respects

end Lib
