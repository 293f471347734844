import TransactionLog.Lib.Program

/-!
# Byte sources and destinations

A `Dest` is a part of the system that bytes can be sent to, and a `Source` is a
part that bytes can be received from.  `Dest.drain` sends a whole buffer through
short writes and interruptions, the way an output loop over an asynchronous
destination does.

`Triple.drain` is the rule for that loop.  Its invariant relates the bytes still
to be sent to the system, and holds after every single write; so it also holds
wherever the loop fails or is abandoned.
-/

namespace Lib

variable {σ : Type}

/-- Where output goes: what an accepted write, a completed flush and a completed
synchronization do to the system. -/
structure Dest (σ : Type) where
  accept : List UInt8 → σ → σ
  flush : σ → σ
  sync : σ → σ

/-- Where input comes from: the bytes not yet received, and receiving some of them. -/
structure Source (σ : Type) where
  available : σ → List UInt8
  advance : Nat → σ → σ

/-- While `J` holds, receiving takes from the front of what is available. -/
structure Source.Lawful (src : Source σ) (J : σ → Prop) : Prop where
  available_advance : ∀ n s, J s → src.available (src.advance n s) = (src.available s).drop n
  advance : ∀ n s, J s → J (src.advance n s)

namespace Dest

variable (d : Dest σ)

/-- One write.  Returns how many bytes were accepted. -/
def write (bytes : List UInt8) : Io σ ErrorKind Nat := do
  let a ← Io.ask
  Io.modify (d.accept (bytes.take (a.accepted bytes.length)))
  pure (a.accepted bytes.length)

def flushCall : Io σ ErrorKind Unit := do
  let _ ← Io.ask
  Io.modify d.flush

def syncCall : Io σ ErrorKind Unit := do
  let _ ← Io.ask
  Io.modify d.sync

/-- One turn of the output loop over the bytes still to be sent. -/
def drainTurn : List UInt8 → Io σ ErrorKind (List UInt8 ⊕ Unit)
  | [] => pure (.inr ())
  | bytes => do
    match ← Io.attempt (d.write bytes) with
    | .ok 0 => Io.throw .writeZero
    | .ok written => pure (.inl (bytes.drop written))
    | .error .interrupted => pure (.inl bytes)
    | .error e => Io.throw e

/-- Sends all of `bytes`: short writes go on with the rest, interrupted ones are
made again, and a write that accepts nothing is an error. -/
def drain (bytes : List UInt8) : Io σ ErrorKind Unit :=
  Io.loop (fun _ => bytes.length) d.drainTurn bytes

end Dest

/-- The answers accept `n` bytes, one part after the other; some of the writes are
interrupted first. -/
def Answer.Send : List Answer → Nat → Prop
  | [], n => n = 0
  | .all :: answers, n => 0 < n ∧ Send answers 0
  | .upTo k _ :: answers, n => 0 < min k n ∧ Send answers (n - min k n)
  | .fault .interrupted :: answers, n => 0 < n ∧ Send answers n
  | .fault (.device _) :: _, _ => False

theorem Answer.send_zero {answers : List Answer} (h : Send answers 0) : answers = [] := by
  cases answers with
  | nil => rfl
  | cons a answers =>
    cases a with
    | all => exact absurd h.1 (Nat.lt_irrefl 0)
    | upTo k slack =>
      have hpos := h.1
      rw [Nat.min_zero] at hpos
      exact absurd hpos (Nat.lt_irrefl 0)
    | fault f =>
      cases f with
      | interrupted => exact absurd h.1 (Nat.lt_irrefl 0)
      | device code => exact h.elim

namespace Dest

variable {d : Dest σ} {plan : Plan} {bytes : List UInt8} {w w' : World σ}

/-- A turn of the output loop whose write is accepted. -/
theorem drainTurn_accepted {n : Nat} (hne : bytes ≠ []) (hn : 0 < n)
    (h : d.write bytes w = (.ok n, w')) :
    d.drainTurn bytes w = (.ok (.inl (bytes.drop n)), w') := by
  obtain ⟨b, bs, rfl⟩ := List.exists_cons_of_ne_nil hne
  obtain ⟨k, rfl⟩ := Nat.exists_eq_add_of_lt hn
  rw [Nat.zero_add] at h ⊢
  rw [drainTurn, Io.bind_apply, Io.attempt, h]
  · rfl
  · exact fun hnil => absurd hnil hne

theorem drainTurn_interrupted (hne : bytes ≠ [])
    (h : d.write bytes w = (.error (.error .interrupted), w')) :
    d.drainTurn bytes w = (.ok (.inl bytes), w') := by
  obtain ⟨b, bs, rfl⟩ := List.exists_cons_of_ne_nil hne
  rw [drainTurn, Io.bind_apply, Io.attempt, h]
  · rfl
  · exact fun hnil => absurd hnil hne

/-- The turns that the answers are for. -/
theorem iterate_sends (answers : List Answer) : ∀ (bytes : List UInt8) (s : σ) (fuel : Nat),
    Answer.Send answers bytes.length → answers.length < fuel →
    ∃ s', Io.iterate d.drainTurn fuel bytes ⟨s, .after plan answers⟩ = (.ok (), ⟨s', plan⟩) := by
  induction answers with
  | nil =>
    intro bytes s fuel hsend hfuel
    obtain ⟨fuel, rfl⟩ := Nat.exists_eq_succ_of_ne_zero (Nat.ne_of_gt hfuel)
    obtain rfl := List.length_eq_zero_iff.mp hsend
    exact ⟨s, rfl⟩
  | cons a answers ih =>
    intro bytes s fuel hsend hfuel
    obtain ⟨fuel, rfl⟩ := Nat.exists_eq_succ_of_ne_zero (Nat.ne_of_gt (Nat.zero_lt_of_lt hfuel))
    have hfuel := Nat.lt_of_succ_lt_succ hfuel
    -- a turn that goes on with `bytes'`
    have hturn : ∀ bytes' s', d.drainTurn bytes ⟨s, .after plan (a :: answers)⟩ =
        (.ok (.inl bytes'), ⟨s', .after plan answers⟩) → Answer.Send answers bytes'.length →
        ∃ s', Io.iterate d.drainTurn (fuel + 1) bytes ⟨s, .after plan (a :: answers)⟩ =
          (.ok (), ⟨s', plan⟩) := by
      intro bytes' s' hbody hsend'
      obtain ⟨s'', hrest⟩ := ih bytes' s' fuel hsend' hfuel
      refine ⟨s'', ?_⟩
      rw [Io.iterate, Io.bind_ok hbody]
      exact hrest
    cases a with
    | all =>
      refine hturn _ _ (drainTurn_accepted (List.length_pos_iff.mp hsend.1) hsend.1 rfl) ?_
      rw [List.length_drop, Nat.sub_self]
      exact hsend.2
    | upTo k slack =>
      have hpos := (Nat.lt_min.mp hsend.1).2
      refine hturn _ _ (drainTurn_accepted (List.length_pos_iff.mp hpos) hsend.1 rfl) ?_
      rw [List.length_drop]
      exact hsend.2
    | fault f =>
      cases f with
      | interrupted =>
        exact hturn _ _ (drainTurn_interrupted (List.length_pos_iff.mp hsend.1) rfl) hsend.2
      | device code => exact hsend.elim

/-- **Short and interrupted writes** only make the loop turn more often. -/
theorem drain_sends {answers : List Answer} (h : Answer.Send answers bytes.length) (s : σ) :
    ∃ s', d.drain bytes ⟨s, .after plan answers⟩ = (.ok (), ⟨s', plan⟩) := by
  refine iterate_sends answers bytes s _ h ?_
  rw [Plan.length_after]
  omega

end Dest

/-- What a destination has seen: the bytes it accepted, and how many of them were
flushed and how many of these synchronized. -/
structure Channel where
  accepted : List UInt8
  flushed : Nat
  synced : Nat
  deriving DecidableEq, Repr

/-- The destination that keeps this record. -/
def Channel.dest : Dest Channel where
  accept bytes ch := { ch with accepted := ch.accepted ++ bytes }
  flush ch := { ch with flushed := ch.accepted.length }
  sync ch := { ch with synced := ch.flushed }

def Channel.new : Channel := ⟨[], 0, 0⟩

/-- The destination that is one part of a larger system. -/
def Dest.lift {τ : Type} (d : Dest τ) (get : σ → τ) (set : τ → σ → σ) : Dest σ where
  accept bytes s := set (d.accept bytes (get s)) s
  flush s := set (d.flush (get s)) s
  sync s := set (d.sync (get s)) s

/-- One read into a buffer with room for `needed` bytes and perhaps more. -/
def Source.read (src : Source σ) (needed : Nat) : Io σ ErrorKind (List UInt8) := do
  let a ← Io.ask
  let s ← Io.get
  let n := a.received needed (src.available s).length
  Io.modify (src.advance n)
  pure ((src.available s).take n)

namespace Triple

variable {c : Mode} {P : σ → Prop} {X : Exit ErrorKind → σ → Prop}

theorem write {d : Dest σ} {bytes : List UInt8} {Q : Nat → σ → Prop}
    (hok : ∀ n s, n ≤ bytes.length → (c.calm → bytes ≠ [] → 0 < n) → P s →
      Q n (d.accept (bytes.take n) s))
    (hstop : ∀ s, ¬ c.calm → P s → X .stopped s)
    (hfault : ∀ f s, ¬ c.calm → c.faults f → P s → X (.error (Fault.kind f)) s) :
    Triple c P (d.write bytes) Q X := by
  refine bind (R := fun a s => P s ∧ (c.calm → bytes ≠ [] → 0 < a.accepted bytes.length))
    (ask ?_ ?_ hstop hfault) fun a => ?_
  · exact fun s h => ⟨h, fun _ hne => List.length_pos_iff.mpr hne⟩
  · exact fun n k s hn h => ⟨h, fun hc hne => Nat.lt_min.mpr ⟨hn hc, List.length_pos_iff.mpr hne⟩⟩
  · refine bind (R := fun _ s => Q (a.accepted bytes.length) s) (modify ?_) fun _ =>
      pure fun _ h => h
    exact fun s h => hok _ s (a.accepted_le _) h.2 h.1

theorem flushCall {d : Dest σ} {Q : Unit → σ → Prop} (hok : ∀ s, P s → Q () (d.flush s))
    (hstop : ∀ s, ¬ c.calm → P s → X .stopped s)
    (hfault : ∀ f s, ¬ c.calm → c.faults f → P s → X (.error (Fault.kind f)) s) :
    Triple c P d.flushCall Q X :=
  bind (R := fun _ => P) (ask (fun _ h => h) (fun _ _ _ _ h => h) hstop hfault)
    fun _ => modify hok

theorem syncCall {d : Dest σ} {Q : Unit → σ → Prop} (hok : ∀ s, P s → Q () (d.sync s))
    (hstop : ∀ s, ¬ c.calm → P s → X .stopped s)
    (hfault : ∀ f s, ¬ c.calm → c.faults f → P s → X (.error (Fault.kind f)) s) :
    Triple c P d.syncCall Q X :=
  bind (R := fun _ => P) (ask (fun _ h => h) (fun _ _ _ _ h => h) hstop hfault)
    fun _ => modify hok

/-- **The rule for the output loop.**  `J` relates the bytes still to be sent to
the system. -/
theorem drain {d : Dest σ} {bytes : List UInt8} {Q : Unit → σ → Prop}
    (J : List UInt8 → σ → Prop)
    (hstep : ∀ bs n s, n ≤ bs.length → J bs s → J (bs.drop n) (d.accept (bs.take n) s))
    (hinit : ∀ s, P s → J bytes s)
    (hok : ∀ s, J [] s → Q () s)
    (hexit : ∀ bs s, ¬ c.calm → J bs s → X .stopped s ∧ ∀ e, X (.error e) s) :
    Triple c P (d.drain bytes) Q X := by
  refine loop J (fun bs _ => bs.length) ?_
    (fun bs s hc hJ => (hexit bs s hc hJ).1)
    (fun s h => ⟨hinit s h, fun _ => Nat.le_refl _⟩)
  intro bs n
  cases bs with
  | nil => exact pure fun s h => hok s h.1
  | cons b bs =>
    -- a write either went through, and then the invariant holds of the remaining
    -- bytes, or failed, and then it still holds of all of them
    refine bind (R := fun r s => match r with
      | .ok k => J ((b :: bs).drop k) s ∧ (c.calm → 0 < k ∧ (b :: bs).length = n)
      | .error _ => J (b :: bs) s ∧ ¬ c.calm) (attempt ?_) fun r => ?_
    · refine write ?_ ?_ ?_
      · exact fun k s hk hc h => ⟨hstep _ k s hk h.1, fun h' => ⟨hc h' (by simp), h.2 h'⟩⟩
      · exact fun s hc h => (hexit _ s hc h.1).1
      · exact fun f s hc _ h => ⟨h.1, hc⟩
    · match r with
      | .ok 0 =>
        refine throw fun s h => (hexit _ s ?_ h.1).2 _
        exact fun hc => absurd (h.2 hc).1 (Nat.lt_irrefl 0)
      | .ok (k + 1) =>
        refine pure fun s h => ⟨h.1, fun hc => ?_⟩
        have := (h.2 hc).2
        rw [List.length_drop]
        rw [List.length_cons] at this ⊢
        omega
      | .error .interrupted => exact pure fun s h => ⟨h.1, fun hc => absurd hc h.2⟩
      | .error .notFound | .error .alreadyExists | .error .isADirectory
      | .error .notADirectory | .error .writeZero | .error .unexpectedEof
      | .error .invalidInput | .error (.device _) =>
        exact throw fun s h => (hexit _ s h.2 h.1).2 _

/-- A read moves some of the available bytes, and none only at the end of input. -/
theorem read {src : Source σ} {needed : Nat} {Q : List UInt8 → σ → Prop} (hneed : 0 < needed)
    (hok : ∀ n s, n ≤ (src.available s).length → (n = 0 ↔ src.available s = []) → P s →
      Q ((src.available s).take n) (src.advance n s))
    (hstop : ∀ s, ¬ c.calm → P s → X .stopped s)
    (hfault : ∀ f s, ¬ c.calm → c.faults f → P s → X (.error (Fault.kind f)) s) :
    Triple c P (src.read needed) Q X := by
  refine bind (R := fun _ => P) (ask (fun _ h => h) (fun _ _ _ _ h => h) hstop hfault) fun a => ?_
  refine bind (R := fun s s' => s' = s ∧ P s) (get fun s h => ⟨rfl, h⟩) fun s => ?_
  refine bind (R := fun _ => Q ((src.available s).take
      (a.received needed (src.available s).length))) (modify ?_) fun _ => pure fun _ h => h
  rintro _ ⟨rfl, hP⟩
  refine hok _ _ (a.received_le _ _) ?_ hP
  rw [Answer.received_eq_zero hneed, List.length_eq_zero_iff]

end Triple

end Lib
