import TransactionLog.Lib.Channel

/-!
# Buffered output with terminal failure

An `Output` collects bytes and sends them as one batch.  It is marked unusable
before every call to its destination and usable again only when the call has
succeeded; so an error, or an output abandoned half way, is final, and no batch
is ever sent a second time.
-/

namespace Lib

structure Output where
  buffer : List UInt8
  usable : Bool
  deriving DecidableEq, Repr

inductive OutputError where
  | io (e : ErrorKind)
  | unusable
  deriving DecidableEq, Repr

namespace Output

variable {σ : Type}

def new : Output := ⟨[], true⟩

def checkUsable (o : Output) : Except OutputError Unit :=
  if o.usable then .ok () else .error .unusable

/-- Buffers `bytes`; an error leaves the output as it was. -/
def append (o : Output) (bytes : List UInt8) : Except OutputError Output :=
  if o.usable then .ok { o with buffer := o.buffer ++ bytes } else .error .unusable

/-- Makes the calls `m`, unusable in the meantime, and does `done` after success. -/
def armed (m : Io σ ErrorKind Unit) (done : Output → Output) :
    Io (Output × σ) OutputError Unit := do
  Io.modify fun s => ({ s.1 with usable := false }, s.2)
  Io.mapErr .io (Io.zoom Prod.snd (fun t s => (s.1, t)) m)
  Io.modify fun s => ({ done s.1 with usable := true }, s.2)

/-- Sends the buffered bytes and clears the buffer. -/
def flushBuffer (d : Dest σ) : Io (Output × σ) OutputError Unit := do
  let s ← Io.get
  Io.ofExcept s.1.checkUsable
  if s.1.buffer = [] then pure ()
  else armed (d.drain s.1.buffer) fun o => { o with buffer := [] }

def flush (d : Dest σ) : Io (Output × σ) OutputError Unit := do
  let s ← Io.get
  Io.ofExcept s.1.checkUsable
  armed d.flushCall id

def syncData (d : Dest σ) : Io (Output × σ) OutputError Unit := do
  let s ← Io.get
  Io.ofExcept s.1.checkUsable
  armed d.syncCall id

/-! ### Rules -/

theorem append_usable {o : Output} (h : o.usable = true) (bytes : List UInt8) :
    o.append bytes = .ok ⟨o.buffer ++ bytes, true⟩ := by
  obtain ⟨buffer, usable⟩ := o
  subst h
  rfl

variable {c : Mode} {b : List UInt8} {P : σ → Prop} {Q : Unit → σ → Prop} {X : σ → Prop}

/-- The calls of an armed output end in `Q`, or leave it unusable with `X`. -/
theorem armed_triple {m : Io σ ErrorKind Unit} {done : Output → Output}
    (h : Triple c P m Q fun e s => ¬ c.calm ∧ e ≠ .panicked ∧ X s) :
    Triple c (fun s => s.1 = ⟨b, true⟩ ∧ P s.2) (armed m done)
      (fun _ s => s.1 = { done ⟨b, false⟩ with usable := true } ∧ Q () s.2)
      (fun e s => ¬ c.calm ∧ e ≠ .panicked ∧ s.1 = ⟨b, false⟩ ∧ X s.2) := by
  refine .bind (R := fun _ s => s.1 = ⟨b, false⟩ ∧ P s.2) (.modify ?_) fun _ => ?_
  · exact fun s h => ⟨by rw [h.1], h.2⟩
  refine .bind (R := fun _ s => s.1 = ⟨b, false⟩ ∧ Q () s.2) (.mapErr (.zoom ?_)) fun _ =>
    .modify fun s h => ⟨by rw [h.1], h.2⟩
  intro s ⟨hs, hP⟩
  refine h.conseq ?_ ?_ ?_
  · rintro _ rfl
    exact hP
  · exact fun _ t hQ => ⟨hs, hQ⟩
  · intro e t ⟨hc, hp, hX⟩
    cases e with
    | error e => exact ⟨hc, by simp, hs, hX⟩
    | stopped => exact ⟨hc, by simp, hs, hX⟩
    | panicked => exact absurd rfl hp

theorem checkUsable_bind {α : Type} {f : Unit → Io (Output × σ) OutputError α}
    {s : Output × σ} {Q : α → Output × σ → Prop} {X : Exit OutputError → Output × σ → Prop}
    (hs : s.1.usable = true) (h : Triple c (fun s' => s' = s) (f ()) Q X) :
    Triple c (fun s' => s' = s) (Io.ofExcept s.1.checkUsable >>= f) Q X := by
  rw [checkUsable, hs]
  exact h

/-- **Sending a batch.**  `J` relates the bytes of the batch still to be sent to
the system; it holds after every write, so also where sending ends early. -/
theorem flushBuffer_triple {d : Dest σ} (J : List UInt8 → σ → Prop)
    (hstep : ∀ bs n s, n ≤ bs.length → J bs s → J (bs.drop n) (d.accept (bs.take n) s)) :
    Triple c (fun s => s.1 = ⟨b, true⟩ ∧ J b s.2) (flushBuffer d)
      (fun _ s => s.1 = ⟨[], true⟩ ∧ J [] s.2)
      (fun e s => ¬ c.calm ∧ e ≠ .panicked ∧ s.1 = ⟨b, false⟩ ∧ ∃ bs, J bs s.2) := by
  refine .ofState fun s ⟨hs, hJ⟩ => ?_
  refine .getBind ?_
  refine checkUsable_bind (by rw [hs]) ?_
  by_cases hb : s.1.buffer = []
  · rw [if_pos hb]
    refine .pure ?_
    rintro _ rfl
    rw [hs] at hb ⊢
    simp only at hb
    subst hb
    exact ⟨rfl, hJ⟩
  · rw [if_neg hb, hs]
    refine ((armed_triple (P := J b) (Q := fun _ => J []) (X := fun s => ∃ bs, J bs s)
      (Triple.drain J hstep ?_ ?_ ?_)).pre ?_).post ?_
    · exact fun _ h => h
    · exact fun _ h => h
    · exact fun bs s hc h => ⟨⟨hc, by simp, bs, h⟩, fun e => ⟨hc, by simp, bs, h⟩⟩
    · rintro _ rfl
      exact ⟨hs, hJ⟩
    · exact fun _ s h => h

/-- A batch is sent whole through short and interrupted writes. -/
theorem flushBuffer_sends {d : Dest σ} {answers : List Answer} {plan : Plan}
    (h : Answer.Send answers b.length) (s : σ) :
    ∃ s', flushBuffer d ⟨(⟨b, true⟩, s), plan.after answers⟩ = (.ok (), ⟨(⟨[], true⟩, s'), plan⟩) := by
  by_cases hb : b = []
  · subst hb
    obtain rfl := Answer.send_zero h
    exact ⟨s, rfl⟩
  · obtain ⟨s', hdrain⟩ : ∃ s', d.drain b ⟨s, plan.after answers⟩ = (.ok (), ⟨s', plan⟩) :=
      d.drain_sends h s
    refine ⟨s', ?_⟩
    have hzoom : Io.zoom Prod.snd (fun t s => (s.1, t)) (d.drain b)
        ⟨((⟨b, false⟩ : Output), s), plan.after answers⟩ = (.ok (), ⟨(⟨b, false⟩, s'), plan⟩) := by
      simp only [Io.zoom, hdrain]
    rw [flushBuffer, Io.bind_ok (show Io.get _ = _ from rfl), checkUsable]
    simp only [if_true, hb, if_false, Io.ofExcept_bind]
    rw [armed, Io.bind_ok (show Io.modify _ _ = _ from rfl), Io.bind_ok (Io.mapErr_ok hzoom)]
    rfl

/-- `J` relates the system to what the destination has seen. -/
structure Tracked (d : Dest σ) (J : Channel → σ → Prop) : Prop where
  accept : ∀ bytes ch s, J ch s → J (Channel.dest.accept bytes ch) (d.accept bytes s)
  flush : ∀ ch s, J ch s → J (Channel.dest.flush ch) (d.flush s)
  sync : ∀ ch s, J ch s → J (Channel.dest.sync ch) (d.sync s)

theorem tracked_channel : Tracked Channel.dest Eq :=
  ⟨fun _ _ _ h => by rw [h], fun _ _ h => by rw [h], fun _ _ h => by rw [h]⟩

/-- Sending a batch sends it whole; where that ends early, a prefix was accepted. -/
theorem flushBuffer_tracked {d : Dest σ} {J : Channel → σ → Prop} (hd : Tracked d J)
    {ch : Channel} :
    Triple c (fun s => s.1 = ⟨b, true⟩ ∧ J ch s.2) (flushBuffer d)
      (fun _ s => s.1 = ⟨[], true⟩ ∧ J { ch with accepted := ch.accepted ++ b } s.2)
      (fun e s => ¬ c.calm ∧ e ≠ .panicked ∧ s.1 = ⟨b, false⟩ ∧
        ∃ bs, bs <+: b ∧ J { ch with accepted := ch.accepted ++ bs } s.2) := by
  refine (flushBuffer_triple (b := b) (d := d) (fun rest s => ∃ sent, sent ++ rest = b ∧
    J { ch with accepted := ch.accepted ++ sent } s) ?_).conseq ?_ ?_ ?_
  · rintro bs n s - ⟨sent, hsent, hJ⟩
    refine ⟨sent ++ bs.take n, ?_, ?_⟩
    · rw [List.append_assoc, List.take_append_drop, hsent]
    · rw [← List.append_assoc]
      exact hd.accept _ _ _ hJ
  · exact fun s ⟨hs, hJ⟩ => ⟨hs, [], rfl, by rw [List.append_nil]; exact hJ⟩
  · rintro _ s ⟨hs, sent, hsent, hJ⟩
    rw [List.append_nil] at hsent
    subst hsent
    exact ⟨hs, hJ⟩
  · rintro e s ⟨hc, hp, hs, rest, sent, hsent, hJ⟩
    exact ⟨hc, hp, hs, sent, ⟨rest, hsent⟩, hJ⟩

/-- **Flushing or synchronizing the destination**, a single call. -/
theorem call_triple {m : Io (Output × σ) OutputError Unit} {m' : Io σ ErrorKind Unit}
    (hm : m = do
      let s ← Io.get
      Io.ofExcept s.1.checkUsable
      armed m' id)
    (h : Triple c P m' Q fun e s => ¬ c.calm ∧ e ≠ .panicked ∧ P s) :
    Triple c (fun s => s.1 = ⟨b, true⟩ ∧ P s.2) m (fun _ s => s.1 = ⟨b, true⟩ ∧ Q () s.2)
      (fun e s => ¬ c.calm ∧ e ≠ .panicked ∧ s.1 = ⟨b, false⟩ ∧ P s.2) := by
  subst hm
  refine .ofState fun s ⟨hs, hP⟩ => ?_
  refine .getBind ?_
  refine checkUsable_bind (by rw [hs]) ((armed_triple h).pre ?_)
  rintro _ rfl
  exact ⟨hs, hP⟩

theorem flush_triple {d : Dest σ} (h : ∀ s, P s → Q () (d.flush s)) :
    Triple c (fun s => s.1 = ⟨b, true⟩ ∧ P s.2) (flush d)
      (fun _ s => s.1 = ⟨b, true⟩ ∧ Q () s.2)
      (fun e s => ¬ c.calm ∧ e ≠ .panicked ∧ s.1 = ⟨b, false⟩ ∧ P s.2) :=
  call_triple rfl (.flushCall h (fun _ hc h => ⟨hc, by simp, h⟩)
    fun _ _ hc _ h => ⟨hc, by simp, h⟩)

theorem syncData_triple {d : Dest σ} (h : ∀ s, P s → Q () (d.sync s)) :
    Triple c (fun s => s.1 = ⟨b, true⟩ ∧ P s.2) (syncData d)
      (fun _ s => s.1 = ⟨b, true⟩ ∧ Q () s.2)
      (fun e s => ¬ c.calm ∧ e ≠ .panicked ∧ s.1 = ⟨b, false⟩ ∧ P s.2) :=
  call_triple rfl (.syncCall h (fun _ hc h => ⟨hc, by simp, h⟩)
    fun _ _ hc _ h => ⟨hc, by simp, h⟩)

theorem flush_tracked {d : Dest σ} {J : Channel → σ → Prop} (hd : Tracked d J) {ch : Channel} :
    Triple c (fun s => s.1 = ⟨b, true⟩ ∧ J ch s.2) (flush d)
      (fun _ s => s.1 = ⟨b, true⟩ ∧ J { ch with flushed := ch.accepted.length } s.2)
      (fun e s => ¬ c.calm ∧ e ≠ .panicked ∧ s.1 = ⟨b, false⟩ ∧ J ch s.2) :=
  flush_triple (P := J ch) (Q := fun _ => J { ch with flushed := ch.accepted.length }) (hd.flush ch)

theorem syncData_tracked {d : Dest σ} {J : Channel → σ → Prop} (hd : Tracked d J) {ch : Channel} :
    Triple c (fun s => s.1 = ⟨b, true⟩ ∧ J ch s.2) (syncData d)
      (fun _ s => s.1 = ⟨b, true⟩ ∧ J { ch with synced := ch.flushed } s.2)
      (fun e s => ¬ c.calm ∧ e ≠ .panicked ∧ s.1 = ⟨b, false⟩ ∧ J ch s.2) :=
  syncData_triple (P := J ch) (Q := fun _ => J { ch with synced := ch.flushed }) (hd.sync ch)

end Output

end Lib
