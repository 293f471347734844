import TransactionLog.Lib.Channel

/-!
# Whole transfers

`Dest.writeAll` sends a buffer through short writes, `Source.readExact` fills a buffer of
known length through short reads, and `Source.readToEnd` reads all there is, up to a
limit.  Each gives every fault back, an interruption too; and a source that ends before a
buffer is full is reported as `unexpectedEof`.

`Triple.writeAll`, `Triple.readExact` and `Triple.readToEnd` are their rules.
-/

namespace Lib

variable {σ : Type}

/-- One turn of sending a whole buffer. -/
def Dest.writeAllTurn (d : Dest σ) : List UInt8 → Io σ ErrorKind (List UInt8 ⊕ Unit)
  | [] => pure (.inr ())
  | bytes => do
    match ← d.write bytes with
    | 0 => Io.throw .writeZero
    | written => pure (.inl (bytes.drop written))

def Dest.writeAll (d : Dest σ) (bytes : List UInt8) : Io σ ErrorKind Unit :=
  Io.loop (fun _ => bytes.length) d.writeAllTurn bytes

namespace Source

variable (src : Source σ)

/-- One read into a buffer of `len` bytes. -/
def readUpTo (len : Nat) : Io σ ErrorKind (List UInt8) := do
  let a ← Io.ask
  let s ← Io.get
  let n := min len (a.received len (src.available s).length)
  Io.modify (src.advance n)
  pure ((src.available s).take n)

/-- One turn of filling a buffer of `len` bytes, of which `got` are there. -/
def readExactTurn (len : Nat) (got : List UInt8) :
    Io σ ErrorKind (List UInt8 ⊕ List UInt8) :=
  if got.length = len then pure (.inr got)
  else do
    match ← src.readUpTo (len - got.length) with
    | [] => Io.throw .unexpectedEof
    | bytes => pure (.inl (got ++ bytes))

def readExact (len : Nat) : Io σ ErrorKind (List UInt8) :=
  Io.loop (fun _ => len) (src.readExactTurn len) []

/-- One turn of reading to the end, with the bytes already read. -/
def readToEndTurn (limit : Nat) (got : List UInt8) :
    Io σ ErrorKind (List UInt8 ⊕ List UInt8) :=
  if limit ≤ got.length then pure (.inr got)
  else do
    match ← src.readUpTo (limit - got.length) with
    | [] => pure (.inr got)
    | bytes => pure (.inl (got ++ bytes))

/-- Reads to the end of input, but not more than `limit` bytes. -/
def readToEnd (limit : Nat) : Io σ ErrorKind (List UInt8) :=
  Io.loop (fun _ => limit) (src.readToEndTurn limit) []

end Source

namespace Triple

variable {c : Mode} {P : σ → Prop} {X : Exit ErrorKind → σ → Prop}

/-- The rule for sending a whole buffer.  `J` relates the bytes still to be sent to
the system. -/
theorem writeAll {d : Dest σ} {bytes : List UInt8} {Q : Unit → σ → Prop}
    (J : List UInt8 → σ → Prop)
    (hstep : ∀ bs n s, n ≤ bs.length → J bs s → J (bs.drop n) (d.accept (bs.take n) s))
    (hinit : ∀ s, P s → J bytes s)
    (hok : ∀ s, J [] s → Q () s)
    (hexit : ∀ bs s, ¬ c.calm → J bs s → X .stopped s ∧ ∀ e, X (.error e) s) :
    Triple c P (d.writeAll bytes) Q X := by
  refine loop J (fun bs _ => bs.length) ?_
    (fun bs s hc hJ => (hexit bs s hc hJ).1)
    (fun s h => ⟨hinit s h, fun _ => Nat.le_refl _⟩)
  intro bs n
  cases bs with
  | nil => exact pure fun s h => hok s h.1
  | cons b bs =>
    refine bind (R := fun k s => J ((b :: bs).drop k) s ∧ (c.calm → 0 < k ∧ (b :: bs).length = n))
      (write ?_ ?_ ?_) fun k => ?_
    · exact fun k s hk hc h => ⟨hstep _ k s hk h.1, fun h' => ⟨hc h' (by simp), h.2 h'⟩⟩
    · exact fun s hc h => (hexit _ s hc h.1).1
    · exact fun f s hc _ h => (hexit _ s hc h.1).2 _
    · match k with
      | 0 =>
        refine throw fun s h => (hexit _ s ?_ h.1).2 _
        exact fun hc => absurd (h.2 hc).1 (Nat.lt_irrefl 0)
      | k + 1 =>
        refine pure fun s h => ⟨h.1, fun hc => ?_⟩
        have := (h.2 hc).2
        rw [List.length_drop]
        rw [List.length_cons] at this ⊢
        omega

/-- Sending to a channel, which sees a part of the buffer where the sending fails. -/
theorem writeAll_channel {bytes : List UInt8} {ch : Channel} :
    Triple c (fun s => s = ch) (Channel.dest.writeAll bytes)
      (fun _ s => s = { ch with accepted := ch.accepted ++ bytes })
      fun _ s => ¬ c.calm ∧
        ∃ sent, sent <+: bytes ∧ s = { ch with accepted := ch.accepted ++ sent } := by
  refine writeAll (fun rest s => ∃ sent, sent ++ rest = bytes ∧
    s = { ch with accepted := ch.accepted ++ sent }) ?_ ?_ ?_ ?_
  · rintro bs n _ - ⟨sent, hsent, rfl⟩
    refine ⟨sent ++ bs.take n, by rw [List.append_assoc, List.take_append_drop, hsent], ?_⟩
    show Channel.mk _ _ _ = _
    rw [List.append_assoc]
  · rintro _ rfl
    exact ⟨[], rfl, by rw [List.append_nil]⟩
  · rintro _ ⟨sent, hsent, rfl⟩
    rw [List.append_nil] at hsent
    rw [hsent]
  · rintro rest _ hc ⟨sent, hsent, rfl⟩
    have hexit : ∃ sent', sent' <+: bytes ∧ ({ ch with accepted := ch.accepted ++ sent } : Channel) =
        { ch with accepted := ch.accepted ++ sent' } := ⟨sent, ⟨rest, hsent⟩, rfl⟩
    exact ⟨⟨hc, hexit⟩, fun _ => ⟨hc, hexit⟩⟩

/-- A read fills some of the buffer, and none of it only at the end of input. -/
theorem readUpTo {src : Source σ} {len : Nat} {Q : List UInt8 → σ → Prop} (hlen : 0 < len)
    (hok : ∀ n s, n ≤ len → n ≤ (src.available s).length → (n = 0 ↔ src.available s = []) → P s →
      Q ((src.available s).take n) (src.advance n s))
    (hstop : ∀ s, ¬ c.calm → P s → X .stopped s)
    (hfault : ∀ f s, ¬ c.calm → c.faults f → P s → X (.error (Fault.kind f)) s) :
    Triple c P (src.readUpTo len) Q X := by
  refine bind (R := fun _ => P) (ask (fun _ h => h) (fun _ _ _ _ h => h) hstop hfault) fun a => ?_
  refine bind (R := fun s s' => s' = s ∧ P s) (get fun s h => ⟨rfl, h⟩) fun s => ?_
  refine bind (R := fun _ => Q ((src.available s).take
      (min len (a.received len (src.available s).length)))) (modify ?_) fun _ => pure fun _ h => h
  rintro s' ⟨hs, hP⟩
  subst s'
  have hle := a.received_le len (src.available s).length
  have hzero : a.received len (src.available s).length = 0 ↔ (src.available s).length = 0 :=
    Answer.received_eq_zero hlen
  refine hok _ _ (Nat.min_le_left _ _) (Nat.le_trans (Nat.min_le_right _ _) hle) ?_ hP
  rw [← List.length_eq_zero_iff, ← hzero]
  omega

/-- Of the input, `got` has been read into a buffer of `len` bytes. -/
def Reading (src : Source σ) (J : σ → Prop) (len : Nat) (input got : List UInt8) (s : σ) : Prop :=
  J s ∧ got.length ≤ len ∧ got ++ src.available s = input

/-- What is left of the input. -/
theorem Reading.available {src : Source σ} {J : σ → Prop} {len : Nat} {input got : List UInt8}
    {s : σ} (h : Reading src J len input got s) : ∃ k ≤ len, src.available s = input.drop k := by
  obtain ⟨-, hle, rfl⟩ := h
  exact ⟨got.length, hle, List.drop_left.symm⟩

/-- A read into the rest of a buffer. -/
theorem readUpTo_rest {src : Source σ} {J : σ → Prop} (hsrc : src.Lawful J) {len : Nat}
    (input : List UInt8) {got : List UInt8} (hgot : got.length < len) :
    Triple c (Reading src J len input got) (src.readUpTo (len - got.length))
      (fun bytes s => Reading src J len input (got ++ bytes) s ∧
        (bytes = [] → src.available s = []))
      (Faulted c (Reading src J len input got)) := by
  refine readUpTo (Nat.sub_pos_of_lt hgot) ?_ (fun s hc h => ⟨hc, by simp, h⟩)
    fun _ s hc _ h => ⟨hc, by simp, h⟩
  rintro m s hm hm' hzero ⟨hJ, hle, hinput⟩
  have hlen : ((src.available s).take m).length = m := List.length_take_of_le hm'
  refine ⟨⟨hsrc.advance _ _ hJ, ?_, ?_⟩, fun hnil => ?_⟩
  · rw [List.length_append, hlen]
    omega
  · rw [hsrc.available_advance _ _ hJ, List.append_assoc, List.take_append_drop, hinput]
  · rw [hnil] at hlen
    rw [hsrc.available_advance _ _ hJ, hzero.mp hlen.symm, List.drop_nil]

/-- The rule for filling a buffer.  It takes the bytes from the front of the input, and
fails where the input has too few of them.  A failure takes no more bytes than the
buffer has room for. -/
theorem readExact {src : Source σ} {J : σ → Prop} (hsrc : src.Lawful J) {len : Nat}
    {input : List UInt8} :
    Triple c (fun s => J s ∧ src.available s = input) (src.readExact len)
      (fun got s => len ≤ input.length ∧ got = input.take len ∧ J s ∧
        src.available s = input.drop len)
      (fun e s => e ≠ .panicked ∧ J s ∧ (∃ k ≤ len, src.available s = input.drop k) ∧
        (c.calm → e = .error .unexpectedEof ∧ input.length < len)) := by
  refine loop (Reading src J len input) (fun got _ => len - got.length) ?_
    (fun got s hc h => ⟨by simp, h.1, h.available, fun h => absurd h hc⟩)
    (fun s h => ⟨⟨h.1, Nat.zero_le _, h.2⟩, fun _ => Nat.le_refl _⟩)
  intro got n
  rw [Source.readExactTurn]
  by_cases hgot : got.length = len
  · rw [if_pos hgot]
    refine pure fun s ⟨⟨hJ, _, hinput⟩, _⟩ => ?_
    subst hgot
    rw [← hinput, List.length_append, List.take_left, List.drop_left]
    exact ⟨Nat.le_add_right _ _, rfl, hJ, rfl⟩
  · rw [if_neg hgot]
    refine ofState fun s₀ ⟨hreading, hn⟩ => ?_
    have hlt : got.length < len := Nat.lt_of_le_of_ne hreading.2.1 hgot
    refine bind ((readUpTo_rest hsrc input hlt).conseq ?_ (fun _ _ h => h) ?_) fun bytes => ?_
    · rintro _ rfl
      exact hreading
    · exact fun e s h => ⟨h.2.1, h.2.2.1, h.2.2.available, fun hc => absurd hc h.1⟩
    · cases bytes with
      | nil =>
        refine throw fun s ⟨h, hnil⟩ => ⟨by simp, h.1, h.available, fun _ => ⟨rfl, ?_⟩⟩
        rw [← h.2.2, hnil rfl, List.append_nil, List.append_nil]
        exact hlt
      | cons b bytes =>
        refine pure fun s ⟨h, _⟩ => ⟨h, fun hc => ?_⟩
        have := hn hc
        have := h.2.1
        rw [List.length_append, List.length_cons] at *
        omega

/-- The rule for reading to the end, up to a limit. -/
theorem readToEnd {src : Source σ} {J : σ → Prop} (hsrc : src.Lawful J) {limit : Nat}
    {input : List UInt8} :
    Triple c (fun s => J s ∧ src.available s = input) (src.readToEnd limit)
      (fun got s => got = input.take limit ∧ J s) (Faulted c J) := by
  refine loop (Reading src J limit input) (fun got _ => limit - got.length) ?_
    (fun got s hc h => ⟨hc, by simp, h.1⟩)
    (fun s h => ⟨⟨h.1, Nat.zero_le _, h.2⟩, fun _ => Nat.le_refl _⟩)
  intro got n
  rw [Source.readToEndTurn]
  by_cases hdone : limit ≤ got.length
  · rw [if_pos hdone]
    refine pure fun s ⟨⟨hJ, hle, hinput⟩, _⟩ => ⟨?_, hJ⟩
    rw [← hinput, ← Nat.le_antisymm hle hdone, List.take_left]
  · rw [if_neg hdone]
    refine ofState fun s₀ ⟨hreading, hn⟩ => ?_
    refine bind ((readUpTo_rest hsrc input (Nat.lt_of_not_le hdone)).conseq ?_ (fun _ _ h => h)
      fun e s h => h.mono fun _ h => h.1) fun bytes => ?_
    · rintro _ rfl
      exact hreading
    · cases bytes with
      | nil =>
        refine pure fun s ⟨h, hnil⟩ => ⟨?_, h.1⟩
        have hinput := h.2.2
        rw [hnil rfl, List.append_nil, List.append_nil] at hinput
        rw [← hinput, List.take_of_length_le (Nat.le_of_not_le hdone)]
      | cons b bytes =>
        refine pure fun s ⟨h, _⟩ => ⟨h, fun hc => ?_⟩
        have := hn hc
        have := h.2.1
        rw [List.length_append, List.length_cons] at *
        omega

end Triple

end Lib
