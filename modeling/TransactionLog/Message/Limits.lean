import TransactionLog.Message.MessageIo

/-!
# Whole messages within the limit

A serializer may pass the error of an append on or swallow it and go on with
smaller ones.  What `writeMessage` does depends on two things only: whether some
append would have taken the body exceeded the limit, and how the serializer ended.
The reader draws the line at the same length, before it takes any of the body.
-/

namespace TransactionLog

open Lib

/-! ## Building a frame -/

/-- Bytes that were appended and what the frame answered. -/
structure Append where
  bytes : List UInt8
  answer : Except PostcardError Unit

/-- What the append added to the body. -/
def Append.kept (a : Append) : List UInt8 :=
  match a.answer with
  | .ok () => a.bytes
  | .error _ => []

/-- The appends of a serialization to a frame. -/
def Serialization.appends : Serialization → BoundedFrame → List Append
  | .done _, _ => []
  | .extend bytes next, frame =>
    ⟨bytes, (frame.tryExtend bytes).1⟩ ::
      (next (frame.tryExtend bytes).1).appends (frame.tryExtend bytes).2

namespace BoundedFrame

/-- The body after some appends. -/
def accepted (appends : List Append) : List UInt8 := appends.flatMap Append.kept

/-- The answer to an append when the body is `body`. -/
def answerAfter (body bytes : List UInt8) : Except PostcardError Unit :=
  if (body ++ bytes).length ≤ maxMessageBodyLen then .ok () else .error .serializeBufferFull

/-- Each append is answered by the body before it. -/
def Answered (body : List UInt8) (appends : List Append) : Prop :=
  ∀ before a after, appends = before ++ a :: after →
    a.answer = answerAfter (body ++ accepted before) a.bytes

/-- Some append would have taken the body exceeded the limit. -/
def Overflows (body : List UInt8) (appends : List Append) : Prop :=
  ∃ before a after, appends = before ++ a :: after ∧
    maxMessageBodyLen < (body ++ accepted before ++ a.bytes).length

/-- The frame holds `body`, and its flag says whether `exceeded`. -/
structure Holds (frame : BoundedFrame) (body : List UInt8) (exceeded : Prop) : Prop where
  bytes_eq : frame.bytes = BoundedFrame.new.bytes ++ body
  fits : body.length ≤ maxMessageBodyLen
  tooLarge_iff : frame.tooLarge = true ↔ exceeded

theorem holds_new : Holds .new [] False := ⟨rfl, Nat.zero_le _, by simp [new]⟩

variable {frame : BoundedFrame} {body bytes : List UInt8} {exceeded : Prop} {appends : List Append}

theorem accepted_cons (a : Append) (appends : List Append) :
    accepted (a :: appends) = a.kept ++ accepted appends := rfl

theorem overflows_cons {a : Append} : Overflows body (a :: appends) ↔
    maxMessageBodyLen < (body ++ a.bytes).length ∨ Overflows (body ++ a.kept) appends := by
  constructor
  · rintro ⟨before, a', after, heq, hover⟩
    cases before with
    | nil =>
      obtain ⟨rfl, -⟩ := List.cons.inj heq
      rw [accepted, List.flatMap_nil, List.append_nil] at hover
      exact .inl hover
    | cons b before =>
      obtain ⟨rfl, hrest⟩ := List.cons.inj heq
      rw [accepted_cons, ← List.append_assoc] at hover
      exact .inr ⟨before, a', after, hrest, hover⟩
  · rintro (hover | ⟨before, a', after, rfl, hover⟩)
    · refine ⟨[], a, appends, rfl, ?_⟩
      rw [accepted, List.flatMap_nil, List.append_nil]
      exact hover
    · refine ⟨a :: before, a', after, rfl, ?_⟩
      rw [accepted_cons, ← List.append_assoc]
      exact hover

theorem Answered.cons {a : Append} (h : a.answer = answerAfter body a.bytes)
    (hs : Answered (body ++ a.kept) appends) : Answered body (a :: appends) := by
  intro before a' after heq
  cases before with
  | nil =>
    obtain ⟨rfl, -⟩ := List.cons.inj heq
    rw [accepted, List.flatMap_nil, List.append_nil]
    exact h
  | cons b before =>
    obtain ⟨rfl, hrest⟩ := List.cons.inj heq
    rw [accepted_cons, ← List.append_assoc]
    exact hs before a' after hrest

/-- **One append** is taken whole or raises the flag. -/
theorem Holds.tryExtend (h : Holds frame body exceeded) (bytes : List UInt8) :
    (frame.tryExtend bytes).1 = answerAfter body bytes ∧
      Holds (frame.tryExtend bytes).2 (body ++ Append.kept ⟨bytes, (frame.tryExtend bytes).1⟩)
        (exceeded ∨ maxMessageBodyLen < (body ++ bytes).length) := by
  have hlen : frame.bytes.length - lengthPrefixLen = body.length := by
    have hnew : BoundedFrame.new.bytes.length = lengthPrefixLen := rfl
    rw [h.bytes_eq, List.length_append, hnew, Nat.add_sub_cancel_left]
  have hfits := h.fits
  have happend : (body ++ bytes).length = body.length + bytes.length := List.length_append
  unfold BoundedFrame.tryExtend answerAfter
  rw [hlen]
  by_cases hover : bytes.length > maxMessageBodyLen - body.length
  · rw [if_pos hover, if_neg (by omega)]
    refine ⟨rfl, ?_, ?_, ?_⟩
    · show frame.bytes = _ ++ (body ++ [])
      rw [List.append_nil]
      exact h.bytes_eq
    · show (body ++ []).length ≤ _
      rw [List.append_nil]
      exact hfits
    · exact ⟨fun _ => .inr (by omega), fun _ => rfl⟩
  · rw [if_neg hover, if_pos (by omega)]
    refine ⟨rfl, ?_, ?_, ?_⟩
    · show frame.bytes ++ bytes = _ ++ (body ++ bytes)
      rw [h.bytes_eq, List.append_assoc]
    · show (body ++ bytes).length ≤ _
      omega
    · show frame.tooLarge = true ↔ _
      rw [h.tooLarge_iff]
      exact ⟨.inl, fun h => h.resolve_right (by omega)⟩

/-- **A whole serialization**, by induction on what it does. -/
theorem Holds.fill (serialization : Serialization) : ∀ {frame : BoundedFrame} {body : List UInt8}
    {exceeded : Prop}, Holds frame body exceeded →
    Holds (frame.fill serialization).2 (body ++ accepted (serialization.appends frame))
        (exceeded ∨ Overflows body (serialization.appends frame)) ∧
      Answered body (serialization.appends frame) := by
  induction serialization with
  | done result =>
    intro frame body exceeded h
    have hnone : ¬ Overflows body [] := by
      rintro ⟨before, a, after, heq, -⟩
      simp at heq
    refine ⟨⟨?_, ?_, ?_⟩, fun before a after heq => absurd heq (by simp [Serialization.appends])⟩
    · rw [Serialization.appends, accepted, List.flatMap_nil, List.append_nil]
      exact h.bytes_eq
    · rw [Serialization.appends, accepted, List.flatMap_nil, List.append_nil]
      exact h.fits
    · rw [Serialization.appends, or_iff_left hnone]
      exact h.tooLarge_iff
  | extend bytes next ih =>
    intro frame body exceeded h
    obtain ⟨hanswer, hholds⟩ := h.tryExtend bytes
    obtain ⟨hfill, hanswered⟩ := ih _ hholds
    refine ⟨?_, .cons hanswer hanswered⟩
    rw [Serialization.appends, accepted_cons, ← List.append_assoc, overflows_cons, ← or_assoc]
    exact hfill

/-- Without an overflow everything that was appended is in the body. -/
theorem accepted_of_not_overflows (hanswered : Answered body appends)
    (h : ¬ Overflows body appends) : accepted appends = appends.flatMap Append.bytes := by
  refine List.flatMap_congr fun a ha => ?_
  obtain ⟨before, after, rfl⟩ := List.append_of_mem ha
  have hanswer := hanswered before a after rfl
  have hroom : (body ++ accepted before ++ a.bytes).length ≤ maxMessageBodyLen :=
    Nat.not_lt.mp fun hover => h ⟨before, a, after, rfl, hover⟩
  rw [answerAfter, if_pos hroom] at hanswer
  rw [Append.kept, hanswer]

end BoundedFrame

/-! ## Sending and receiving -/

namespace MessageIo

open BoundedFrame (accepted answerAfter Answered Overflows Holds)

variable {σ μ : Type} [Postcard μ] {c : Mode}

section Writing

variable {message : μ}

/-- The serialization of a message as a frame sees it. -/
def appendsOf (message : μ) : List Append := (Postcard.serialize message).appends .new

/-- How the serializer ends. -/
def resultOf (message : μ) : Except PostcardError Unit :=
  (BoundedFrame.new.fill (Postcard.serialize message)).1

theorem answered_appendsOf (message : μ) : Answered [] (appendsOf message) :=
  (BoundedFrame.holds_new.fill (Postcard.serialize message)).2

theorem holds_appendsOf (message : μ) :
    Holds (BoundedFrame.new.fill (Postcard.serialize message)).2 (accepted (appendsOf message))
      (Overflows [] (appendsOf message)) := by
  have h := (BoundedFrame.holds_new.fill (Postcard.serialize message)).1
  rwa [false_or] at h

theorem writeMessage_overflow (d : Dest σ) (h : Overflows [] (appendsOf message)) :
    writeMessage d message = Io.throw .tooLarge := by
  have htooLarge := (holds_appendsOf message).tooLarge_iff.mpr h
  rw [writeMessage]
  simp only [htooLarge, if_true]

theorem writeMessage_failed (d : Dest σ) (h : ¬ Overflows [] (appendsOf message))
    {e : PostcardError} (hresult : resultOf message = .error e) :
    writeMessage d message = Io.throw (.encode e) := by
  have hroom := mt (holds_appendsOf message).tooLarge_iff.mp h
  rw [resultOf] at hresult
  rw [writeMessage]
  simp only [hroom, hresult]
  rfl

/-- The bytes of all appends. -/
def bodyOf (message : μ) : List UInt8 := (appendsOf message).flatMap Append.bytes

theorem length_bodyOf (h : ¬ Overflows [] (appendsOf message)) :
    (bodyOf message).length ≤ maxMessageBodyLen := by
  rw [bodyOf, ← BoundedFrame.accepted_of_not_overflows (answered_appendsOf message) h]
  exact (holds_appendsOf message).fits

theorem writeMessage_ok (d : Dest σ) (h : ¬ Overflows [] (appendsOf message))
    (hresult : resultOf message = .ok ()) :
    writeMessage d message = Io.mapErr .io
      (d.writeAll (toLe lengthPrefixLen (bodyOf message).length ++ bodyOf message)) := by
  have hroom := mt (holds_appendsOf message).tooLarge_iff.mp h
  have hbytes := (holds_appendsOf message).bytes_eq
  rw [BoundedFrame.accepted_of_not_overflows (answered_appendsOf message) h, ← bodyOf] at hbytes
  have hnew : BoundedFrame.new.bytes.length = lengthPrefixLen := rfl
  rw [resultOf] at hresult
  rw [writeMessage]
  simp only [hroom, hresult, hbytes, List.length_append, hnew, Nat.add_sub_cancel_left]
  rw [List.drop_left' hnew]
  rfl

/-- What a run of `writeMessage` leaves the destination with. -/
theorem run_writeMessage (h : ¬ Overflows [] (appendsOf message))
    (hresult : resultOf message = .ok ()) (ch : Channel) (plan : Plan) :
    let frame := toLe lengthPrefixLen (bodyOf message).length ++ bodyOf message
    let r := (writeMessage Channel.dest message).run ch plan
    ∃ sent, sent <+: frame ∧ r.2.sys = { ch with accepted := ch.accepted ++ sent } ∧
      (r.1 = .ok () → sent = frame) ∧ (plan.Smooth → r.1 = .ok ()) := by
  intro frame r
  have htriple : Triple ⟨plan.Smooth, fun _ => True⟩ (fun s => s = ch)
      (writeMessage Channel.dest message)
      (fun _ s => s = { ch with accepted := ch.accepted ++ frame })
      fun _ s => ¬ plan.Smooth ∧
        ∃ sent, sent <+: frame ∧ s = { ch with accepted := ch.accepted ++ sent } := by
    rw [writeMessage_ok Channel.dest h hresult]
    refine .mapErr (Triple.writeAll_channel.exits ?_)
    rintro (e | _ | _) s h <;> exact h
  obtain ⟨-, hr⟩ := htriple ⟨ch, plan⟩ rfl plan.within_smooth
  have hrun : r = writeMessage Channel.dest message ⟨ch, plan⟩ := rfl
  rw [hrun]
  rcases hm : writeMessage Channel.dest message ⟨ch, plan⟩ with ⟨e | u, w⟩ <;> rw [hm] at hr
  · obtain ⟨hfault, sent, hsent, hsys⟩ := hr
    exact ⟨sent, hsent, hsys, by simp, fun h => absurd h hfault⟩
  · exact ⟨frame, List.prefix_refl _, hr, fun _ => rfl, fun _ => rfl⟩

end Writing

section Reading

variable {src : Source σ} {J : σ → Prop} {header rest : List UInt8}

/-- **The reader decides at the header.**  A length over the limit is refused with
the body still unread, and no other length is. -/
theorem readMessage_header (hsrc : src.Lawful J) (hlen : header.length = lengthPrefixLen) :
    Triple c (fun s => J s ∧ src.available s = header ++ rest) (readMessage src μ)
      (fun _ _ => ofLe header ≤ maxMessageBodyLen)
      fun e s => (ofLe header ≤ maxMessageBodyLen → ∀ n, e ≠ .error (.tooLarge n)) ∧
        (maxMessageBodyLen < ofLe header →
          (∃ k ≤ lengthPrefixLen, src.available s = (header ++ rest).drop k) ∧
          (c.calm → e = .error (.tooLarge (ofLe header)) ∧ src.available s = rest)) := by
  obtain ⟨b, others, rfl⟩ := List.exists_cons_of_ne_nil
    (List.ne_nil_of_length_eq_add_one (n := 3) hlen)
  have hothers : others.length = lengthPrefixLen - 1 := by
    rw [List.length_cons] at hlen
    omega
  rw [readMessage]
  refine .bind (R := fun first s => first = [b] ∧ J s ∧ src.available s = others ++ rest)
    (.mapErr ((readUpTo_one hsrc).conseq (fun _ h => h) (fun _ _ h => h) ?_)) fun first => ?_
  · have hexit : ∀ s (e : Exit MessageReadError), ¬ c.calm ∧ src.available s = b :: others ++ rest →
        (∀ n, e ≠ .error (.tooLarge n)) →
        (ofLe (b :: others) ≤ maxMessageBodyLen → ∀ n, e ≠ .error (.tooLarge n)) ∧
          (maxMessageBodyLen < ofLe (b :: others) →
            (∃ k ≤ lengthPrefixLen, src.available s = (b :: others ++ rest).drop k) ∧
            (c.calm → e = .error (.tooLarge (ofLe (b :: others))) ∧ src.available s = rest)) := by
      intro s e h hne
      exact ⟨fun _ => hne, fun _ => ⟨⟨0, Nat.zero_le _, h.2⟩, fun hc => absurd hc h.1⟩⟩
    rintro (e | _ | _) s h
    · exact hexit s _ h (by simp)
    · exact hexit s _ h (by simp)
    · exact hexit s _ h (by simp)
  refine .assume fun hfirst => ?_
  subst hfirst
  rw [if_neg (List.cons_ne_nil b [])]
  refine .bind ((readExact_io hsrc).exits ?_) fun got => .assume fun htaken => ?_
  · rintro e s ⟨⟨k, hk, hkept⟩, hne, hcalm⟩
    refine ⟨fun _ => hne, fun _ => ⟨⟨k + 1, ?_, hkept⟩, fun hc => ?_⟩⟩
    · rw [lengthPrefixLen] at hk ⊢
      omega
    · -- a source that does not fail has the rest of the header
      have hshort := (hcalm hc).2
      rw [List.length_append, hothers] at hshort
      omega
  have hgot := htaken.2
  rw [List.take_left' hothers] at hgot
  subst hgot
  rw [List.drop_left' hothers]
  show Triple c _ (if ofLe (b :: got) > maxMessageBodyLen then _ else _) _ _
  by_cases hlarge : ofLe (b :: got) > maxMessageBodyLen
  · rw [if_pos hlarge]
    refine .throw fun s h => ⟨fun hle => absurd hle (Nat.not_le.mpr hlarge), fun _ =>
      ⟨⟨lengthPrefixLen, Nat.le_refl _, ?_⟩, fun _ => ⟨rfl, h.2⟩⟩⟩
    rw [h.2, List.drop_left' hlen]
  · have hfits := Nat.not_lt.mp hlarge
    rw [if_neg hlarge]
    refine .bind ((readExact_io hsrc).exits ?_) fun bytes => .assume fun _ => ?_
    · rintro e s ⟨-, hne, -⟩
      exact ⟨fun _ => hne, fun h => absurd h hlarge⟩
    cases Postcard.takeFromBytes (μ := μ) bytes with
    | error e => exact .throw fun _ _ => ⟨fun _ => by simp, fun h => absurd h hlarge⟩
    | ok r =>
      dsimp only
      by_cases hremainder : r.2 = []
      · rw [if_pos hremainder]
        exact .pure fun _ _ => hfits
      · rw [if_neg hremainder]
        exact .throw fun _ _ => ⟨fun _ => by simp, fun h => absurd h hlarge⟩

/-- What a run of `readMessage` makes of a header. -/
theorem run_readMessage (hsrc : src.Lawful J) {s : σ} (hlen : header.length = lengthPrefixLen)
    (hs : J s) (hinput : src.available s = header ++ rest) (plan : Plan) :
    let r := (readMessage src μ).run s plan
    (ofLe header ≤ maxMessageBodyLen → ∀ n, r.1 ≠ .error (.error (.tooLarge n))) ∧
      (maxMessageBodyLen < ofLe header → (∀ message, r.1 ≠ .ok message) ∧
        (∃ k ≤ lengthPrefixLen, src.available r.2.sys = (header ++ rest).drop k) ∧
        (plan.Smooth → r.1 = .error (.error (.tooLarge (ofLe header))) ∧
          src.available r.2.sys = rest)) := by
  intro r
  obtain ⟨-, hr⟩ := readMessage_header (μ := μ) hsrc hlen ⟨s, plan⟩ ⟨hs, hinput⟩
    plan.within_smooth
  have hrun : r = readMessage src μ ⟨s, plan⟩ := rfl
  rw [hrun]
  rcases hm : readMessage src μ ⟨s, plan⟩ with ⟨e | message, w⟩ <;> rw [hm] at hr
  · refine ⟨fun hfits n heq => hr.1 hfits n (Except.error.inj heq), fun hlarge => ?_⟩
    obtain ⟨hkept, hcalm⟩ := hr.2 hlarge
    refine ⟨by simp, hkept, fun hsmooth => ?_⟩
    obtain ⟨rfl, hrest⟩ := hcalm hsmooth
    exact ⟨rfl, hrest⟩
  · exact ⟨fun _ => by simp, fun hlarge => absurd hr (Nat.not_le.mpr hlarge)⟩

end Reading

/-- **A message reaches the destination whole or not at all, and both sides draw the
limit at the same length.**  Whatever the serializer makes of the answers, an append
that would have taken the body exceeded 1,048,576 bytes makes the message too large, any
other failure is its own, and neither sends anything.  Otherwise what is sent is the
frame of all that was appended, or a part of it where the destination fails.  Such a
frame passes the reader's check, and a header beyond the limit is refused with the
body unread. -/
theorem writeMessage_all_or_nothing (message : μ) :
    let appends := appendsOf message
    let body := bodyOf message
    let frame := toLe 4 body.length ++ body
    Answered [] appends ∧
    (Overflows [] appends → ∀ (σ : Type) (d : Dest σ) (s : σ) (plan : Plan),
      (writeMessage d message).run s plan = (.error (.error .tooLarge), ⟨s, plan⟩)) ∧
    (∀ e, ¬ Overflows [] appends → resultOf message = .error e →
      ∀ (σ : Type) (d : Dest σ) (s : σ) (plan : Plan),
        (writeMessage d message).run s plan = (.error (.error (.encode e)), ⟨s, plan⟩)) ∧
    (¬ Overflows [] appends → resultOf message = .ok () →
      body.length ≤ 1048576 ∧ ofLe (toLe 4 body.length) = body.length ∧
      ∀ (ch : Channel) (plan : Plan), ∃ sent,
        let r := (writeMessage Channel.dest message).run ch plan
        sent <+: frame ∧ r.2.sys = { ch with accepted := ch.accepted ++ sent } ∧
          (r.1 = .ok () → sent = frame) ∧ (plan.Smooth → r.1 = .ok ())) ∧
    ∀ (σ ν : Type) [Postcard ν] (src : Source σ) (J : σ → Prop) (header rest : List UInt8) (s : σ)
      (plan : Plan), src.Lawful J → J s → header.length = 4 →
        src.available s = header ++ rest →
        let r := (readMessage src ν).run s plan
        (ofLe header ≤ 1048576 → ∀ n, r.1 ≠ .error (.error (.tooLarge n))) ∧
          (1048576 < ofLe header → (∀ received, r.1 ≠ .ok received) ∧
            (∃ k ≤ 4, src.available r.2.sys = (header ++ rest).drop k) ∧
            (plan.Smooth → r.1 = .error (.error (.tooLarge (ofLe header))) ∧
              src.available r.2.sys = rest)) := by
  intro appends body frame
  refine ⟨answered_appendsOf message, ?_, ?_, ?_, ?_⟩
  · intro hover σ d s plan
    rw [writeMessage_overflow d hover]
    rfl
  · intro e hroom hresult σ d s plan
    rw [writeMessage_failed d hroom hresult]
    rfl
  · intro hroom hresult
    have hlen : body.length ≤ 1048576 := length_bodyOf hroom
    exact ⟨hlen, ofLe_toLe_of_lt (by omega), run_writeMessage hroom hresult⟩
  · intro σ ν _ src J header rest s plan hsrc hs hlen hinput
    exact run_readMessage hsrc hlen hs hinput plan

end MessageIo

end TransactionLog
