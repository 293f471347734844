import TransactionLog.Record.WriterRuns

/-!
# Appending a record is all or nothing

A callback may do anything with the results of its writes: pass them on, swallow
them, write smaller chunks instead, flush, or unwind.  What the buffer holds
afterwards depends on two things only: whether all the chunks it has handed over
fit into one record, and whether it returned `Ok`.
-/

namespace TransactionLog

open Lib Protocol

namespace Callback

variable {ε : Type}

/-- A chunk that was handed to the builder and what the builder answered. -/
structure Call where
  chunk : List UInt8
  answer : Except RecordBuildError Nat

/-- The writes of the callback on a builder. -/
def calls : Callback ε → RecordBuilder → List Call
  | .done _, _ => []
  | .unwind, _ => []
  | .write chunk next, b =>
    ⟨chunk, (b.write chunk).1⟩ :: (next (b.write chunk).1).calls (b.write chunk).2
  | .flush next, b => (next b.flush).calls b

/-- All the bytes that were handed over, accepted or not. -/
def offered (calls : List Call) : List UInt8 := calls.flatMap Call.chunk

/-- The answer to a chunk after the bytes `seen`. -/
def answerAfter (seen chunk : List UInt8) : Except RecordBuildError Nat :=
  if (seen ++ chunk).length ≤ maxPayloadLen then .ok chunk.length else .error .payloadTooLarge

/-- Each chunk is answered as the ones before it make it fit. -/
def Answered (calls : List Call) : Prop :=
  ∀ before call after, calls = before ++ call :: after →
    call.answer = answerAfter (offered before) call.chunk

/-- The builder after the bytes `seen`: it has them all, or has turned some down. -/
def Tracks (b : RecordBuilder) (seen : List UInt8) : Prop :=
  b.error = none ∧ b.payload = seen ∧ seen.length ≤ maxPayloadLen ∨
    b.error = some .payloadTooLarge ∧ maxPayloadLen < seen.length

variable {b : RecordBuilder} {seen : List UInt8}

theorem tracks_new (buffer : List UInt8) : Tracks (.new buffer) [] :=
  .inl ⟨rfl, rfl, Nat.zero_le _⟩

/-- **One write** is answered by what was seen before it; a rejection sticks. -/
theorem Tracks.write (h : Tracks b seen) (chunk : List UInt8) :
    (b.write chunk).1 = answerAfter seen chunk ∧ Tracks (b.write chunk).2 (seen ++ chunk) := by
  unfold answerAfter
  rcases h with ⟨herror, hpayload, hfits⟩ | ⟨herror, hover⟩
  · rw [RecordBuilder.write, RecordBuilder.checkError, herror]
    by_cases hchunk : chunk.length > maxPayloadLen - b.payload.length
    · have hlen : maxPayloadLen < (seen ++ chunk).length := by
        rw [List.length_append]
        rw [hpayload] at hchunk
        omega
      simp only [hchunk, if_true, if_neg (Nat.not_le.mpr hlen)]
      exact ⟨trivial, .inr ⟨rfl, hlen⟩⟩
    · have hlen : (seen ++ chunk).length ≤ maxPayloadLen := by
        rw [List.length_append]
        rw [hpayload] at hchunk
        omega
      simp only [hchunk, if_false, if_pos hlen]
      exact ⟨trivial, .inl ⟨rfl, by rw [← hpayload], hlen⟩⟩
  · have hlen : maxPayloadLen < (seen ++ chunk).length := by
      rw [List.length_append]
      omega
    rw [RecordBuilder.write, RecordBuilder.checkError, herror]
    simp only [if_neg (Nat.not_le.mpr hlen)]
    exact ⟨trivial, .inr ⟨herror, hlen⟩⟩

/-- **All the writes of a callback**, by induction on what it does. -/
theorem Tracks.run (cb : Callback ε) : ∀ {b : RecordBuilder} {seen : List UInt8}, Tracks b seen →
    Tracks (cb.run b).2 (seen ++ offered (cb.calls b)) ∧
      ∀ before call after, cb.calls b = before ++ call :: after →
        call.answer = answerAfter (seen ++ offered before) call.chunk := by
  induction cb with
  | done result =>
    intro b seen h
    refine ⟨?_, fun before call after heq => ?_⟩
    · rw [calls, offered, List.flatMap_nil, List.append_nil]
      exact h
    · exact absurd heq.symm (by simp [calls])
  | unwind =>
    intro b seen h
    refine ⟨?_, fun before call after heq => ?_⟩
    · rw [calls, offered, List.flatMap_nil, List.append_nil]
      exact h
    · exact absurd heq.symm (by simp [calls])
  | write chunk next ih =>
    intro b seen h
    obtain ⟨hanswer, htracks⟩ := h.write chunk
    obtain ⟨hrun, hanswers⟩ := ih _ htracks
    refine ⟨?_, fun before call after heq => ?_⟩
    · rw [calls, offered, List.flatMap_cons, ← List.append_assoc]
      exact hrun
    · rw [calls] at heq
      cases before with
      | nil =>
        obtain ⟨rfl, -⟩ := List.cons.inj heq
        rw [offered, List.flatMap_nil, List.append_nil]
        exact hanswer
      | cons c before =>
        obtain ⟨rfl, hrest⟩ := List.cons.inj heq
        rw [offered, List.flatMap_cons, ← List.append_assoc]
        exact hanswers before call after hrest
  | flush next ih => exact fun h => ih _ h

/-- Every chunk was accepted exactly if they fit together. -/
theorem accepted_iff {calls : List Call} (h : Answered calls) :
    (∀ c ∈ calls, c.answer = .ok c.chunk.length) ↔ (offered calls).length ≤ maxPayloadLen := by
  constructor
  · intro hall
    -- the last chunk decides
    induction calls using List.reverseRecOn with
    | nil => exact Nat.zero_le _
    | append_singleton calls c _ =>
      have hlast := h calls c [] rfl
      rw [hall c (by simp), answerAfter] at hlast
      have hoffered : offered (calls ++ [c]) = offered calls ++ c.chunk := by
        rw [offered, List.flatMap_append, List.flatMap_singleton, offered]
      rw [hoffered]
      by_contra hlen
      rw [if_neg hlen] at hlast
      cases hlast
  · intro hlen c hc
    obtain ⟨before, after, rfl⟩ := List.append_of_mem hc
    rw [h before c after rfl, answerAfter, if_pos]
    refine Nat.le_trans ?_ hlen
    simp only [offered, List.flatMap_append, List.flatMap_cons, List.length_append]
    omega

/-- What a callback leaves when it is done with a fresh builder. -/
theorem run_new_cases (cb : Callback ε) (buffer : List UInt8) :
    let calls := cb.calls (.new buffer)
    Answered calls ∧
      ((∀ c ∈ calls, c.answer = .ok c.chunk.length) ∧
          (cb.run (.new buffer)).2.error = none ∧
          (cb.run (.new buffer)).2.payload = offered calls ∨
        (∃ c ∈ calls, c.answer = .error .payloadTooLarge) ∧
          (cb.run (.new buffer)).2.error = some .payloadTooLarge) := by
  intro calls
  obtain ⟨htracks, hanswers⟩ := (tracks_new buffer).run cb
  rw [List.nil_append] at htracks
  have hanswered : Answered calls := fun before call after heq => hanswers before call after heq
  refine ⟨hanswered, ?_⟩
  rcases htracks with ⟨herror, hpayload, hfits⟩ | ⟨herror, hover⟩
  · exact .inl ⟨(accepted_iff hanswered).mpr hfits, herror, hpayload⟩
  · refine .inr ⟨?_, herror⟩
    by_contra hnone
    refine absurd ((accepted_iff hanswered).mp fun c hc => ?_) (Nat.not_le.mpr hover)
    -- a chunk that was not turned down was accepted whole
    obtain ⟨before, after, heq⟩ := List.append_of_mem hc
    have hanswer := hanswered before c after heq
    unfold answerAfter at hanswer
    split at hanswer
    · exact hanswer
    · exact absurd ⟨c, hc, hanswer⟩ hnone

end Callback

namespace RecordWriter

open Callback (offered Answered)

variable [Crc32c] {ε : Type}

/-- The end of a write whose callback came to `result` on the builder. -/
def concluded (buffer : List UInt8) (id : RecordId) (builder : RecordBuilder) :
    Option (Except ε Unit) → Option (Except (RecordWriteError ε) Unit) × RecordWriter
  | none => (none, ⟨buffer, true⟩)
  | some result => match builder.error, result with
    | some error, _ => (some (.error (.build error)), ⟨buffer, true⟩)
    | none, .error error => (some (.error (.serialize error)), ⟨buffer, true⟩)
    | none, .ok () => (some (.ok ()), ⟨buffer ++ encodeFrame id builder.payload, true⟩)

theorem write_eq {buffer : List UInt8} {id : RecordId} {cb : Callback ε}
    {r : Option (Except ε Unit)} {builder : RecordBuilder}
    (hrun : cb.run (.new buffer) = (r, builder)) :
    write ⟨buffer, true⟩ id cb = concluded buffer id builder r := by
  have hframe := cb.run_frame (.new buffer)
  have hdrop := cb.drop_run buffer
  rw [hrun] at hframe hdrop
  obtain ⟨hbuffer, -, -⟩ := hframe
  simp only at hdrop hbuffer
  rw [write, Output.checkUsable]
  simp only [if_true, hrun]
  unfold concluded
  rcases r with _ | error | _
  · simp only [hdrop]
  · cases herror : builder.error with
    | none => simp only [RecordBuilder.checkError, herror, hdrop]
    | some e => simp only [RecordBuilder.checkError, herror, hdrop]
  · cases herror : builder.error with
    | none =>
      simp only [RecordBuilder.finish, RecordBuilder.checkError, herror, RecordBuilder.drop, if_true]
      rw [hbuffer, encodeFrame]
      rfl
    | some e => simp only [RecordBuilder.finish, RecordBuilder.checkError, herror, hdrop]

/-- What the caller of `write` gets where the callback returns or unwinds. -/
def errorOf (rejected : Bool) : Option (Except ε Unit) → Option (Except (RecordWriteError ε) Unit)
  | none => none
  | some result =>
    if rejected then some (.error (.build .payloadTooLarge)) else some (result.mapError .serialize)

/-- **Appending is all or nothing.**  A record whose chunks all fit and whose callback
returns `Ok` is appended as one frame.  Otherwise the writer is what it was before, and
the error is that of the first chunk turned down, if there is one, and the callback's
own if there is none. -/
theorem write_all_or_nothing (buffer : List UInt8) (id : RecordId) (cb : Callback ε) :
    let calls := cb.calls (.new buffer)
    let result := (cb.run (.new buffer)).1
    let w : RecordWriter := ⟨buffer, true⟩
    Answered calls ∧
      ((∀ c ∈ calls, c.answer = .ok c.chunk.length) ↔ (offered calls).length ≤ 65519) ∧
      ((offered calls).length ≤ 65519 ∧ result = some (.ok ()) →
        w.write id cb = (some (.ok ()), ⟨buffer ++ encodeFrame id (offered calls), true⟩)) ∧
      (¬ ((offered calls).length ≤ 65519 ∧ result = some (.ok ())) →
        w.write id cb = (errorOf (65519 < (offered calls).length) result, w)) := by
  intro calls result w
  obtain ⟨hanswered, hcases⟩ := cb.run_new_cases buffer
  have haccepted := Callback.accepted_iff hanswered
  rw [maxPayloadLen_eq] at haccepted
  rcases hrun : cb.run (.new buffer) with ⟨r, builder⟩
  have hresult : result = r := congrArg Prod.fst hrun
  have hwrite : w.write id cb = concluded buffer id builder r := write_eq hrun
  rw [hrun] at hcases
  dsimp only at hcases
  rw [hresult, hwrite]
  unfold concluded
  refine ⟨hanswered, haccepted, ?_, ?_⟩
  · rintro ⟨hfits, rfl⟩
    rcases hcases with ⟨-, herror, hpayload⟩ | ⟨⟨c, hc, hrejected⟩, -⟩
    · simp only [herror, hpayload]
      rfl
    · rw [haccepted.mpr hfits c hc] at hrejected
      cases hrejected
  · intro hnot
    rcases hcases with ⟨hall, herror, -⟩ | ⟨⟨c, hc, hrejected⟩, herror⟩
    · have hfits := haccepted.mp hall
      rcases r with _ | error | _
      · rfl
      · have hkept : ¬ 65519 < (offered calls).length := Nat.not_lt.mpr hfits
        simp only [herror, errorOf, decide_eq_true_eq, if_neg hkept]
        rfl
      · exact absurd ⟨hfits, rfl⟩ hnot
    · have hover : 65519 < (offered calls).length := by
        by_contra hfits
        rw [haccepted.mpr (Nat.not_lt.mp hfits) c hc] at hrejected
        cases hrejected
      cases r with
      | none => rfl
      | some result => simp only [herror, errorOf, decide_eq_true_eq, if_pos hover, w]

end RecordWriter

end TransactionLog
