import TransactionLog.Lib.Crc
import TransactionLog.Record.ReaderRuns

/-!
# A damaged record is found

The checksum of a frame is the complement of a register of `Lib.Crc` over all that
precedes it.  So running on over the checksum leaves the same register, `residue`,
for every frame, and a frame altered within four consecutive bytes cannot leave it
again: `crc_ne_of_altered`, wherever these bytes lie.  As long as they leave the
length field alone, the reader takes the altered frame for one of the same extent,
and so reports that it is damaged.
-/

namespace TransactionLog

open Lib Protocol

/-- The polynomial of the CRC-32C, in reflected form. -/
def castagnoli : BitVec 32 := 0x82f63b78

/-- What the register holds after a frame and its checksum. -/
def residue : BitVec 32 := (Crc.shift castagnoli)^[32] (BitVec.allOnes 32)

/-! ### The checksum as a register -/

theorem toBitVec_shift (crc : UInt32) :
    (if crc &&& 1 = 0 then crc >>> 1 else crc >>> 1 ^^^ 0x82f63b78).toBitVec =
      Crc.shift castagnoli crc.toBitVec := by
  have hlow : crc &&& 1 = 0 ↔ ¬ crc.toBitVec.getLsbD 0 = true := by
    rw [← UInt32.toBitVec_inj, UInt32.toBitVec_and]
    show crc.toBitVec &&& 1#32 = 0#32 ↔ _
    rw [BitVec.and_one_eq_setWidth_ofBool_getLsbD]
    cases crc.toBitVec.getLsbD 0 <;> decide
  unfold Crc.shift
  by_cases h : crc &&& 1 = 0
  · rw [if_pos h, if_neg (hlow.mp h)]
    rfl
  · rw [if_neg h, if_pos (not_not.mp (hlow.not.mp h))]
    rfl

theorem toBitVec_foldl {byte : UInt32 → UInt8 → UInt32}
    (h : ∀ crc b, (byte crc b).toBitVec = Crc.feed castagnoli crc.toBitVec b)
    (bytes : List UInt8) (crc : UInt32) :
    (bytes.foldl byte crc).toBitVec = Crc.run castagnoli crc.toBitVec bytes := by
  induction bytes generalizing crc with
  | nil => rfl
  | cons b bytes ih => rw [List.foldl_cons, ih, h, Crc.run_cons]

theorem toBitVec_referenceCrc (bytes : List UInt8) :
    (referenceCrc bytes).toBitVec = ~~~ Crc.run castagnoli (BitVec.allOnes 32) bytes := by
  unfold referenceCrc
  rw [UInt32.toBitVec_not, toBitVec_foldl]
  · rfl
  intro crc b
  have hbyte := Function.Semiconj.iterate_right (f := UInt32.toBitVec) toBitVec_shift 8
  rw [List.foldl_const, List.length_range]
  exact hbyte _

section Frames

variable [Crc32c] (hcrc : ∀ bytes, crc32c bytes = referenceCrc bytes)
include hcrc

/-- A frame whose checksum is right leaves the residue. -/
theorem run_of_crc_eq {frame : List UInt8} (hlen : 4 ≤ frame.length)
    (h : Read.crc frame = Read.computeCrc frame) :
    Crc.run castagnoli (BitVec.allOnes 32) frame = residue := by
  have htrailer : (frame.drop (frame.length - 4)).length = 4 := by
    rw [List.length_drop]
    omega
  have hstored : BitVec.ofNat 32 (ofLe (frame.drop (frame.length - 4))) =
      ~~~ Crc.run castagnoli (BitVec.allOnes 32) (frame.take (frame.length - 4)) := by
    rw [← toBitVec_referenceCrc, ← hcrc]
    exact congrArg UInt32.toBitVec h
  have hrun := Crc.run_trailer (BitVec.allOnes 32) (frame.take (frame.length - 4))
    (by rw [htrailer]) hstored
  rwa [List.take_append_drop, htrailer] at hrun

end Frames

/-! ### Alterations -/

/-- `altered` is `frame` with some of four consecutive bytes changed, which lie
behind the length field. -/
structure Altered (frame altered : List UInt8) : Prop where
  length_eq : altered.length = frame.length
  ne : altered ≠ frame
  window : ∃ offset, 2 ≤ offset ∧
    ∀ i, i < offset ∨ offset + 4 ≤ i → altered[i]? = frame[i]?

variable {frame altered : List UInt8}

theorem eq_of_window {xs ys : List UInt8} {n m : Nat}
    (h : ∀ i, n ≤ i → i < n + m → xs[i]? = ys[i]?) : (xs.drop n).take m = (ys.drop n).take m := by
  apply List.ext_getElem?
  intro i
  rw [List.getElem?_take, List.getElem?_take, List.getElem?_drop, List.getElem?_drop]
  by_cases hi : i < m
  · rw [if_pos hi, if_pos hi, h (n + i) (by omega) (by omega)]
  · rw [if_neg hi, if_neg hi]

/-- What stands in front of the window, in it and behind it. -/
theorem Altered.split (h : Altered frame altered) : ∃ front u v rest,
    frame = front ++ u ++ rest ∧ altered = front ++ v ++ rest ∧ u.length = v.length ∧
      u.length ≤ 4 ∧ u ≠ v ∧ 2 ≤ front.length := by
  obtain ⟨hlen, hne, offset, hoff, hwindow⟩ := h
  have hcut : ∀ xs : List UInt8,
      xs = xs.take offset ++ (xs.drop offset).take 4 ++ xs.drop (offset + 4) := by
    intro xs
    rw [List.append_assoc, ← List.drop_drop, List.take_append_drop, List.take_append_drop]
  have hfront : altered.take offset = frame.take offset := by
    have := eq_of_window (n := 0) (m := offset) fun i _ hi => hwindow i (.inl (by omega))
    simpa only [List.drop_zero] using this
  have hrest : altered.drop (offset + 4) = frame.drop (offset + 4) := by
    apply List.ext_getElem?
    intro i
    rw [List.getElem?_drop, List.getElem?_drop, hwindow _ (.inr (by omega))]
  refine ⟨frame.take offset, (frame.drop offset).take 4, (altered.drop offset).take 4,
    frame.drop (offset + 4), hcut frame, ?_, ?_, List.length_take_le _ _, ?_, ?_⟩
  · rw [← hfront, ← hrest]
    exact hcut altered
  · rw [List.length_take, List.length_take, List.length_drop, List.length_drop, hlen]
  · intro hsame
    apply hne
    rw [hcut altered, hcut frame, hfront, hrest, hsame]
  · rw [List.length_take]
    by_contra hshort
    apply hne
    have hall : frame.length ≤ offset := by omega
    rwa [List.take_of_length_le hall, List.take_of_length_le (hlen ▸ hall)] at hfront

theorem Altered.of_split {front u v rest : List UInt8} (hlen : u.length = v.length)
    (hfour : u.length ≤ 4) (hne : u ≠ v) (hfront : 2 ≤ front.length) :
    Altered (front ++ u ++ rest) (front ++ v ++ rest) where
  length_eq := by simp [hlen]
  ne := by
    intro h
    rw [List.append_assoc, List.append_assoc] at h
    exact hne (List.append_inj (List.append_cancel_left h) hlen.symm).1.symm
  window := by
    refine ⟨front.length, hfront, ?_⟩
    intro i hi
    rcases hi with hi | hi
    · rw [List.append_assoc, List.append_assoc, List.getElem?_append_left hi,
        List.getElem?_append_left hi]
    · rw [List.getElem?_append_right (by simp; omega), List.getElem?_append_right (by simp; omega),
        List.length_append, List.length_append, hlen]

theorem Altered.length_field (h : Altered frame altered) :
    Read.length altered = Read.length frame := by
  obtain ⟨offset, hoff, hwindow⟩ := h.window
  have hfield := eq_of_window (n := 0) (m := 2) fun i _ hi => hwindow i (.inl (by omega))
  exact congrArg ofLe hfield

/-! ### Detection -/

section Detection

variable [Crc32c]

/-- **No burst of four bytes** turns a frame into another one with a right checksum. -/
theorem crc_ne_of_altered (hcrc : ∀ bytes, crc32c bytes = referenceCrc bytes)
    (hframe : ValidFrame frame) (h : Altered frame altered) :
    Read.crc altered ≠ Read.computeCrc altered := by
  intro hvalid
  have hmin := hframe.min_le
  rw [minRecordLen_eq] at hmin
  have hregister := run_of_crc_eq hcrc (by rw [h.length_eq]; omega) hvalid
  have hregister' := run_of_crc_eq hcrc (by omega) hframe.crc_eq
  obtain ⟨front, u, v, rest, rfl, rfl, hlen, hfour, hne, -⟩ := h.split
  apply hne
  exact Crc.run_burst (by decide) _ front rest hlen (by omega)
    (hregister'.trans hregister.symm)

/-- What the reader has to say about the altered frame. -/
def damage (altered : List UInt8) : RecordReadError :=
  if StreamId.count ≤ Read.streamId altered then .invalidStreamId ⟨Read.streamId altered⟩
  else .crcMismatch (Read.crc altered) (Read.computeCrc altered)

theorem lookRecord_altered (hcrc : ∀ bytes, crc32c bytes = referenceCrc bytes)
    (hframe : ValidFrame frame) (h : Altered frame altered) :
    lookRecord altered = .bad (damage altered) := by
  have hmin := hframe.min_le
  have hlen : Read.length altered = altered.length := by
    rw [h.length_field, hframe.length_eq, h.length_eq]
  rw [← h.length_eq, minRecordLen_eq] at hmin
  unfold lookRecord damage
  rw [if_neg (by rw [headerLen_eq]; omega), if_neg (by rw [hlen, minRecordLen_eq]; omega)]
  by_cases hstream : StreamId.count ≤ Read.streamId altered
  · rw [if_pos hstream, if_pos hstream]
  · rw [if_neg hstream, if_neg hstream, if_neg (by omega), hlen, List.take_length,
      if_pos (crc_ne_of_altered hcrc hframe h)]

/-- The parser stops in front of the altered frame. -/
theorem parse_altered (hcrc : ∀ bytes, crc32c bytes = referenceCrc bytes)
    (hframe : ValidFrame frame) (h : Altered frame altered) (rs : List Record) (ys : List UInt8) :
    records (encodings rs ++ (altered ++ ys)) = rs ∧
      parseEnd (encodings rs ++ (altered ++ ys)) = .error (damage altered) := by
  have hlook := lookRecord_altered hcrc hframe h
  have hlook' : lookRecord (altered ++ ys) = .bad (damage altered) := by
    rw [lookRecord_append ys (by simp [hlook]), hlook]
  have hstuck : recordFraming.Stuck (altered ++ ys) := Framing.stuck_of_bad hlook'
  constructor
  · rw [records_encodings_append, records_of_stuck hstuck, List.append_nil]
  · rw [parseEnd, rest_encodings_append, Framing.rest_of_stuck hstuck, endOfInput, hlook']

namespace RecordReader

/-- What a run has seen of an input that holds the records `rs` and then is wrong:
either the reading goes on, or all of `rs` were handed out, then came the error, and
after it nothing but its echo. -/
def StopsWith (rs : List Record) (error : RecordReadError) (events : List Event)
    (state : ReaderState) : Prop :=
  (state = .active ∧ delivered events <+: rs ∧ ∀ e ∈ events, Event.Of .active e) ∨
    (state = .failed ∧ ∃ past post, events = past ++ .waited (.error (.error error)) :: post ∧
      delivered past = rs ∧ (∀ e ∈ past, Event.Of .active e) ∧ ∀ e ∈ post, Event.Of .failed e)

theorem Outcome.stopsWith {bytes : List UInt8} {state : ReaderState} {events : List Event}
    (h : Outcome bytes state events) {error : RecordReadError}
    (hend : parseEnd bytes = .error error) :
    StopsWith (TransactionLog.records bytes) error events state := by
  cases h with
  | reading before records => exact .inl ⟨rfl, records, before⟩
  | finished before records result after =>
    rw [hend] at result
    cases result
  | @failed past post error' before records result after =>
    rw [hend] at result
    obtain rfl := Except.error.inj result
    exact .inr ⟨rfl, past, post, rfl, records, before, after⟩

/-- **Damage within four consecutive bytes is always detected.**  Where a frame is
altered behind its length field, the reader hands out the records in front of it and
no others, whatever the source does.  Unless the source fails, every run reads on
until it reports the stream ID or the checksum as wrong. -/
theorem altered_detected (hcrc : ∀ bytes, crc32c bytes = referenceCrc bytes)
    (rs : List Record) (hframe : ValidFrame frame) (h : Altered frame altered)
    (ys : List UInt8) :
    let input := encodings rs ++ (altered ++ ys)
    ∃ error, ((∃ id, error = .invalidStreamId id) ∨
        ∃ stored computed, error = .crcMismatch stored computed) ∧
      (∀ as, ∃ events s, run as (new, input) = some (events, s) ∧ delivered events <+: rs) ∧
      ∀ as, (∀ a ∈ as, a.Transient) →
        (∃ events s, run as (new, input) = some (events, s) ∧
          StopsWith rs error events s.1.state) ∧
        ∃ more events s, (∀ a ∈ more, a.Transient) ∧
          run (as ++ more) (new, input) = some (events, s) ∧ s.1.state = .failed ∧
          StopsWith rs error events s.1.state := by
  intro input
  obtain ⟨hrecords, hend⟩ := parse_altered hcrc hframe h rs ys
  refine ⟨damage altered, ?_, ?_, ?_⟩
  · unfold damage
    by_cases hstream : StreamId.count ≤ Read.streamId altered
    · exact .inl ⟨_, if_pos hstream⟩
    · exact .inr ⟨_, _, if_neg hstream⟩
  · intro as
    obtain ⟨events, s, hrun, hd⟩ := run_delivered input as
    exact ⟨events, s, hrun, hrecords ▸ hd⟩
  · intro as has
    obtain ⟨events, s, hrun, hout, more, s', hrun', hout', hstate⟩ := run_outcome input as has
    have hstops := hout.stopsWith hend
    have hstops' := hout'.stopsWith hend
    rw [hrecords] at hstops hstops'
    refine ⟨⟨events, s, hrun, hstops⟩, _, _, s', transient_rounds _, hrun', ?_, hstops'⟩
    rcases hstops' with ⟨hactive, -⟩ | ⟨hfailed, -⟩
    · exact absurd hactive hstate
    · exact hfailed

omit [Crc32c] in
/-- The documented frame, and after it once more with two bytes exchanged. -/
theorem altered_detected_hello : letI := Crc32c.reference
    let rs : List Record := [⟨helloFrame, by decide +kernel⟩]
    let input := encodings rs ++ (helloFrame.take 12 ++ [0x65, 0x68] ++ helloFrame.drop 14 ++ [0])
    ∃ error, ((∃ id, error = .invalidStreamId id) ∨
        ∃ stored computed, error = .crcMismatch stored computed) ∧
      (∀ as, ∃ events s, run as (new, input) = some (events, s) ∧ delivered events <+: rs) ∧
      ∀ as, (∀ a ∈ as, a.Transient) →
        (∃ events s, run as (new, input) = some (events, s) ∧
          StopsWith rs error events s.1.state) ∧
        ∃ more events s, (∀ a ∈ more, a.Transient) ∧
          run (as ++ more) (new, input) = some (events, s) ∧ s.1.state = .failed ∧
          StopsWith rs error events s.1.state :=
  letI := Crc32c.reference
  altered_detected (fun _ => rfl) [⟨helloFrame, by decide +kernel⟩]
    (show ValidFrame (helloFrame.take 12 ++ [0x68, 0x65] ++ helloFrame.drop 14) by decide +kernel)
    (.of_split (by decide) (by decide) (by decide) (by decide)) [0]

end RecordReader

end Detection

end TransactionLog
