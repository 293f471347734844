import TransactionLog.Lib.Bytes
import TransactionLog.Lib.Exact

/-!
# Messages over a byte stream

A message is sent as one frame: the length of its encoding as four little-endian
bytes, then the encoding.  `writeMessage` builds the frame in a `BoundedFrame`
before it sends any of it; `readMessage` looks for the first byte of the next
frame alone, so that an end of input between two frames is told from one inside.

The serializer is not part of the source.  `Postcard` stands for it, and
`Postcard.Lawful` for what it promises: an encoding in front of other bytes is
decoded to the value, and the other bytes are left.
-/

namespace TransactionLog

open Lib

def lengthPrefixLen : Nat := 4

def maxMessageBodyLen : Nat := 1024 * 1024

/-! ## Serializing into a frame -/

inductive PostcardError where
  | serializeBufferFull
  | other (code : Nat)
  deriving DecidableEq, Repr

/-- A serialization in progress: it appends bytes, may look at the result, and ends. -/
inductive Serialization where
  | done (result : Except PostcardError Unit)
  | extend (bytes : List UInt8) (next : Except PostcardError Unit → Serialization)

/-- What a completed serialization appends when there is room for everything. -/
def Serialization.output : Serialization → Option (List UInt8)
  | .done (.ok ()) => some []
  | .done (.error _) => none
  | .extend bytes next => (next (.ok ())).output.map (bytes ++ ·)

/-- The serializer and the deserializer of one type. -/
class Postcard (μ : Type) where
  serialize : μ → Serialization
  takeFromBytes : List UInt8 → Except PostcardError (μ × List UInt8)

/-- What the code relies on: encodings are decoded again, whatever follows them. -/
def Postcard.Lawful (μ : Type) [Postcard μ] : Prop :=
  ∀ (message : μ) (body rest : List UInt8), (serialize message).output = some body →
    takeFromBytes (body ++ rest) = .ok (message, rest)

/-- The frame being built.  Its prefix is there from the start. -/
structure BoundedFrame where
  bytes : List UInt8
  tooLarge : Bool
  deriving DecidableEq, Repr

namespace BoundedFrame

def new : BoundedFrame := ⟨List.replicate lengthPrefixLen 0, false⟩

/-- Appends to the body, all of `bytes` or nothing. -/
def tryExtend (frame : BoundedFrame) (bytes : List UInt8) :
    Except PostcardError Unit × BoundedFrame :=
  if bytes.length > maxMessageBodyLen - (frame.bytes.length - lengthPrefixLen) then
    (.error .serializeBufferFull, { frame with tooLarge := true })
  else (.ok (), { frame with bytes := frame.bytes ++ bytes })

/-- Runs a serialization on the frame. -/
def fill (frame : BoundedFrame) : Serialization → Except PostcardError Unit × BoundedFrame
  | .done result => (result, frame)
  | .extend bytes next => (frame.tryExtend bytes).2.fill (next (frame.tryExtend bytes).1)

/-- A body within the limit reaches the frame whole. -/
theorem fill_of_output : ∀ {serialization : Serialization} {frame : BoundedFrame}
    {body : List UInt8}, serialization.output = some body →
    frame.bytes.length - lengthPrefixLen + body.length ≤ maxMessageBodyLen →
    lengthPrefixLen ≤ frame.bytes.length →
    frame.fill serialization = (.ok (), { frame with bytes := frame.bytes ++ body }) := by
  intro serialization
  induction serialization with
  | done result =>
    intro frame body hbody _ _
    cases result with
    | error e => cases hbody
    | ok u =>
      obtain rfl := Option.some.inj hbody
      rw [fill, List.append_nil]
  | extend bytes next ih =>
    intro frame body hbody hlen hshort
    rw [Serialization.output, Option.map_eq_some_iff] at hbody
    obtain ⟨rest, hrest, rfl⟩ := hbody
    rw [List.length_append] at hlen
    have hroom : ¬ bytes.length >
        maxMessageBodyLen - (frame.bytes.length - lengthPrefixLen) := by omega
    have hextend : frame.tryExtend bytes =
        (.ok (), { frame with bytes := frame.bytes ++ bytes }) := if_neg hroom
    have hgrown : (frame.bytes ++ bytes).length = frame.bytes.length + bytes.length :=
      List.length_append
    rw [fill, hextend]
    simp only
    have hfill := @ih _ { frame with bytes := frame.bytes ++ bytes } rest hrest
      (by rw [hgrown]; omega) (by rw [hgrown]; omega)
    rw [hfill, List.append_assoc]

end BoundedFrame

/-! ## One message -/

inductive MessageWriteError where
  | tooLarge
  | encode (e : PostcardError)
  | io (e : ErrorKind)
  deriving DecidableEq, Repr

inductive MessageReadError where
  | endOfStream
  | io (e : ErrorKind)
  | tooLarge (length : Nat)
  | decode (e : PostcardError)
  | trailingBytes (count : Nat)
  deriving DecidableEq, Repr

namespace MessageIo

variable {σ μ : Type} [Postcard μ]

def writeMessage (d : Dest σ) (message : μ) : Io σ MessageWriteError Unit :=
  match BoundedFrame.new.fill (Postcard.serialize message) with
  | (result, frame) =>
    if frame.tooLarge then Io.throw .tooLarge
    else
      match result with
      | .error e => Io.throw (.encode e)
      | .ok () =>
        let bodyLen := frame.bytes.length - lengthPrefixLen
        Io.mapErr .io
          (d.writeAll (toLe lengthPrefixLen bodyLen ++ frame.bytes.drop lengthPrefixLen))

def readMessage (src : Source σ) (μ : Type) [Postcard μ] : Io σ MessageReadError μ := do
  let first ← Io.mapErr .io (src.readUpTo 1)
  if first = [] then Io.throw .endOfStream
  else do
    let others ← Io.mapErr .io (src.readExact (lengthPrefixLen - 1))
    let bodyLen := ofLe (first ++ others)
    if bodyLen > maxMessageBodyLen then Io.throw (.tooLarge bodyLen)
    else do
      let body ← Io.mapErr .io (src.readExact bodyLen)
      match Postcard.takeFromBytes body with
      | .error e => Io.throw (.decode e)
      | .ok (message, remainder) =>
        if remainder = [] then pure message
        else Io.throw (.trailingBytes remainder.length)

/-- The encoding of a message. -/
def body (message : μ) : List UInt8 := (Postcard.serialize message).output.getD []

def frame (message : μ) : List UInt8 :=
  toLe lengthPrefixLen (body message).length ++ body message

/-- The message can be serialized, within the limit. -/
def Fits (message : μ) : Prop :=
  (Postcard.serialize message).output = some (body message) ∧
    (body message).length ≤ maxMessageBodyLen

variable {c : Mode} {message : μ}

/-- Sending a message sends its frame. -/
theorem writeMessage_triple (hfits : Fits message) {ch : Channel} :
    Triple c (fun s => s = ch) (writeMessage Channel.dest message)
      (fun _ s => s = { ch with accepted := ch.accepted ++ frame message })
      fun _ _ => ¬ c.calm := by
  have hfill := @BoundedFrame.fill_of_output _ .new _ hfits.1
    (by simpa [BoundedFrame.new] using hfits.2) (by simp [BoundedFrame.new])
  have hlen : (BoundedFrame.new.bytes ++ body message).length - lengthPrefixLen =
      (body message).length := by
    have hnew : BoundedFrame.new.bytes.length = lengthPrefixLen := rfl
    rw [List.length_append, hnew, Nat.add_sub_cancel_left]
  have hdrop : (BoundedFrame.new.bytes ++ body message).drop lengthPrefixLen = body message :=
    List.drop_left' rfl
  have hframe : toLe lengthPrefixLen (body message).length ++ body message = frame message := rfl
  rw [writeMessage, hfill]
  show Triple c _ (Io.mapErr MessageWriteError.io (Channel.dest.writeAll (toLe lengthPrefixLen
    ((BoundedFrame.new.bytes ++ body message).length - lengthPrefixLen) ++
      (BoundedFrame.new.bytes ++ body message).drop lengthPrefixLen))) _ _
  rw [hlen, hdrop, hframe]
  refine .mapErr (Triple.writeAll_channel.exits ?_)
  rintro (e | _ | _) s ⟨hc, -⟩ <;> exact hc

/-- The message at the front of the input and what follows its frame. -/
def parseMessage (μ : Type) [Postcard μ] (input : List UInt8) :
    Except MessageReadError (μ × List UInt8) :=
  if input = [] then .error .endOfStream
  else if input.length < lengthPrefixLen then .error (.io .unexpectedEof)
  else
    let bodyLen := ofLe (input.take lengthPrefixLen)
    if bodyLen > maxMessageBodyLen then .error (.tooLarge bodyLen)
    else if input.length < lengthPrefixLen + bodyLen then .error (.io .unexpectedEof)
    else match Postcard.takeFromBytes ((input.drop lengthPrefixLen).take bodyLen) with
      | .error e => .error (.decode e)
      | .ok (message, remainder) =>
        if remainder = [] then .ok (message, input.drop (lengthPrefixLen + bodyLen))
        else .error (.trailingBytes remainder.length)

variable {src : Source σ} {J : σ → Prop} {input : List UInt8}

theorem readUpTo_one (hsrc : src.Lawful J) :
    Triple c (fun s => J s ∧ src.available s = input) (src.readUpTo 1)
      (fun first s => first = input.take 1 ∧ J s ∧ src.available s = input.drop 1)
      fun _ s => ¬ c.calm ∧ src.available s = input := by
  refine .readUpTo Nat.one_pos ?_ (fun s hc h => ⟨hc, h.2⟩) fun _ s hc _ h => ⟨hc, h.2⟩
  rintro n s hn hle hzero ⟨hJ, rfl⟩
  rw [hsrc.available_advance _ _ hJ]
  have hone : (src.available s).take n = (src.available s).take 1 ∧
      (src.available s).drop n = (src.available s).drop 1 := by
    match n, hn with
    | 0, _ => rw [hzero.mp rfl]; exact ⟨rfl, rfl⟩
    | 1, _ => exact ⟨rfl, rfl⟩
  exact ⟨hone.1, hsrc.advance _ _ hJ, hone.2⟩

theorem readExact_io (hsrc : src.Lawful J) {len : Nat} :
    Triple c (fun s => J s ∧ src.available s = input)
      (Io.mapErr MessageReadError.io (src.readExact len))
      (fun got s => (len ≤ input.length ∧ got = input.take len) ∧ J s ∧
        src.available s = input.drop len)
      fun e s => (∃ k ≤ len, src.available s = input.drop k) ∧ (∀ n, e ≠ .error (.tooLarge n)) ∧
        (c.calm → e = .error (.io .unexpectedEof) ∧ input.length < len) := by
  refine .mapErr ((Triple.readExact hsrc).conseq (fun _ h => h) ?_ ?_)
  · exact fun _ s h => ⟨⟨h.1, h.2.1⟩, h.2.2⟩
  · rintro (e | _ | _) s ⟨-, -, htaken, h⟩
    · refine ⟨htaken, by simp, fun hc => ?_⟩
      obtain ⟨he, hlen⟩ := h hc
      rw [Exit.error.inj he]
      exact ⟨rfl, hlen⟩
    · exact ⟨htaken, by simp, fun hc => by cases (h hc).1⟩
    · exact ⟨htaken, by simp, fun hc => by cases (h hc).1⟩

/-- **Reading a message takes what the pure parser takes**, however the input is
fragmented, and reports what it reports. -/
theorem readMessage_triple (hsrc : src.Lawful J) :
    Triple c (fun s => J s ∧ src.available s = input) (readMessage src μ)
      (fun message s => ∃ rest, parseMessage μ input = .ok (message, rest) ∧ J s ∧
        src.available s = rest)
      fun e _ => c.calm → ∃ error, e = .error error ∧ parseMessage μ input = .error error := by
  rw [readMessage]
  refine .bind (R := fun first s => first = input.take 1 ∧ J s ∧
    src.available s = input.drop 1) (.mapErr ((readUpTo_one hsrc).exits ?_)) fun first => ?_
  · rintro (e | _ | _) s ⟨hc, -⟩ h <;> exact absurd h hc
  refine .assume fun hfirst => ?_
  subst hfirst
  cases input with
  | nil => exact .throw fun s _ _ => ⟨.endOfStream, rfl, rfl⟩
  | cons b xs =>
    have hne : b :: xs ≠ [] := List.cons_ne_nil b xs
    rw [if_neg (by simp), parseMessage, if_neg hne]
    refine .bind ((readExact_io hsrc).exits ?_) fun others => .assume fun ⟨hlen, hothers⟩ => ?_
    · rintro e s ⟨-, -, h⟩ hc
      obtain ⟨rfl, hlen⟩ := h hc
      refine ⟨_, rfl, if_pos ?_⟩
      rw [List.drop_succ_cons, List.drop_zero, lengthPrefixLen] at hlen
      rw [List.length_cons, lengthPrefixLen]
      omega
    rw [List.drop_succ_cons, List.drop_zero] at hlen hothers
    have hshort : ¬ (b :: xs).length < lengthPrefixLen := by
      rw [lengthPrefixLen] at hlen
      rw [List.length_cons, lengthPrefixLen]
      omega
    have htake : (b :: xs).take 1 ++ others = (b :: xs).take lengthPrefixLen := by
      rw [hothers]
      rfl
    have hdrop : ((b :: xs).drop 1).drop (lengthPrefixLen - 1) = (b :: xs).drop lengthPrefixLen :=
      rfl
    rw [if_neg hshort, htake, hdrop]
    simp only
    by_cases hlarge : ofLe ((b :: xs).take lengthPrefixLen) > maxMessageBodyLen
    · rw [if_pos hlarge, if_pos hlarge]
      exact .throw fun _ _ _ => ⟨_, rfl, rfl⟩
    rw [if_neg hlarge, if_neg hlarge]
    refine .bind ((readExact_io hsrc).exits ?_) fun got => .assume fun ⟨hlen', hgot⟩ => ?_
    · rintro e s ⟨-, -, h⟩ hc
      obtain ⟨rfl, hlen'⟩ := h hc
      rw [List.length_drop] at hlen'
      exact ⟨_, rfl, if_pos (by omega)⟩
    rw [List.length_drop] at hlen'
    rw [if_neg (by omega), ← hgot, List.drop_drop]
    cases Postcard.takeFromBytes (μ := μ) got with
    | error e => exact .throw fun _ _ _ => ⟨_, rfl, rfl⟩
    | ok r =>
      obtain ⟨message, remainder⟩ := r
      simp only
      by_cases hremainder : remainder = []
      · rw [if_pos hremainder, if_pos hremainder]
        exact .pure fun s h => ⟨_, rfl, h⟩
      · rw [if_neg hremainder, if_neg hremainder]
        exact .throw fun _ _ _ => ⟨_, rfl, rfl⟩

/-! ### Parsing frames -/

theorem length_frame (message : μ) :
    (frame message).length = lengthPrefixLen + (body message).length := by
  rw [frame, List.length_append, length_toLe]

theorem bodyLen_frame (hfits : Fits message) {input : List UInt8}
    (h : input.take lengthPrefixLen = (frame message).take lengthPrefixLen) :
    ofLe (input.take lengthPrefixLen) = (body message).length := by
  have hlen := hfits.2
  rw [h, frame, List.take_left' (length_toLe _ _)]
  refine ofLe_toLe_of_lt ?_
  rw [maxMessageBodyLen] at hlen
  rw [lengthPrefixLen]
  omega

theorem parseMessage_frame (hlaw : Postcard.Lawful μ) (hfits : Fits message) (rest : List UInt8) :
    parseMessage μ (frame message ++ rest) = .ok (message, rest) := by
  have hlen : (frame message ++ rest).length =
      lengthPrefixLen + (body message).length + rest.length := by
    rw [List.length_append, length_frame]
  have hne : frame message ++ rest ≠ [] := by
    rintro hnil
    rw [hnil, lengthPrefixLen] at hlen
    simp only [List.length_nil] at hlen
    omega
  have htake : (frame message ++ rest).take lengthPrefixLen =
      (frame message).take lengthPrefixLen :=
    List.take_append_of_le_length (by rw [length_frame]; omega)
  have hbody : ((frame message ++ rest).drop lengthPrefixLen).take (body message).length =
      body message ++ [] := by
    rw [frame, List.append_assoc, List.drop_left' (length_toLe _ _), List.take_left,
      List.append_nil]
  have hrest : (frame message ++ rest).drop (lengthPrefixLen + (body message).length) = rest :=
    List.drop_left' (length_frame message)
  rw [parseMessage, if_neg hne, if_neg (by omega), bodyLen_frame hfits htake]
  simp only
  rw [if_neg (Nat.not_lt.mpr hfits.2), if_neg (by omega), hbody, hlaw _ _ _ hfits.1]
  simp only [if_true]
  rw [hrest]

/-- A frame that breaks off is not a message, and the end of the input lies between
frames only where none of it is there. -/
theorem parseMessage_truncated (hfits : Fits message) {k : Nat}
    (hk : k < (frame message).length) :
    parseMessage μ ((frame message).take k) =
      .error (if k = 0 then .endOfStream else .io .unexpectedEof) := by
  have hlen : ((frame message).take k).length = k := by
    rw [List.length_take, Nat.min_eq_left (Nat.le_of_lt hk)]
  rw [length_frame] at hk
  by_cases hzero : k = 0
  · rw [if_pos hzero, hzero, List.take_zero]
    rfl
  have hne : (frame message).take k ≠ [] := by
    rintro hnil
    rw [hnil] at hlen
    exact hzero hlen.symm
  rw [if_neg hzero, parseMessage, if_neg hne, hlen]
  by_cases hshort : k < lengthPrefixLen
  · rw [if_pos hshort]
  have htake : ((frame message).take k).take lengthPrefixLen =
      (frame message).take lengthPrefixLen := by
    rw [List.take_take, Nat.min_eq_left (Nat.le_of_not_lt hshort)]
  rw [if_neg hshort, bodyLen_frame hfits htake]
  simp only
  rw [if_neg (Nat.not_lt.mpr hfits.2), if_pos hk]

/-! ## Many messages -/

section Many

variable {ι : Type} {ν : ι → Type} [∀ i, Postcard (ν i)]

/-- A message together with its type, which the reader knows. -/
abbrev Message (ν : ι → Type) : Type := (i : ι) × ν i

def frames (messages : List (Message ν)) : List UInt8 :=
  messages.flatMap fun message => frame message.2

def writeMessages (d : Dest σ) : List (Message ν) → Io σ MessageWriteError Unit
  | [] => pure ()
  | message :: messages => do
    writeMessage d message.2
    writeMessages d messages

/-- Reads messages of the given types one after another, up to the first error. -/
def readMessages (src : Source σ) :
    List ι → Io σ Empty (List (Message ν) × Option MessageReadError)
  | [] => pure ([], none)
  | i :: is => do
    match ← Io.attempt (readMessage src (ν i)) with
    | .error e => pure ([], some e)
    | .ok message => do
      let r ← readMessages src is
      pure (⟨i, message⟩ :: r.1, r.2)

/-- What reading from `input` amounts to, and the input left where it meets no error. -/
def parseMessages : List ι → List UInt8 →
    (List (Message ν) × Option MessageReadError) × List UInt8
  | [], input => (([], none), input)
  | i :: is, input =>
    match parseMessage (ν i) input with
    | .error e => (([], some e), input)
    | .ok (message, rest) =>
      let r := parseMessages is rest
      ((⟨i, message⟩ :: r.1.1, r.1.2), r.2)

theorem frames_cons (m : Message ν) (ms : List (Message ν)) :
    frames (m :: ms) = frame m.2 ++ frames ms := rfl

theorem frames_append (ms ms' : List (Message ν)) : frames (ms ++ ms') = frames ms ++ frames ms' :=
  List.flatMap_append

theorem writeMessages_triple : ∀ {ms : List (Message ν)} {ch : Channel},
    (∀ m ∈ ms, Fits m.2) →
    Triple c (fun s => s = ch) (writeMessages Channel.dest ms)
      (fun _ s => s = { ch with accepted := ch.accepted ++ frames ms }) fun _ _ => ¬ c.calm := by
  intro ms
  induction ms with
  | nil =>
    intro ch _
    refine .pure ?_
    rintro _ rfl
    rw [frames, List.flatMap_nil, List.append_nil]
  | cons m ms ih =>
    intro ch hms
    rw [writeMessages]
    refine .bind (writeMessage_triple (hms m (List.mem_cons_self ..))) fun _ => ?_
    refine (ih fun m' hm' => hms m' (List.mem_cons_of_mem _ hm')).post ?_
    rintro _ _ rfl
    rw [frames_cons, ← List.append_assoc]

theorem readMessages_triple (hsrc : src.Lawful J) : ∀ {is : List ι} {input : List UInt8},
    Triple c (fun s => J s ∧ src.available s = input) (readMessages (ν := ν) src is)
      (fun r s => c.calm → r = (parseMessages is input).1 ∧ (r.2 = none →
        src.available s = (parseMessages (ν := ν) is input).2))
      fun _ _ => ¬ c.calm := by
  intro is
  induction is with
  | nil => exact fun {_} => .pure fun s h _ => ⟨rfl, fun _ => h.2⟩
  | cons i is ih =>
    intro input
    rw [readMessages]
    refine .bind (R := fun r s => match r with
      | .error e => c.calm → parseMessage (ν i) input = .error e
      | .ok message => ∃ rest, parseMessage (ν i) input = .ok (message, rest) ∧ J s ∧
          src.available s = rest) (.attempt ((readMessage_triple hsrc).exits ?_)) fun r => ?_
    · rintro (e | _ | _) s h
      · intro hc
        obtain ⟨error, he, hparse⟩ := h hc
        rw [hparse, Exit.error.inj he]
      · intro hc
        obtain ⟨_, he, -⟩ := h hc
        cases he
      · intro hc
        obtain ⟨_, he, -⟩ := h hc
        cases he
    · cases r with
      | error e =>
        refine .pure fun s h hc => ?_
        rw [parseMessages, h hc]
        exact ⟨rfl, fun h => by cases h⟩
      | ok message =>
        refine .ofExists fun rest => .assume fun hparse => ?_
        refine .bind ih fun r => .pure fun s h hc => ?_
        obtain ⟨hr, hrest⟩ := h hc
        rw [parseMessages, hparse, hr]
        rw [hr] at hrest
        exact ⟨rfl, hrest⟩

theorem parseMessages_frames (hlaw : ∀ i, Postcard.Lawful (ν i)) : ∀ {ms : List (Message ν)},
    (∀ m ∈ ms, Fits m.2) → ∀ (is : List ι) (input : List UInt8),
      parseMessages (ms.map Sigma.fst ++ is) (frames ms ++ input) =
        ((ms ++ (parseMessages (ν := ν) is input).1.1, (parseMessages (ν := ν) is input).1.2),
          (parseMessages (ν := ν) is input).2) := by
  intro ms
  induction ms with
  | nil => exact fun _ _ _ => rfl
  | cons m ms ih =>
    intro hms is input
    rw [List.map_cons, List.cons_append, parseMessages, frames_cons, List.append_assoc,
      parseMessage_frame (hlaw m.1) (hms m (List.mem_cons_self ..))]
    simp only
    rw [ih fun m' hm' => hms m' (List.mem_cons_of_mem _ hm')]
    rfl

/-- Where a position in the frames falls. -/
theorem exists_cut : ∀ {ms : List (Message ν)} {k : Nat}, k < (frames ms).length →
    ∃ done m rest, ms = done ++ m :: rest ∧ (frames done).length ≤ k ∧
      k - (frames done).length < (frame m.2).length := by
  intro ms
  induction ms with
  | nil => intro k hk; exact absurd hk (Nat.not_lt_zero k)
  | cons m ms ih =>
    intro k hk
    by_cases hm : k < (frame m.2).length
    · exact ⟨[], m, ms, rfl, Nat.zero_le k, hm⟩
    · rw [frames_cons, List.length_append] at hk
      obtain ⟨done, m', rest, rfl, hle, hlt⟩ := ih (k := k - (frame m.2).length) (by omega)
      refine ⟨m :: done, m', rest, rfl, ?_, ?_⟩ <;> rw [frames_cons, List.length_append] <;> omega

/-- A run of reads without faults. -/
theorem run_readMessages (hsrc : src.Lawful J) {s : σ} (hs : J s) {plan : Plan} (hp : plan.Smooth)
    (is : List ι) : ∃ w, (readMessages (ν := ν) src is).run s plan =
      (.ok (parseMessages is (src.available s)).1, w) ∧
      ((parseMessages (ν := ν) is (src.available s)).1.2 = none →
        src.available w.sys = (parseMessages (ν := ν) is (src.available s)).2) := by
  obtain ⟨-, hr⟩ := (readMessages_triple hsrc).pre (m := readMessages (ν := ν) src is)
    (fun _ h => h) ⟨s, plan⟩ ⟨hs, rfl⟩ hp
  rw [Io.run]
  rcases hm : readMessages (ν := ν) src is ⟨s, plan⟩ with ⟨e | r, w⟩ <;> rw [hm] at hr
  · exact absurd trivial hr
  · obtain ⟨rfl, hrest⟩ := hr trivial
    exact ⟨w, rfl, hrest⟩

/-- **Messages are read as they were written**, whatever pieces the destination accepts
and the source delivers.  Each read takes exactly its own frame, and after the last one
the stream ends.  Where the stream is cut, the messages before the cut are read; then it
ends if the cut is between two frames, and otherwise ends unexpectedly. -/
theorem write_read_messages (hlaw : ∀ i, Postcard.Lawful (ν i)) {ms : List (Message ν)}
    (hms : ∀ m ∈ ms, Fits m.2) (hsrc : src.Lawful J) :
    (∀ plan : Plan, plan.Smooth →
      ∃ w, (writeMessages Channel.dest ms).run Channel.new plan = (.ok (), w) ∧
        w.sys.accepted = frames ms) ∧
    (∀ (s : σ) (plan : Plan), J s → src.available s = frames ms → plan.Smooth →
      (∀ done rest, ms = done ++ rest → ∃ w, (readMessages src (done.map Sigma.fst)).run s plan =
        (.ok (done, none), w) ∧ src.available w.sys = frames rest) ∧
      ∀ i, ∃ w, (readMessages src (ms.map Sigma.fst ++ [i])).run s plan =
        (.ok (ms, some .endOfStream), w)) ∧
    ∀ (k : Nat) (s : σ) (plan : Plan), k < (frames ms).length → J s →
      src.available s = (frames ms).take k → plan.Smooth →
      ∃ done m rest w, ms = done ++ m :: rest ∧
        (frames done).length ≤ k ∧ k < (frames (done ++ [m])).length ∧
        (readMessages src (ms.map Sigma.fst)).run s plan = (.ok (done, some
          (if k = (frames done).length then .endOfStream else .io .unexpectedEof)), w) := by
  refine ⟨fun plan hp => ?_, fun s plan hs hinput hp => ⟨?_, fun i => ?_⟩, ?_⟩
  · obtain ⟨-, hr⟩ := writeMessages_triple (c := ⟨True, fun _ => True⟩) hms
      ⟨Channel.new, plan⟩ rfl hp
    rw [Io.run]
    rcases hm : writeMessages Channel.dest ms ⟨Channel.new, plan⟩ with ⟨e | u, w⟩ <;> rw [hm] at hr
    · exact absurd trivial hr
    · refine ⟨w, rfl, ?_⟩
      rw [hr]
      rfl
  · rintro done rest rfl
    have hdone : ∀ m ∈ done, Fits m.2 := fun m hm => hms m (List.mem_append_left _ hm)
    have hparse := parseMessages_frames hlaw hdone [] (frames rest)
    rw [List.append_nil, ← frames_append, ← hinput] at hparse
    obtain ⟨w, hrun, hrest⟩ := run_readMessages (ν := ν) hsrc hs hp (done.map Sigma.fst)
    rw [hparse] at hrun hrest
    exact ⟨w, by rw [hrun, parseMessages, List.append_nil], hrest rfl⟩
  · have hparse := parseMessages_frames hlaw hms [i] []
    rw [List.append_nil, ← hinput] at hparse
    obtain ⟨w, hrun, -⟩ := run_readMessages (ν := ν) hsrc hs hp (ms.map Sigma.fst ++ [i])
    rw [hparse] at hrun
    exact ⟨w, by rw [hrun]; simp [parseMessages, parseMessage]⟩
  · intro k s plan hk hs hinput hp
    obtain ⟨done, m, rest, rfl, hle, hlt⟩ := exists_cut hk
    have hdone : ∀ m ∈ done, Fits m.2 := fun m hm => hms m (List.mem_append_left _ hm)
    have hcut : (frames (done ++ m :: rest)).take k =
        frames done ++ (frame m.2).take (k - (frames done).length) := by
      rw [frames_append, List.take_append, List.take_of_length_le hle, frames_cons,
        List.take_append_of_le_length (Nat.le_of_lt hlt)]
    have hparse := parseMessages_frames hlaw hdone (m.1 :: rest.map Sigma.fst)
      ((frame m.2).take (k - (frames done).length))
    rw [← hcut, ← hinput, parseMessages,
      parseMessage_truncated (hms m (by simp)) hlt] at hparse
    obtain ⟨w, hrun, -⟩ := run_readMessages (ν := ν) hsrc hs hp
      ((done ++ m :: rest).map Sigma.fst)
    rw [List.map_append, List.map_cons, hparse] at hrun
    refine ⟨done, m, rest, w, rfl, hle, ?_, ?_⟩
    · rw [frames_append, List.length_append, frames_cons, List.length_append]
      omega
    · have hcut : k - (frames done).length = 0 ↔ k = (frames done).length := by omega
      rw [List.map_append, List.map_cons, hrun, List.append_nil]
      simp only [hcut]

end Many

/-! ### Sending truth values -/

/-- One byte, zero or one. -/
@[reducible] def boolPostcard : Postcard Bool where
  serialize message := .extend [if message then 1 else 0] .done
  takeFromBytes
    | 0 :: rest => .ok (false, rest)
    | 1 :: rest => .ok (true, rest)
    | _ => .error (.other 0)

theorem lawful_bool : letI := boolPostcard; Postcard.Lawful Bool := by
  intro message body rest h
  obtain rfl := Option.some.inj h
  cases message <;> rfl

theorem fits_bool (message : Bool) : letI := boolPostcard; Fits message :=
  letI := boolPostcard
  ⟨rfl, Nat.le_of_ble_eq_true rfl⟩

/-- Two frames of five bytes each, of which seven bytes arrive. -/
theorem write_read_messages_bool : letI := boolPostcard
    let ms : List (Message fun _ : Unit => Bool) := [⟨(), true⟩, ⟨(), false⟩]
    let read := readMessages (ν := fun _ : Unit => Bool) ⟨id, List.drop⟩ (ms.map Sigma.fst)
    let plan : Plan := .next (.upTo 1 0) (.next (.upTo 2 7) .calm)
    ∃ done m rest w, ms = done ++ m :: rest ∧
      (frames done).length ≤ 7 ∧ 7 < (frames (done ++ [m])).length ∧
      read.run ((frames ms).take 7) plan = (.ok (done, some
        (if 7 = (frames done).length then .endOfStream else .io .unexpectedEof)), w) := by
  let _ := boolPostcard
  have hms : ∀ m ∈ ([⟨(), true⟩, ⟨(), false⟩] : List (Message fun _ : Unit => Bool)), Fits m.2 :=
    fun m _ => fits_bool m.2
  have hsrc : Source.Lawful (σ := List UInt8) ⟨id, List.drop⟩ fun _ => True :=
    ⟨fun _ _ _ => rfl, fun _ _ _ => trivial⟩
  exact (write_read_messages (fun _ => lawful_bool) hms hsrc).2.2 7 _ _ (by decide) trivial rfl
    (by simp [Plan.Smooth, Plan.Within])

end MessageIo

end TransactionLog
