import TransactionLog.Record.ReaderBuffers

/-!
# What a reader's caller is told

The steps of a reader once more, with what its caller sees of each.  The input may still be
growing: it has `ended` once its source may report so.

`Seen` is the invariant: what the caller was told so far is true of the bytes that have
arrived.  It is stated for input that ends within records or between them, so that no
violation is in it, and it is kept when more arrives.  Once the input has ended, a reader
goes on to its end (`Seen.progress`).
-/

namespace TransactionLog

open Lib Protocol

namespace RecordReader

variable [Crc32c]

/-! ### What the caller of a reader sees -/

/-- What the caller sees of a wait. -/
def Checked.Progress.events : Checked.Progress → List Event
  | .returned result => [.waited (result.mapError .error)]
  | .reads _ => []

/-- A step and what the caller sees of it.  Nothing arrives only where the input has
`ended`, and only a `faulty` source reports more than an interruption. -/
inductive Shows (ended faulty : Prop) : Connection → List Event → Connection → Prop
  | tryReadNext {r r' : RecordReader} {unread : List UInt8}
      {result : Except RecordReadError (Option Record)}
      (call : Checked.tryReadNext r = some (result, r')) :
      Shows ended faulty ⟨r, none, unread⟩ [.next result] ⟨r', none, unread⟩
  | wait {r r' : RecordReader} {unread : List UInt8} {progress : Checked.Progress}
      {reading : Option Nat} (call : Checked.waitToRead r = some (progress, r'))
      (leaves : Leaves progress reading) :
      Shows ended faulty ⟨r, none, unread⟩ progress.events ⟨r', reading, unread⟩
  | received {r r' : RecordReader} {unread : List UInt8} {spare n : Nat}
      {progress : Checked.Progress} {reading : Option Nat} (delivers : Delivers spare n unread)
      (ends : unread = [] → ended)
      (call : Checked.resume r (.ok (unread.take n)) = some (progress, r'))
      (leaves : Leaves progress reading) :
      Shows ended faulty ⟨r, some spare, unread⟩ progress.events ⟨r', reading, unread.drop n⟩
  | failed {r r' : RecordReader} {unread : List UInt8} {spare : Nat} {error : ErrorKind}
      {progress : Checked.Progress} {reading : Option Nat}
      (fault : error = .interrupted ∨ faulty)
      (call : Checked.resume r (.error error) = some (progress, r'))
      (leaves : Leaves progress reading) :
      Shows ended faulty ⟨r, some spare, unread⟩ progress.events ⟨r', reading, unread⟩
  | cancelled {r : RecordReader} {unread : List UInt8} {spare : Nat} :
      Shows ended faulty ⟨r, some spare, unread⟩ [.waited (.error .stopped)] ⟨r, none, unread⟩

variable {bytes unread : List UInt8} {ended faulty : Prop} {r r' : RecordReader} {c c' : Connection}
  {past events : List Event} {delivered' ready ready' : List Record} {state : ReaderState}

theorem Shows.mono {faulty' : Prop} (h : Shows ended faulty c events c')
    (hfaulty : faulty → faulty') : Shows ended faulty' c events c' := by
  cases h with
  | tryReadNext call => exact .tryReadNext call
  | wait call leaves => exact .wait call leaves
  | received delivers ends call leaves => exact .received delivers ends call leaves
  | failed fault call leaves => exact .failed (fault.imp_right hfaulty) call leaves
  | cancelled => exact .cancelled

/-- What the caller was told.  The last thing that counts is the end of the input, an
error that it gives there, or an error of the source; after it there is only its echo. -/
inductive Reported (bytes : List UInt8) (ended faulty : Prop) : ReaderState → List Event → Prop
  | reading {past : List Event} (before : ∀ e ∈ past, Event.Of .active e) :
      Reported bytes ended faulty .active past
  | finished {past post : List Event} (before : ∀ e ∈ past, Event.Of .active e) (at_end : ended)
      (records : delivered past = records bytes) (result : parseEnd bytes = .ok ())
      (after : ∀ e ∈ post, Event.Of .finished e) :
      Reported bytes ended faulty .finished (past ++ .waited (.ok false) :: post)
  | truncated {past post : List Event} {error : RecordReadError}
      (before : ∀ e ∈ past, Event.Of .active e) (at_end : ended)
      (records : delivered past = records bytes) (result : parseEnd bytes = .error error)
      (after : ∀ e ∈ post, Event.Of .failed e) :
      Reported bytes ended faulty .failed (past ++ .waited (.error (.error error)) :: post)
  | broken {past post : List Event} {kind : ErrorKind} (before : ∀ e ∈ past, Event.Of .active e)
      (fault : faulty) (after : ∀ e ∈ post, Event.Of .failed e) :
      Reported bytes ended faulty .failed (past ++ .waited (.error (.error (.io kind))) :: post)

theorem forall_snoc {P : Event → Prop} (h : ∀ e ∈ past, P e) {e : Event} (he : P e) :
    ∀ x ∈ past ++ [e], P x := by
  intro x hx
  rcases List.mem_append.mp hx with hx | hx
  · exact h x hx
  · rw [List.mem_singleton.mp hx]
    exact he

theorem Reported.before (h : Reported bytes ended faulty .active past) :
    ∀ e ∈ past, Event.Of .active e := by
  cases h with
  | reading before => exact before

/-- An event that leaves the reader in its state. -/
theorem Reported.snoc (h : Reported bytes ended faulty state past) {e : Event} (he : e.Of state) :
    Reported bytes ended faulty state (past ++ [e]) := by
  cases h with
  | reading before => exact .reading (forall_snoc before he)
  | finished before at_end records result after =>
    rw [List.append_assoc]
    exact .finished before at_end records result (forall_snoc after he)
  | truncated before at_end records result after =>
    rw [List.append_assoc]
    exact .truncated before at_end records result (forall_snoc after he)
  | broken before fault after =>
    rw [List.append_assoc]
    exact .broken before fault (forall_snoc after he)

/-- While the input goes on, no end of it was reported. -/
theorem Reported.arrive (h : Reported bytes ended faulty state past) (hopen : ¬ ended)
    (more : List UInt8) : Reported (bytes ++ more) ended faulty state past := by
  cases h with
  | reading before => exact .reading before
  | finished before at_end => exact absurd at_end hopen
  | truncated before at_end => exact absurd at_end hopen
  | broken before fault after => exact .broken before fault after

theorem Reported.mono {ended' faulty' : Prop} (h : Reported bytes ended faulty state past)
    (hended : ended → ended') (hfaulty : faulty → faulty') :
    Reported bytes ended' faulty' state past := by
  cases h with
  | reading before => exact .reading before
  | finished before at_end records result after =>
    exact .finished before (hended at_end) records result after
  | truncated before at_end records result after =>
    exact .truncated before (hended at_end) records result after
  | broken before fault after => exact .broken before (hfaulty fault) after

theorem delivered_after (hstate : state ≠ .active) {result : Except (Exit RecordReadError) Bool}
    {post : List Event} (h : ∀ e ∈ post, Event.Of state e) :
    delivered (past ++ .waited result :: post) = delivered past := by
  have hpost : delivered post = [] :=
    List.filterMap_eq_nil_iff.mpr fun e he => Event.record?_of hstate (h e he)
  rw [delivered_append, delivered_waited_cons, hpost, List.append_nil]

/-- Where the input is whole records, its end comes after them. -/
theorem Reported.delivered_eq {rs : List Record}
    (h : Reported (encodings rs) ended faulty .finished past) : delivered past = rs := by
  cases h with
  | finished before at_end records result after =>
    rw [delivered_after (by simp) after, records, records_encodings]

/-- And nothing but a fault comes instead. -/
theorem Reported.complete {rs : List Record}
    (h : Reported (encodings rs) ended faulty state past) (hstate : state ≠ .active) :
    delivered past = rs ∨ faulty := by
  cases state with
  | active => exact absurd rfl hstate
  | finished => exact .inl h.delivered_eq
  | failed =>
    cases h with
    | truncated before at_end records result after =>
      rw [parseEnd_encodings] at result
      cases result
    | broken before fault after => exact .inr fault

/-! ### What the reader has told is true -/

/-- The reader's fields tell what it has handed out. -/
theorem Inv.unique (h : Inv bytes delivered' ready r unread) {past : List Record}
    (h' : Inv bytes past ready' r unread) : past = delivered' := by
  obtain rfl : ready' = ready :=
    encodings_injective (h'.batch_drop.symm.trans h.batch_drop)
  have hbytes := h'.bytes_eq.trans h.bytes_eq.symm
  exact List.append_cancel_right (encodings_injective (List.append_cancel_right hbytes))

/-- The input asks for more after its last whole record. -/
def Torn (bytes : List UInt8) : Prop := lookRecord (recordFraming.rest bytes) = .more

theorem Inv.not_bad (h : Inv bytes delivered' [] r unread) (htorn : Torn bytes)
    {e : RecordReadError} : lookRecord r.buffer ≠ .bad e := by
  intro hlook
  have hlook' : lookRecord (r.buffer ++ unread) = .bad e := by
    rw [lookRecord_append unread (by simp [hlook]), hlook]
  rw [Torn, ← h.bytes_eq, rest_encodings_append,
    Framing.rest_of_stuck (Framing.stuck_of_bad hlook'), hlook'] at htorn
  cases htorn

/-- What the caller was told is true of the `bytes` that have arrived.  A suspended wait
has the start of a frame in its buffer. -/
structure Seen (bytes : List UInt8) (ended faulty : Prop) (past : List Event) (c : Connection) :
    Prop where
  sound : Sound bytes c
  inv : ∃ ready, Inv bytes (delivered past) ready c.reader c.unread
  waiting : c.reading ≠ none → lookRecord c.reader.buffer = .more ∧
    c.reader.pendingLength = pendingOf c.reader.buffer
  reported : Reported bytes ended faulty c.reader.state past

theorem seen_new : Seen [] ended faulty [] ⟨new, none, []⟩ :=
  ⟨sound_new [], ⟨[], inv_new []⟩, fun h => absurd rfl h, .reading (by simp)⟩

theorem Seen.holds (h : Seen bytes ended faulty past c) :
    ∃ handed ready, Holds bytes (delivered past) handed ready c := by
  obtain ⟨delivered', handed, ready, hholds⟩ := h.sound
  obtain ⟨_, hinv⟩ := h.inv
  exact ⟨handed, ready, hinv.unique hholds.inv ▸ hholds⟩

theorem Seen.delivered_isPrefix (h : Seen bytes ended faulty past c) :
    delivered past <+: TransactionLog.records bytes := by
  obtain ⟨ready, hinv⟩ := h.inv
  exact hinv.delivered_isPrefix

theorem delivered_events (past : List Event) (progress : Checked.Progress) :
    delivered (past ++ progress.events) = delivered past := by
  cases progress with
  | returned result => exact delivered_waited past _
  | reads additional =>
    rw [Checked.Progress.events, List.append_nil]

/-- Where the loop of a wait comes to: a batch, an error in the buffer, or a read. -/
theorem Inv.fill_cases (h : Inv bytes delivered' [] r unread) (hactive : r.state = .active)
    {progress : Checked.Progress} (call : Checked.fill r = some (progress, r')) :
    (∃ ready, progress = .returned (.ok true) ∧ r'.batch ≠ [] ∧ r'.state = .active ∧
      Inv bytes delivered' ready r' unread) ∨
    (∃ e, lookRecord r.buffer = .bad e ∧ progress = .returned (.error e) ∧ r'.state = .failed) ∨
    (∃ additional, progress = .reads additional ∧ r'.state = .active ∧
      Inv bytes delivered' [] r' unread ∧ lookRecord r'.buffer = .more ∧
      r'.pendingLength = pendingOf r'.buffer) := by
  have hchecked := prepareBatch_checked h.header
  rcases h.prepareBatch hactive with ⟨ready, r₁, heq, hne, hinv', hactive', -⟩ |
    ⟨e, p', heq, hlook, -⟩ | ⟨heq, hlook, hp'⟩
  · rw [Checked.fill, hchecked, heq] at call
    obtain ⟨rfl, rfl⟩ := Prod.mk.inj (Option.some.inj call)
    exact .inl ⟨ready, rfl, fun hnil => hne (hinv'.batch_nil.mp hnil), hactive', hinv'⟩
  · rw [Checked.fill, hchecked, heq] at call
    obtain ⟨rfl, rfl⟩ := Prod.mk.inj (Option.some.inj call)
    exact .inr (.inl ⟨e, hlook, rfl, rfl⟩)
  · have hlt := length_lt_pendingOf hlook
    rw [Checked.fill, hchecked, heq] at call
    change (subtract _ _).bind _ = _ at call
    rw [subtract, if_pos (Nat.le_of_lt hlt)] at call
    obtain ⟨rfl, rfl⟩ := Prod.mk.inj (Option.some.inj call)
    exact .inr (.inr ⟨_, rfl, hactive, h.setPending hp', hlook, rfl⟩)

/-- The loop of a wait tells of a batch, or goes on to read; an error is not in what has
arrived. -/
theorem Seen.of_fill (hinv : Inv bytes (delivered past) [] r unread) (hactive : r.state = .active)
    (hbefore : ∀ e ∈ past, Event.Of .active e) (htorn : Torn bytes)
    {progress : Checked.Progress} {reading : Option Nat}
    (call : Checked.fill r = some (progress, r')) (leaves : Leaves progress reading)
    (hsound : Sound bytes ⟨r', reading, unread⟩) :
    Seen bytes ended faulty (past ++ progress.events) ⟨r', reading, unread⟩ := by
  have hreading : Reported bytes ended faulty .active past := .reading hbefore
  rcases hinv.fill_cases hactive call with ⟨ready, rfl, -, hactive', hinv'⟩ | ⟨e, hlook, -⟩ |
    ⟨additional, rfl, hactive', hinv', hwaiting⟩
  · cases leaves
    refine ⟨hsound, ⟨ready, by rw [delivered_events]; exact hinv'⟩, fun h => absurd rfl h, ?_⟩
    show Reported bytes ended faulty r'.state _
    rw [hactive']
    exact hreading.snoc (.inl rfl)
  · exact absurd hlook (hinv.not_bad htorn)
  · refine ⟨hsound, ⟨[], by rw [delivered_events]; exact hinv'⟩, fun _ => hwaiting, ?_⟩
    show Reported bytes ended faulty r'.state (past ++ [])
    rw [hactive', List.append_nil]
    exact hreading

/-- **Taking a record** tells of it, or that there is none. -/
theorem Seen.tryReadNext (h : Seen bytes ended faulty past ⟨r, none, unread⟩)
    {result : Except RecordReadError (Option Record)}
    (call : Checked.tryReadNext r = some (result, r')) :
    Seen bytes ended faulty (past ++ [.next result]) ⟨r', none, unread⟩ := by
  obtain ⟨handed, ready, hholds⟩ := h.holds
  have hsound := h.sound.step (.tryReadNext call)
  have hreported := h.reported
  rw [hholds.tryReadNext_checked] at call
  have hinv := hholds.inv
  cases ready with
  | nil =>
    rw [tryReadNext_nil hinv] at call
    obtain ⟨rfl, rfl⟩ := Prod.mk.inj (Option.some.inj call)
    refine ⟨hsound, ⟨[], ?_⟩, fun h => absurd rfl h, hreported.snoc ?_⟩
    · rw [delivered_append]
      split <;> exact (List.append_nil _).symm ▸ hinv
    · cases hstate : r.state <;> simp [Event.Of]
  | cons record ready =>
    obtain ⟨r₁, heq, hstate, hinv'⟩ := tryReadNext_cons hinv
    rw [heq] at call
    obtain ⟨rfl, rfl⟩ := Prod.mk.inj (Option.some.inj call)
    have hactive : r.state = .active := hinv.active_of_ready (by simp)
    refine ⟨hsound, ⟨ready, by rw [delivered_append]; exact hinv'⟩, fun h => absurd rfl h, ?_⟩
    show Reported bytes ended faulty r₁.state _
    rw [hstate]
    refine hreported.snoc ?_
    show Event.Of r.state _
    rw [hactive]
    exact ⟨_, rfl⟩

theorem Seen.wait (h : Seen bytes ended faulty past ⟨r, none, unread⟩) (htorn : Torn bytes)
    {progress : Checked.Progress} {reading : Option Nat}
    (call : Checked.waitToRead r = some (progress, r')) (leaves : Leaves progress reading) :
    Seen bytes ended faulty (past ++ progress.events) ⟨r', reading, unread⟩ := by
  have hsound := h.sound.step (.wait call leaves)
  obtain ⟨ready, hinv⟩ := h.inv
  have hreported := h.reported
  -- a wait that returns at once
  have idle : ∀ result, Checked.waitToRead r = some (.returned result, r) →
      Event.Of r.state (.waited (result.mapError .error)) →
      Seen bytes ended faulty (past ++ progress.events) ⟨r', reading, unread⟩ := by
    intro result hcall hof
    rw [hcall] at call
    obtain ⟨rfl, rfl⟩ := Prod.mk.inj (Option.some.inj call)
    cases leaves
    exact ⟨hsound, ⟨ready, by rw [delivered_events]; exact hinv⟩, fun h => absurd rfl h,
      hreported.snoc hof⟩
  cases hstate : r.state with
  | finished => exact idle _ (by rw [Checked.waitToRead, hstate]) (by rw [hstate]; rfl)
  | failed => exact idle _ (by rw [Checked.waitToRead, hstate]) (by rw [hstate]; rfl)
  | active =>
    by_cases hbatch : r.batch = []
    · obtain rfl := hinv.batch_nil.mp hbatch
      rw [Checked.waitToRead, hstate] at call
      simp only [hbatch, ne_eq, not_true_eq_false, if_false] at call
      have hbefore := hreported
      rw [hstate] at hbefore
      exact .of_fill hinv hstate hbefore.before htorn call leaves hsound
    · refine idle (.ok true) ?_ (by rw [hstate]; exact .inl rfl)
      rw [Checked.waitToRead, hstate]
      exact if_pos hbatch

/-- A suspended wait holds no record back, and nothing was reported yet. -/
theorem Seen.suspended {spare : Nat}
    (h : Seen bytes ended faulty past ⟨r, some spare, unread⟩) :
    Inv bytes (delivered past) [] r unread ∧ r.state = .active ∧
      ∀ e ∈ past, Event.Of .active e := by
  obtain ⟨handed, ready, hholds⟩ := h.holds
  obtain ⟨rfl, hactive, -⟩ := hholds.reading spare rfl
  have hreported := h.reported
  rw [show r.state = .active from hactive] at hreported
  exact ⟨hholds.inv, hactive, hreported.before⟩

/-- **The end of the input.**  What is in the buffer is the rest of it. -/
theorem Seen.at_end {spare : Nat} (h : Seen bytes ended faulty past ⟨r, some spare, []⟩)
    (hended : ended) {progress : Checked.Progress} {reading : Option Nat}
    (call : Checked.resume r (.ok []) = some (progress, r')) (leaves : Leaves progress reading)
    (hsound : Sound bytes ⟨r', reading, []⟩) :
    Seen bytes ended faulty (past ++ progress.events) ⟨r', reading, []⟩ := by
  obtain ⟨hinv, -, hbefore⟩ := h.suspended
  obtain ⟨hlook, hpending⟩ := h.waiting (Option.some_ne_none _)
  obtain ⟨hrecords, hend⟩ := hinv.ended rfl hlook
  have hinv' : ∀ result, Inv bytes (delivered (past ++ [.waited result])) [] r [] := by
    intro result
    rw [delivered_waited]
    exact hinv
  by_cases hbuffer : r.buffer = []
  · obtain ⟨rfl, rfl⟩ := Prod.mk.inj (Option.some.inj ((if_pos hbuffer).symm.trans call))
    cases leaves
    refine ⟨hsound, ⟨[], (hinv' _).setState .finished⟩, fun h => absurd rfl h, ?_⟩
    rw [hbuffer] at hend
    exact .finished hbefore hended hrecords hend (by simp)
  · obtain ⟨rfl, rfl⟩ := Prod.mk.inj (Option.some.inj ((if_neg hbuffer).symm.trans call))
    cases leaves
    refine ⟨hsound, ⟨[], (hinv' _).setState .failed⟩, fun h => absurd rfl h, ?_⟩
    rw [endOfInput_of_more hlook hbuffer, ← hpending] at hend
    exact .truncated hbefore hended hrecords hend (by simp)

/-- **The answer of the source** to a suspended wait. -/
theorem Seen.received {spare n : Nat} (h : Seen bytes ended faulty past ⟨r, some spare, unread⟩)
    (htorn : Torn bytes) (delivers : Delivers spare n unread) (ends : unread = [] → ended)
    {progress : Checked.Progress} {reading : Option Nat}
    (call : Checked.resume r (.ok (unread.take n)) = some (progress, r'))
    (leaves : Leaves progress reading) :
    Seen bytes ended faulty (past ++ progress.events) ⟨r', reading, unread.drop n⟩ := by
  have hsound := h.sound.step (.received delivers call leaves)
  obtain ⟨hinv, hactive, hbefore⟩ := h.suspended
  cases hreceived : unread.take n with
  | nil =>
    -- a read has room, so nothing arrives only at the end
    obtain ⟨handed, ready, hholds⟩ := h.holds
    obtain ⟨-, -, hzero⟩ := hholds.room
    have hempty : unread = [] := by
      by_contra hne
      have hn : n ≠ 0 := fun hn => hne ((hzero n delivers).mp hn)
      simp [hne, hn] at hreceived
    subst hempty
    rw [List.drop_nil] at hsound ⊢
    rw [List.take_nil] at call
    exact h.at_end (ends rfl) call leaves hsound
  | cons b received =>
    have hinv' := hinv.receive n
    rw [hreceived] at call hinv'
    exact .of_fill hinv' hactive hbefore htorn call leaves hsound

theorem Seen.failed {spare : Nat} (h : Seen bytes ended faulty past ⟨r, some spare, unread⟩)
    (htorn : Torn bytes) {error : ErrorKind} (fault : error = .interrupted ∨ faulty)
    {progress : Checked.Progress} {reading : Option Nat}
    (call : Checked.resume r (.error error) = some (progress, r'))
    (leaves : Leaves progress reading) :
    Seen bytes ended faulty (past ++ progress.events) ⟨r', reading, unread⟩ := by
  have hsound := h.sound.step (.failed call leaves)
  obtain ⟨hinv, hactive, hbefore⟩ := h.suspended
  have broken : error ≠ .interrupted → Checked.resume r (.error error) =
      some (.returned (.error (.io error)), { r with state := .failed }) →
      Seen bytes ended faulty (past ++ progress.events) ⟨r', reading, unread⟩ := by
    intro hne hcall
    rw [hcall] at call
    obtain ⟨rfl, rfl⟩ := Prod.mk.inj (Option.some.inj call)
    cases leaves
    refine ⟨hsound, ⟨[], ?_⟩, fun h => absurd rfl h,
      .broken hbefore (fault.resolve_left hne) (by simp)⟩
    rw [delivered_events]
    exact hinv.setState .failed
  cases error with
  | interrupted => exact .of_fill hinv hactive hbefore htorn call leaves hsound
  | _ => exact broken (by simp) rfl

theorem Seen.cancelled {spare : Nat} (h : Seen bytes ended faulty past ⟨r, some spare, unread⟩) :
    Seen bytes ended faulty (past ++ [.waited (.error .stopped)]) ⟨r, none, unread⟩ := by
  obtain ⟨hinv, hactive, hbefore⟩ := h.suspended
  refine ⟨sound_idle hinv, ⟨[], by rw [delivered_waited]; exact hinv⟩, fun h => absurd rfl h, ?_⟩
  show Reported bytes ended faulty r.state _
  rw [hactive]
  exact .reading (forall_snoc hbefore (.inr rfl))

/-- **Every step** of the reader tells its caller the truth. -/
theorem Shows.seen (hs : Shows ended faulty c events c') (h : Seen bytes ended faulty past c)
    (htorn : Torn bytes) : Seen bytes ended faulty (past ++ events) c' := by
  cases hs with
  | tryReadNext call => exact h.tryReadNext call
  | wait call leaves => exact h.wait htorn call leaves
  | received delivers ends call leaves => exact h.received htorn delivers ends call leaves
  | failed fault call leaves => exact h.failed htorn fault call leaves
  | cancelled => exact h.cancelled

/-- More of the input arrives. -/
theorem Seen.arrive (h : Seen bytes ended faulty past c) (hopen : ¬ ended) (more : List UInt8) :
    Seen (bytes ++ more) ended faulty past { c with unread := c.unread ++ more } := by
  have harrived : ∀ {d ready}, Inv bytes d ready c.reader c.unread →
      Inv (bytes ++ more) d ready c.reader (c.unread ++ more) := by
    intro d ready hinv
    refine ⟨?_, hinv.batch_drop, hinv.batch_nil, hinv.header, hinv.active_of_ready⟩
    rw [← hinv.bytes_eq]
    simp only [List.append_assoc]
  obtain ⟨d, handed, ready, hholds⟩ := h.sound
  obtain ⟨ready', hinv⟩ := h.inv
  exact ⟨⟨d, handed, ready, harrived hholds.inv, hholds.batch, hholds.reading⟩,
    ⟨ready', harrived hinv⟩, h.waiting, h.reported.arrive hopen more⟩

theorem Seen.mono {ended' faulty' : Prop} (h : Seen bytes ended faulty past c)
    (hended : ended → ended') (hfaulty : faulty → faulty') : Seen bytes ended' faulty' past c :=
  ⟨h.sound, h.inv, h.waiting, h.reported.mono hended hfaulty⟩

/-- An active reader has met no fault. -/
theorem Seen.faultless (h : Seen bytes ended faulty past c) (hactive : c.reader.state = .active) :
    Seen bytes ended False past c := by
  have hreported := h.reported
  rw [hactive] at hreported
  refine ⟨h.sound, h.inv, h.waiting, ?_⟩
  rw [hactive]
  exact .reading hreported.before

/-! ### The reader comes to an end -/

omit [Crc32c] in
theorem exists_leaves (progress : Checked.Progress) : ∃ reading, Leaves progress reading := by
  cases progress with
  | returned result => exact ⟨none, .returned result⟩
  | reads additional => exact ⟨some additional, .reads (Nat.le_refl _)⟩

/-- The loop of a wait does not come back with nothing. -/
theorem Inv.fill_leaves (hinv : Inv bytes delivered' [] r unread) (hactive : r.state = .active)
    {progress : Checked.Progress} {reading : Option Nat}
    (call : Checked.fill r = some (progress, r')) (leaves : Leaves progress reading)
    (hactive' : r'.state = .active) : reading ≠ none ∨ r'.batch ≠ [] := by
  rcases hinv.fill_cases hactive call with ⟨ready, -, hbatch, -⟩ | ⟨e, -, -, hfailed⟩ |
    ⟨additional, rfl, -⟩
  · exact .inr hbatch
  · cases hactive'.symm.trans hfailed
  · cases leaves
    exact .inl (Option.some_ne_none _)

/-- The end of the input is reported. -/
theorem resume_nil_ne_active {progress : Checked.Progress}
    (call : Checked.resume r (.ok []) = some (progress, r')) : r'.state ≠ .active := by
  by_cases hbuffer : r.buffer = []
  · obtain ⟨-, rfl⟩ := Prod.mk.inj (Option.some.inj ((if_pos hbuffer).symm.trans call))
    simp
  · obtain ⟨-, rfl⟩ := Prod.mk.inj (Option.some.inj ((if_neg hbuffer).symm.trans call))
    simp

/-- What the steps of a reader at the end of its input make smaller: the records to hand
out, the bytes to receive, and the wait to begin. -/
def left (bytes : List UInt8) (past : List Event) (c : Connection) : Nat :=
  2 * ((TransactionLog.records bytes).length - (delivered past).length) + 2 * c.unread.length +
    if c.reading = none ∧ c.reader.batch = [] then 1 else 0

theorem left_le (bytes : List UInt8) (past : List Event) (c : Connection) :
    left bytes past c ≤ 2 * ((TransactionLog.records bytes).length - (delivered past).length) +
      2 * c.unread.length + 1 := by
  rw [left]
  split <;> omega

/-- **An active reader goes on** once its input has ended. -/
theorem Seen.progress (h : Seen bytes ended faulty past c) (hended : ended)
    (hactive : c.reader.state = .active) :
    ∃ events c', Shows ended faulty c events c' ∧
      (c'.reader.state = .active → left bytes (past ++ events) c' < left bytes past c) := by
  obtain ⟨handed, ready, hholds⟩ := h.holds
  obtain ⟨r, _ | spare, unread⟩ := c
  · by_cases hbatch : r.batch = []
    · -- a wait comes back with a batch or suspends
      obtain rfl := hholds.inv.batch_nil.mp hbatch
      obtain ⟨progress, r', call, -⟩ := hholds.waitToRead
      obtain ⟨reading, leaves⟩ := exists_leaves progress
      refine ⟨_, _, .wait call leaves, fun hactive' => ?_⟩
      rw [Checked.waitToRead, show r.state = .active from hactive] at call
      simp only [hbatch, ne_eq, not_true_eq_false, if_false] at call
      have hgoes : ¬ (reading = none ∧ r'.batch = []) := by
        intro hidle
        rcases hholds.inv.fill_leaves hactive call leaves hactive' with hreading | hbatch'
        · exact hreading hidle.1
        · exact hbatch' hidle.2
      rw [left, left, delivered_events, if_neg hgoes, if_pos ⟨rfl, hbatch⟩]
      exact Nat.lt_succ_self _
    · -- a record is handed out
      have hready : ready ≠ [] := fun hnil => hbatch (hholds.inv.batch_nil.mpr hnil)
      obtain ⟨record, rest, rfl⟩ := List.exists_cons_of_ne_nil hready
      obtain ⟨r', heq, -, hinv'⟩ := tryReadNext_cons hholds.inv
      refine ⟨_, _, .tryReadNext (hholds.tryReadNext_checked.trans heq), fun _ => ?_⟩
      have hdelivered : delivered (past ++ [.next (.ok (some record))]) =
          delivered past ++ [record] := delivered_append past _
      have hle := hinv'.delivered_isPrefix.length_le
      have hleft := left_le bytes (past ++ [.next (.ok (some record))]) ⟨r', none, unread⟩
      refine Nat.lt_of_le_of_lt hleft ?_
      rw [left, if_neg fun hnil => hbatch hnil.2, hdelivered]
      simp only [List.length_append, List.length_singleton] at hle ⊢
      omega
  · -- what is there arrives
    obtain ⟨progress, r', call, -⟩ := hholds.resume (min spare unread.length)
    obtain ⟨reading, leaves⟩ := exists_leaves progress
    obtain ⟨-, hpos, -⟩ := hholds.room
    refine ⟨_, _, .received ⟨Nat.min_le_left _ _, Nat.min_le_right _ _, fun hzero => ?_⟩
      (fun _ => hended) call leaves, fun hactive' => ?_⟩
    · refine .inr (List.length_eq_zero_iff.mp ?_)
      omega
    · by_cases hempty : unread = []
      · subst hempty
        rw [List.take_nil] at call
        exact absurd hactive' (resume_nil_ne_active call)
      · have hunread := List.length_pos_iff.mpr hempty
        have hleft := left_le bytes (past ++ progress.events)
          ⟨r', reading, unread.drop (min spare unread.length)⟩
        refine Nat.lt_of_le_of_lt hleft ?_
        rw [left, if_neg fun hnone => Option.some_ne_none _ hnone.1, delivered_events]
        simp only [List.length_drop]
        omega

end RecordReader

end TransactionLog
