import TransactionLog.Record.Reader

/-!
# Reading agrees with parsing

A caller of the record reader interleaves `waitToRead` and `tryReadNext` as it
likes.  The source delivers the input in pieces of any size, interrupts, and may
leave a wait abandoned.  `Outcome` says what the caller sees: the records of the
pure parser in order, then the parser's result, and after it nothing new.

The proof is a step lemma for each action (`act_wait`, `act_tryNext`) and an
induction over the run.
-/

namespace TransactionLog

open Lib Protocol

namespace RecordReader

/-- The source that is a byte sequence. -/
def byteSource : Source (List UInt8) := ⟨id, List.drop⟩

theorem byteSource_lawful : byteSource.Lawful fun _ => True :=
  ⟨fun _ _ _ => rfl, fun _ _ _ => trivial⟩

inductive Action where
  | wait (plan : Plan)
  | tryNext

variable [Crc32c]

inductive Event where
  | waited (result : Except (Exit RecordReadError) Bool)
  | next (result : Except RecordReadError (Option Record))

def act : Action → RecordReader × List UInt8 → Option (Event × (RecordReader × List UInt8))
  | .wait plan, s =>
    let (result, w) := (waitToRead byteSource).run s plan
    some (.waited result, w.sys)
  | .tryNext, s => s.1.tryReadNext.map fun (result, r) => (.next result, (r, s.2))

/-- The events of a run and the state it ends in. -/
def run : List Action → RecordReader × List UInt8 →
    Option (List Event × (RecordReader × List UInt8))
  | [], s => some ([], s)
  | a :: as, s => do
    let (e, s') ← act a s
    let (es, s'') ← run as s'
    some (e :: es, s'')

def Event.record? : Event → Option Record
  | .next (.ok record) => record
  | _ => none

/-- The records handed out. -/
def delivered (events : List Event) : List Record := events.filterMap Event.record?

/-- What an action reports in a reader that stays in this state. -/
def Event.Of : ReaderState → Event → Prop
  | .active, .waited result => result = .ok true ∨ result = .error .stopped
  | .active, .next result => ∃ record, result = .ok record
  | .finished, .waited result => result = .ok false
  | .finished, .next result => result = .ok none
  | .failed, .waited result => result = .error (.error .readerFailed)
  | .failed, .next result => result = .error .readerFailed

/-- What the caller sees of the input `bytes`: records first, then the result, and
after the result only its echo. -/
inductive Outcome (bytes : List UInt8) : ReaderState → List Event → Prop
  | reading {past : List Event} (before : ∀ e ∈ past, Event.Of .active e)
      (records : delivered past <+: records bytes) : Outcome bytes .active past
  | finished {past post : List Event} (before : ∀ e ∈ past, Event.Of .active e)
      (records : delivered past = records bytes) (result : parseEnd bytes = .ok ())
      (after : ∀ e ∈ post, Event.Of .finished e) :
      Outcome bytes .finished (past ++ .waited (.ok false) :: post)
  | failed {past post : List Event} {error : RecordReadError}
      (before : ∀ e ∈ past, Event.Of .active e)
      (records : delivered past = records bytes) (result : parseEnd bytes = .error error)
      (after : ∀ e ∈ post, Event.Of .failed e) :
      Outcome bytes .failed (past ++ .waited (.error (.error error)) :: post)

/-- The reader's fields mean what the events so far say. -/
def History (bytes : List UInt8) (past : List Event) (s : RecordReader × List UInt8) : Prop :=
  Outcome bytes s.1.state past ∧ ∃ ready, Inv bytes (delivered past) ready s.1 s.2

variable {bytes : List UInt8} {past : List Event} {s : RecordReader × List UInt8}

theorem history_new (bytes : List UInt8) : History bytes [] (new, bytes) :=
  ⟨.reading (by simp) (List.nil_prefix), [], inv_new bytes⟩

theorem delivered_append (past post : List Event) :
    delivered (past ++ post) = delivered past ++ delivered post := List.filterMap_append

theorem delivered_waited_cons (post : List Event) (result : Except (Exit RecordReadError) Bool) :
    delivered (.waited result :: post) = delivered post := rfl

theorem delivered_waited (past : List Event) (result : Except (Exit RecordReadError) Bool) :
    delivered (past ++ [.waited result]) = delivered past := by
  rw [delivered_append]
  exact List.append_nil _

/-- The result has been reported: what follows hands out nothing. -/
theorem Event.record?_of {state : ReaderState} (hstate : state ≠ .active) {e : Event}
    (h : e.Of state) : e.record? = none := by
  cases state with
  | active => exact absurd rfl hstate
  | finished => cases e <;> simp only [Event.Of] at h <;> subst h <;> rfl
  | failed => cases e <;> simp only [Event.Of] at h <;> subst h <;> rfl

theorem Outcome.delivered_isPrefix {state : ReaderState} (h : Outcome bytes state past) :
    delivered past <+: TransactionLog.records bytes := by
  have hpost : ∀ {st : ReaderState}, st ≠ .active → ∀ {post : List Event},
      (∀ e ∈ post, Event.Of st e) → delivered post = [] := by
    intro st hst post hp
    exact List.filterMap_eq_nil_iff.mpr fun e he => Event.record?_of hst (hp e he)
  cases h with
  | reading before records => exact records
  | finished before records result after =>
    rw [delivered_append, delivered_waited_cons, records, hpost (by simp) after, List.append_nil]
  | failed before records result after =>
    rw [delivered_append, delivered_waited_cons, records, hpost (by simp) after, List.append_nil]

/-- An event of a reader that stays in its state extends what the caller sees. -/
theorem Outcome.snoc {state : ReaderState} (h : Outcome bytes state past) {e : Event}
    (he : e.Of state) (hrecords : delivered (past ++ [e]) <+: TransactionLog.records bytes) :
    Outcome bytes state (past ++ [e]) := by
  have hsnoc : ∀ {st : ReaderState} {xs : List Event}, (∀ x ∈ xs, Event.Of st x) → e.Of st →
      ∀ x ∈ xs ++ [e], Event.Of st x := by
    intro st xs hxs he x hx
    rcases List.mem_append.mp hx with hx | hx
    · exact hxs x hx
    · rw [List.mem_singleton.mp hx]
      exact he
  cases h with
  | reading before records => exact .reading (hsnoc before he) hrecords
  | finished before records result after =>
    rw [List.append_assoc]
    exact .finished before records result (hsnoc after he)
  | failed before records result after =>
    rw [List.append_assoc]
    exact .failed before records result (hsnoc after he)

theorem Outcome.active (h : Outcome bytes .active past) : ∀ e ∈ past, Event.Of .active e := by
  cases h with
  | reading before records => exact before

/-! ### One action -/

theorem act_wait_of {plan : Plan} {result : Except (Exit RecordReadError) Bool}
    {w : World (RecordReader × List UInt8)}
    (h : (waitToRead byteSource).run s plan = (result, w)) :
    act (.wait plan) s = some (.waited result, w.sys) := by
  rw [act, h]

/-- **A wait** keeps the meaning of the reader; a calm one leaves a batch or
reports the result. -/
theorem act_wait {c : Mode} (hc : ∀ f, c.faults f → f = .interrupted) {plan : Plan}
    (hplan : plan.Within c) (h : History bytes past s) :
    ∃ e s', act (.wait plan) s = some (e, s') ∧ History bytes (past ++ [e]) s' ∧
      delivered (past ++ [e]) = delivered past ∧
      (s'.1.state = .active → s.1.state = .active) ∧
      (c.calm → s'.1.state = .active → s'.1.batch ≠ []) := by
  obtain ⟨hout, ready, hinv⟩ := h
  by_cases hidle : s.1.state = .active → s.1.batch ≠ []
  · -- nothing to wait for
    refine ⟨_, _, act_wait_of (waitToRead_apply s plan hidle), ⟨hout.snoc ?_ ?_, ready, ?_⟩,
      delivered_waited past _, id, fun _ => hidle⟩
    · cases hs : s.1.state <;> simp [Event.Of]
    · rw [delivered_waited]
      exact hout.delivered_isPrefix
    · rw [delivered_waited]
      exact hinv
  simp only [Classical.not_imp, not_not] at hidle
  obtain ⟨hactive, hbatch⟩ := hidle
  obtain rfl := hinv.batch_nil.mp hbatch
  rw [hactive] at hout
  obtain ⟨-, hr⟩ := waitToRead_triple (c := c) byteSource_lawful ⟨s, plan⟩
    ⟨hinv, hactive, trivial⟩ hplan
  -- the reader's new state decides how the events go on
  have done : ∀ {result w state ready}, waitToRead byteSource ⟨s, plan⟩ = (result, w) →
      w.sys.1.state = state → Outcome bytes state (past ++ [.waited result]) →
      Inv bytes (delivered past) ready w.sys.1 w.sys.2 →
      (c.calm → state = .active → w.sys.1.batch ≠ []) →
      ∃ e s', act (.wait plan) s = some (e, s') ∧ History bytes (past ++ [e]) s' ∧
        delivered (past ++ [e]) = delivered past ∧
        (s'.1.state = .active → s.1.state = .active) ∧
        (c.calm → s'.1.state = .active → s'.1.batch ≠ []) := by
    rintro result w state ready hw rfl hout hinv hcalm
    exact ⟨_, _, act_wait_of hw, ⟨hout, ready, by rw [delivered_waited]; exact hinv⟩,
      delivered_waited past _, fun _ => hactive, hcalm⟩
  have hpre : ∀ result, delivered (past ++ [.waited result]) <+: TransactionLog.records bytes := by
    intro result
    rw [delivered_waited]
    exact hout.delivered_isPrefix
  rcases hw : waitToRead byteSource ⟨s, plan⟩ with ⟨(e | _ | _) | (_ | _), w⟩ <;> rw [hw] at hr
  · obtain ⟨⟨hinv', hstate, ⟨hd, hend⟩ | ⟨code, -, -, hf⟩⟩, -⟩ := hr
    · exact done hw hstate (.failed hout.active hd hend (by simp)) hinv' (by simp)
    · cases hc _ hf
  · obtain ⟨⟨hinv', hcalm, hstate⟩, -⟩ := hr
    exact done hw hstate (hout.snoc (.inr rfl) (hpre _)) hinv' fun h => absurd h hcalm
  · exact absurd hr.1.2 id
  · obtain ⟨⟨hinv', hstate, hd, hend⟩, -⟩ := hr
    exact done hw hstate (.finished hout.active hd hend (by simp)) hinv' (by simp)
  · obtain ⟨⟨ready, hne, hinv', hstate⟩, -⟩ := hr
    exact done hw hstate (hout.snoc (.inl rfl) (hpre _)) hinv' fun _ _ hnil =>
      hne (hinv'.batch_nil.mp hnil)

/-- **`tryReadNext`** keeps the meaning of the reader, and hands out a record if
there is a batch. -/
theorem act_tryNext (h : History bytes past s) :
    ∃ e s', act .tryNext s = some (e, s') ∧ History bytes (past ++ [e]) s' ∧
      s'.1.state = s.1.state ∧
      (s.1.batch ≠ [] → (delivered (past ++ [e])).length = (delivered past).length + 1) := by
  obtain ⟨hout, ready, hinv⟩ := h
  cases ready with
  | nil =>
    have heq := tryReadNext_nil hinv
    refine ⟨_, s, by rw [act, heq]; rfl, ⟨hout.snoc ?_ ?_, [], ?_⟩, rfl, ?_⟩
    · cases hs : s.1.state <;> simp [Event.Of]
    · rw [delivered_append]
      split <;> exact (List.append_nil _).symm ▸ hout.delivered_isPrefix
    · rw [delivered_append]
      split <;> exact (List.append_nil _).symm ▸ hinv
    · exact fun hne => absurd (hinv.batch_nil.mpr rfl) hne
  | cons record ready =>
    obtain ⟨r', heq, hstate, hinv'⟩ := tryReadNext_cons hinv
    have hactive := hinv.active_of_ready (by simp)
    have hd : delivered (past ++ [.next (.ok (some record))]) = delivered past ++ [record] :=
      delivered_append past _
    refine ⟨_, (r', s.2), by rw [act, heq]; rfl, ⟨?_, ready, hd ▸ hinv'⟩, hstate, ?_⟩
    · show Outcome bytes r'.state _
      rw [hstate, hactive]
      rw [hactive] at hout
      exact hout.snoc ⟨_, rfl⟩ (by rw [hd]; exact hinv'.delivered_isPrefix)
    · intro _
      rw [hd, List.length_append]
      rfl

/-! ### Runs -/

/-- The only faults are interruptions. -/
def Action.Transient : Action → Prop
  | .wait plan => plan.Within ⟨False, fun f => f = .interrupted⟩
  | .tryNext => True

theorem act_history {a : Action} (ha : a.Transient) (h : History bytes past s) :
    ∃ e s', act a s = some (e, s') ∧ History bytes (past ++ [e]) s' := by
  cases a with
  | wait plan =>
    obtain ⟨e, s', hact, h', -⟩ := act_wait (fun _ hf => hf) ha h
    exact ⟨e, s', hact, h'⟩
  | tryNext =>
    obtain ⟨e, s', hact, h', -⟩ := act_tryNext h
    exact ⟨e, s', hact, h'⟩

theorem run_cons {a : Action} {as : List Action} {e : Event} {es : List Event}
    {s' s'' : RecordReader × List UInt8} (ha : act a s = some (e, s'))
    (has : run as s' = some (es, s'')) : run (a :: as) s = some (e :: es, s'') := by
  rw [run, ha]
  show (run as s').bind _ = _
  rw [has]
  rfl

/-- **Every run** keeps the meaning of the reader. -/
theorem run_history : ∀ (as : List Action), (∀ a ∈ as, a.Transient) →
    ∀ past s, History bytes past s →
    ∃ es s', run as s = some (es, s') ∧ History bytes (past ++ es) s' := by
  intro as
  induction as with
  | nil => exact fun _ past s h => ⟨[], s, rfl, by rwa [List.append_nil]⟩
  | cons a as ih =>
    intro has past s h
    obtain ⟨e, s', hact, h'⟩ := act_history (has a List.mem_cons_self) h
    obtain ⟨es, s'', hrun, h''⟩ := ih (fun b hb => has b (List.mem_cons_of_mem a hb)) _ s' h'
    refine ⟨e :: es, s'', run_cons hact hrun, ?_⟩
    rwa [List.append_assoc] at h''

theorem run_append {as bs : List Action} {es fs : List Event}
    {s' s'' : RecordReader × List UInt8} : ∀ {s}, run as s = some (es, s') →
    run bs s' = some (fs, s'') → run (as ++ bs) s = some (es ++ fs, s'') := by
  induction as generalizing es with
  | nil =>
    intro s h h'
    obtain ⟨rfl, rfl⟩ := Prod.mk.inj (Option.some.inj h)
    exact h'
  | cons a as ih =>
    intro s h h'
    simp only [run, Option.bind_eq_bind, Option.bind_eq_some_iff] at h
    obtain ⟨⟨e, s₁⟩, hact, ⟨es₁, s₂⟩, hrun, hes⟩ := h
    obtain ⟨rfl, rfl⟩ := Prod.mk.inj (Option.some.inj hes)
    exact run_cons hact (ih hrun h')

/-! ### Whatever the source does -/

/-- The reader's fields mean what the records handed out so far say. -/
def Keeps (bytes : List UInt8) (past : List Event) (s : RecordReader × List UInt8) : Prop :=
  ∃ ready, Inv bytes (delivered past) ready s.1 s.2

theorem act_keeps (a : Action) (h : Keeps bytes past s) :
    ∃ e s', act a s = some (e, s') ∧ Keeps bytes (past ++ [e]) s' := by
  obtain ⟨ready, hinv⟩ := h
  cases a with
  | wait plan =>
    have done : ∀ {result w ready}, (waitToRead byteSource).run s plan = (result, w) →
        Inv bytes (delivered past) ready w.sys.1 w.sys.2 →
        ∃ e s', act (.wait plan) s = some (e, s') ∧ Keeps bytes (past ++ [e]) s' := by
      intro result w ready hw hinv
      exact ⟨_, _, act_wait_of hw, ready, by rw [delivered_waited]; exact hinv⟩
    by_cases hidle : s.1.state = .active → s.1.batch ≠ []
    · exact done (waitToRead_apply s plan hidle) hinv
    simp only [Classical.not_imp, not_not] at hidle
    obtain ⟨hactive, hbatch⟩ := hidle
    obtain rfl := hinv.batch_nil.mp hbatch
    obtain ⟨-, hr⟩ := waitToRead_triple byteSource_lawful ⟨s, plan⟩ ⟨hinv, hactive, trivial⟩
      plan.within_any
    rcases hw : waitToRead byteSource ⟨s, plan⟩ with ⟨e | b, w⟩ <;> rw [hw] at hr
    · exact done hw hr.1.1
    · cases b with
      | false => exact done hw hr.1.1
      | true =>
        obtain ⟨⟨ready, -, hinv', -⟩, -⟩ := hr
        exact done hw hinv'
  | tryNext =>
    cases ready with
    | nil =>
      refine ⟨_, s, by rw [act, tryReadNext_nil hinv]; rfl, [], ?_⟩
      rw [delivered_append]
      split <;> exact (List.append_nil _).symm ▸ hinv
    | cons record ready =>
      obtain ⟨r', heq, -, hinv'⟩ := tryReadNext_cons hinv
      have hd : delivered (past ++ [.next (.ok (some record))]) = delivered past ++ [record] :=
        delivered_append past _
      exact ⟨_, (r', s.2), by rw [act, heq]; rfl, ready, hd ▸ hinv'⟩

theorem run_keeps (as : List Action) : ∀ past s, Keeps bytes past s →
    ∃ es s', run as s = some (es, s') ∧ Keeps bytes (past ++ es) s' := by
  induction as with
  | nil => exact fun past s h => ⟨[], s, rfl, by rwa [List.append_nil]⟩
  | cons a as ih =>
    intro past s h
    obtain ⟨e, s', hact, h'⟩ := act_keeps a h
    obtain ⟨es, s'', hrun, h''⟩ := ih _ s' h'
    refine ⟨e :: es, s'', run_cons hact hrun, ?_⟩
    rwa [List.append_assoc] at h''

/-- **Every run** hands out records of the input only, in order, also when the
source fails. -/
theorem run_delivered (bytes : List UInt8) (as : List Action) :
    ∃ events s, run as (new, bytes) = some (events, s) ∧
      delivered events <+: TransactionLog.records bytes := by
  obtain ⟨events, s, hrun, ready, hinv⟩ := run_keeps as [] (new, bytes) ⟨[], inv_new bytes⟩
  exact ⟨events, s, hrun, hinv.delivered_isPrefix⟩

/-! ### Draining -/

/-- Waiting calmly and taking one record, `n` times. -/
def rounds : Nat → List Action
  | 0 => []
  | n + 1 => .wait .calm :: .tryNext :: rounds n

/-- A run that goes on for long enough reports the result. -/
theorem run_rounds : ∀ (n : Nat) (past : List Event) (s : RecordReader × List UInt8),
    History bytes past s → (s.1.state = .active →
      (TransactionLog.records bytes).length < (delivered past).length + n) →
    ∃ es s', run (rounds n) s = some (es, s') ∧ History bytes (past ++ es) s' ∧
      s'.1.state ≠ .active := by
  intro n
  induction n with
  | zero =>
    intro past s h hn
    refine ⟨[], s, rfl, by rwa [List.append_nil], fun hactive => ?_⟩
    have := hn hactive
    have := h.1.delivered_isPrefix.length_le
    omega
  | succ n ih =>
    intro past s h hn
    -- the wait leaves a batch unless it reports the result, and the batch gives a record
    have hcalm : Plan.Within ⟨True, fun f => f = .interrupted⟩ .calm := trivial
    obtain ⟨e₁, s₁, hact₁, h₁, hd₁, hactive₀, hbatch⟩ := act_wait (fun _ hf => hf) hcalm h
    obtain ⟨e₂, s₂, hact₂, h₂, hstate, hd₂⟩ := act_tryNext h₁
    obtain ⟨es, s', hrun, h', hend⟩ := ih _ s₂ h₂ (by
      intro hactive
      have hactive₁ := hstate.symm.trans hactive
      have hlen := hd₂ (hbatch trivial hactive₁)
      rw [hd₁] at hlen
      have := hn (hactive₀ hactive₁)
      omega)
    refine ⟨e₁ :: e₂ :: es, s', run_cons hact₁ (run_cons hact₂ hrun), ?_, hend⟩
    simpa using h'

/-- **The reader is the pure parser**, however the input arrives: in every run the
caller sees an outcome of the parser, and a run that goes on long enough has seen
all records and the result. -/
theorem run_outcome (bytes : List UInt8) (as : List Action) (has : ∀ a ∈ as, a.Transient) :
    ∃ events s, run as (new, bytes) = some (events, s) ∧ Outcome bytes s.1.state events ∧
      ∃ more s', run (as ++ rounds ((TransactionLog.records bytes).length + 1)) (new, bytes) =
        some (events ++ more, s') ∧ Outcome bytes s'.1.state (events ++ more) ∧
        s'.1.state ≠ .active := by
  obtain ⟨events, s, hrun, h⟩ := run_history as has [] _ (history_new bytes)
  rw [List.nil_append] at h
  obtain ⟨more, s', hrun', h', hend⟩ :=
    run_rounds ((TransactionLog.records bytes).length + 1) events s h (fun _ => by omega)
  exact ⟨events, s, hrun, h.1, more, s', run_append hrun hrun', h'.1, hend⟩

omit [Crc32c] in
theorem run_outcome_hello : letI := Crc32c.reference
    let as := [.wait (.next (.upTo 3 0) (.next (.fault .interrupted) .stop)), .tryNext]
    ∃ events s, run as (new, helloFrame) = some (events, s) ∧
      Outcome helloFrame s.1.state events ∧
      ∃ more s', run (as ++ rounds ((TransactionLog.records helloFrame).length + 1))
          (new, helloFrame) = some (events ++ more, s') ∧
        Outcome helloFrame s'.1.state (events ++ more) ∧ s'.1.state ≠ .active :=
  letI := Crc32c.reference
  run_outcome helloFrame [.wait (.next (.upTo 3 0) (.next (.fault .interrupted) .stop)), .tryNext]
    (by simp [Action.Transient, Plan.Within])

omit [Crc32c] in
theorem transient_rounds : ∀ n, ∀ a ∈ rounds n, a.Transient
  | 0 => by simp [rounds]
  | n + 1 => by
    intro a ha
    rcases List.mem_cons.mp ha with rfl | ha
    · trivial
    rcases List.mem_cons.mp ha with rfl | ha
    · trivial
    exact transient_rounds n a ha

/-- Reading `bytes` gives `rs` and a clean end: in every run that has come to an
end, and every run can come to an end. -/
def ReadsCleanly (bytes : List UInt8) (rs : List Record) : Prop :=
  ∀ as : List Action, (∀ a ∈ as, a.Transient) →
    (∃ events s, run as (new, bytes) = some (events, s) ∧
      (s.1.state ≠ .active → s.1.state = .finished ∧ delivered events = rs)) ∧
    ∃ more events s, (∀ a ∈ more, a.Transient) ∧
      run (as ++ more) (new, bytes) = some (events, s) ∧ s.1.state = .finished

theorem Outcome.eq_of_clean {state : ReaderState} (h : Outcome bytes state past)
    (hend : parseEnd bytes = .ok ()) (hstate : state ≠ .active) :
    state = .finished ∧ delivered past = TransactionLog.records bytes := by
  cases h with
  | reading before records => exact absurd rfl hstate
  | @finished past post before records result after =>
    refine ⟨rfl, ?_⟩
    have hpost : delivered post = [] :=
      List.filterMap_eq_nil_iff.mpr fun e he => Event.record?_of hstate (after e he)
    rw [delivered_append, delivered_waited_cons, hpost, records, List.append_nil]
  | failed before records result after => rw [hend] at result; cases result

theorem readsCleanly (hend : parseEnd bytes = .ok ()) :
    ReadsCleanly bytes (TransactionLog.records bytes) := by
  intro as has
  obtain ⟨events, s, hrun, h⟩ := run_history as has [] _ (history_new bytes)
  rw [List.nil_append] at h
  obtain ⟨more, s', hrun', h', hstate⟩ :=
    run_rounds ((TransactionLog.records bytes).length + 1) events s h (fun _ => by omega)
  exact ⟨⟨events, s, hrun, h.1.eq_of_clean hend⟩, _, _, _, transient_rounds _,
    run_append hrun hrun', (h'.1.eq_of_clean hend hstate).1⟩

/-- A run that came to a clean end has handed out records whose encodings are the
input. -/
theorem encodings_delivered {as : List Action} (has : ∀ a ∈ as, a.Transient)
    {events : List Event} (hrun : run as (new, bytes) = some (events, s))
    (hstate : s.1.state = .finished) : encodings (delivered events) = bytes := by
  obtain ⟨events', s', hrun', h⟩ := run_history as has [] _ (history_new bytes)
  rw [hrun] at hrun'
  obtain ⟨rfl, rfl⟩ := Prod.mk.inj (Option.some.inj hrun')
  rw [List.nil_append] at h
  obtain ⟨hout, -⟩ := h
  have hend : parseEnd bytes = .ok () := by
    rw [hstate] at hout
    cases hout with
    | finished before records result after => exact result
  rw [(hout.eq_of_clean hend (by simp [hstate])).2]
  exact encodings_records_of_clean hend

end RecordReader

end TransactionLog
