import TransactionLog.Streams.WriterRecovery

/-!
# The end of the sequence domain

A file has room for `recordsPerFile` records, and in every ordinary file that is its
assigned range.  The terminal file's range is shorter: its last ID is the last one
there is, and computing the ID after it panics.  So the writer refuses that record,
the file is never full, and recovery of a log that holds it has no writer to hand over to.
-/

namespace TransactionLog

open Lib

namespace IndexedLogWriter

open IndexedLogValidator (validate outcome openedIndex Certified)
open LogFileValidator (trustedCount startPosition found endAfter Exhausted)

variable [Crc32c] {f : LogFileId} {rs : List Record} {s : State}

/-- An append that was accepted and reports whether it has filled the file. -/
def Accepted (f : LogFileId) (r : Record) (o : Outcome) : Prop :=
  ∃ a, o = .ok (.appended a) ∧ a.endLocation.recordId = r.id ∧
    (a.fileFull = true ↔ r.id = f.lastRecordId)

theorem id_eq_lastRecordId {r : Record} (hr : Fills f (rs ++ [r]))
    (hlt : f.firstRecordId.sequenceNumber.get + rs.length + 1 < 2 ^ 64) :
    r.id = f.lastRecordId ↔ rs.length + 1 = recordsPerFile := by
  obtain ⟨-, hs, hn, -⟩ := consecutive_append.mp hr.consecutive
  have hlast := LogFileId.lastRecordId_sequence (f := f)
  rw [recordsPerFile_eq]
  constructor
  · intro h
    rw [h] at hn
    omega
  · intro h
    exact RecordId.ext' hs (by omega)

theorem Live.accepts : ∀ (ys : List Record) {rs : List Record} {s : State}, Live f rs s →
    Fills f (rs ++ ys) → f.firstRecordId.sequenceNumber.get + (rs ++ ys).length < 2 ^ 64 →
    List.Forall₂ (Accepted f) ys (outcomes s (ys.map .writeRecord)) := by
  intro ys
  induction ys with
  | nil => exact fun _ _ _ => .nil
  | cons y ys ih =>
    intro rs s h hfills hlt
    have hsplit : rs ++ y :: ys = rs ++ [y] ++ ys := by rw [List.append_assoc, List.singleton_append]
    rw [hsplit] at hfills hlt
    have hlen := hlt
    rw [List.length_append, List.length_append, List.length_singleton] at hlen
    have hy := hfills.of_isPrefix (List.prefix_append _ _)
    obtain ⟨a, ha, hend, hfull, hlive, -⟩ := h.append hy (by omega)
    refine .cons ⟨a, ha, ?_, hfull.trans (id_eq_lastRecordId hy (by omega)).symm⟩
      (ih hlive hfills hlt)
    rw [endOf_append_singleton] at hend
    rw [← Option.some.inj hend]

/-- A full writer refuses every record. -/
theorem Live.full (h : Live f rs s) (hfull : rs.length = recordsPerFile) (r : Record) :
    step s (.writeRecord r) = (.error (.error .full), s) := by
  have hcheck : s.1.checkOpen = .ok () := by rw [checkOpen, h.opened]
  have hisFull : s.1.isFull = true := by rw [isFull, h.recordCount, decide_eq_true_eq, hfull]
  simp only [step, writeRecord, Io.run, Io.bind_apply, Io.get, hcheck, hisFull, if_true]
  rfl

/-- A full pair can be finalized once it is synchronized. -/
theorem Live.finalize (h : Live f rs s) (hfull : rs.length = recordsPerFile) {plan : Plan}
    (hplan : plan.Smooth) : ∃ e, (step s (.syncData plan)).1 = .ok .done ∧
      (step (step s (.syncData plan)).2 .finalize).1 = .ok (.finalized e) ∧
      endOf rs = some e := by
  obtain ⟨flushed, synced, hat⟩ := h.inv.at
  obtain ⟨-, hr⟩ := syncData_triple (c := ⟨True, fun _ => True⟩) tracks_channels .opened ⟨s, plan⟩
    ⟨hat, h.opened⟩ hplan
  have hstep : step s (.syncData plan) =
      (((syncData logDest indexDest ⟨s, plan⟩).1.map fun _ => Reply.done),
        (syncData logDest indexDest ⟨s, plan⟩).2.sys) := rfl
  rw [hstep]
  rcases hw : syncData logDest indexDest ⟨s, plan⟩ with ⟨e | a, w⟩ <;> rw [hw] at hr
  · rcases hr with hr | ⟨-, hr⟩
    · exact absurd trivial (hr.2.2.2.1 rfl).1
    · exact absurd trivial (hr.2.2.2.1 rfl).1
  · obtain ⟨hat', hopen, -⟩ := hr
    obtain ⟨-, hf⟩ := finalize_triple (c := ⟨True, fun _ => False⟩) w.sys hat' ⟨w.sys, .calm⟩ rfl
      trivial
    have hstep' : step w.sys .finalize =
        (((IndexedLogWriter.finalize ⟨w.sys, .calm⟩).1.map Reply.finalized),
          (IndexedLogWriter.finalize ⟨w.sys, .calm⟩ : _ × World (IndexedLogWriter × _)).2.sys) := rfl
    simp only [hstep']
    rcases hw' : (IndexedLogWriter.finalize ⟨w.sys, .calm⟩ :
      Except (Exit IndexedLogWriteError) _ × World (IndexedLogWriter × Channel × Channel))
      with ⟨e | e, w'⟩ <;> rw [hw'] at hf
    · exact absurd ⟨hopen, hfull, rfl⟩ hf.2.2.2
    · exact ⟨e, rfl, rfl, hf.2.2.2.2.2.2⟩

/-- No writer accepts the last record ID there is. -/
theorem Live.exhausted (h : Live f rs s) (hf : f.Terminal) {r : Record}
    (hr : Fills f (rs ++ [r])) (hid : r.id = f.lastRecordId) :
    step s (.writeRecord r) = (.error .panicked, s) := by
  obtain ⟨flushed, synced, hat⟩ := h.inv.at
  have hm := hat.inv.marks
  obtain ⟨-, hs, hn, -⟩ := consecutive_append.mp hr.consecutive
  have hexpected : r.id = s.1.expectedRecordId :=
    RecordId.ext' (hs.trans hm.expected_stream.symm) (hn.trans hm.expected.symm)
  have hcount : rs.length < recordsPerFile := by
    have := hr.length_le
    rw [List.length_append, List.length_singleton] at this
    omega
  have hlast := LogFileId.terminal_lastRecordId hf
  rw [hid, hlast] at hn
  obtain ⟨-, hw⟩ := writeRecord_triple (c := ⟨True, fun _ => False⟩) r s hat ⟨s, .calm⟩ rfl trivial
  rw [step, Io.run]
  rcases hrun : writeRecord r ⟨s, .calm⟩ with ⟨e | a, w⟩ <;> rw [hrun] at hw
  · obtain ⟨rfl, -⟩ := hw.2.2.2 h.opened hexpected hcount
    exact Prod.ext rfl hw.1
  · -- the writer would expect an ID that does not exist
    have hnext : w.sys.1.expectedRecordId.sequenceNumber.get =
        f.firstRecordId.sequenceNumber.get + (rs ++ [r]).length := hw.1.inv.marks.expected
    have hlt := w.sys.1.expectedRecordId.sequenceNumber.lt
    rw [List.length_append, List.length_singleton] at hnext
    omega

/-- Recovery reports a complete file exactly where its last ID is held. -/
theorem outcome_complete_iff (hf : ¬ f.Terminal) (hrs : Fills f rs) :
    (∃ e, outcome (endOf rs) = .complete e) ↔ ∃ r ∈ rs, r.id = f.lastRecordId := by
  have hlast := LogFileId.lastRecordId_sequence (f := f)
  have hlt := LogFileId.firstRecordId_add_lt hf (Nat.le_refl recordsPerFile)
  have hlen := hrs.length_le
  rw [recordsPerFile_eq] at hlt hlen
  have hmem : (∃ r ∈ rs, r.id = f.lastRecordId) ↔ rs.length = recordsPerFile := by
    rw [recordsPerFile_eq]
    constructor
    · rintro ⟨r, hr, hid⟩
      obtain ⟨i, hi, rfl⟩ := List.getElem_of_mem hr
      have hn := (hrs.consecutive.get i hi).2
      rw [hid] at hn
      omega
    · intro h
      have hi : 99999 < rs.length := by omega
      obtain ⟨hs, hn⟩ := hrs.consecutive.get 99999 hi
      exact ⟨_, List.getElem_mem hi, RecordId.ext' hs (by omega)⟩
  rw [hmem]
  cases he : endOf rs with
  | none =>
    rw [endOf_eq_none.mp he]
    simp [outcome]
  | some e =>
    have hcount := (hrs.endOf_eq_some he).2.2.2.2
    rw [outcome, hcount]
    split
    · exact ⟨fun _ => ‹_›, fun _ => ⟨e, rfl⟩⟩
    · rename_i hne
      refine ⟨?_, fun h => absurd h hne⟩
      rintro ⟨_, he⟩
      cases he

theorem outcome_ne_complete (hf : f.Terminal) (hrs : Fills f rs) (e : RecordEndLocation) :
    outcome (endOf rs) ≠ .complete e := by
  cases he : endOf rs with
  | none => simp [outcome]
  | some e' =>
    have hcount := (hrs.endOf_eq_some he).2.2.2.2
    have hne : rs ≠ [] := by
      rintro rfl
      cases he
    have hle := hrs.consecutive.length_le hne
    have hnumber : f.fileNumber.get = 184467440737095 := congrArg LogFileNumber.get hf
    have hfirst : f.firstRecordId.sequenceNumber.get = f.fileNumber.get * 100000 := rfl
    rw [outcome, hcount, if_neg (by rw [recordsPerFile_eq]; omega)]
    simp

/-- A fresh writer of the terminal file panics at the last of its records. -/
theorem terminal_panics (hf : f.Terminal) {r : Record} (hr : Fills f (rs ++ [r]))
    (hid : r.id = f.lastRecordId) :
    let s := run (new f, .new, .new) (rs.map .writeRecord)
    step s (.writeRecord r) = (.error .panicked, s) := by
  have hlen := hr.consecutive.length_le (by simp)
  rw [List.length_append, List.length_singleton] at hlen
  have hlt : f.firstRecordId.sequenceNumber.get + ([] ++ rs).length < 2 ^ 64 := by
    rw [List.nil_append]
    omega
  obtain ⟨hlive, -⟩ := (live_new f).writes rs (hr.of_isPrefix (List.prefix_append _ _)) hlt
  exact hlive.exhausted hf hr hid

/-- **The capacity of a writer** is the range of its file, except in the terminal
file, where it ends before the last ID. -/
theorem capacity_matches_range (f : LogFileId) :
    (∀ rs, Fills f rs → f.firstRecordId.sequenceNumber.get + rs.length < 2 ^ 64 →
      List.Forall₂ (Accepted f) rs (outcomes (new f, .new, .new) (rs.map .writeRecord))) ∧
    (¬ f.Terminal → ∀ rs, Fills f rs → rs.length = recordsPerFile →
      f.firstRecordId.sequenceNumber.get + rs.length < 2 ^ 64 ∧
      let s := run (new f, .new, .new) (rs.map .writeRecord)
      (∀ r, step s (.writeRecord r) = (.error (.error .full), s)) ∧
      ∀ plan : Plan, plan.Smooth → ∃ e, (step s (.syncData plan)).1 = .ok .done ∧
        (step (step s (.syncData plan)).2 .finalize).1 = .ok (.finalized e) ∧
        e.recordId = f.lastRecordId) ∧
    (∀ (p : StorageProvider) (d : Disk) (L : Stored) (t : Option RecordEndLocation)
      (base : List Record) (tree : Tree) (plan : Plan), On p f.streamId d tree →
      d (.log f) = some L → Certified f t base L.file.content (openedIndex d f).content →
      (¬ f.Terminal → plan.Smooth → ∃ r w, (validate p f t).run tree plan = (.ok r, w) ∧
        ((∃ e, r = .complete e) ↔ ∃ record ∈ held f L.file.content, record.id = f.lastRecordId)) ∧
      (f.Terminal → ∀ e w, (validate p f t).run tree plan ≠ (.ok (.complete e), w))) ∧
    (f.Terminal → ∀ rs r, Fills f (rs ++ [r]) → r.id = f.lastRecordId →
      let s := run (new f, .new, .new) (rs.map .writeRecord)
      step s (.writeRecord r) = (.error .panicked, s)) := by
  refine ⟨fun rs hrs hlt => (live_new f).accepts rs hrs hlt, fun hf rs hrs hfull => ?_,
    fun p d L t base tree plan hon hL hc => ⟨fun hf hplan => ?_, fun hf e w hw => ?_⟩,
    fun hf rs r hr hid => ?_⟩
  · have hlt := LogFileId.firstRecordId_add_lt hf hrs.length_le
    obtain ⟨hlive, -⟩ := (live_new f).writes rs hrs hlt
    refine ⟨hlt, hlive.full hfull, fun plan hplan => ?_⟩
    obtain ⟨e, hsync, hfinal, he⟩ := hlive.finalize hfull hplan
    refine ⟨e, hsync, hfinal, ?_⟩
    obtain ⟨-, hs, hn, -⟩ := hrs.endOf_eq_some he
    have hlast := LogFileId.lastRecordId_sequence (f := f)
    rw [hfull, recordsPerFile_eq] at hn hlt
    exact RecordId.ext' hs (by omega)
  · obtain ⟨w, l, i, hw, -⟩ := IndexedLogValidator.validate_smooth hf hon hL hc hplan
    exact ⟨_, w, hw, outcome_complete_iff hf (held_fills f _)⟩
  · have hrun := (IndexedLogValidator.validate_triple (c := ⟨False, fun _ => True⟩) (t := t) rfl
      hL ⟨tree, plan⟩ hon plan.within_any).2
    rw [Io.run] at hw
    rw [hw] at hrun
    obtain ⟨l, i, hmended, -⟩ := hrun
    have hr := (hmended.exactly hc).2.1
    exact outcome_ne_complete hf (held_fills f _) e hr.symm
  · exact terminal_panics hf hr hid

omit [Crc32c] in
theorem assigned_lt (f : LogFileId) (n : Nat) :
    min (f.firstRecordId.sequenceNumber.get + n) (2 ^ 64 - 1) < 2 ^ 64 := by omega

/-- The first `n` records of a file, as far as there are IDs, without payloads. -/
def assigned (f : LogFileId) : Nat → List Record
  | 0 => []
  | n + 1 => assigned f n ++ [.encode ⟨f.streamId,
      ⟨min (f.firstRecordId.sequenceNumber.get + n) (2 ^ 64 - 1), assigned_lt f n⟩⟩ []
        (Nat.zero_le _)]

theorem assigned_fills : ∀ n, f.firstRecordId.sequenceNumber.get + n ≤ 2 ^ 64 →
    n ≤ recordsPerFile → Fills f (assigned f n) ∧ (assigned f n).length = n := by
  intro n
  induction n with
  | zero => exact fun _ _ => ⟨.nil f, rfl⟩
  | succ n ih =>
    intro hlt hle
    obtain ⟨hfills, hlen⟩ := ih (by omega) (by omega)
    have hlen' : (assigned f (n + 1)).length = n + 1 := by
      rw [assigned, List.length_append, List.length_singleton, hlen]
    refine ⟨⟨consecutive_append.mpr ⟨hfills.consecutive, ?_, ?_, trivial⟩, by rwa [hlen']⟩, hlen'⟩
    · rw [Record.id_encode]
    · rw [Record.id_encode, hlen]
      show min _ _ = _
      omega

/-- The terminal file's range is one of records. -/
theorem exists_range (hf : f.Terminal) :
    ∃ rs r, Fills f (rs ++ [r]) ∧ r.id = f.lastRecordId := by
  have hnumber : f.fileNumber.get = 184467440737095 := congrArg LogFileNumber.get hf
  have hfirst : f.firstRecordId.sequenceNumber.get = f.fileNumber.get * 100000 := rfl
  obtain ⟨n, hn⟩ : ∃ n, f.firstRecordId.sequenceNumber.get + n + 1 = 2 ^ 64 := ⟨51615, by omega⟩
  obtain ⟨hfills, -⟩ := assigned_fills (f := f) (n + 1) (by omega) (by
    rw [recordsPerFile_eq]
    omega)
  refine ⟨_, _, hfills, ?_⟩
  rw [Record.id_encode]
  refine RecordId.ext' rfl ?_
  rw [LogFileId.terminal_lastRecordId hf]
  show min _ _ = _
  omega

omit [Crc32c] in
/-- The terminal file's last record is refused by a panic. -/
theorem terminal_range_panics : letI := Crc32c.reference
    let f : LogFileId := ⟨⟨0, by decide⟩, .max⟩
    ∃ rs r, Fills f (rs ++ [r]) ∧ r.id = f.lastRecordId ∧
      .error .panicked ∈ outcomes (new f, .new, .new) ((rs ++ [r]).map .writeRecord) := by
  let _ := Crc32c.reference
  intro f
  obtain ⟨rs, r, hfills, hid⟩ := exists_range (f := f) rfl
  refine ⟨rs, r, hfills, hid, ?_⟩
  rw [List.map_append, outcomes_append]
  refine List.mem_append_right _ ?_
  rw [List.map_singleton, outcomes, terminal_panics (f := f) rfl hfills hid]
  exact List.mem_cons_self

end IndexedLogWriter

/-! ### The handover -/

namespace IndexedLogValidator

open LogFileValidator (ScanState scanning_found trustedCount startPosition Accepts found endAfter
  suffixOf Exhausted)
open IndexFileValidator (Trusts)
open IndexedLogWriter (ofInitialized)

variable [Crc32c] {p : StorageProvider} {f : LogFileId} {t : Option RecordEndLocation} {d : Disk}
  {L : Stored} {tree : Tree} {plan : Plan} {log : File}

/-- No writer can go on after the last record ID there is, and only there. -/
theorem ofInitialized_eq_none (h : Accepts f t log) :
    ofInitialized ⟨f, endAfter t (found f t log.content)⟩ = none ↔
      Exhausted f t (log.content.drop (startPosition t).get) := by
  have hnext := (scanning_found h).nextStart
  have hmap : ofInitialized ⟨f, endAfter t (found f t log.content)⟩ = none ↔
      ScanState.nextStart f ⟨trustedCount t + (found f t log.content).length,
        endAfter t (found f t log.content), suffixOf t (found f t log.content)⟩ = none := by
    rw [ofInitialized, ScanState.nextStart]
    cases endAfter t (found f t log.content) with
    | none => simp
    | some e => simp
  rw [hmap]
  cases hs : ScanState.nextStart f ⟨trustedCount t + (found f t log.content).length,
      endAfter t (found f t log.content), suffixOf t (found f t log.content)⟩ with
  | none =>
    rw [hs] at hnext
    exact ⟨fun _ => hnext, fun _ => rfl⟩
  | some start =>
    rw [hs] at hnext
    have hlt := start.recordId.sequenceNumber.lt
    rw [hnext.2.1] at hlt
    exact ⟨fun h => absurd h (Option.some_ne_none _), fun h => absurd h (Nat.not_le.mpr hlt)⟩

/-- Recovery does not panic, and a writer takes over a pair that goes on. -/
def Proceeds (p : StorageProvider) (f : LogFileId) (t : Option RecordEndLocation) (tree : Tree)
    (plan : Plan) : Prop :=
  ((validate p f t).run tree plan).1 ≠ .error .panicked ∧
    ∀ e, ((validate p f t).run tree plan).1 = .ok (.incomplete e) → (ofInitialized ⟨f, e⟩).isSome

theorem proceeds (hon : On p f.streamId d tree) (h : ∀ L, d (.log f) = some L →
    ¬ Exhausted f t (L.file.content.drop (startPosition t).get)) : Proceeds p f t tree plan := by
  rw [Proceeds, Io.run]
  cases hL : d (.log f) with
  | none =>
    have hrun := (validate_missing (c := ⟨False, fun _ => True⟩) (t := t) rfl hL ⟨tree, plan⟩ hon
      plan.within_any).2
    rcases hw : validate p f t ⟨tree, plan⟩ with ⟨e | r, w⟩ <;> rw [hw] at hrun
    · refine ⟨fun he => hrun.2.1 (Except.error.inj he), ?_⟩
      intro _ he
      cases he
    · exact hrun.elim
  | some L =>
    have hrun := (validate_triple (c := ⟨False, fun _ => True⟩) (t := t) rfl hL ⟨tree, plan⟩ hon
      plan.within_any).2
    rcases hw : validate p f t ⟨tree, plan⟩ with ⟨e | r, w⟩ <;> rw [hw] at hrun
    · constructor
      · intro he
        obtain rfl := Except.error.inj he
        exact h L hL hrun.1
      · intro _ he
        cases he
    · obtain ⟨l, i, hmended, -⟩ := hrun
      constructor
      · intro he
        cases he
      intro e he
      obtain rfl := outcome_eq_incomplete (hmended.result.symm.trans (Except.ok.inj he))
      rw [← Option.ne_none_iff_isSome, ne_eq, ofInitialized_eq_none hmended.accepts]
      exact h L hL

/-- The last record ID is no file's hundred thousandth. -/
theorem outcome_exhausted (h : Accepts f t log)
    (hex : Exhausted f t (log.content.drop (startPosition t).get)) :
    outcome (endAfter t (found f t log.content)) =
      .incomplete (endAfter t (found f t log.content)) := by
  have hnone := (ofInitialized_eq_none h).mpr hex
  cases he : endAfter t (found f t log.content) with
  | none => rfl
  | some e =>
    rw [he, ofInitialized, Option.map_eq_none_iff] at hnone
    have hlast : ¬ e.recordId.sequenceNumber.get + 1 < 2 ^ 64 := by
      intro hlt
      have hnext := RecordId.next_of_lt hlt
      rw [Option.elim_some, hnext] at hnone
      cases hnone
    have hcount : LogFileId.recordCountThrough e.recordId =
        e.recordId.sequenceNumber.get % 100000 + 1 := rfl
    have hlt := e.recordId.sequenceNumber.lt
    rw [outcome, if_neg (by rw [hcount, recordsPerFile_eq]; omega)]

/-- A log that holds the last record ID has no recovery that goes on. -/
theorem not_proceeds (hon : On p f.streamId d tree) (hL : d (.log f) = some L)
    (hacc : Accepts f t L.opened.file) (htrusts : Trusts t (openedIndex d f).content)
    (hex : Exhausted f t (L.file.content.drop (startPosition t).get)) (hplan : plan.Smooth) :
    ¬ Proceeds p f t tree plan := by
  rintro ⟨hpanic, htake⟩
  rw [Io.run] at hpanic htake
  have hrun := (validate_triple (t := t) rfl hL ⟨tree, plan⟩ hon hplan).2
  rcases hw : validate p f t ⟨tree, plan⟩ with ⟨e | r, w⟩ <;> rw [hw] at hrun hpanic htake
  · obtain ⟨hcause, -⟩ := hrun
    rcases e with (e | (_ | _ | _) | (_ | _ | _ | _)) | _ | _
    · exact hcause.1 trivial
    · exact hcause hacc
    · exact hcause trivial
    · exact hcause trivial
    · exact hcause trivial
    · exact hcause htrusts
    · exact hcause (scanning_found hacc).count_le
    · exact hcause trivial
    · exact hcause trivial
    · exact hpanic rfl
  · obtain ⟨l, i, hmended, -⟩ := hrun
    have hsome := htake _ (congrArg Except.ok (hmended.result.trans (outcome_exhausted hacc hex)))
    rw [(ofInitialized_eq_none hacc).mpr hex] at hsome
    cases hsome

/-- **Recovery never panics** before the end of the sequence domain, and never in
an ordinary file; the counts that it multiplies are within a file. -/
theorem recovery_proceeds (hon : On p f.streamId d tree)
    (h : f.Terminal → ∀ L, d (.log f) = some L →
      ¬ Exhausted f t (L.file.content.drop (startPosition t).get)) :
    Proceeds p f t tree plan ∧
      trustedCount t * RecordLength.max.get < 2 ^ 64 ∧ (t ≠ none → 0 < trustedCount t) ∧
      ∀ log, Accepts f t log →
        (trustedCount t + (found f t log.content).length) * indexEntryLen < 2 ^ 64 ∧
        (startPosition t).get + (encodings (found f t log.content)).length < 2 ^ 64 := by
  have hle := LogFileValidator.trustedCount_le t
  rw [recordsPerFile_eq] at hle
  refine ⟨proceeds hon fun L hL hex => h hex.terminal L hL hex, ?_, fun ht => ?_, fun log hacc => ?_⟩
  · show trustedCount t * 65535 < _
    omega
  · obtain ⟨e, rfl⟩ := Option.ne_none_iff_exists'.mp ht
    exact LogFileId.recordCountThrough_pos _
  · have hscan := scanning_found hacc
    have hcount : trustedCount t + (found f t log.content).length ≤ recordsPerFile := hscan.count_le
    have hlength := hscan.validLength_lt
    rw [LogFileValidator.validLength] at hlength
    rw [recordsPerFile_eq] at hcount
    rw [indexEntryLen_eq]
    omega

theorem exhausted_none {content : List UInt8} : Exhausted f none (content.drop 0) ↔
    2 ^ 64 ≤ f.firstRecordId.sequenceNumber.get + (held f content).length := by
  rw [Exhausted, List.drop_zero, LogFileValidator.trustedCount, Option.elim_none, Nat.zero_add, held]

omit [Crc32c] in
theorem recovery_proceeds_terminal : letI := Crc32c.reference
    let p : StorageProvider := ⟨[]⟩
    let f : LogFileId := ⟨⟨0, by decide⟩, .max⟩
    let log := File.durable (encodings [Fills.firstRecord f] ++ [1, 2])
    Proceeds p f none (StorageProvider.pairTree p f log .empty) .calm ∧
      trustedCount none * RecordLength.max.get < 2 ^ 64 ∧
      ((none : Option RecordEndLocation) ≠ none → 0 < trustedCount none) ∧
      ∀ log, Accepts f none log →
        (trustedCount none + (found f none log.content).length) * indexEntryLen < 2 ^ 64 ∧
        (startPosition none).get + (encodings (found f none log.content)).length < 2 ^ 64 := by
  let _ := Crc32c.reference
  intro p f log
  refine recovery_proceeds (StorageProvider.on_pairTree p f log .empty) fun _ L hL => ?_
  obtain rfl := Option.some.inj ((StorageProvider.pairDisk_log f log .empty).symm.trans hL)
  have hheld : held f log.content = [Fills.firstRecord f] := held_append (Fills.first f) [1, 2]
  have hfirst : f.firstRecordId.sequenceNumber.get = 18446744073709500000 := by decide
  show ¬ Exhausted f none (log.content.drop 0)
  rw [exhausted_none, hheld, List.length_singleton]
  omega

omit [Crc32c] in
/-- A complete log of the terminal file has no recovery that goes on. -/
theorem terminal_recovery_panics : letI := Crc32c.reference
    let p : StorageProvider := ⟨[]⟩
    let f : LogFileId := ⟨⟨0, by decide⟩, .max⟩
    ∃ log, ¬ Proceeds p f none (StorageProvider.pairTree p f log .empty) .calm := by
  let _ := Crc32c.reference
  intro p f
  obtain ⟨rs, r, hfills, hid⟩ := IndexedLogWriter.exists_range (f := f) rfl
  refine ⟨.durable (encodings (rs ++ [r])), not_proceeds (StorageProvider.on_pairTree p f _ _)
    (StorageProvider.pairDisk_log f _ _) ⟨LogFileValidator.plausible_none f, Nat.zero_le _⟩
    (fun e he => by cases he) ?_ trivial⟩
  have hlast := LogFileId.terminal_lastRecordId (f := f) rfl
  obtain ⟨-, -, hn, -⟩ := consecutive_append.mp hfills.consecutive
  rw [hid, hlast] at hn
  show Exhausted f none ((encodings (rs ++ [r])).drop 0)
  rw [exhausted_none, held_encodings hfills, List.length_append, List.length_singleton]
  omega

end IndexedLogValidator

end TransactionLog
