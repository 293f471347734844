import TransactionLog.Lib.Reporting
import TransactionLog.Streams.LogFileValidator

/-!
# What the repair of a log keeps

`Longest` says without a parser which records a log keeps after a trusted endpoint:
the longest run of whole frames at the head of its bytes that carry the file's next
IDs and leave it no more than full.  The validator finds this run however its reads
are split.
-/

namespace TransactionLog

open Lib

namespace LogFileValidator

variable [Crc32c] {f : LogFileId} {t : Option RecordEndLocation} {bytes : List UInt8}
  {rs : List Record} {file : File}

/-- The sequence number that the file assigns after the trusted record. -/
def nextSequence (f : LogFileId) (t : Option RecordEndLocation) : Nat :=
  t.elim f.firstRecordId.sequenceNumber.get fun e => e.recordId.sequenceNumber.get + 1

/-- Complete records at the head of `bytes` that continue the file. -/
structure Continues (f : LogFileId) (t : Option RecordEndLocation) (bytes : List UInt8)
    (rs : List Record) : Prop where
  frames : encodings rs <+: bytes
  consecutive : Consecutive f.streamId (nextSequence f t) rs
  length_le : trustedCount t + rs.length ≤ recordsPerFile

structure Longest (f : LogFileId) (t : Option RecordEndLocation) (bytes : List UInt8)
    (rs : List Record) : Prop extends Continues f t bytes rs where
  longest : ∀ rs', Continues f t bytes rs' → rs' <+: rs

omit [Crc32c] in
theorem nextSequence_eq (h : ∀ e ∈ t, e.logFileId = f) :
    nextSequence f t = f.firstRecordId.sequenceNumber.get + trustedCount t := by
  cases t with
  | none => exact (Nat.add_zero _).symm
  | some e =>
    obtain ⟨-, h1, -⟩ := LogFileId.fromRecordId_eq_iff.mp (h e rfl)
    have hfirst : f.firstRecordId.sequenceNumber.get = f.fileNumber.get * 100000 := rfl
    show e.recordId.sequenceNumber.get + 1 =
      f.firstRecordId.sequenceNumber.get + LogFileId.recordCountThrough e.recordId
    rw [LogFileId.recordCountThrough_eq (h e rfl)]
    omega

/-- What a scan accepts is the longest run. -/
theorem longest_scanned (h : ∀ e ∈ t, e.logFileId = f) :
    Longest f t bytes (scanned f (trustedCount t) bytes) where
  frames := encodings_scanned_isPrefix f _ bytes
  consecutive := by
    rw [nextSequence_eq h]
    exact consecutive_continuation _ _
  length_le := length_continuation_le _ (trustedCount_le t)
  longest := by
    intro rs' ⟨⟨rest, hrest⟩, hconsecutive, hlength⟩
    rw [nextSequence_eq h] at hconsecutive
    rw [scanned, ← hrest, records_encodings_append,
      continuation_append _ (continuation_eq hconsecutive hlength)]
    exact List.prefix_append _ _

theorem Longest.unique {rs' : List Record} (h : Longest f t bytes rs)
    (h' : Longest f t bytes rs') : rs = rs' := by
  have hle := h'.longest rs h.toContinues
  exact hle.eq_of_length_le (h.longest rs' h'.toContinues).length_le

theorem not_exhausted (hf : ¬ f.Terminal) : ¬ Exhausted f t bytes := fun h => hf h.terminal

/-- What the validator reports of an ordinary file. -/
def report (f : LogFileId) (t : Option RecordEndLocation) (content : List UInt8) :
    ValidatedLogFile :=
  ⟨endAfter t (found f t content), suffixOf t (found f t content),
    tailOf f t (content.drop (startPosition t).get)⟩

theorem Validated.eq_report {r : ValidatedLogFile} (h : Validated f t file r) :
    r = report f t file.content := by
  obtain ⟨validatedEnd, suffixEnds, removedTail⟩ := r
  obtain ⟨-, hend, hends, -, htail⟩ := h
  simp only at hend hends htail
  rw [hend, hends, htail]
  rfl

/-- Without faults the validator accepts a plausible start within the file. -/
theorem validate_smooth (hf : ¬ f.Terminal) (ht : Accepts f t file) {plan : Plan}
    (hplan : plan.Smooth) : ∃ w, (validate f t).run file plan = (.ok (report f t file.content), w) ∧
      Validated f t file (report f t file.content) ∧ Untouched (repaired f t file) w.sys := by
  obtain ⟨-, hrun⟩ := validate_triple f t file ⟨file, plan⟩ rfl hplan
  rw [Io.run]
  rcases hw : validate f t ⟨file, plan⟩ with ⟨e | r, w⟩
  · rw [hw] at hrun
    exfalso
    rcases e with (_ | _ | _) | _ | _
    · exact hrun.1 ht
    · exact hrun.1 trivial
    · exact hrun.1 trivial
    · exact hrun.1 trivial
    · exact not_exhausted hf hrun.1
  · rw [hw] at hrun
    obtain ⟨hvalidated, huntouched⟩ := hrun
    have hr := hvalidated.eq_report
    subst r
    exact ⟨w, rfl, hvalidated, huntouched⟩

/-- What was trusted and found, as the variables of a scan that has ended. -/
theorem scanning_found (h : Accepts f t file) : Scanning f t (found f t file.content)
    ⟨trustedCount t + (found f t file.content).length, endAfter t (found f t file.content),
      suffixOf t (found f t file.content)⟩ where
  endpoint := h.1
  consecutive := consecutive_continuation _ _
  count_le := length_continuation_le _ (trustedCount_le t)
  count := rfl
  validatedEnd := rfl
  suffixEnds := rfl

theorem startPosition_endAfter (h : Accepts f t file) :
    (startPosition (endAfter t (found f t file.content))).get = keptLength f t file.content :=
  (scanning_found h).startPosition_eq

/-- The last accepted end is one of the file. -/
theorem endAfter_eq_some (h : Accepts f t file) {e : RecordEndLocation}
    (he : endAfter t (found f t file.content) = some e) : e.logFileId = f ∧
      LogFileId.recordCountThrough e.recordId = trustedCount t + (found f t file.content).length := by
  have hscan := scanning_found h
  obtain ⟨hs, hn⟩ := hscan.end_sequence he
  have hle := hscan.count_le
  have hfirst : f.firstRecordId.sequenceNumber.get = f.fileNumber.get * 100000 := rfl
  have hpos : 0 < trustedCount t + (found f t file.content).length := by
    rw [endAfter] at he
    cases hl : (found f t file.content).getLast? with
    | none =>
      rw [hl] at he
      have hcount := LogFileId.recordCountThrough_pos e.recordId
      rw [show t = some e from he]
      exact Nat.lt_of_lt_of_le hcount (Nat.le_add_right _ _)
    | some r =>
      have hmem := List.length_pos_of_mem (List.mem_of_getLast? hl)
      omega
  simp only [recordsPerFile_eq] at hn hle
  have hfile : LogFileId.fromRecordId e.recordId = f :=
    LogFileId.fromRecordId_eq_iff.mpr ⟨hs, by omega, by omega⟩
  refine ⟨hfile, ?_⟩
  rw [LogFileId.recordCountThrough_eq hfile]
  omega

theorem trustedCount_endAfter (h : Accepts f t file) :
    trustedCount (endAfter t (found f t file.content)) =
      trustedCount t + (found f t file.content).length := by
  cases he : endAfter t (found f t file.content) with
  | some e => exact (endAfter_eq_some h he).2
  | none =>
    rw [endAfter] at he
    cases hl : (found f t file.content).getLast? with
    | none =>
      rw [hl] at he
      rw [List.getLast?_eq_none_iff.mp hl, show t = none from he]
      rfl
    | some r =>
      rw [hl] at he
      cases he

theorem repaired_content (ht : Accepts f t file) :
    (repaired f t file).content = file.content.take (keptLength f t file.content) :=
  File.resized_content (keptLength_le ht.2)

theorem validLength_lt (h : Plausible f t) (hlen : trustedCount t + rs.length ≤ recordsPerFile) :
    validLength t rs < 2 ^ 64 := by
  have h1 := h.le_max
  have h2 := encodings_length_le rs
  simp only [recordsPerFile_eq, validLength] at *
  omega

theorem lt_of_mem_ends : ∀ {rs : List Record} {p n : Nat}, n ∈ ends p rs →
    n ≤ p + (encodings rs).length := by
  intro rs
  induction rs with
  | nil => intro p n h; cases h
  | cons r rs ih =>
    intro p n h
    rw [encodings_cons, List.length_append]
    rcases List.mem_cons.mp h with rfl | h
    · omega
    · have := ih h
      omega

/-- The reported positions are exact. -/
theorem map_get_suffixOf (hlt : validLength t rs < 2 ^ 64) :
    (suffixOf t rs).map LogFilePosition.get = ends (startPosition t).get rs := by
  rw [suffixOf, List.map_map]
  refine (List.map_congr_left fun n hn => ?_).trans (List.map_id _)
  exact LogFilePosition.get_ofNat (Nat.lt_of_le_of_lt (lt_of_mem_ends hn) hlt)

/-- **The repair keeps the longest valid run.**  Its findings and what it leaves of
the file are the same however the reads are split. -/
theorem validate_keeps_longest (hf : ¬ f.Terminal) (ht : Accepts f t file) :
    ∃ rs r, Longest f t (file.content.drop (startPosition t).get) rs ∧
      r.validatedEnd = endAfter t rs ∧
      (startPosition r.validatedEnd).get = validLength t rs ∧
      r.suffixEnds.map LogFilePosition.get = ends (startPosition t).get rs ∧
      (r.removedTail.isSome ↔ validLength t rs < file.content.length) ∧
      ∀ plan : Plan, plan.Smooth → ∃ w, (validate f t).run file plan = (.ok r, w) ∧
        w.sys.content = file.content.take (validLength t rs) := by
  have hlongest : Longest f t (file.content.drop (startPosition t).get) (found f t file.content) :=
    longest_scanned ht.1.file
  have hlt := validLength_lt ht.1 hlongest.length_le
  obtain ⟨-, -, hvalidated, -⟩ := validate_smooth hf ht (show Plan.calm.Smooth from trivial)
  refine ⟨found f t file.content, report f t file.content, hlongest, rfl, ?_, ?_, ?_, ?_⟩
  · have hscanning : Scanning f t (found f t file.content)
        ⟨_, (report f t file.content).validatedEnd, _⟩ :=
      ⟨ht.1, consecutive_continuation _ _, hlongest.length_le, rfl, rfl, rfl⟩
    exact hscanning.startPosition_eq
  · exact map_get_suffixOf hlt
  · rw [← not_iff_not, Bool.not_eq_true, Option.isSome_eq_false_iff, Option.isNone_iff_eq_none,
      Nat.not_lt]
    exact hvalidated.removedTail
  · intro plan hplan
    obtain ⟨w, hw, -, k, hk⟩ := validate_smooth hf ht hplan
    refine ⟨w, hw, ?_⟩
    rw [hk]
    exact repaired_content ht

omit [Crc32c] in
theorem accepts_none (f : LogFileId) (file : File) : Accepts f none file :=
  ⟨plausible_none f, Nat.zero_le _⟩

omit [Crc32c] in
/-- Between the trusted record and the torn tail stands another record, which is kept. -/
theorem validate_keeps_longest_torn : letI := Crc32c.reference
    let f : LogFileId := .first ⟨0, by decide⟩
    let first := Fills.firstRecord f
    let second : Record := .encode ⟨f.streamId, ⟨1, by decide⟩⟩ [0x68] (by decide)
    let t := endOf [first]
    let file := File.durable (encodings [first, second] ++ [15, 0, 0])
    ((validate f t).run file .calm).2.sys.content = encodings [first, second] ∧
      ∃ rs r, Longest f t (file.content.drop (startPosition t).get) rs ∧
        r.validatedEnd = endAfter t rs ∧
        (startPosition r.validatedEnd).get = validLength t rs ∧
        r.suffixEnds.map LogFilePosition.get = ends (startPosition t).get rs ∧
        (r.removedTail.isSome ↔ validLength t rs < file.content.length) ∧
        ∀ plan : Plan, plan.Smooth → ∃ w, (validate f t).run file plan = (.ok r, w) ∧
          w.sys.content = file.content.take (validLength t rs) := by
  intro f first second t file
  have ht : Accepts f t file :=
    ⟨@plausible_endOf .reference f [first] (@Fills.first .reference f), by decide +kernel⟩
  exact ⟨by decide +kernel, @validate_keeps_longest .reference f t file (by decide) ht⟩

/-! ### Failing reads -/

theorem reports_waitToRead {σ : Type} (src : Source σ) :
    Reports RecordReadError.io (RecordReader.waitToRead src) := by
  have hfail : ∀ {α : Type} (e : RecordReadError),
      Reports RecordReadError.io (RecordReader.fail e : Io (RecordReader × σ) RecordReadError α) :=
    fun e => .bind (.modify _) fun _ => .throw e
  refine .bind .get fun s => ?_
  split
  · exact .pure _
  · exact .throw _
  split
  · exact .pure _
  refine .loop (fun _ => ?_) ()
  refine .bind .get fun s => ?_
  simp only
  refine .bind (.modify _) fun _ => ?_
  split
  · exact .pure _
  · exact hfail _
  · refine .attempt (E := id) (.zoom (.read src _)) (fun r => ?_) fun code w => ⟨_, rfl⟩
    split
    · split
      · exact .bind (.modify _) fun _ => .pure _
      · exact hfail _
    · exact .bind (.modify _) fun _ => .pure _
    · exact .pure _
    · exact hfail _

theorem reports_batchTurn (f : LogFileId) (b : ScanState) :
    Reports (fun k => .read (.io k)) (batchTurn f b) := by
  rw [batchTurn]
  split
  · refine .bind .get fun s => .bind (.unwrap _) fun r => ?_
    refine .bind (.modify _) fun _ => .bind (.ofExcept _) fun next => ?_
    split
    · exact .pure _
    · refine .bind (.unwrap _) fun start => ?_
      split
      · exact .pure _
      · exact .bind (.unwrap _) fun _ => .pure _
  · exact .pure _

theorem reports_scanRecords (f : LogFileId) (t : Option RecordEndLocation)
    (fileEnd : LogFilePosition) :
    Reports (fun k => .read (.io k)) (scanRecords f t fileEnd) := by
  rw [scanRecords]
  split
  · exact .panic
  refine .bind (.withLocal (.iterate (fun b => ?_) _ _)) fun r => .pure _
  rw [scanTurn]
  split
  · exact .bind (.unwrap _) fun _ => .pure _
  refine .attempt (reports_waitToRead _) (fun r => ?_) fun code w => ⟨_, rfl⟩
  split
  · exact .pure _
  · refine .bind (.iterate (reports_batchTurn f) _ _) fun r => ?_
    obtain ⟨b', tail⟩ := r
    cases tail with
    | none => exact .pure _
    | some error => exact .pure _
  · exact .throw _
  · exact .throw _
  · exact .pure _

/-- **A read that fails cuts nothing off.**  If a device fault strikes the scan, the
validation ends with an error and no other change to the file than a moved cursor;
where the trusted endpoint had passed its checks, the error is the reader's and the
validation makes no call after the failing read. -/
theorem validate_read_failure (f : LogFileId) (t : Option RecordEndLocation) (file : File)
    {a b : Answer} (ha : ∀ k, a ≠ .fault k) (hb : ∀ k, b ≠ .fault k) (plan : Plan)
    (hstruck : ((scanRecords f t (.ofNat file.content.length)).run
      (file.seekTo (startPosition t).get) plan).2.plan.devices < plan.devices) :
    ∃ e w, (validate f t).run file (.next a (.next b plan)) = (.error (.error e), w) ∧
      Untouched file w.sys ∧ (Accepts f t file → (∃ code, e = .read (.io (.device code))) ∧
        w = ((scanRecords f t (.ofNat file.content.length)).run
          (file.seekTo (startPosition t).get) plan).2) := by
  have hself : Untouched file file := ⟨_, (File.seekTo_self file).symm⟩
  rw [Io.run, validate]
  by_cases hany : (t.any fun e => e.logFileId ≠ f) = true
  · rw [if_pos hany]
    simp only [Option.any_eq_true, decide_eq_true_eq] at hany
    obtain ⟨e, he, hne⟩ := hany
    exact ⟨_, _, rfl, hself, fun h => absurd (h.1.file e he) hne⟩
  rw [if_neg hany]
  have hfile : ∀ e ∈ t, e.logFileId = f := by
    simp only [Option.any_eq_true, decide_eq_true_eq, not_exists, not_and, not_not] at hany
    exact fun e he => hany e he
  have hcheck := accepts_iff hfile file.content.length
  have hlength : File.length ⟨file, .next a (.next b plan)⟩ =
      (.ok file.content.length, ⟨file, .next b plan⟩) := Io.call_next ha rfl
  have hseek : File.seek (startPosition t).get ⟨file, .next b plan⟩ =
      (.ok (), ⟨file.seekTo (startPosition t).get, plan⟩) := Io.call_next hb rfl
  rw [Io.bind_ok (Io.mapErr_ok hlength)]
  split
  · rename_i hbad
    exact ⟨_, _, rfl, hself, fun h => absurd hbad (hcheck.mpr h)⟩
  rename_i hgood
  have hacc : Accepts f t file := hcheck.mp hgood
  rw [Io.bind_ok (Io.mapErr_ok hseek)]
  have hscan := (scanRecords_triple (c := ⟨False, fun _ => True⟩) hacc.1 rfl hacc.2
    ⟨file.seekTo (startPosition t).get, plan⟩ rfl plan.within_any).2
  rcases reports_scanRecords f t (.ofNat file.content.length)
    ⟨file.seekTo (startPosition t).get, plan⟩ with h | ⟨code, h⟩
  · exact absurd h (Nat.ne_of_lt hstruck)
  · rw [h] at hscan
    rw [Io.bind_error (Prod.ext h rfl)]
    exact ⟨_, _, rfl, hscan.1, fun _ => ⟨⟨code, rfl⟩, rfl⟩⟩

end LogFileValidator

end TransactionLog
