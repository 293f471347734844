import TransactionLog.Streams.PairRecovery
import TransactionLog.Streams.WriterRuns

/-!
# Live files and recovered files

A writer computes where a record ends from the end before it, by way of the next
record's start; a scan computes it from the positions in the file.  Recovery of what
a writer has sent therefore rebuilds the index that the writer has sent, however its
records were split into batches and whichever of them is trusted.
-/

namespace TransactionLog

open Lib

namespace IndexedLogWriter

variable [Crc32c] {f : LogFileId} {rs : List Record} {s : State} {g : Ghost} {w : IndexedLogWriter}
  {l i : Channel}

theorem run_append (xs ys : List Op) : ∀ s : State, run s (xs ++ ys) = run (run s xs) ys := by
  induction xs with
  | nil => exact fun _ => rfl
  | cons x xs ih => exact fun s => ih _

theorem outcomes_append (xs ys : List Op) : ∀ s : State,
    outcomes s (xs ++ ys) = outcomes s xs ++ outcomes (run s xs) ys := by
  induction xs with
  | nil => exact fun _ => rfl
  | cons x xs ih => exact fun s => congrArg _ (ih _)

/-- Records that are all flushed are all sent. -/
theorem Marks.sent (h : Marks f g w l i) (hall : g.flushed = g.all.length) :
    l.accepted = encodings g.written ∧ i.accepted = entries (encodings g.base).length g.written := by
  have hlog := h.log_flushed
  have hindex := h.index_flushed
  have hlog' := h.log_flushed_le
  have hindex' := h.index_flushed_le
  rw [hall, List.take_length, Ghost.all, encodings_append, List.length_append] at hlog
  rw [hall, Ghost.all, List.length_append] at hindex
  refine ⟨h.log_accepted.eq_of_length_le (by omega), h.index_accepted.eq_of_length_le ?_⟩
  rw [length_entries]
  omega

/-- An open writer of a file that was empty, with the records it has accepted. -/
structure Live (f : LogFileId) (rs : List Record) (s : State) : Prop where
  inv : RunInv f [] rs s
  opened : s.1.state = .opened

theorem live_new (f : LogFileId) : Live f [] (new f, .new, .new) := ⟨⟨_, _, inv_new f⟩, rfl⟩

theorem Live.fills (h : Live f rs s) : Fills f rs := by
  obtain ⟨flushed, synced, hinv⟩ := h.inv
  exact hinv.marks.fills

theorem Live.bufferedEnd (h : Live f rs s) : s.1.bufferedEnd = endOf rs := by
  obtain ⟨flushed, synced, hinv⟩ := h.inv
  exact hinv.marks.buffered

theorem Live.recordCount (h : Live f rs s) : s.1.recordCount = rs.length := by
  obtain ⟨flushed, synced, hinv⟩ := h.inv
  exact hinv.marks.count

/-- The next record is accepted, unless there is no ID after it. -/
theorem Live.append (h : Live f rs s) {r : Record} (hr : Fills f (rs ++ [r]))
    (hlt : f.firstRecordId.sequenceNumber.get + rs.length + 1 < 2 ^ 64) :
    ∃ a, (step s (.writeRecord r)).1 = .ok (.appended a) ∧
      endOf (rs ++ [r]) = some a.endLocation ∧
      (a.fileFull ↔ rs.length + 1 = recordsPerFile) ∧
      Live f (rs ++ [r]) (step s (.writeRecord r)).2 ∧ (step s (.writeRecord r)).2.2 = s.2 := by
  obtain ⟨flushed, synced, hat⟩ := h.inv.at
  have hm := hat.inv.marks
  obtain ⟨-, hs, hn, -⟩ := consecutive_append.mp hr.consecutive
  have hid : r.id = s.1.expectedRecordId :=
    RecordId.ext' (hs.trans hm.expected_stream.symm) (hn.trans hm.expected.symm)
  have hcount : rs.length < recordsPerFile := by
    have := hr.length_le
    rw [List.length_append, List.length_singleton] at this
    omega
  obtain ⟨-, hr⟩ := writeRecord_triple (c := ⟨True, fun _ => False⟩) r s hat ⟨s, .calm⟩ rfl trivial
  rw [step, Io.run]
  rcases hw : writeRecord r ⟨s, .calm⟩ with ⟨e | a, w⟩ <;> rw [hw] at hr
  · have hlast := (hr.2.2.2 h.opened hid hcount).2
    exact absurd hlast (Nat.not_le.mpr hlt)
  · obtain ⟨hat', hopen, -, -, hend, hfull, -, hsent⟩ := hr
    refine ⟨a, rfl, hend, ?_, ⟨hat'.runInv, hopen⟩, hsent⟩
    rw [hfull, isFull, decide_eq_true_eq, hat'.inv.marks.count, Ghost.all_append,
      List.length_append]
    rfl

/-- A flush without faults sends everything. -/
theorem Live.flush (h : Live f rs s) {plan : Plan} (hplan : plan.Smooth) :
    (step s (.flush plan)).1 = .ok .done ∧ Live f rs (step s (.flush plan)).2 ∧
      (step s (.flush plan)).2.2.1.accepted = encodings rs ∧
      (step s (.flush plan)).2.2.2.accepted = indexBytes rs := by
  obtain ⟨flushed, synced, hat⟩ := h.inv.at
  obtain ⟨-, hr⟩ := flush_triple (c := ⟨True, fun _ => True⟩) tracks_channels .opened ⟨s, plan⟩
    ⟨hat, h.opened⟩ hplan
  rw [step, Io.run]
  rcases hw : IndexedLogWriter.flush logDest indexDest ⟨s, plan⟩ with ⟨e | a, w⟩ <;> rw [hw] at hr
  · exact absurd trivial (hr.2.2.2.1 rfl).1
  · obtain ⟨hat', hopen, -⟩ := hr
    obtain ⟨hlog, hindex⟩ := hat'.inv.marks.sent rfl
    exact ⟨rfl, ⟨hat'.runInv, hopen⟩, hlog, hindex⟩

/-- What an accepted append reports. -/
def Outcome.appended? : Outcome → Option AppendOutcome
  | .ok (.appended outcome) => some outcome
  | _ => none

/-- The positions that the appends of a run have reported. -/
def reportedEnds (s : State) (ops : List Op) : List LogFilePosition :=
  (outcomes s ops).filterMap fun r => (Outcome.appended? r).map fun a => a.endLocation.position

theorem reportedEnds_append (xs ys : List Op) (s : State) :
    reportedEnds s (xs ++ ys) = reportedEnds s xs ++ reportedEnds (run s xs) ys := by
  rw [reportedEnds, outcomes_append, List.filterMap_append]
  rfl

/-- Appending records one after the other. -/
theorem Live.writes : ∀ (ys : List Record) {rs : List Record} {s : State}, Live f rs s →
    Fills f (rs ++ ys) → f.firstRecordId.sequenceNumber.get + (rs ++ ys).length < 2 ^ 64 →
    Live f (rs ++ ys) (run s (ys.map .writeRecord)) ∧
      (run s (ys.map .writeRecord)).2 = s.2 ∧
      reportedEnds s (ys.map .writeRecord) = (ends (encodings rs).length ys).map .ofNat := by
  intro ys
  induction ys with
  | nil =>
    intro rs s h _ _
    rw [List.append_nil]
    exact ⟨h, rfl, rfl⟩
  | cons y ys ih =>
    intro rs s h hfills hlt
    have hsplit : rs ++ y :: ys = rs ++ [y] ++ ys := by rw [List.append_assoc, List.singleton_append]
    rw [hsplit] at hfills hlt ⊢
    have hlen := hlt
    rw [List.length_append, List.length_append, List.length_singleton] at hlen
    obtain ⟨a, ha, hend, -, hlive, hsent⟩ := h.append
      (hfills.of_isPrefix (List.prefix_append _ _)) (by omega)
    obtain ⟨h1, h2, h3⟩ := ih hlive hfills hlt
    refine ⟨h1, h2.trans hsent, ?_⟩
    rw [endOf_append_singleton] at hend
    have hposition : a.endLocation.position = .ofNat ((encodings rs).length + y.bytes.length) := by
      rw [← Option.some.inj hend, encodings_append, encodings_singleton, List.length_append]
    rw [List.map_cons, ends, List.map_cons, ← hposition]
    rw [encodings_append, encodings_singleton, List.length_append] at h3
    rw [← h3, reportedEnds, outcomes, ha]
    rfl

/-- Batches of records, each sent by a flush. -/
def batched (batches : List (List Record × Plan)) : List Op :=
  batches.flatMap fun b => b.1.map .writeRecord ++ [.flush b.2]

/-- Everything that a live writer has accepted was sent. -/
structure Sent (f : LogFileId) (rs : List Record) (s : State) : Prop extends Live f rs s where
  log : s.2.1.accepted = encodings rs
  index : s.2.2.accepted = indexBytes rs

/-- **Any split into batches** sends the same. -/
theorem Sent.batches : ∀ (batches : List (List Record × Plan)) {rs : List Record} {s : State},
    Sent f rs s → (∀ b ∈ batches, b.2.Smooth) → Fills f (rs ++ batches.flatMap Prod.fst) →
    f.firstRecordId.sequenceNumber.get + (rs ++ batches.flatMap Prod.fst).length < 2 ^ 64 →
    Sent f (rs ++ batches.flatMap Prod.fst) (run s (batched batches)) ∧
      reportedEnds s (batched batches) =
        (ends (encodings rs).length (batches.flatMap Prod.fst)).map .ofNat := by
  intro batches
  induction batches with
  | nil =>
    intro rs s h _ _ _
    rw [List.flatMap_nil, List.append_nil]
    exact ⟨h, rfl⟩
  | cons b batches ih =>
    intro rs s h hplans hfills hlt
    rw [List.flatMap_cons, ← List.append_assoc] at hfills hlt ⊢
    have hlen := hlt
    rw [List.length_append] at hlen
    obtain ⟨hlive, -, hends⟩ := h.toLive.writes b.1
      (hfills.of_isPrefix (List.prefix_append _ _)) (by omega)
    obtain ⟨hdone, hlive', hlog, hindex⟩ := hlive.flush (hplans b List.mem_cons_self)
    obtain ⟨h1, h2⟩ := ih ⟨hlive', hlog, hindex⟩
      (fun b' hb' => hplans b' (List.mem_cons_of_mem b hb')) hfills hlt
    have hops : batched (b :: batches) = b.1.map .writeRecord ++ ([.flush b.2] ++ batched batches) := by
      rw [batched, List.flatMap_cons, List.append_assoc]
      rfl
    rw [hops, run_append, reportedEnds_append, hends, ends_append, List.map_append]
    refine ⟨h1, congrArg _ ?_⟩
    rw [encodings_append, List.length_append] at h2
    rw [← h2, List.singleton_append, reportedEnds, outcomes, hdone]
    rfl

/-! ### Recovery of what was sent -/

open IndexedLogValidator (validate outcome withPair openedIndex Certified certified_none)

variable {p : StorageProvider} {d : Disk} {L : Stored} {tree : Tree} {t : Option RecordEndLocation}
  {base : List Record}

/-- A certified recovery of a log that holds exactly `rs` gives back its index. -/
theorem recovers (hf : ¬ f.Terminal) (hrs : Fills f rs) (h : On p f.streamId d tree)
    (hlog : d (.log f) = some L) (hcontent : L.file.content = encodings rs)
    (hc : Certified f t base (encodings rs) (openedIndex d f).content) {plan : Plan}
    (hplan : plan.Smooth) :
    ∃ w l i, (validate p f t).run tree plan = (.ok (outcome (endOf rs)), w) ∧
      On p f.streamId (withPair (d.link p (p.leafDirectory f)) f l i) w.sys ∧
      l.content = encodings rs ∧ i.content = indexBytes rs := by
  rw [← hcontent] at hc
  obtain ⟨w, l, i, hw, hon, ⟨⟨a, hl⟩, b, hi⟩, -⟩ :=
    IndexedLogValidator.validate_smooth hf h hlog hc hplan
  rw [hcontent, held_encodings hrs] at hw hl hi
  exact ⟨w, l, i, hw, hon, by rw [hl]; rfl, by rw [hi]; rfl⟩

/-- **Live and recovered indexing agree.**  The ends that a writer reports are those
that a scan of its log finds, and recovery of the log rebuilds the index that the
writer has sent: without trust from any index, and from the writer's own index
whichever of its records is trusted. -/
theorem recovery_rebuilds_index (hf : ¬ f.Terminal) {batches : List (List Record × Plan)}
    (hplans : ∀ b ∈ batches, b.2.Smooth) (hrs : Fills f (batches.flatMap Prod.fst)) :
    let rs := batches.flatMap Prod.fst
    let s := run (new f, .new, .new) (batched batches)
    s.2.1.accepted = encodings rs ∧
      reportedEnds (new f, .new, .new) (batched batches) =
        (LogFileValidator.report f none s.2.1.accepted).suffixEnds ∧
      ∀ (p : StorageProvider) (d : Disk) (L : Stored) (tree : Tree) (plan : Plan),
        On p f.streamId d tree → d (.log f) = some L → L.file.content = s.2.1.accepted →
        plan.Smooth →
        (∃ w l i, (validate p f none).run tree plan = (.ok (outcome s.1.bufferedEnd), w) ∧
          On p f.streamId (withPair (d.link p (p.leafDirectory f)) f l i) w.sys ∧
          l.content = s.2.1.accepted ∧ i.content = s.2.2.accepted) ∧
        ((openedIndex d f).content = s.2.2.accepted → ∀ k, ∃ w l i,
          (validate p f (endOf (rs.take k))).run tree plan = (.ok (outcome s.1.bufferedEnd), w) ∧
          On p f.streamId (withPair (d.link p (p.leafDirectory f)) f l i) w.sys ∧
          l.content = s.2.1.accepted ∧ i.content = s.2.2.accepted) := by
  intro rs s
  have hlt := LogFileId.firstRecordId_add_lt hf hrs.length_le
  have hstart : Sent f [] (new f, .new, .new) := ⟨live_new f, rfl, rfl⟩
  obtain ⟨hsent, hends⟩ := hstart.batches batches hplans hrs hlt
  have hlog : s.2.1.accepted = encodings rs := hsent.log
  have hindex : s.2.2.accepted = indexBytes rs := hsent.index
  have hend : s.1.bufferedEnd = endOf rs := hsent.bufferedEnd
  rw [hlog, hindex, hend]
  refine ⟨rfl, ?_, fun p d L tree plan hon hL hcontent hplan => ⟨?_, fun hsame k => ?_⟩⟩
  · have hfound : LogFileValidator.found f none (encodings rs) = rs := held_encodings hrs
    rw [hends, LogFileValidator.report, hfound]
    rfl
  · exact recovers hf hrs hon hL hcontent (certified_none f _ _) hplan
  · have hcertified : Certified f (endOf (rs.take k)) (rs.take k) (encodings rs)
        (openedIndex d f).content := by
      refine ⟨hrs.of_isPrefix (List.take_prefix k rs), rfl, encodings_mono (List.take_prefix k rs),
        ?_⟩
      rw [hsame]
      exact indexBytes_mono (List.take_prefix k rs)
    exact recovers hf hrs hon hL hcontent hcertified hplan

omit [Crc32c] in
theorem recovery_rebuilds_index_first : letI := Crc32c.reference
    let f : LogFileId := ⟨⟨0, by decide⟩, .min⟩
    let batches : List (List Record × Plan) :=
      [([], .calm), ([Fills.firstRecord f], .next (.upTo 3 0) .calm)]
    let rs := batches.flatMap Prod.fst
    let s := run (new f, .new, .new) (batched batches)
    s.2.1.accepted = encodings rs ∧
      reportedEnds (new f, .new, .new) (batched batches) =
        (LogFileValidator.report f none s.2.1.accepted).suffixEnds ∧
      ∀ (p : StorageProvider) (d : Disk) (L : Stored) (tree : Tree) (plan : Plan),
        On p f.streamId d tree → d (.log f) = some L → L.file.content = s.2.1.accepted →
        plan.Smooth →
        (∃ w l i, (validate p f none).run tree plan = (.ok (outcome s.1.bufferedEnd), w) ∧
          On p f.streamId (withPair (d.link p (p.leafDirectory f)) f l i) w.sys ∧
          l.content = s.2.1.accepted ∧ i.content = s.2.2.accepted) ∧
        ((openedIndex d f).content = s.2.2.accepted → ∀ k, ∃ w l i,
          (validate p f (endOf (rs.take k))).run tree plan = (.ok (outcome s.1.bufferedEnd), w) ∧
          On p f.streamId (withPair (d.link p (p.leafDirectory f)) f l i) w.sys ∧
          l.content = s.2.1.accepted ∧ i.content = s.2.2.accepted) := by
  let _ := Crc32c.reference
  intro f batches
  have hf : ¬ f.Terminal := by decide
  have hplans : ∀ b ∈ batches, b.2.Smooth := by
    intro b hb
    rcases List.mem_cons.mp hb with rfl | hb
    · trivial
    · obtain rfl := List.mem_singleton.mp hb
      exact ⟨fun _ => by decide, trivial⟩
  have hrs : Fills f (batches.flatMap Prod.fst) := Fills.first f
  exact @recovery_rebuilds_index Crc32c.reference f hf batches hplans hrs

end IndexedLogWriter

end TransactionLog
