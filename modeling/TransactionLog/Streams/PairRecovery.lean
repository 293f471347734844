import TransactionLog.Streams.IndexedLogValidator

/-!
# What the recovery of a pair restores

A trusted endpoint is `Certified` if the log begins with the records up to it and
the index with their ends.  Recovery then leaves the records that the whole log
holds, all their ends in the index, and nothing else, whichever endpoint was
trusted.
-/

namespace TransactionLog

open Lib

namespace IndexedLogValidator

open LogFileValidator (trustedCount startPosition Accepts repaired found endAfter suffixOf
  keptLength validLength)
open IndexFileValidator (Trusts trustedEntries entriesOf)

variable [Crc32c] {f : LogFileId} {t : Option RecordEndLocation} {base rs : List Record}
  {log index : List UInt8}

/-- The log holds the trusted records and the index their ends. -/
structure Certified (f : LogFileId) (t : Option RecordEndLocation) (base : List Record)
    (log index : List UInt8) : Prop where
  fills : Fills f base
  endpoint : t = endOf base
  log_prefix : encodings base <+: log
  index_prefix : indexBytes base <+: index

theorem certified_none (f : LogFileId) (log index : List UInt8) : Certified f none [] log index :=
  ⟨.nil f, rfl, List.nil_prefix, List.nil_prefix⟩

/-- Any number of the records of a log can be trusted. -/
theorem certified_take {k : Nat} (hindex : indexBytes ((held f log).take k) <+: index) :
    Certified f (endOf ((held f log).take k)) ((held f log).take k) log index where
  fills := (held_fills f log).of_isPrefix (List.take_prefix _ _)
  endpoint := rfl
  log_prefix := (encodings_mono (List.take_prefix _ _)).trans (encodings_held_isPrefix f log)
  index_prefix := hindex

theorem Certified.trustedCount_eq (h : Certified f t base log index) :
    trustedCount t = base.length := by
  rw [h.endpoint, h.fills.length_eq_of_endOf]
  rfl

theorem Certified.startPosition_eq (h : Certified f t base log index) :
    (startPosition t).get = (encodings base).length := by
  rw [h.endpoint]
  cases he : endOf base with
  | none =>
    rw [endOf_eq_none.mp he]
    rfl
  | some e => exact (h.fills.endOf_eq_some he).1

theorem Certified.accepts {file : File} (h : Certified f t base file.content index) :
    Accepts f t file := by
  refine ⟨?_, ?_⟩
  · rw [h.endpoint]
    exact LogFileValidator.plausible_endOf h.fills
  · rw [h.startPosition_eq]
    exact h.log_prefix.length_le

/-- The `k`-th of some entries at the front of an index. -/
theorem entryAt_of_entries {k : Nat} (hk : k < rs.length) (hi : indexBytes rs <+: index)
    (hlt : (encodings rs).length < 2 ^ 64) :
    entryAt index k = (encodings (rs.take (k + 1))).length := by
  obtain ⟨rest, rfl⟩ := hi
  have hlen := length_indexBytes rs
  have hsame : entryAt (indexBytes rs ++ rest) k = entryAt (indexBytes rs) k := by
    rw [entryAt, entryAt, indexEntryLen_eq, List.drop_append_of_le_length (by omega),
      List.take_append_of_le_length]
    rw [List.length_drop]
    omega
  rw [hsame]
  have := entryAt_of_isPrefix (List.prefix_refl (entries 0 rs)) (k := k)
    (by rw [length_entries]; omega) (by omega)
  rwa [Nat.zero_add] at this

theorem Certified.trusts (h : Certified f t base log index) : Trusts t index := by
  intro e he
  have hcount := h.trustedCount_eq
  have hlen := h.index_prefix.length_le
  rw [length_indexBytes] at hlen
  have hsome : endOf base = some e := by rw [← h.endpoint]; exact he
  have hpos : 0 < base.length := by
    refine List.length_pos_iff.mpr fun hnil => ?_
    rw [endOf_eq_none.mpr hnil] at hsome
    cases hsome
  rw [hcount]
  refine ⟨hlen, ?_⟩
  rw [entryAt_of_entries (by omega) h.index_prefix h.fills.encodings_lt,
    List.take_of_length_le (by omega), (h.fills.endOf_eq_some hsome).1]

/-- The trusted records and those that the scan finds are what the log holds. -/
theorem Certified.held_eq (h : Certified f t base log index) : held f log = base ++ found f t log := by
  obtain ⟨rest, rfl⟩ := h.log_prefix
  rw [found, h.startPosition_eq, h.trustedCount_eq, List.drop_left]
  exact held_append h.fills rest

theorem Certified.keptLength_eq (h : Certified f t base log index) :
    keptLength f t log = (encodings (held f log)).length := by
  rw [h.held_eq, encodings_append, List.length_append, keptLength, validLength, h.startPosition_eq]

theorem Certified.endAfter_eq (h : Certified f t base log index) :
    endAfter t (found f t log) = endOf (held f log) := by
  rw [h.held_eq, endAfter, endOf]
  cases hl : (found f t log).getLast? with
  | none =>
    rw [List.getLast?_eq_none_iff.mp hl, List.append_nil, h.endpoint]
    rfl
  | some r =>
    rw [List.getLast?_append, hl, encodings_append, List.length_append, h.startPosition_eq]
    rfl

/-- Entries of positions that fit. -/
theorem entriesOf_suffixOf (hlt : validLength t rs < 2 ^ 64) :
    entriesOf (suffixOf t rs) = entries (startPosition t).get rs := by
  rw [entriesOf, suffixOf, List.flatMap_map, entries]
  refine List.flatMap_congr fun n hn => ?_
  rw [LogFilePosition.get_ofNat
    (Nat.lt_of_le_of_lt (LogFileValidator.lt_of_mem_ends hn) hlt)]

theorem Certified.index_eq (h : Certified f t base log index) :
    trustedEntries t index ++ entriesOf (suffixOf t (found f t log)) = indexBytes (held f log) := by
  have hlt : validLength t (found f t log) < 2 ^ 64 := by
    have hkept := h.keptLength_eq
    rw [keptLength] at hkept
    rw [hkept]
    exact (held_fills f log).encodings_lt
  have htake : index.take (8 * base.length) = indexBytes base := by
    rw [← length_indexBytes]
    exact (List.prefix_iff_eq_take.mp h.index_prefix).symm
  rw [entriesOf_suffixOf hlt, trustedEntries, h.trustedCount_eq, htake, h.startPosition_eq,
    h.held_eq, indexBytes_append]

/-- The files of a pair that holds exactly `rs`, all of it durable. -/
structure Exactly (rs : List Record) (l i : File) : Prop where
  log : ∃ k, l = (File.durable (encodings rs)).seekTo k
  index : ∃ k, i = (File.durable (indexBytes rs)).seekTo k

/-- **A recovered pair** holds what its log held. -/
theorem Mended.exactly {log index l i : File} {r : ValidatedFilePair}
    (h : Mended f t log index l i r) (hc : Certified f t base log.content index.content) :
    Exactly (held f log.content) l i ∧ r = outcome (endOf (held f log.content)) ∧
      ∀ e, r = .incomplete e → l = .atEnd (encodings (held f log.content)) ∧
        i = .atEnd (indexBytes (held f log.content)) := by
  have hcontent : (repaired f t log).content = encodings (held f log.content) := by
    rw [LogFileValidator.repaired_content hc.accepts, hc.keptLength_eq]
    exact (List.prefix_iff_eq_take.mp (encodings_held_isPrefix f log.content)).symm
  have hlog : ∃ k, l = (File.durable (encodings (held f log.content))).seekTo k := by
    obtain ⟨n, rfl⟩ := h.log_repaired
    exact File.eq_durable hcontent hcontent (congrArg List.length hcontent)
  have hindex : ∃ k, i = (File.durable (indexBytes (held f log.content))).seekTo k := by
    have hbytes := h.index_rebuilt.content.trans hc.index_eq
    exact File.eq_durable hbytes (h.index_rebuilt.accepted.trans hbytes)
      (by rw [h.index_rebuilt.synced, hbytes])
  have hresult : r = outcome (endOf (held f log.content)) := by rw [h.result, hc.endAfter_eq]
  refine ⟨⟨hlog, hindex⟩, hresult, fun e he => ?_⟩
  obtain ⟨hl, hi⟩ := h.positioned e he
  have hend : e = endOf (held f log.content) := outcome_eq_incomplete (hresult.symm.trans he)
  have hself : Certified f (endOf (held f log.content)) (held f log.content) log.content
      (indexBytes (held f log.content)) :=
    ⟨held_fills f _, rfl, encodings_held_isPrefix f _, List.prefix_refl _⟩
  obtain ⟨k, rfl⟩ := hlog
  obtain ⟨n, rfl⟩ := hindex
  rw [hend, hself.startPosition_eq] at hl
  rw [hend, hself.trustedCount_eq, ← length_indexBytes] at hi
  exact ⟨congrArg (fun k => (File.durable _).seekTo k) hl,
    congrArg (fun k => (File.durable _).seekTo k) hi⟩

/-- A complete pair is one of an ordinary file and ends with its last record. -/
theorem Mended.complete {log index l i : File} {e : RecordEndLocation}
    (h : Mended f t log index l i (.complete e)) : e.logFileId = f ∧ ¬ f.Terminal ∧
      endAfter t (found f t log.content) = some e ∧
      trustedCount t + (found f t log.content).length = recordsPerFile := by
  have hresult := h.result
  cases he : endAfter t (found f t log.content) with
  | none =>
    rw [he] at hresult
    cases hresult
  | some e' =>
    rw [he, outcome] at hresult
    split at hresult
    · rename_i hfull
      obtain rfl := ValidatedFilePair.complete.inj hresult
      obtain ⟨hfile, hcount⟩ := LogFileValidator.endAfter_eq_some h.accepts he
      refine ⟨hfile, LogFileId.not_terminal_iff.mpr ?_, rfl, hcount.symm.trans hfull⟩
      have hlt := e.recordId.sequenceNumber.lt
      obtain ⟨-, h1, -⟩ := LogFileId.fromRecordId_eq_iff.mp hfile
      have hmod : e.recordId.sequenceNumber.get % 100000 + 1 = 100000 := hfull
      omega
    · cases hresult

/-- A pair that goes on does so after what was found. -/
theorem Mended.incomplete {log index l i : File} {e : Option RecordEndLocation}
    (h : Mended f t log index l i (.incomplete e)) : e = endAfter t (found f t log.content) ∧
      trustedCount t + (found f t log.content).length < recordsPerFile := by
  have he := outcome_eq_incomplete h.result.symm
  refine ⟨he, Nat.lt_of_le_of_ne (LogFileValidator.scanning_found h.accepts).count_le fun hfull => ?_⟩
  have hresult := h.result
  cases hend : endAfter t (found f t log.content) with
  | none =>
    have hcount := LogFileValidator.trustedCount_endAfter h.accepts
    rw [hend, hfull] at hcount
    cases hcount
  | some e' =>
    rw [hend, outcome, if_pos ((LogFileValidator.endAfter_eq_some h.accepts hend).2.trans hfull)]
      at hresult
    cases hresult

/-! ### Recovery without faults -/

variable {p : StorageProvider} {d : Disk} {L : Stored} {tree : Tree} {plan plan' : Plan}

/-- A certified pair of an ordinary file is recovered by every run without faults. -/
theorem validate_smooth (hf : ¬ f.Terminal) (h : On p f.streamId d tree)
    (hlog : d (.log f) = some L)
    (hc : Certified f t base L.file.content (openedIndex d f).content) (hplan : plan.Smooth) :
    ∃ w l i, (validate p f t).run tree plan = (.ok (outcome (endOf (held f L.file.content))), w) ∧
      On p f.streamId (withPair (d.link p (p.leafDirectory f)) f l i) w.sys ∧
      Exactly (held f L.file.content) l i ∧
      ∀ e, outcome (endOf (held f L.file.content)) = .incomplete e →
        l = .atEnd (encodings (held f L.file.content)) ∧
        i = .atEnd (indexBytes (held f L.file.content)) := by
  have hrun := (validate_triple (t := t) rfl hlog ⟨tree, plan⟩ h hplan).2
  rw [Io.run]
  rcases hw : validate p f t ⟨tree, plan⟩ with ⟨e | r, w⟩
  · rw [hw] at hrun
    obtain ⟨hcause, -⟩ := hrun
    exfalso
    have hacc : Accepts f t L.opened.file := hc.accepts
    rcases e with (e | (_ | _ | _) | (_ | _ | _ | _)) | _ | _
    · exact hcause.1 trivial
    · exact hcause hacc
    · exact hcause trivial
    · exact hcause trivial
    · exact hcause trivial
    · exact hcause hc.trusts
    · refine hcause ?_
      have hle := (held_fills f L.file.content).length_le
      rw [hc.held_eq, List.length_append, ← hc.trustedCount_eq] at hle
      exact hle
    · exact hcause trivial
    · exact hcause trivial
    · exact LogFileValidator.not_exhausted hf hcause
  · rw [hw] at hrun
    obtain ⟨l, i, hmended, hon⟩ := hrun
    obtain ⟨hexactly, hr, hend⟩ := hmended.exactly hc
    subst hr
    exact ⟨w, l, i, rfl, hon, hexactly, hend⟩

/-- **Trust changes nothing but the work.**  Whether the end of one of the records
of a log is trusted or nothing is, recovery reports the same and leaves the same
bytes, and a pair that goes on has its cursors at the same places. -/
theorem trust_changes_nothing (hf : ¬ f.Terminal) (h : On p f.streamId d tree)
    (hlog : d (.log f) = some L) {k : Nat}
    (hindex : indexBytes ((held f L.file.content).take k) <+: (openedIndex d f).content)
    (hplan : plan.Smooth) (hplan' : plan'.Smooth) :
    ∃ r w w' l i l' i',
      (validate p f (endOf ((held f L.file.content).take k))).run tree plan = (.ok r, w) ∧
      (validate p f none).run tree plan' = (.ok r, w') ∧
      On p f.streamId (withPair (d.link p (p.leafDirectory f)) f l i) w.sys ∧
      On p f.streamId (withPair (d.link p (p.leafDirectory f)) f l' i') w'.sys ∧
      l.content = l'.content ∧ i.content = i'.content ∧
      ∀ e, r = .incomplete e → l = l' ∧ i = i' := by
  obtain ⟨w, l, i, hw, hon, ⟨⟨a, hl⟩, b, hi⟩, hend⟩ :=
    validate_smooth hf h hlog (certified_take hindex) hplan
  obtain ⟨w', l', i', hw', hon', ⟨⟨a', hl'⟩, b', hi'⟩, hend'⟩ :=
    validate_smooth hf h hlog (certified_none f _ _) hplan'
  refine ⟨_, w, w', l, i, l', i', hw, hw', hon, hon', ?_, ?_, fun e he => ?_⟩
  · rw [hl, hl']
    rfl
  · rw [hi, hi']
    rfl
  · obtain ⟨h1, h2⟩ := hend e he
    obtain ⟨h1', h2'⟩ := hend' e he
    exact ⟨h1.trans h1'.symm, h2.trans h2'.symm⟩

omit [Crc32c] in
theorem trust_changes_nothing_first : letI := Crc32c.reference
    let p : StorageProvider := ⟨[]⟩
    let f : LogFileId := ⟨⟨0, by decide⟩, .min⟩
    let log := File.durable (encodings [Fills.firstRecord f] ++ [1, 2])
    let index := File.durable (indexBytes [Fills.firstRecord f])
    let d := StorageProvider.pairDisk f log index
    let tree := StorageProvider.pairTree p f log index
    ∃ r w w' l i l' i',
      (validate p f (endOf ((held f log.content).take 1))).run tree .calm = (.ok r, w) ∧
      (validate p f none).run tree (.next (.upTo 3 0) .calm) = (.ok r, w') ∧
      On p f.streamId (withPair (d.link p (p.leafDirectory f)) f l i) w.sys ∧
      On p f.streamId (withPair (d.link p (p.leafDirectory f)) f l' i') w'.sys ∧
      l.content = l'.content ∧ i.content = i'.content ∧
      ∀ e, r = .incomplete e → l = l' ∧ i = i' := by
  let _ := Crc32c.reference
  intro p f log index d tree
  have hheld : (held f log.content).take 1 = [Fills.firstRecord f] := by
    rw [show log.content = encodings [Fills.firstRecord f] ++ [1, 2] from rfl,
      held_append (Fills.first f)]
    rfl
  refine trust_changes_nothing (k := 1) (by decide) (StorageProvider.on_pairTree p f log index)
    (StorageProvider.pairDisk_log f log index) ?_ trivial ⟨fun _ => by decide, trivial⟩
  rw [openedIndex, StorageProvider.pairDisk_index]
  show indexBytes ((held f log.content).take 1) <+: indexBytes [Fills.firstRecord f]
  rw [hheld]

end IndexedLogValidator

end TransactionLog
