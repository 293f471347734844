import TransactionLog.Streams.IndexedHistory
import TransactionLog.Streams.Service

/-!
# The progress of the checkpoint

Only an initialization of the stream writes its checkpoint.  It publishes the recovered
end, and that is the end of the last record held in the files it has validated, the first
of which is the checkpoint's own.  So the checkpoint never goes back, wherever the
initialization ends, and once it has completed it covers just the records that it has
recovered.
-/

namespace TransactionLog

open Lib Lib.Tree

namespace StreamInitializer

variable [Crc32c] {p : StorageProvider} {s : StreamId} {H rs : List Record} {n : Nat}
  {d d' d₀ d₁ d₂ : Disk} {f g : LogFileId} {e : RecordEndLocation} {r : Option RecordEndLocation}
  {cp : Option StreamCheckpoint} {m : Option LogFileId} {passed rest : List LogFileId}
  {st : InitializationState} {i : InitializedStream} {c : Mode}

/-- How many records a checkpoint covers. -/
def covers (cp : Option StreamCheckpoint) : Nat := cp.elim 0 fun k => countThrough k.endLocation

theorem countThrough_endOf (h : Fills f rs) (he : endOf rs = some e) :
    countThrough e = f.before + rs.length := by
  obtain ⟨-, -, hn, -⟩ := h.endOf_eq_some he
  rw [countThrough, hn, LogFileId.first_sequence]

theorem fills_heldIn (d : Disk) (f : LogFileId) : Fills f (heldIn d f) := by
  rw [heldIn]
  cases d (.log f) with
  | none => exact .nil f
  | some L => exact held_fills f L.file.content

/-- The records held in the checkpoint's file, or in one after it, go as far as the
checkpoint. -/
theorem CheckpointBacked.covers_le (h : CheckpointBacked s cp d) (hg : g.streamId = s)
    (hle : (firstFile s cp).fileNumber.get ≤ g.fileNumber.get)
    (he : endOf (heldIn d g) = some e) : covers cp ≤ countThrough e := by
  rw [countThrough_endOf (fills_heldIn d g) he]
  cases cp with
  | none => exact Nat.zero_le _
  | some k =>
    rw [covers, Option.elim_some]
    rcases Nat.lt_or_eq_of_le hle with hlt | heq
    · have hcount := (before_le_countThrough k.endLocation).2
      have hbefore := LogFileId.before_add_le (f := k.endLocation.logFileId) hlt
      omega
    · obtain ⟨base, L, I, hL, -, hfills, hend, hlog, -⟩ := (h k rfl).pair
      have hsame : k.endLocation.logFileId = g :=
        LogFileId.ext' ((h k rfl).stream.trans hg.symm) heq
      rw [hsame] at hL hfills
      have hfront := hfills.le_held hlog.isPrefix
      rw [countThrough_endOf hfills hend, heldIn, hL]
      exact Nat.add_le_add_left hfront.length_le _

variable [CheckpointReader]

/-- The end of the passed files. -/
theorem Passed.covers_le (h : Passed p (cp.map StreamCheckpoint.endLocation) d₁ none passed d₂ r)
    (hloaded : Loaded s d₀ d₁) (hcov : Covered s cp m)
    (hfiles : filesFrom (firstFile s cp) m = passed ++ rest) (hc : Consistent s H n d₀)
    (hp : Published s n cp d₀) (hr : r = some e) : covers cp ≤ countThrough e := by
  have hbacked := (hloaded.progress hc hp).backed
  rcases List.eq_nil_or_concat passed with rfl | ⟨init, g, rfl⟩
  · rw [show r = none from h.recovered] at hr
    cases hr
  · rw [List.concat_eq_append] at h hfiles
    obtain ⟨hs, hn⟩ := following_passed hcov hfiles init g [] rfl
    have hnodup := nodup_passed hcov hfiles
    obtain ⟨L, -, -, -, hL, -⟩ := h.passedAt hnodup g (by simp)
    rw [h.recovered_endIn hnodup g (by simp), hbacked.certifies.endIn_eq hL] at hr
    exact hbacked.covers_le hs (by omega) hr

/-- The recovered end is not before the checkpoint. -/
theorem Visited.covers_le (h : Visited p s cp d₀ d₁ m st d) (hc : Consistent s H n d₀)
    (hp : Published s n cp d₀) (he : st.recoveredEnd = some e) : covers cp ≤ countThrough e := by
  have hcov := h.covered
  obtain ⟨passed, rest, d₂, r, hfiles, hpassed, hended⟩ := h.walk
  cases hended with
  | all => exact hpassed.covers_le h.loaded hcov hfiles hc hp he
  | missing => exact hpassed.covers_le h.loaded hcov hfiles hc hp he
  | @incomplete f rest L l i o log mended =>
    cases ho : o with
    | none =>
      rw [ho] at he
      exact hpassed.covers_le h.loaded hcov hfiles hc hp he
    | some e' =>
      obtain ⟨n₂, -, -, hprogress⟩ := hpassed.progress_from h.loaded hcov hfiles hc hp
      obtain ⟨hs, hn⟩ := filesFrom_eq_append hcov hfiles
      have hend : endOf (heldIn d₂ f) = o := by
        rw [← hprogress.backed.certifies.endIn_eq log, endIn, log]
        exact mended.incomplete.1.symm
      rw [ho] at he hend
      obtain rfl := Option.some.inj he
      exact hprogress.backed.covers_le hs (by omega) hend

/-! ### Wherever an initialization ends -/

omit [Crc32c] in
theorem Advanced.covers_le (h : Advanced p s st d d') (hr : StorageProvider.Reads d s cp)
    (hle : ∀ e, st.recoveredEnd = some e → covers cp ≤ countThrough e) :
    ∃ cp', StorageProvider.Reads d' s cp' ∧ covers cp ≤ covers cp' := by
  by_cases hkept : ∀ e, st.recoveredEnd = some e → st.checkpoint = some ⟨e⟩
  · rw [h.kept hkept]
    exact ⟨cp, hr, Nat.le_refl _⟩
  · simp only [not_forall] at hkept
    obtain ⟨e, he, hnew⟩ := hkept
    obtain ⟨file, hfile, hd⟩ := h.published he hnew
    exact ⟨some ⟨e⟩, reads_holds hfile hd, hle e he⟩

/-- **An initialization that ends early** does not take the checkpoint back. -/
theorem Interrupted.covers_le {x : Exit InitializationError} {tree : Tree}
    (h : Interrupted c p s cp d₀ x tree) (hc : Consistent s H n d₀) (hp : Published s n cp d₀) :
    ∃ d' cp', On p s d' tree ∧ StorageProvider.Reads d' s cp' ∧ covers cp ≤ covers cp' := by
  cases h with
  | @loading d₁ _ _ loaded on => exact ⟨d₁, cp, on, (loaded.published hp).reads, Nat.le_refl _⟩
  | @validating d₁ m _ _ loaded maximum covered exit =>
    obtain ⟨passed, f, rest, d₂, r₁, hfiles, hpassed, hexit⟩ := exit
    obtain ⟨hs, hn⟩ := filesFrom_eq_append covered hfiles
    obtain ⟨n₂, -, -, hprogress⟩ := hpassed.progress_from loaded covered hfiles hc hp
    cases hexit with
    | missing log on => exact ⟨d₂, cp, on, hprogress.published.reads, Nat.le_refl _⟩
    | validation log exit =>
      obtain ⟨-, d', ⟨hmending, -⟩, hon⟩ := exit
      obtain ⟨-, hp'⟩ := hprogress.mending hs log (fun k hk => by
        rw [firstFile_of_mem s hk]
        omega) hmending
      exact ⟨d', cp, hon, hp'.reads, Nat.le_refl _⟩
  | @removing d₁ d₂ d₃ m st _ _ visited removing on =>
    obtain ⟨first, last, hfirst, -⟩ := removing
    rw [visited.nothing_to_remove hc hp] at hfirst
    cases hfirst
  | @publishing d₁ d₂ d₃ m st _ e _ visited removed recovered new publishing =>
    obtain ⟨n', k', -, hprogress, -⟩ := visited.progress hc hp
    obtain rfl := eq_of_removed removed (visited.nothing_to_remove hc hp)
    have hreads := hprogress.published.reads
    rcases publishing with hon | ⟨stored, -, hon⟩ | ⟨file, hfile, hon⟩
    · exact ⟨_, cp, hon, hreads, Nat.le_refl _⟩
    · exact ⟨_, cp, hon, reads_of_content hreads (contentAt_of_same (.update (by simp) _)),
        Nat.le_refl _⟩
    · exact ⟨_, some ⟨e⟩, hon, reads_holds hfile (Function.update_self _ _ _),
        visited.covers_le hc hp recovered⟩
  | @preparing d₁ d₂ d₃ d₄ m st _ f _ visited removed advanced none_active new creating =>
    obtain ⟨n', k', -, hprogress, -⟩ := visited.progress hc hp
    obtain rfl := eq_of_removed removed (visited.nothing_to_remove hc hp)
    obtain ⟨cp', hreads, hle⟩ := advanced.covers_le hprogress.published.reads
      fun e he => visited.covers_le hc hp he
    rcases creating with on | on
    · exact ⟨d₄, cp', on, hreads, hle⟩
    · exact ⟨_, cp', on, reads_of_content hreads (contentAt_of_same (.update (by simp) _)), hle⟩

/-! ### Where an initialization completes -/

theorem Published.covers_le (h : Published s n cp d) : covers cp ≤ n := by
  cases cp with
  | none => exact Nat.zero_le n
  | some k => exact h.le k rfl

/-- The recovered end is the end of all that was recovered. -/
theorem Recovered.count (h : Recovered s cp d₀ i r d) (hc : Consistent s H n d₀)
    (hp : Published s n cp d₀) (hR : Consistent s rs rs.length d) (hhanded : HandedOver s rs d i)
    (hn : n ≤ rs.length) : r.elim 0 countThrough = rs.length := by
  have hfills := hR.fills hhanded.stream
  have hcount := hhanded.count
  have hend := hhanded.end_eq
  by_cases hfirst : i.fileId = firstFile s cp
  · rw [h.recovered_first hfirst, hend]
    cases hlast : endOf (part i.fileId rs) with
    | some e => rw [Option.elim_some, countThrough_endOf hfills hlast, ← hcount]
    | none =>
      -- no file is before the first one, and the checkpoint's file holds a record
      rw [endOf_eq_none.mp hlast, List.length_nil, Nat.add_zero, hfirst] at hcount
      rw [Option.elim_none, hcount]
      cases cp with
      | none => exact (Nat.zero_mul _).symm
      | some k =>
        have hbefore := (before_le_countThrough k.endLocation).1
        have hle := hp.le k rfl
        rw [← firstFile_of_mem s (show k ∈ some k from rfl)] at hcount
        omega
  · have hlt : (firstFile s cp).fileNumber.get < i.fileId.fileNumber.get :=
      Nat.lt_of_le_of_ne h.first_le fun heq =>
        hfirst (LogFileId.ext' (h.stream.trans h.first_stream.symm) heq.symm)
    have hmax := i.fileId.fileNumber.le
    let g : LogFileId := ⟨s, ⟨i.fileId.fileNumber.get - 1, by omega⟩⟩
    have hg : i.fileId.fileNumber.get = g.fileNumber.get + 1 := (Nat.sub_add_cancel (by omega)).symm
    have hle : (firstFile s cp).fileNumber.get ≤ g.fileNumber.get := by omega
    rw [h.recovered_later g rfl hle hg, hend]
    cases hlast : endOf (part i.fileId rs) with
    | some e => rw [Option.some_or, Option.elim_some, countThrough_endOf hfills hlast, ← hcount]
    | none =>
      -- the file before the active one is full
      have hcertifies := (hp.backed hc).certifies
      obtain ⟨L, l, k, e, hL, hmended, -⟩ := h.passed g rfl hle (by omega)
      have hfull : (heldIn d₀ g).length = recordsPerFile := by
        rw [hcertifies.length_heldIn hL]
        exact hmended.complete.2.2.2
      rw [endOf_eq_none.mp hlast, List.length_nil, Nat.add_zero, LogFileId.before, hg,
        Nat.succ_mul] at hcount
      rw [Option.none_or, hcertifies.endIn_eq hL, hcount]
      cases hprev : endOf (heldIn d₀ g) with
      | some e => rw [Option.elim_some, countThrough_endOf (fills_heldIn d₀ g) hprev, hfull]; rfl
      | none =>
        rw [endOf_eq_none.mp hprev, List.length_nil, recordsPerFile_eq] at hfull
        cases hfull

/-- **A completed initialization** leaves the checkpoint at the last record that it has
recovered. -/
theorem Initialized.covers_eq (h : Initialized p s cp d₀ i d) (hc : Consistent s H n d₀)
    (hp : Published s n cp d₀) :
    ∃ cp', StorageProvider.Reads d s cp' ∧ covers cp' = (recordsThrough d i).length := by
  obtain ⟨cp', -, hdurable, hR, hp', hhanded⟩ := h.settles hc hp
  obtain ⟨r, hrecovered⟩ := h.recovered
  have hn : n ≤ (recordsThrough d i).length := by
    have hle := hdurable.length_le
    rwa [List.length_take_of_le hc.le] at hle
  have hcount := hrecovered.count hc hp hR hhanded hn
  by_cases hkept : ∀ e, r = some e → cp = some ⟨e⟩
  · obtain ⟨hnone, hsome⟩ := hrecovered.kept hkept
    refine ⟨cp, reads_of_content hp.reads ?_, ?_⟩
    · rw [contentAt, contentAt]
      cases hst : d₀ (.checkpoint s) with
      | none => rw [hnone hst]
      | some st =>
        obtain ⟨st', k, hst', hfile⟩ := hsome st hst
        rw [hst', Option.map_some, Option.map_some, hfile]
        rfl
    · cases r with
      | none =>
        have hle := hp.covers_le
        rw [Option.elim_none] at hcount
        omega
      | some e =>
        rw [hkept e rfl]
        exact hcount
  · simp only [not_forall] at hkept
    obtain ⟨e, rfl, hnew⟩ := hkept
    obtain ⟨file, hfile, hd⟩ := hrecovered.published e rfl hnew
    exact ⟨some ⟨e⟩, reads_holds hfile hd, hcount⟩

end StreamInitializer

/-! ## Every run -/

namespace Sessions

open StreamInitializer (initializeStream recordsThrough covers countThrough reads_unique
  reads_of_content contentAt_of_same)
open IndexedLogWriter (tracks_carries)

variable [Crc32c] [CheckpointReader] {p : StorageProvider} {s : StreamId} {st : State} {n : Nat}
  {cp : Option StreamCheckpoint} {plan : Plan} {i : InitializedStream} {w : World Tree}

/-- How many records the checkpoint covers that stands in the stream's directory. -/
def checkpointed (p : StorageProvider) (s : StreamId) (tree : Tree) : Nat :=
  (checkpointEnd p s tree).elim 0 countThrough

omit [Crc32c] in
theorem checkpointEnd_of_reads {tree : Tree} (h : StorageProvider.Reads (diskOf p tree) s cp) :
    checkpointEnd p s tree = cp.map StreamCheckpoint.endLocation := by
  have hfile : tree.file? (p.checkpointFilePath s) =
      (diskOf p tree (.checkpoint s)).map Stored.file := by
    rw [Tree.file?, Tree.node?, diskOf]
    show _ = (storedEntry (tree.get (p.checkpointFilePath s))).map Stored.file
    rcases tree.get (p.checkpointFilePath s) with _ | ⟨_ | _ | _, linked⟩ <;> rfl
  unfold checkpointEnd
  rw [hfile]
  cases cp with
  | none =>
    rw [show diskOf p tree (.checkpoint s) = none from h]
    rfl
  | some k =>
    obtain ⟨st, hst, -, hread⟩ := h
    rw [hst, Option.map_some, Option.bind_some, hread]

omit [Crc32c] in
theorem checkpointed_of_reads {tree : Tree} (h : StorageProvider.Reads (diskOf p tree) s cp) :
    checkpointed p s tree = covers cp := by
  rw [checkpointed, checkpointEnd_of_reads h]
  cases cp <;> rfl

/-- **A completed initialization** checkpoints what it has recovered. -/
theorem Holds.checkpointed_eq (h : Holds p s st n)
    (hrun : (initializeStream p s).run st.tree plan = (.ok i, w)) :
    checkpointed p s w.sys = (recordsThrough (diskOf p w.sys) i).length := by
  obtain ⟨d, cp, -, hc, hp, hinitialized⟩ := h.initializes hrun
  obtain ⟨cp', hreads, hcovers⟩ := hinitialized.covers_eq hc hp
  exact (checkpointed_of_reads hreads).trans hcovers

theorem Holds.checkpointed_le (h : Holds p s st n) : checkpointed p s st.tree ≤ n :=
  Nat.le_trans (Nat.le_max_left _ _) h.reports_le

/-- **An initialization** never takes the checkpoint back. -/
theorem Holds.checkpointed_start (h : Holds p s st n) (plan : Plan) :
    checkpointed p s st.tree ≤ checkpointed p s (Sessions.act p s st (.start plan)).tree := by
  rcases hrun : (initializeStream p s).run st.tree plan with ⟨e | i, w⟩
  · simp only [Sessions.act, hrun]
    rcases h.interrupts hrun with ⟨hfresh, -⟩ | ⟨d, cp, hon, hc, hp, hinterrupted⟩
    · rw [checkpointed, checkpointEnd_fresh hfresh]
      exact Nat.zero_le _
    · obtain ⟨d', cp', hon', hreads', hle⟩ := hinterrupted.covers_le hc hp
      have hreads := hp.reads
      rw [← hon.2] at hreads
      rw [← hon'.2] at hreads'
      rw [checkpointed_of_reads hreads]
      exact hle.trans (checkpointed_of_reads hreads').ge
  · simp only [Sessions.act, hrun]
    rw [h.checkpointed_eq hrun]
    have hle := (h.initialized hrun).durable.length_le
    rw [List.length_take_of_le h.le] at hle
    exact Nat.le_trans h.checkpointed_le hle

/-- An operation of the writer leaves the checkpoint as it is. -/
theorem Holds.checkpointEnd_perform {α : Type} {records : List Record}
    {m : IndexedLogWriter → Io (IndexedLogWriter × Tree) IndexedLogWriteError α}
    (h : Holds p s st n) (hm : Appends p records m) :
    checkpointEnd p s (Sessions.perform st records plan m).tree = checkpointEnd p s st.tree := by
  unfold Sessions.perform
  cases hwriter : st.writer with
  | none => rfl
  | some writer =>
    cases h with
    | fresh _ closed => simp [hwriter] at closed
    | @there _ d cp hon hc hp hopen =>
      obtain ⟨-, g, l, k, L, I, hwriting⟩ := hopen writer hwriter
      have hkept : ∀ {w' : IndexedLogWriter} {tree : Tree} {g' : IndexedLogWriter.Ghost},
          IndexedLogWriter.At writer.fileId (IndexedLogWriter.Carries p s d writer.fileId
            (encodings g.base) (indexBytes g.base) L.linked I.linked) g' (w', tree) →
          checkpointEnd p s tree = checkpointEnd p s st.tree := by
        intro w' tree g' hat
        obtain ⟨-, hsame⟩ := Open.same (x := .checkpoint s) hat (by simp) (by simp)
        rw [checkpointEnd_on hon hp, checkpointEnd_of_reads
          (reads_of_content hp.reads (contentAt_of_same hsame))]
      have hresult := (hm writer st.tree _ g (tracks_carries hwriting.stream _ _ _ _)
        (hwriting.at_carries hon) ⟨(writer, st.tree), plan⟩ rfl plan.within_any).2
      simp only [Io.run]
      rcases hrun : m writer ⟨(writer, st.tree), plan⟩ with ⟨e | a, w⟩ <;> rw [hrun] at hresult
      · obtain ⟨g', hat', -⟩ := hresult
        exact hkept hat'
      · obtain ⟨g', hat', -⟩ := hresult
        exact hkept hat'

theorem Holds.checkpointEnd_crash (h : Holds p s st n) (c : Crash p s) :
    checkpointEnd p s (st.tree.mapFiles c.left) = checkpointEnd p s st.tree := by
  cases h with
  | fresh fresh => rw [checkpointEnd_fresh fresh, checkpointEnd_fresh (c.fresh fresh)]
  | @there _ d cp hon hc hp _ =>
    have hreads := (hp.crashed c).reads
    rw [← (c.on hon).2] at hreads
    rw [checkpointEnd_on hon hp, checkpointEnd_of_reads hreads]

/-- **Only an initialization** writes the checkpoint. -/
theorem Holds.checkpointEnd_act (h : Holds p s st n) {op : Op p s} (hop : ∀ plan, op ≠ .start plan) :
    checkpointEnd p s (Sessions.act p s st op).tree = checkpointEnd p s st.tree := by
  cases op with
  | start plan => exact absurd rfl (hop plan)
  | writeRecord record => exact h.checkpointEnd_perform (appends_writeRecord record)
  | flush plan => exact h.checkpointEnd_perform appends_flush
  | syncData plan => exact h.checkpointEnd_perform appends_syncData
  | finalize => exact h.checkpointEnd_perform appends_finalize
  | drop => rfl
  | crash c => exact h.checkpointEnd_crash c

theorem Holds.checkpointed_act (h : Holds p s st n) (op : Op p s) :
    checkpointed p s st.tree ≤ checkpointed p s (Sessions.act p s st op).tree := by
  by_cases hop : ∀ plan, op ≠ .start plan
  · rw [checkpointed, checkpointed, h.checkpointEnd_act hop]
  · simp only [not_forall, not_not] at hop
    obtain ⟨plan, rfl⟩ := hop
    exact h.checkpointed_start plan

/-- **No run** takes it back, and none without an initialization changes it. -/
theorem Holds.checkpoint_run : ∀ (ops : List (Op p s)) {st : State} {n : Nat}, Holds p s st n →
    st.reported <+: st.history.take n →
    checkpointed p s st.tree ≤ checkpointed p s (Sessions.run p s st ops).tree ∧
      ((∀ plan, .start plan ∉ ops) →
        checkpointEnd p s (Sessions.run p s st ops).tree = checkpointEnd p s st.tree) := by
  intro ops
  induction ops with
  | nil => exact fun _ _ => ⟨Nat.le_refl _, fun _ => rfl⟩
  | cons op ops ih =>
    intro st n h hreported
    obtain ⟨n', h', hreported'⟩ := h.step hreported op
    obtain ⟨hle, hsame⟩ := ih h' hreported'
    refine ⟨Nat.le_trans (h.checkpointed_act op) hle, fun hops => ?_⟩
    rw [Sessions.run, hsame fun plan hplan => hops plan (List.mem_cons_of_mem _ hplan)]
    exact h.checkpointEnd_act fun plan hop => hops plan (hop ▸ List.mem_cons_self)

theorem Alike.checkpointed {st' : State} (h : Alike p s st st') :
    checkpointEnd p s st'.tree = checkpointEnd p s st.tree ∧
      Sessions.checkpointed p s st'.tree = Sessions.checkpointed p s st.tree := by
  have hsame : checkpointEnd p s st'.tree = checkpointEnd p s st.tree := checkpointEnd_congr h.tree
  exact ⟨hsame, by rw [Sessions.checkpointed, hsame, Sessions.checkpointed]⟩

end Sessions

namespace Service

open Sessions (checkpointed checkpointEnd)
open StreamInitializer (initializeStream recordsThrough)

variable [Crc32c] [CheckpointReader] {p : StorageProvider} {t : Tree}

/-- **The checkpoint of a stream only advances**, in every run of all streams.  Nothing but
an initialization of the stream changes it, and one that completes leaves it at the end of
what it has recovered.  This is so as crashes keep every rename that was done. -/
theorem checkpoint_advances (hestablished : StorageProvider.Established p t)
    (hfresh : ∀ s, Fresh p s t) (events more : List (Event p)) (s : StreamId) :
    let st := run p (.new t) events
    let st' := run p st more
    checkpointed p s st.tree ≤ checkpointed p s st'.tree ∧
    ((∀ event ∈ more, ∀ plan, event.onto s ≠ some (.start plan)) →
      checkpointEnd p s st'.tree = checkpointEnd p s st.tree) ∧
    ∀ plan i w, (initializeStream p s).run st.tree plan = (.ok i, w) →
      checkpointed p s w.sys = (recordsThrough (diskOf p w.sys) i).length := by
  intro st st'
  have hready : Ready p st := (ready_new hestablished).run events
  have halike : Sessions.Alike p s (st.at s)
      (Sessions.run p s (.new t) (events.filterMap (Event.onto s))) :=
    (ready_new hestablished).run_alike events (ready_new hestablished s)
  have halike' := hready.run_alike more halike
  obtain ⟨n, hholds, hreported⟩ := Sessions.Holds.reached (hfresh s)
    (events.filterMap (Event.onto s))
  obtain ⟨hle, hkept⟩ := hholds.checkpoint_run (more.filterMap (Event.onto s)) hreported
  obtain ⟨hsame, hcount⟩ := halike.checkpointed
  obtain ⟨hsame', hcount'⟩ := halike'.checkpointed
  refine ⟨?_, fun hmore => ?_, fun plan i w hrun => ?_⟩
  · rw [hcount, hcount'] at hle
    exact hle
  · rw [hsame, hsame'] at hkept
    refine hkept fun plan hplan => ?_
    obtain ⟨event, hevent, honto⟩ := List.mem_filterMap.mp hplan
    exact hmore event hevent plan honto
  · obtain ⟨w', hrun', hi, hsame⟩ := initialized_alone halike hrun
    have heq := hholds.checkpointed_eq hrun'
    rw [Sessions.recordsThrough_congr hi hsame, checkpointed, Sessions.checkpointEnd_congr hsame]
      at heq
    exact heq

omit [Crc32c] [CheckpointReader] in
/-- Neither a crash nor another stream touches what the second initialization published. -/
theorem checkpoint_advances_crashed : letI := Crc32c.reference
    letI := CheckpointReader.canonical
    let p : StorageProvider := ⟨[]⟩
    let f : LogFileId := .first ⟨0, by decide⟩
    let g : LogFileId := .first ⟨1, by decide⟩
    let events : List (Event p) := [.on f.streamId (.start .calm) trivial,
      .on f.streamId (.writeRecord (Fills.firstRecord f)) trivial,
      .on f.streamId (.syncData .calm) trivial, .on f.streamId (.start .calm) trivial]
    let more : List (Event p) := [.on g.streamId (.start (.next .all .stop)) trivial,
      .crash (.worst p), .establish .calm]
    let st := run p (.new StorageProvider.bases) events
    checkpointed p f.streamId st.tree = 1 ∧
      checkpointEnd p f.streamId (run p st more).tree = checkpointEnd p f.streamId st.tree := by
  intro p f g events more st
  have hcount : @checkpointed CheckpointReader.canonical p f.streamId
      (@State.tree Crc32c.reference st) = 1 := by
    decide +kernel
  let _ := Crc32c.reference
  let _ := CheckpointReader.canonical
  have hmore : ∀ event ∈ more, ∀ plan, event.onto f.streamId ≠ some (.start plan) := by
    intro event hevent plan
    have hne : g.streamId ≠ f.streamId := by decide
    rcases List.mem_cons.mp hevent with rfl | hevent
    · exact fun heq => Option.some_ne_none _ (heq.symm.trans (Event.onto_of_ne hne))
    rcases List.mem_cons.mp hevent with rfl | hevent
    · simp [Event.onto]
    · obtain rfl := List.mem_singleton.mp hevent
      simp [Event.onto]
  have hkept : checkpointEnd p f.streamId (run p st more).tree =
      checkpointEnd p f.streamId st.tree :=
    (checkpoint_advances StorageProvider.established_bases StorageProvider.fresh_bases events more
      f.streamId).2.1 hmore
  clear_value st
  exact ⟨hcount, hkept⟩

end Service

end TransactionLog
