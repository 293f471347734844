import TransactionLog.Storage.ClusteringConfiguration
import TransactionLog.Streams.Service

/-!
# A node: its streams and its clustering configuration

The configuration stands beside the streams in one tree.  Reads and replacements of it, the
operations of the streams and crashes of the machine come in any order; each call of any of
them can fail or be the last.  A crash may take back replacements of the configuration that
were not synchronized; of the streams it takes content only.

A run keeps, for every stream, that it has gone through its own operations as if it were
alone, and for the configuration, that a read finds the one last established or one whose
replacement did not return since.
-/

namespace TransactionLog

open Lib Lib.Tree

namespace Node

open Service (Event MachineCrash)
open Sessions (Op Alike)
open StorageProvider (Configured Survives isLinked)
open StreamInitializer (initializeStream recordsThrough)

variable [Crc32c] [CheckpointReader] [ClusteringReader]

/-- The streams, and the entries of the configuration that a crash may bring back. -/
structure State where
  service : Service.State
  replaced : List (Option Entry)

variable (p : StorageProvider)

/-- The entry of the configuration, and those that a crash may bring back. -/
def State.entries (st : State) : List (Option Entry) :=
  st.service.tree.get p.clusteringConfigurationFilePath :: st.replaced

/-- The state after the configuration was read. -/
def read (st : State) (plan : Plan) : State :=
  { st with service.tree := (p.readClusteringConfiguration.run st.service.tree plan).2.sys }

/-- The state after a replacement of the configuration, and its result. -/
def write (st : State) (configuration : EstablishedClusteringConfiguration) (plan : Plan) :
    Except (Exit StorageError) Unit × State :=
  let r := (p.writeClusteringConfiguration configuration).run st.service.tree plan
  (r.1, ⟨{ st.service with tree := r.2.sys },
    if isLinked (r.2.sys.get p.clusteringConfigurationFilePath) then [] else st.entries p⟩)

/-- The state after a crash that leaves `tree`. -/
def crash (st : State) (c : MachineCrash p) (tree : Tree) : State :=
  ⟨{ Service.step p st.service (.crash c) with tree := tree }, []⟩

/-- What a crash leaves: of the streams what it leaves of their files, and an entry of the
configuration that it may bring back. -/
structure Crashed (st : State) (c : MachineCrash p) (tree : Tree) : Prop where
  streams : ∀ s, SameIn (below (p.streamDirectory s)) (st.service.tree.mapFiles c.left) tree
  configuration : ∃ e ∈ st.entries p, Survives e (tree.get p.clusteringConfigurationFilePath)

/-- What may happen to the streams while the machine runs. -/
def Running {p : StorageProvider} : Event p → Prop
  | .crash _ => False
  | _ => True

/-- The configurations that may be read after a replacement with this result. -/
def candidates (configuration : EstablishedClusteringConfiguration)
    (rs : List (Option EstablishedClusteringConfiguration)) :
    Except (Exit StorageError) Unit → List (Option EstablishedClusteringConfiguration)
  | .ok _ => [some configuration]
  | .error _ => some configuration :: rs

/-- Runs from `t₀`, with what happened to the streams and the configurations that may be
read: the one last established, and those whose replacement did not return since. -/
inductive Runs (t₀ : Tree) : State → List (Event p) →
    List (Option EstablishedClusteringConfiguration) → Prop
  | start {stored : Option EstablishedClusteringConfiguration}
      (configured : Configured (t₀.get p.clusteringConfigurationFilePath) stored) :
      Runs t₀ ⟨.new t₀, []⟩ [] [stored]
  | stream {st : State} {events : List (Event p)}
      {rs : List (Option EstablishedClusteringConfiguration)} (h : Runs t₀ st events rs)
      (event : Event p) (running : Running event) :
      Runs t₀ { st with service := Service.step p st.service event } (events ++ [event]) rs
  | read {st : State} {events : List (Event p)}
      {rs : List (Option EstablishedClusteringConfiguration)} (h : Runs t₀ st events rs)
      (plan : Plan) : Runs t₀ (Node.read p st plan) events rs
  | written {st : State} {events : List (Event p)}
      {rs : List (Option EstablishedClusteringConfiguration)} (h : Runs t₀ st events rs)
      (configuration : EstablishedClusteringConfiguration) (plan : Plan) :
      Runs t₀ (write p st configuration plan).2 events
        (candidates configuration rs (write p st configuration plan).1)
  | crashed {st : State} {events : List (Event p)}
      {rs : List (Option EstablishedClusteringConfiguration)} (h : Runs t₀ st events rs)
      {c : MachineCrash p} {tree : Tree} (crash : Crashed p st c tree) :
      Runs t₀ (Node.crash p st c tree) (events ++ [.crash c]) rs

/-! ### What every run keeps -/

/-- Every stream is as if it were alone, and the configuration is one of `rs`. -/
structure Sound (t₀ : Tree) (st : State) (events : List (Event p))
    (rs : List (Option EstablishedClusteringConfiguration)) : Prop where
  alike : ∀ s, Alike p s (st.service.at s)
    (Sessions.run p s (.new t₀) (events.filterMap (Event.onto s)))
  configured : ∀ e ∈ st.entries p, ∃ r ∈ rs, Configured e r

variable {p} {t₀ tree : Tree} {st st' : State} {events : List (Event p)}
  {rs : List (Option EstablishedClusteringConfiguration)} {plan : Plan}
  {configuration : EstablishedClusteringConfiguration}

omit [ClusteringReader] in
theorem run_append (s : StreamId) : ∀ (ops ops' : List (Op p s)) (st : Sessions.State),
    Sessions.run p s st (ops ++ ops') = Sessions.run p s (Sessions.run p s st ops) ops' := by
  intro ops ops'
  induction ops with
  | nil => exact fun _ => rfl
  | cons op ops ih => exact fun st => ih _

theorem Sound.ready (h : Sound p t₀ st events rs) : Service.Ready p st.service :=
  fun s => .refl (h.alike s).base (h.alike s).own

theorem Sound.isDir (h : Sound p t₀ st events rs) :
    st.service.tree.isDir p.rootDirectory = true :=
  StorageProvider.isDir_rootDirectory (h.alike ⟨0, by decide⟩).base

/-- A stream, after what happened to it. -/
theorem Sound.alike_step (h : Sound p t₀ st events rs) (event : Event p) (s : StreamId) :
    Alike p s ((Service.step p st.service event).at s)
      (Sessions.run p s (.new t₀) ((events ++ [event]).filterMap (Event.onto s))) := by
  have hstep := h.ready.alike (h.alike s) event
  rw [List.filterMap_append, run_append]
  cases honto : event.onto s with
  | none =>
    rw [List.filterMap_cons_none honto]
    rw [honto] at hstep
    exact hstep
  | some op =>
    rw [List.filterMap_cons_some honto]
    rw [honto] at hstep
    exact hstep

/-- What happens to the streams does nothing to the configuration. -/
theorem Sound.get_step (h : Sound p t₀ st events rs) (event : Event p) (hrunning : Running event) :
    (Service.step p st.service event).tree.get p.clusteringConfigurationFilePath =
      st.service.tree.get p.clusteringConfigurationFilePath := by
  cases event with
  | on s op hop =>
    have hframe := ((h.ready s).act hop).2
    exact hframe.get _ StorageProvider.beside_clusteringConfigurationFilePath
  | establish plan =>
    have hsame := StorageProvider.Established.new (q := p.rootDirectory)
      (fun s => (h.alike s).base) plan
    exact congrArg (fun t : Tree => t.get p.clusteringConfigurationFilePath) hsame
  | crash c => exact hrunning.elim

theorem Sound.stream (h : Sound p t₀ st events rs) (event : Event p) (hrunning : Running event) :
    Sound p t₀ { st with service := Service.step p st.service event } (events ++ [event]) rs := by
  refine ⟨h.alike_step event, fun e he => h.configured e ?_⟩
  rw [State.entries, h.get_step event hrunning] at he
  exact he

/-- What happens to the configuration does nothing to the streams. -/
theorem Sound.alike_of_sameIn (h : Sound p t₀ st events rs)
    (hsame : ∀ s, SameIn (below (p.streamDirectory s)) st.service.tree tree) (s : StreamId) :
    Alike p s (Service.State.at { st.service with tree := tree } s)
      (Sessions.run p s (.new t₀) (events.filterMap (Event.onto s))) :=
  (h.alike s).of_tree (hsame s).symm

theorem Sound.read (h : Sound p t₀ st events rs) (plan : Plan) :
    Sound p t₀ (Node.read p st plan) events rs := by
  refine ⟨h.alike_of_sameIn fun s =>
    StorageProvider.keeps_readClusteringConfiguration.run (.refl _ _) plan, fun e he => ?_⟩
  obtain ⟨r, hr, hconfigured⟩ := h.configured _ List.mem_cons_self
  rcases List.mem_cons.mp he with rfl | he
  · refine ⟨r, hr, ?_⟩
    have hrule := StorageProvider.readClusteringConfiguration_rule
      (c := ⟨False, fun _ => True⟩) h.isDir hconfigured
    rw [Node.read]
    rcases hrun : p.readClusteringConfiguration.run st.service.tree plan with ⟨e | r', w⟩
    · exact (hrule.error_of_run rfl plan.within_any hrun).2
    · exact (hrule.ok_of_run rfl plan.within_any hrun).2
  · exact h.configured e (List.mem_cons_of_mem _ he)

/-- A replacement, whatever its result. -/
theorem Sound.write (h : Sound p t₀ st events rs)
    (configuration : EstablishedClusteringConfiguration) (plan : Plan) :
    Sound p t₀ (Node.write p st configuration plan).2 events
      (candidates configuration rs (Node.write p st configuration plan).1) := by
  refine ⟨h.alike_of_sameIn fun s =>
    StorageProvider.keeps_writeClusteringConfiguration.run (.refl _ _) plan, ?_⟩
  have hrule := @StorageProvider.writeClusteringConfiguration_rule _ p st.service.tree
    ⟨False, fun _ => True⟩ configuration h.isDir
  rw [Node.write]
  rcases hw : (p.writeClusteringConfiguration configuration).run st.service.tree plan with
    ⟨e | _, w⟩
  · have hwrite := hrule.error_of_run rfl plan.within_any hw
    have hbefore : ∀ e ∈ st.entries p, ∃ r ∈ some configuration :: rs, Configured e r := by
      intro e he
      obtain ⟨r, hr, hconfigured⟩ := h.configured e he
      exact ⟨r, List.mem_cons_of_mem _ hr, hconfigured⟩
    intro e he
    rcases List.mem_cons.mp he with rfl | he
    · rcases hwrite with hsame | hnew
      · dsimp only
        rw [hsame]
        exact hbefore _ List.mem_cons_self
      · exact ⟨_, List.mem_cons_self, hnew⟩
    · dsimp only at he
      split at he
      · cases he
      · exact hbefore e he
  · obtain ⟨hlinked, hnew⟩ := hrule.ok_of_run rfl plan.within_any hw
    intro e he
    rw [State.entries] at he
    dsimp only at he
    rw [if_pos hlinked] at he
    obtain rfl := List.mem_singleton.mp he
    exact ⟨_, List.mem_singleton_self _, hnew⟩

theorem Sound.crashed (h : Sound p t₀ st events rs) {c : MachineCrash p}
    (hcrash : Crashed p st c tree) :
    Sound p t₀ (Node.crash p st c tree) (events ++ [.crash c]) rs := by
  refine ⟨fun s => (h.alike_step (.crash c) s).of_tree (hcrash.streams s).symm, fun e he => ?_⟩
  obtain rfl := List.mem_singleton.mp he
  obtain ⟨e, he, hsurvives⟩ := hcrash.configuration
  obtain ⟨r, hr, hconfigured⟩ := h.configured e he
  exact ⟨r, hr, hconfigured.survives hsurvives⟩

/-- **Every run**, by induction. -/
theorem Runs.sound (hestablished : StorageProvider.Established p t₀) (h : Runs p t₀ st events rs) :
    Sound p t₀ st events rs := by
  induction h with
  | start configured =>
    refine ⟨fun s => Service.ready_new hestablished s, fun e he => ?_⟩
    obtain rfl := List.mem_singleton.mp he
    exact ⟨_, List.mem_singleton_self _, configured⟩
  | stream h event running ih => exact ih.stream event running
  | read h plan ih => exact ih.read plan
  | written h configuration plan ih => exact ih.write configuration plan
  | crashed h crash ih => exact ih.crashed crash

/-- **A node keeps its configuration and its streams apart.**  From the construction of the
provider on, in every run, a read of the configuration gives the one last established or one
whose replacement did not return since, whole, or none where none was, and fails only if it
is abandoned or meets an error of the system; and every stream is initialized with all that
was reported durable of it and nothing but what it accepted. -/
theorem node_consistent {root : Path} {t₁ : Tree} {plan₁ : Plan} {w₁ : World Tree}
    (hfresh : ∀ s, Fresh ⟨root⟩ s t₁)
    (hnew : (StorageProvider.new root).run t₁ plan₁ = (.ok p, w₁))
    (h : Runs p w₁.sys st events rs) (plan : Plan) :
    let r := (p.readClusteringConfiguration.run st.service.tree plan).1
    ((∀ stored, r = .ok stored → stored ∈ rs) ∧
      (∀ e, r = .error e → e = .stopped ∨ ∃ path k, e = .error (.io path k)) ∧
      (plan.Smooth → ∃ stored ∈ rs, r = .ok stored)) ∧
    ∀ s, (∀ i w, (initializeStream p s).run st.service.tree plan = (.ok i, w) →
        (st.service.client s).reported <+: recordsThrough (diskOf p w.sys) i ∧
        recordsThrough (diskOf p w.sys) i <+: (st.service.client s).history) ∧
      (plan.Smooth → ∃ i w writer, (initializeStream p s).run st.service.tree plan = (.ok i, w) ∧
        IndexedLogWriter.ofInitialized i = some writer) := by
  obtain ⟨rfl, hextends, hestablished⟩ :=
    (StorageProvider.new_triple (c := ⟨False, fun _ => True⟩)).ok_of_run rfl plan₁.within_any hnew
  have hsound := h.sound hestablished
  refine ⟨?_, fun s => ?_⟩
  · obtain ⟨stored, hmem, hconfigured⟩ := hsound.configured _ List.mem_cons_self
    have hrule := StorageProvider.readClusteringConfiguration_rule
      (c := ⟨plan.Smooth, fun _ => True⟩) hsound.isDir hconfigured
    rcases hrun : (StorageProvider.readClusteringConfiguration ⟨root⟩).run st.service.tree plan with
      ⟨e | stored', w⟩
    · obtain ⟨⟨hcalm, hfailed⟩, -⟩ := hrule.error_of_run rfl plan.within_smooth hrun
      refine ⟨by simp, ?_, fun hsmooth => absurd hsmooth hcalm⟩
      rintro _ ⟨⟩
      exact hfailed
    · obtain ⟨rfl, -⟩ := hrule.ok_of_run rfl plan.within_smooth hrun
      refine ⟨?_, by simp, fun _ => ⟨stored', hmem, rfl⟩⟩
      rintro _ ⟨⟩
      exact hmem
  · obtain ⟨hrecovered, hcompletes⟩ :=
      Service.recovers_of_alike ((hfresh s).extended hextends) (hsound.alike s) plan
    exact ⟨fun i w hrun => (hrecovered i w hrun).1, hcompletes⟩

omit [Crc32c] [CheckpointReader] [ClusteringReader] in
/-- A first configuration whose replacement stops before the root is synchronized, and a
crash that takes it back. -/
theorem node_consistent_interrupted : letI := Crc32c.reference
    letI := CheckpointReader.canonical
    letI := ClusteringReader.canonical
    let p : StorageProvider := ⟨[]⟩
    let s : StreamId := ⟨0, by decide⟩
    let configuration : EstablishedClusteringConfiguration := ⟨⟨List.replicate 16 1, rfl⟩, .single⟩
    let plan : Plan := .next .all (.next .all (.next .all (.next .all (.next .all .stop))))
    let st := (write p ⟨.new StorageProvider.bases, []⟩ configuration plan).2
    let st' : State :=
      { st with service := Service.step p st.service (.on s (.start .calm) trivial) }
    let tree := (st'.service.tree.mapFiles (MachineCrash.worst p).left).erased
      p.clusteringConfigurationFilePath
    ∃ stored ∈ [some configuration, none],
      (p.readClusteringConfiguration.run tree .calm).1 = .ok stored := by
  let _ := Crc32c.reference
  let _ := CheckpointReader.canonical
  let _ := ClusteringReader.canonical
  intro p s configuration plan st st' tree
  obtain ⟨⟨t, rest⟩, hnew⟩ := StorageProvider.new_completes
    StorageProvider.established_bases.not_blocked (show Plan.Smooth .calm from trivial)
  obtain rfl : t = StorageProvider.bases := by
    have hsame := StorageProvider.established_bases.new .calm
    rw [hnew] at hsame
    exact hsame
  have hstart : Runs p StorageProvider.bases ⟨.new StorageProvider.bases, []⟩ [] [none] :=
    .start (show Configured (StorageProvider.bases.get _) none from rfl)
  have hresult : (write p ⟨.new StorageProvider.bases, []⟩ configuration plan).1 =
      .error .stopped := by decide +kernel
  have hreplaced : none ∈ st.replaced := by decide +kernel
  have hfile : isDirEntry (st.service.tree.get p.clusteringConfigurationFilePath) = false := by
    decide +kernel
  have hwritten : Runs p StorageProvider.bases st [] [some configuration, none] := by
    have h := hstart.written configuration plan
    rw [hresult] at h
    exact h
  clear_value st
  have hget := (hwritten.sound StorageProvider.established_bases).get_step
    (.on s (.start .calm) trivial) trivial
  have hrun : Runs p StorageProvider.bases st' _ _ :=
    hwritten.stream (.on s (.start .calm) trivial) trivial
  have hgone : tree.get p.clusteringConfigurationFilePath = none := by
    refine get_erased_self (Bool.eq_false_iff.mpr fun hdir => ?_)
    have hdir := Crash.isDir_mapFiles _ _ ▸ isDir_iff.mpr (.inr hdir)
    rw [isDir_iff, hget, hfile] at hdir
    exact hdir.elim (by decide) (by decide)
  have hcrash : Crashed p st' (MachineCrash.worst p) tree := by
    refine ⟨fun s => .erased StorageProvider.not_below_root, none,
      List.mem_cons_of_mem _ hreplaced, ?_⟩
    rw [hgone]
    exact .absent
  exact (node_consistent StorageProvider.fresh_bases hnew (.crashed hrun hcrash) .calm).1.2.2 trivial

end Node

end TransactionLog
