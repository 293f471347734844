import TransactionLog.Clustering.EstablishedConfiguration
import TransactionLog.Storage.AtomicFile
import TransactionLog.Storage.Regions

/-!
# The clustering configuration of a provider

The configuration is one file in the root directory.  It is beside the directory of every
stream, and so is where it is staged.
-/

namespace TransactionLog

open Lib Lib.Tree

namespace StorageProvider

variable [ClusteringReader] (p : StorageProvider)

def maxClusteringConfigurationBytes : Nat := 4096

/-- Loads the stored configuration, if there is one. -/
def readClusteringConfiguration :
    Io Tree StorageError (Option EstablishedClusteringConfiguration) :=
  readJson ClusteringReader.fromSlice p.clusteringConfigurationFilePath
    maxClusteringConfigurationBytes

/-- Replaces the stored configuration. -/
def writeClusteringConfiguration (configuration : EstablishedClusteringConfiguration) :
    Io Tree StorageError Unit :=
  writeAtomic p.clusteringConfigurationFilePath configuration.toVec

/-- The entry is that of a configuration, complete and durable, or there is neither. -/
def Configured (e : Option Entry) (r : Option EstablishedClusteringConfiguration) : Prop :=
  Stores ClusteringReader.fromSlice maxClusteringConfigurationBytes e r

variable {p} {s : StreamId} {t : Tree} {c : Mode} {e e' : Option Entry}
  {r : Option EstablishedClusteringConfiguration}
  {configuration : EstablishedClusteringConfiguration}

theorem Configured.survives (h : Configured e r) (he : Survives e e') : Configured e' r :=
  Stores.survives h he

theorem configured_of_complete {f : File} {l : Bool} (h : Complete configuration.toVec f) :
    Configured (some ⟨.file f, l⟩) (some configuration) :=
  h.stores configuration.length_toVec_le (ClusteringReader.fromSlice_toVec configuration)

/-! ### The root and the streams -/

omit [ClusteringReader] in
/-- The directory of a stream lies in a directory of the root. -/
theorem not_below_root {name : Name} :
    below (p.streamDirectory s) (p.rootDirectory ++ [name]) = false := by
  rw [Bool.eq_false_iff, ne_eq, below_iff]
  intro h
  have hlen := h.length_le
  rw [length_streamDirectory, List.length_append, List.length_singleton] at hlen
  omega

omit [ClusteringReader] in
theorem dropLast_ne_root {q : Path} (hq : below (p.streamDirectory s) q = true) :
    q.dropLast ≠ p.rootDirectory := by
  intro h
  have hlen := (below_iff.mp hq).length_le
  have hdrop := congrArg List.length h
  rw [length_streamDirectory] at hlen
  rw [List.length_dropLast] at hdrop
  omega

omit [ClusteringReader] in
theorem beside_clusteringConfigurationFilePath :
    beside (p.streamDirectory s) p.clusteringConfigurationFilePath = true := by
  rw [beside, clusteringConfigurationFilePath, not_below_root]
  rfl

omit [ClusteringReader] in
theorem isDir_rootDirectory (h : t.isDir (p.streamDirectory s) = true) :
    t.isDir p.rootDirectory = true := isDir_above h (List.cons_ne_nil _ _)

/-! ### One call -/

/-- **Reading** finds the configuration and leaves it. -/
theorem readClusteringConfiguration_rule (hdir : t.isDir p.rootDirectory = true)
    (h : Configured (t.get p.clusteringConfigurationFilePath) r) :
    Triple c (fun t' => t' = t) p.readClusteringConfiguration
      (fun r' t' => r' = r ∧ Configured (t'.get p.clusteringConfigurationFilePath) r)
      (fun e t' => Unread c e t' ∧ Configured (t'.get p.clusteringConfigurationFilePath) r) :=
  readJson_rule hdir h

/-- **Writing** leaves the entry there was or one of the new configuration, which is
durable when the writing returns. -/
theorem writeClusteringConfiguration_rule (hdir : t.isDir p.rootDirectory = true) :
    Triple c (fun t' => t' = t) (p.writeClusteringConfiguration configuration)
      (fun _ t' => isLinked (t'.get p.clusteringConfigurationFilePath) = true ∧
        Configured (t'.get p.clusteringConfigurationFilePath) (some configuration))
      (fun _ t' => t'.get p.clusteringConfigurationFilePath =
          t.get p.clusteringConfigurationFilePath ∨
        Configured (t'.get p.clusteringConfigurationFilePath) (some configuration)) := by
  refine (writeAtomic_rule hdir).conseq (fun _ h => h) ?_ ?_
  · intro _ t' ht
    obtain ⟨-, f, hf, hget⟩ := ht
    rw [clusteringConfigurationFilePath, hget]
    exact ⟨rfl, configured_of_complete hf⟩
  · intro e t' ht
    refine ht.2.imp_right fun h => ?_
    obtain ⟨f, l, hf, hget⟩ := h
    rw [clusteringConfigurationFilePath, hget]
    exact configured_of_complete hf

/-- Neither does anything to a stream. -/
theorem keeps_readClusteringConfiguration :
    Keeps (SameIn (below (p.streamDirectory s)) t) p.readClusteringConfiguration :=
  keeps_readJson not_below_root

omit [ClusteringReader] in
theorem keeps_writeClusteringConfiguration :
    Keeps (SameIn (below (p.streamDirectory s)) t)
      (p.writeClusteringConfiguration configuration) := by
  refine keeps_writeAtomic not_below_root ?_ fun q hq => dropLast_ne_root hq
  rw [staged, withAddedExtension_concat]
  exact not_below_root

end StorageProvider

end TransactionLog
