import TransactionLog.Clustering.Hostname

/-!
# Cluster membership

A membership is a node slot and the cluster's domain.  It comes from the raw
configuration or from stored text, whose strings go through the same parsers, and the
hostnames of the three nodes are derived from it.
-/

namespace TransactionLog

open Lib IpAddr

inductive ClusteringConfigurationError where
  | invalidMode (value : List Char)
  | invalidNodeName (value : List Char)
  | missingField (field : String)
  | unexpectedField (field : String)
  | hostname (error : HostnameError)
  deriving DecidableEq, Repr

/-- The permanent slots of the cluster. -/
inductive NodeName where
  | master
  | replica1
  | replica2
  deriving DecidableEq, Repr

namespace NodeName

def name : NodeName → List Char
  | master => ['m', 'a', 's', 't', 'e', 'r']
  | replica1 => ['r', 'e', 'p', 'l', 'i', 'c', 'a', '-', '1']
  | replica2 => ['r', 'e', 'p', 'l', 'i', 'c', 'a', '-', '2']

def parse (value : List Char) : Except ClusteringConfigurationError NodeName :=
  let trimmed := trim value
  if trimmed = master.name then .ok master
  else if trimmed = replica1.name then .ok replica1
  else if trimmed = replica2.name then .ok replica2
  else .error (.invalidNodeName value)

theorem parse_name (node : NodeName) : parse node.name = .ok node := by
  cases node <;> decide

theorem name_injective {node node' : NodeName} (h : node.name = node'.name) : node = node' := by
  have hparse := parse_name node
  rw [h, parse_name] at hparse
  exact (Except.ok.inj hparse).symm

theorem isLabel_name (node : NodeName) : IsLabel node.name := by
  have hchars : node.name.all (fun c => c.isAlphanum || c == '-') = true := by
    cases node <;> decide
  refine ⟨?_, ?_, fun c hc => ?_, fun c hc => ?_, fun c hc => ?_⟩
  · cases node <;> simp [name]
  · cases node <;> simp [name]
  · have hc' := List.all_eq_true.mp hchars c hc
    rw [Bool.or_eq_true, beq_iff_eq] at hc'
    exact hc'
  · cases node <;> obtain rfl := Option.some.inj hc <;> rfl
  · cases node <;> obtain rfl := Option.some.inj hc <;> rfl

theorem exists_letter (node : NodeName) : ∃ c ∈ node.name, 97 ≤ c.toNat ∧ c.toNat ≤ 122 := by
  cases node with
  | master => exact ⟨'m', List.mem_cons_self, by decide⟩
  | replica1 => exact ⟨'r', List.mem_cons_self, by decide⟩
  | replica2 => exact ⟨'r', List.mem_cons_self, by decide⟩

end NodeName

/-- A membership: this node's slot, and the domain that all nodes share. -/
structure ClusterMembership where
  myNodeName : NodeName
  clusterDomain : Hostname

namespace ClusterMembership

/-- A node's hostname, whose length is not checked. -/
def hostname (membership : ClusterMembership) (node : NodeName) : List Char :=
  node.name ++ '.' :: membership.clusterDomain.name

/-- The fields of a stored membership, read through the parsers of their types. -/
def deserialize (myNodeName clusterDomain : List Char) : Option ClusterMembership := do
  let node ← (NodeName.parse myNodeName).toOption
  let domain ← (Hostname.parse clusterDomain).toOption
  return ⟨node, domain⟩

end ClusterMembership

structure RawClusterConfiguration where
  myNodeName : List Char
  clusterDomain : List Char
  deriving DecidableEq, Repr

structure RawClusteringConfiguration where
  mode : List Char
  cluster : Option RawClusterConfiguration
  deriving DecidableEq, Repr

inductive ClusteringConfiguration where
  | single
  | cluster (membership : ClusterMembership)

namespace ClusteringConfiguration

def tryFrom (raw : RawClusteringConfiguration) :
    Except ClusteringConfigurationError ClusteringConfiguration :=
  let mode := trim raw.mode
  if mode = ['s', 'i', 'n', 'g', 'l', 'e'] then
    if raw.cluster.isSome then .error (.unexpectedField "cluster") else .ok .single
  else if mode = ['c', 'l', 'u', 's', 't', 'e', 'r'] then
    match raw.cluster with
    | none => .error (.missingField "cluster")
    | some group => do
      let node ← NodeName.parse group.myNodeName
      let domain ← (Hostname.parse group.clusterDomain).mapError .hostname
      return .cluster ⟨node, domain⟩
  else .error (.invalidMode raw.mode)

end ClusteringConfiguration

/-! ### What is accepted -/

namespace ClusterMembership

/-- A membership is read back from its own strings, so every one may be stored. -/
theorem deserialize_name (membership : ClusterMembership) :
    deserialize membership.myNodeName.name membership.clusterDomain.name = some membership := by
  rw [deserialize, NodeName.parse_name, Hostname.parse_name]
  rfl

theorem trim_cluster :
    trim ['c', 'l', 'u', 's', 't', 'e', 'r'] = ['c', 'l', 'u', 's', 't', 'e', 'r'] := by
  decide

/-! ### Derived hostnames -/

/-- The bytes of a derived hostname without the final dot. -/
def derivedLength (membership : ClusterMembership) (node : NodeName) : Nat :=
  node.name.length + 1 + (utf8 (withoutRootDot membership.clusterDomain.name)).length

variable {label name : List Char}

theorem withoutRootDot_cons_dot (label : List Char) (hname : name ≠ []) :
    withoutRootDot (label ++ '.' :: name) = label ++ '.' :: withoutRootDot name := by
  have hlast : (label ++ '.' :: name).getLast? = name.getLast? := by
    rw [List.getLast?_append, List.getLast?_cons_of_ne_nil hname]
    cases hlast : name.getLast? with
    | none => exact absurd (List.getLast?_eq_none_iff.mp hlast) hname
    | some c => rfl
  rw [withoutRootDot, withoutRootDot, hlast]
  split
  · rw [List.dropLast_append_of_ne_nil (by simp), List.dropLast_cons_of_ne_nil hname]
  · rfl

theorem length_utf8_hostname (membership : ClusterMembership) (node : NodeName) :
    (utf8 (withoutRootDot (membership.hostname node))).length = membership.derivedLength node := by
  have hne := Hostname.ne_nil_of_grammar membership.clusterDomain.grammar
  have hascii : ∀ c ∈ node.name, c.toNat < 128 :=
    fun c hc => Hostname.isLabelChar_lt (node.isLabel_name.chars c hc)
  rw [hostname, withoutRootDot_cons_dot _ hne, utf8_append, utf8_cons, List.length_append,
    List.length_append, utf8_of_lt hascii, List.length_map, derivedLength, Nat.add_assoc]
  rfl

/-- A label before a name of the grammar gives one, where it fits: the labels are those of
the name and one more, and an address has no letters. -/
theorem grammar_cons_dot (hlabel : IsLabel label)
    (hletter : ∃ c ∈ label, 97 ≤ c.toNat ∧ c.toNat ≤ 122) (hname : HostnameGrammar name)
    (hlen : (utf8 (withoutRootDot (label ++ '.' :: name))).length ≤ 253) :
    HostnameGrammar (label ++ '.' :: name) := by
  have hne := Hostname.ne_nil_of_grammar hname
  have hdot : '.' ∉ label := by
    intro h
    rcases hlabel.chars _ h with h | h
    · cases h
    · cases h
  have hlabels : ∀ l ∈ (withoutRootDot (label ++ '.' :: name)).splitOn '.', IsLabel l := by
    rw [withoutRootDot_cons_dot label hne, List.splitOn_append_cons_self_of_not_mem hdot]
    intro l hl
    rcases List.mem_cons.mp hl with rfl | hl
    · exact hlabel
    · exact hname.labels l hl
  refine ⟨hlen, ?_, hlabels⟩
  by_contra hip
  rw [Bool.not_eq_false] at hip
  have hchars := Hostname.mem_of_splitOn fun l hl => (hlabels l hl).chars
  obtain ⟨c, hc, hletter⟩ := hletter
  refine (Hostname.caseless_of_isIpAddr hchars hip c ?_).1 hletter
  rw [withoutRootDot_cons_dot label hne]
  exact List.mem_append_left _ hc

theorem trim_hostname (membership : ClusterMembership) (node : NodeName) :
    trim (membership.hostname node) = membership.hostname node := by
  refine Hostname.trim_of_isNameChar fun c hc => ?_
  rcases List.mem_append.mp hc with hc | hc
  · exact .inl (node.isLabel_name.chars c hc)
  rcases List.mem_cons.mp hc with rfl | hc
  · exact .inr rfl
  · exact Hostname.isNameChar_of_labels membership.clusterDomain.grammar.labels c hc

theorem parse_hostname {membership : ClusterMembership} {node : NodeName}
    (hlen : membership.derivedLength node ≤ 253) :
    ∃ derived, Hostname.parse (membership.hostname node) = .ok derived ∧
      derived.name = membership.hostname node := by
  have hgrammar : HostnameGrammar (membership.hostname node) := by
    refine grammar_cons_dot node.isLabel_name node.exists_letter
      membership.clusterDomain.grammar ?_
    exact (length_utf8_hostname membership node).trans_le hlen
  have hlower : asciiLower (membership.hostname node) = membership.hostname node := by
    have hnode : asciiLower node.name = node.name := by
      cases node <;> decide
    rw [hostname, asciiLower, List.map_append, List.map_cons, ← asciiLower, ← asciiLower, hnode,
      membership.clusterDomain.lowercase]
    rfl
  refine ⟨⟨membership.hostname node, hgrammar, hlower⟩, ?_, rfl⟩
  rw [Hostname.parse_eq_ok, trim_hostname]
  exact ⟨hgrammar, hlower.symm⟩

theorem parse_hostname_tooLong {membership : ClusterMembership} {node : NodeName}
    (hlen : 253 < membership.derivedLength node) :
    Hostname.parse (membership.hostname node) =
      .error ⟨membership.hostname node, .tooLong⟩ := by
  rw [Hostname.parse_eq_error, trim_hostname]
  refine ⟨rfl, .tooLong ?_⟩
  rw [length_utf8_hostname]
  exact hlen

/-- **Derived hostnames are pairwise different, and valid where they fit.**  A derived
hostname is accepted, as it is, exactly where it has at most 253 bytes without the final
dot; where it has more it is rejected as too long. -/
theorem derived_hostnames_valid_iff_fit (membership : ClusterMembership) :
    (∀ node node', membership.hostname node = membership.hostname node' → node = node') ∧
    ∀ node,
      ((∃ derived, Hostname.parse (membership.hostname node) = .ok derived ∧
          derived.name = membership.hostname node) ↔
        node.name.length + 1 + (utf8 (withoutRootDot membership.clusterDomain.name)).length
          ≤ 253) ∧
      (253 < node.name.length + 1 +
          (utf8 (withoutRootDot membership.clusterDomain.name)).length →
        Hostname.parse (membership.hostname node) =
          .error ⟨membership.hostname node, .tooLong⟩) := by
  refine ⟨fun node node' h => NodeName.name_injective (List.append_cancel_right h),
    fun node => ⟨⟨?_, parse_hostname⟩, parse_hostname_tooLong⟩⟩
  rintro ⟨derived, hparse, -⟩
  by_contra hlen
  rw [parse_hostname_tooLong (Nat.not_le.mp hlen)] at hparse
  cases hparse

/-- A domain of 253 bytes is accepted, but the hostname of the master in it is not. -/
theorem derived_hostname_of_longest_domain :
    let label := fun n c => List.replicate n c
    let domain := label 63 'a' ++ '.' :: label 63 'b' ++ '.' :: label 63 'c' ++ '.' :: label 61 'd'
    ∃ membership,
      ClusteringConfiguration.tryFrom ⟨['c', 'l', 'u', 's', 't', 'e', 'r'],
        some ⟨NodeName.master.name, domain⟩⟩ = .ok (.cluster membership) ∧
      Hostname.parse (membership.hostname .master) =
        .error ⟨membership.hostname .master, .tooLong⟩ := by
  intro label domain
  have hcheck : Hostname.check (trim domain) = .ok () := by decide +kernel
  let membership : ClusterMembership := ⟨.master, Hostname.ofChecked domain hcheck⟩
  have hlen : 253 < NodeName.master.name.length + 1 +
      (utf8 (withoutRootDot (asciiLower (Hostname.owned domain)))).length := by decide +kernel
  have hname : membership.clusterDomain.name = asciiLower (Hostname.owned domain) :=
    Hostname.name_ofChecked domain hcheck
  have htooLong : 253 < membership.derivedLength .master := by
    rw [derivedLength, hname]
    exact hlen
  refine ⟨membership, ?_, parse_hostname_tooLong htooLong⟩
  rw [ClusteringConfiguration.tryFrom]
  simp only [trim_cluster, NodeName.parse_name, Hostname.parse_of_ok hcheck]
  rfl

end ClusterMembership

end TransactionLog
