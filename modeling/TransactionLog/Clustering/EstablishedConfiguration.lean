import TransactionLog.Clustering.ClusterMembership
import TransactionLog.Lib.Hex

/-!
# The stored clustering configuration

The established configuration pairs the configured mode with a UUID.  It is stored as one
JSON object: `toVec` is its text.  How a text is read back is a parameter, of which only
that it reads this text right is used.  `ClusteringReader.canonical` is a reader of such
texts alone.
-/

namespace TransactionLog

open Lib

structure Uuid where
  bytes : List UInt8
  length : bytes.length = 16
  deriving DecidableEq

structure EstablishedClusteringConfiguration where
  clusterId : Uuid
  clusteringConfiguration : ClusteringConfiguration

namespace Uuid

/-- The digits in groups of 8, 4, 4, 4 and 12. -/
def text (id : Uuid) : List UInt8 :=
  hex (id.bytes.take 4) ++ 45 :: (hex ((id.bytes.drop 4).take 2) ++ 45 ::
    (hex ((id.bytes.drop 6).take 2) ++ 45 :: (hex ((id.bytes.drop 8).take 2) ++ 45 ::
      hex (id.bytes.drop 10))))

/-- Reads hyphenated lowercase text. -/
def fromText (text : List UInt8) : Option Uuid := do
  let bytes ← parseHex (text.filter (· != 45))
  if h : bytes.length = 16 then
    if (⟨bytes, h⟩ : Uuid).text = text then some ⟨bytes, h⟩ else none
  else none

theorem filter_hex (bytes : List UInt8) : (hex bytes).filter (· != 45) = hex bytes := by
  refine List.filter_eq_self.mpr fun b hb => bne_iff_ne.mpr ?_
  rintro rfl
  exact (hex_plain 45 hb).2.2.1 rfl

theorem filter_text (id : Uuid) : id.text.filter (· != 45) = hex id.bytes := by
  have hjoin : id.bytes = id.bytes.take 4 ++ ((id.bytes.drop 4).take 2 ++
      ((id.bytes.drop 6).take 2 ++ ((id.bytes.drop 8).take 2 ++ id.bytes.drop 10))) := by
    have hdrop : ∀ n k, id.bytes.drop n = (id.bytes.drop n).take k ++ id.bytes.drop (n + k) := by
      intro n k
      rw [← List.drop_drop, List.take_append_drop]
    conv_lhs => rw [← List.take_append_drop 4 id.bytes, hdrop 4 2, hdrop 6 2, hdrop 8 2]
  have hhyphen : ∀ text : List UInt8,
      (45 :: text).filter (· != 45) = text.filter (· != 45) := fun text => rfl
  conv_rhs => rw [hjoin]
  simp only [text, List.filter_append, hhyphen, filter_hex, hex_append]

theorem fromText_text (id : Uuid) : fromText id.text = some id := by
  rw [fromText, filter_text, parseHex_hex, Option.bind_eq_bind, Option.bind_some,
    dif_pos id.length, if_pos rfl]

theorem length_text (id : Uuid) : id.text.length = 36 := by
  have hlength := id.length
  simp only [text, List.length_append, List.length_cons, length_hex, List.length_take,
    List.length_drop]
  omega

theorem text_plain (id : Uuid) : ∀ b ∈ id.text, 32 ≤ b.toNat ∧ b.toNat ≠ 34 ∧ b.toNat ≠ 92 := by
  intro b hb
  simp only [text, List.mem_append, List.mem_cons] at hb
  have hplain : ∀ {bytes}, b ∈ hex bytes → 32 ≤ b.toNat ∧ b.toNat ≠ 34 ∧ b.toNat ≠ 92 :=
    fun h => ⟨(hex_plain b h).1, (hex_plain b h).2.1, (hex_plain b h).2.2.2⟩
  rcases hb with h | rfl | h | rfl | h | rfl | h | rfl | h
  all_goals first | exact hplain h | decide

end Uuid

namespace EstablishedClusteringConfiguration

/-! ### The text -/

def clusterIdText : List UInt8 := ascii "\x7b\"cluster_id\":\""

def singleText : List UInt8 := ascii "\",\"clustering_configuration\":\"single\"\x7d"

def clusterText : List UInt8 :=
  ascii "\",\"clustering_configuration\":\x7b\"cluster\":\x7b\"my_node_name\":\""

def clusterDomainText : List UInt8 := ascii "\",\"cluster_domain\":\""

def closingText : List UInt8 := ascii "\"\x7d\x7d\x7d"

/-- The JSON text of a configuration.  Its strings have no character that is escaped. -/
def toVec (c : EstablishedClusteringConfiguration) : List UInt8 :=
  clusterIdText ++ (c.clusterId.text ++ match c.clusteringConfiguration with
    | .single => singleText
    | .cluster membership => clusterText ++ (utf8 membership.myNodeName.name ++
        (clusterDomainText ++ (utf8 membership.clusterDomain.name ++ closingText))))

example : toVec ⟨⟨[0x12, 0x34, 0x56, 0x78, 0x9a, 0xbc, 0xde, 0xf0, 0x12, 0x34, 0x56, 0x78, 0x9a,
    0xbc, 0xde, 0xf0], rfl⟩, .single⟩ =
    ascii "\x7b\"cluster_id\":\"12345678-9abc-def0-1234-56789abcdef0\",\"clustering_configuration\":\"single\"\x7d" := by
  decide

end EstablishedClusteringConfiguration

/-- The JSON reader for configurations. -/
class ClusteringReader where
  fromSlice : List UInt8 → Option EstablishedClusteringConfiguration
  fromSlice_toVec : ∀ c : EstablishedClusteringConfiguration, fromSlice c.toVec = some c

namespace EstablishedClusteringConfiguration

/-- The characters of an ASCII text. -/
def chars (text : List UInt8) : List Char := text.map fun b => Char.ofNat b.toNat

def fromCanonical (text : List UInt8) : Option EstablishedClusteringConfiguration := do
  let (id, text) := untilQuote (← stripLiteral clusterIdText text)
  let clusterId ← Uuid.fromText id
  if text = singleText then return ⟨clusterId, .single⟩
  let (node, text) := untilQuote (← stripLiteral clusterText text)
  let (domain, text) := untilQuote (← stripLiteral clusterDomainText text)
  let membership ← ClusterMembership.deserialize (chars node) (chars domain)
  if text = closingText then return ⟨clusterId, .cluster membership⟩ else none

/-! ### What is stored is read back -/

theorem chars_utf8 {s : List Char} (h : ∀ c ∈ s, c.toNat < 128) : chars (utf8 s) = s := by
  rw [utf8_of_lt h, chars, List.map_map]
  refine (List.map_congr_left fun c hc => ?_).trans (List.map_id s)
  have hc := h c hc
  have hbyte : (UInt8.ofNat c.toNat).toNat = c.toNat := by
    rw [UInt8.toNat_ofNat']
    omega
  show Char.ofNat (UInt8.ofNat c.toNat).toNat = c
  rw [hbyte, Char.ofNat_toNat]

theorem isNameChar_plain {c : Char} (h : Hostname.IsNameChar c) :
    32 ≤ c.toNat ∧ c.toNat ≠ 34 ∧ c.toNat ≠ 92 := by
  rcases h with (h | rfl) | rfl
  · rw [isAlphanum_iff] at h
    omega
  · decide
  · decide

theorem utf8_plain {s : List Char} (h : ∀ c ∈ s, Hostname.IsNameChar c) :
    ∀ b ∈ utf8 s, 32 ≤ b.toNat ∧ b.toNat ≠ 34 ∧ b.toNat ≠ 92 := by
  rw [utf8_of_lt fun c hc => Hostname.isNameChar_lt (h c hc)]
  intro b hb
  obtain ⟨c, hc, rfl⟩ := List.mem_map.mp hb
  have hlt := Hostname.isNameChar_lt (h c hc)
  have hbyte : (UInt8.ofNat c.toNat).toNat = c.toNat := by
    rw [UInt8.toNat_ofNat']
    omega
  rw [hbyte]
  exact isNameChar_plain (h c hc)

theorem isNameChar_node (node : NodeName) : ∀ c ∈ node.name, Hostname.IsNameChar c :=
  fun c hc => .inl (node.isLabel_name.chars c hc)

theorem isNameChar_domain (domain : Hostname) : ∀ c ∈ domain.name, Hostname.IsNameChar c :=
  Hostname.isNameChar_of_labels domain.grammar.labels

theorem fromCanonical_toVec (c : EstablishedClusteringConfiguration) :
    fromCanonical c.toVec = some c := by
  obtain ⟨id, mode⟩ := c
  have hid := fun rest => untilQuote_append (fun b hb => (id.text_plain b hb).2.1) rest
  have hread := id.fromText_text
  cases mode with
  | single =>
    have hfirst : untilQuote (id.text ++ singleText) = (id.text, singleText) := hid _
    rw [fromCanonical, toVec, stripLiteral_append, Option.bind_eq_bind, Option.bind_some]
    simp only [hfirst, hread, Option.bind_eq_bind, Option.bind_some, if_pos]
    rfl
  | cluster membership =>
    obtain ⟨node, domain⟩ := membership
    have hnode := isNameChar_node node
    have hdomain := isNameChar_domain domain
    have hnodeText := fun rest => untilQuote_append (fun b hb => (utf8_plain hnode b hb).2.1) rest
    have hdomainText := fun rest => untilQuote_append (fun b hb => (utf8_plain hdomain b hb).2.1) rest
    have hmember : ClusterMembership.deserialize (chars (utf8 node.name))
        (chars (utf8 domain.name)) = some ⟨node, domain⟩ := by
      rw [chars_utf8 fun c hc => Hostname.isNameChar_lt (hnode c hc),
        chars_utf8 fun c hc => Hostname.isNameChar_lt (hdomain c hc)]
      exact ClusterMembership.deserialize_name ⟨node, domain⟩
    have hfirst : untilQuote (id.text ++ (clusterText ++ (utf8 node.name ++ (clusterDomainText ++
        (utf8 domain.name ++ closingText))))) = (id.text, clusterText ++ (utf8 node.name ++
          (clusterDomainText ++ (utf8 domain.name ++ closingText)))) := hid _
    have hsecond : untilQuote (utf8 node.name ++ (clusterDomainText ++ (utf8 domain.name ++
        closingText))) = (utf8 node.name, clusterDomainText ++ (utf8 domain.name ++ closingText)) :=
      hnodeText _
    have hthird : untilQuote (utf8 domain.name ++ closingText) = (utf8 domain.name, closingText) :=
      hdomainText _
    have hmode : ∀ rest, clusterText ++ rest ≠ singleText := by
      intro rest h
      have hchar := congrArg (fun text => text[29]?) h
      rw [List.getElem?_append_left (by decide)] at hchar
      revert hchar
      decide
    rw [fromCanonical, toVec, stripLiteral_append, Option.bind_eq_bind, Option.bind_some]
    simp only [hfirst, hread, Option.bind_eq_bind, Option.bind_some, if_neg (hmode _),
      stripLiteral_append, hsecond, hthird, hmember, if_pos]
    rfl

theorem length_domain_le (domain : Hostname) : (utf8 domain.name).length ≤ 254 := by
  have hlength := domain.grammar.length
  unfold withoutRootDot at hlength
  split at hlength
  next hdot =>
    have hne : domain.name ≠ [] := Hostname.ne_nil_of_grammar domain.grammar
    have hlast : domain.name.getLast hne = '.' := by
      rw [List.getLast?_eq_some_getLast hne] at hdot
      exact Option.some.inj hdot
    rw [← List.dropLast_append_getLast hne, utf8_append, List.length_append, hlast]
    exact Nat.add_le_add_right hlength 1
  · exact Nat.le_succ_of_le hlength

/-- A stored configuration is within the limit of its reader. -/
theorem length_toVec_le (c : EstablishedClusteringConfiguration) : c.toVec.length ≤ 4096 := by
  obtain ⟨id, mode⟩ := c
  have hid := id.length_text
  cases mode with
  | single =>
    simp only [toVec, List.length_append, hid, show clusterIdText.length = 15 from rfl,
      show singleText.length = 38 from rfl]
    omega
  | cluster membership =>
    obtain ⟨node, domain⟩ := membership
    have hnode : (utf8 node.name).length ≤ 9 := by
      cases node <;> decide
    have hdomain := length_domain_le domain
    simp only [toVec, List.length_append, hid, show clusterIdText.length = 15 from rfl,
      show clusterText.length = 57 from rfl, show clusterDomainText.length = 20 from rfl,
      show closingText.length = 4 from rfl]
    omega

end EstablishedClusteringConfiguration

/-- Reads the texts of `toVec` and nothing else. -/
@[reducible] def ClusteringReader.canonical : ClusteringReader :=
  ⟨EstablishedClusteringConfiguration.fromCanonical,
    EstablishedClusteringConfiguration.fromCanonical_toVec⟩

end TransactionLog
