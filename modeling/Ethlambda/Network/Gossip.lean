import Ethlambda.Chain.Server
import Ethlambda.Network.Codec

namespace Ethlambda.Network

open Ethlambda.Base Ethlambda.Types Ethlambda.Chain

def networkName : String := "devnet0"

def blockTopicKind : String := "block"

def attestationSubnetTopicPrefix : String := "attestation"

def aggregationTopicKind : String := "aggregation"

/-- What decides on which topics a node speaks and listens. -/
structure SwarmConfig where
  validatorId : Option UInt64
  attestationCommitteeCount : UInt64
  isAggregator : Bool
  /-- Checked where the command line is read. -/
  committees : 0 < attestationCommitteeCount

namespace SwarmConfig

def topicName (kind : String) : String :=
  "/leanconsensus/" ++ networkName ++ "/" ++ kind ++ "/ssz_snappy"

def subnetId (config : SwarmConfig) : UInt64 :=
  (config.validatorId.map fun vid ↦ vid % config.attestationCommitteeCount).getD 0

def attestationTopicKind (subnetId : UInt64) : String :=
  attestationSubnetTopicPrefix ++ "_" ++ Nat.repr subnetId.toNat

def blockTopic : String := topicName blockTopicKind

def aggregationTopic : String := topicName aggregationTopicKind

def attestationTopic (config : SwarmConfig) : String :=
  topicName (attestationTopicKind config.subnetId)

/-- Everyone listens to blocks and to aggregates; only aggregators listen to their subnet. -/
def subscriptions (config : SwarmConfig) : List String :=
  [blockTopic, aggregationTopic] ++ if config.isAggregator then [config.attestationTopic] else []

end SwarmConfig

structure GossipMessage where
  topic : String
  data : List UInt8
deriving DecidableEq

/-- What gossip takes from outside besides: the SSZ form of attestations and the raw snappy format,
whose decoder is first asked for a length and then fills a buffer of that length. -/
structure GossipWire (H : Type) extends Wire H where
  attestationToSsz : SignedAttestation H → List UInt8
  attestationFromSsz : List UInt8 → Except String (SignedAttestation H)
  aggregationToSsz : SignedAggregatedAttestation H → List UInt8
  aggregationFromSsz : List UInt8 → Except String (SignedAggregatedAttestation H)
  rawCompress : List UInt8 → Option (List UInt8)
  rawDecompressLen : List UInt8 → Except String ℕ
  rawDecompress : List UInt8 → ℕ → Except String (List UInt8)

inductive DecompressError
  | snap (error : String)
  | tooLarge (size max : ℕ)
deriving DecidableEq

section Gossip

variable {H ε : Type} (wire : GossipWire H)

def decompressMessage (data : List UInt8) : Except DecompressError (List UInt8) :=
  match wire.rawDecompressLen data with
  | .error e => .error (.snap e)
  | .ok size =>
    if maxPayloadSize < size then .error (.tooLarge size maxPayloadSize)
    else match wire.rawDecompress data size with
      | .error e => .error (.snap e)
      | .ok bytes => .ok bytes

def compressMessage (data : List UInt8) : Exec ε (List UInt8) :=
  Exec.expect "snappy compression should not fail" (wire.rawCompress data)

/-- The part of a topic that says what is sent on it. -/
def topicKind (topic : String) : Option (List Char) := (topic.toList.splitOn '/')[3]?

/-- Decompress, decode and pass on. What fails is dropped. -/
def receive {α : Type} (fromSsz : List UInt8 → Except String α) (forward : α → Message H)
    (blockchain : Bool) (data : List UInt8) : Option (Message H) :=
  match decompressMessage wire data with
  | .error _ => none
  | .ok bytes => match fromSsz bytes with
    | .error _ => none
    | .ok value => if blockchain then some (forward value) else none

/-- What the chain is told of a gossiped message, if it is connected. -/
def handleGossipsubMessage (blockchain : Bool) (message : GossipMessage) : Option (Message H) :=
  match topicKind message.topic with
  | none => none
  | some kind =>
    if kind = blockTopicKind.toList then
      receive wire wire.blockFromSsz .newBlock blockchain message.data
    else if kind = aggregationTopicKind.toList then
      receive wire wire.aggregationFromSsz .newAggregatedAttestation blockchain message.data
    else if attestationSubnetTopicPrefix.toList.isPrefixOf kind then
      receive wire wire.attestationFromSsz .newAttestation blockchain message.data
    else none

def publishOn (topic : String) (sszBytes : List UInt8) : Exec ε GossipMessage := do
  let compressed ← compressMessage wire sszBytes
  pure ⟨topic, compressed⟩

def publishAttestation (config : SwarmConfig) (attestation : SignedAttestation H) :
    Exec ε GossipMessage :=
  publishOn wire config.attestationTopic (wire.attestationToSsz attestation)

def publishBlock (signedBlock : SignedBlockWithAttestation H) : Exec ε GossipMessage :=
  publishOn wire SwarmConfig.blockTopic (wire.blockToSsz signedBlock)

def publishAggregatedAttestation (attestation : SignedAggregatedAttestation H) :
    Exec ε GossipMessage :=
  publishOn wire SwarmConfig.aggregationTopic (wire.aggregationToSsz attestation)

/-- What the network publishes of what the chain hands it. A block to fetch is no gossip. -/
def publish (config : SwarmConfig) : Outgoing H → Option (Exec ε GossipMessage)
  | .attestation attestation => some (publishAttestation wire config attestation)
  | .aggregatedAttestation attestation => some (publishAggregatedAttestation wire attestation)
  | .block signedBlock => some (publishBlock wire signedBlock)
  | .fetchBlock _ => none

def messageDomainInvalidSnappy : List UInt8 := [0, 0, 0, 0]

def messageDomainValidSnappy : List UInt8 := [1, 0, 0, 0]

def topicBytes (topic : String) : List UInt8 := topic.toByteArray.data.toList

/-- What the identifier of a message is the hash of. -/
def messagePreimage (message : GossipMessage) : List UInt8 :=
  let (domain, data) := match decompressMessage wire message.data with
    | .ok data => (messageDomainValidSnappy, data)
    | .error _ => (messageDomainInvalidSnappy, message.data)
  let topic := topicBytes message.topic
  domain ++ (littleEndian 8 topic.length ++ (topic ++ data))

def computeMessageId (sha256 : List UInt8 → List UInt8) (message : GossipMessage) : List UInt8 :=
  (sha256 (messagePreimage wire message)).take 20

end Gossip

section Topics

theorem splitOn_nth {root kind last : List Char} (hroot : (root.splitOn '/').length = 3)
    (hkind : '/' ∉ kind) : ((root ++ '/' :: (kind ++ '/' :: last)).splitOn '/')[3]? = some kind := by
  rw [List.splitOn_append_cons_self, List.splitOn_append_cons_self, List.splitOn_eq_singleton hkind,
    List.getElem?_append_right hroot.le, hroot]
  rfl

theorem toList_topicName (kind : String) : ∃ root last : List Char,
    (root.splitOn '/').length = 3 ∧
    (SwarmConfig.topicName kind).toList = root ++ '/' :: (kind.toList ++ '/' :: last) := by
  refine ⟨("/leanconsensus/" ++ networkName).toList, "ssz_snappy".toList, by decide +kernel, ?_⟩
  have hslash : "/".toList = ['/'] := by decide +kernel
  have hlast : "/ssz_snappy".toList = '/' :: "ssz_snappy".toList := by decide +kernel
  unfold SwarmConfig.topicName
  rw [String.toList_append, String.toList_append, String.toList_append, hslash, hlast,
    List.append_assoc, List.append_assoc, List.singleton_append]

/-- The kind of a topic is read back from its name. -/
theorem topicKind_topicName {kind : String} (h : '/' ∉ kind.toList) :
    topicKind (SwarmConfig.topicName kind) = some kind.toList := by
  obtain ⟨root, last, hroot, heq⟩ := toList_topicName kind
  unfold topicKind
  rw [heq]
  exact splitOn_nth hroot h

theorem toList_attestationTopicKind (subnetId : UInt64) :
    (SwarmConfig.attestationTopicKind subnetId).toList =
      (attestationSubnetTopicPrefix ++ "_").toList ++ Nat.toDigits 10 subnetId.toNat := by
  rw [SwarmConfig.attestationTopicKind, String.toList_append, Nat.toList_repr]

theorem slash_notMem_attestationTopicKind (subnetId : UInt64) :
    '/' ∉ (SwarmConfig.attestationTopicKind subnetId).toList := by
  rw [toList_attestationTopicKind]
  intro h
  rcases List.mem_append.mp h with h | h
  · revert h
    decide +kernel
  · exact absurd (Nat.isDigit_of_mem_toDigits (by decide) (by decide) h) (by decide)

theorem attestationTopicKind_injective : Function.Injective SwarmConfig.attestationTopicKind := by
  intro a b h
  have hlist := congrArg String.toList h
  rw [toList_attestationTopicKind, toList_attestationTopicKind] at hlist
  have hdigits : Nat.toDigits 10 a.toNat = Nat.toDigits 10 b.toNat := List.append_cancel_left hlist
  have hvalue := congrArg (fun digits ↦ Nat.ofDigitChars 10 digits 0) hdigits
  simp only [Nat.ofDigitChars_ten_toDigits] at hvalue
  exact UInt64.toNat_inj.mp hvalue

theorem topicName_inj {a b : String} (ha : '/' ∉ a.toList) (hb : '/' ∉ b.toList)
    (h : SwarmConfig.topicName a = SwarmConfig.topicName b) : a = b := by
  have hkind := (topicKind_topicName ha).symm.trans ((congrArg topicKind h).trans (topicKind_topicName hb))
  exact String.toList_inj.mp (Option.some.inj hkind)

theorem slash_notMem_blockTopicKind : '/' ∉ blockTopicKind.toList := by decide +kernel

theorem slash_notMem_aggregationTopicKind : '/' ∉ aggregationTopicKind.toList := by decide +kernel

/-- The kind of an attestation subnet starts with the prefix and is none of the other two. -/
theorem attestationTopicKind_cases (subnetId : UInt64) :
    (SwarmConfig.attestationTopicKind subnetId).toList ≠ blockTopicKind.toList ∧
    (SwarmConfig.attestationTopicKind subnetId).toList ≠ aggregationTopicKind.toList ∧
    attestationSubnetTopicPrefix.toList.isPrefixOf
      (SwarmConfig.attestationTopicKind subnetId).toList = true := by
  have hlist := toList_attestationTopicKind subnetId
  have hlength : (SwarmConfig.attestationTopicKind subnetId).toList.length =
      12 + (Nat.toDigits 10 subnetId.toNat).length := by
    have hprefix : (attestationSubnetTopicPrefix ++ "_").toList.length = 12 := by decide +kernel
    rw [hlist, List.length_append, hprefix]
  refine ⟨fun h ↦ ?_, fun h ↦ ?_, ?_⟩
  · have hblock : blockTopicKind.toList.length = 5 := by decide +kernel
    rw [h, hblock] at hlength
    omega
  · have haggregation : aggregationTopicKind.toList.length = 11 := by decide +kernel
    rw [h, haggregation] at hlength
    omega
  · rw [hlist, String.toList_append, List.append_assoc, List.isPrefixOf_iff_prefix]
    exact List.prefix_append _ _

end Topics

section Publishing

variable {H ε : Type} {wire : GossipWire H} {sender receiver : SwarmConfig} {o : Outgoing H}
  {blockchain : Bool} {bytes : List UInt8}

/-- The most bytes that the raw format needs for `n` of them. -/
def maxCompressLen (n : ℕ) : ℕ := 32 + n + n / 6

/-- The raw snappy format: what is compressed has the length and the bytes that went in. Inputs that
may need more than 32 bits of length are refused. -/
def GossipWire.Raw (wire : GossipWire H) : Prop :=
  ∀ data : List UInt8, maxCompressLen data.length < 2 ^ 32 → ∃ compressed,
    wire.rawCompress data = some compressed ∧
    wire.rawDecompressLen compressed = .ok data.length ∧
    wire.rawDecompress compressed data.length = .ok data

def sszBytes (wire : GossipWire H) : Outgoing H → Option (List UInt8)
  | .attestation attestation => some (wire.attestationToSsz attestation)
  | .aggregatedAttestation attestation => some (wire.aggregationToSsz attestation)
  | .block signedBlock => some (wire.blockToSsz signedBlock)
  | .fetchBlock _ => none

/-- The container of an outgoing message survives SSZ. -/
def RoundTrips (wire : GossipWire H) : Outgoing H → Prop
  | .attestation attestation =>
    wire.attestationFromSsz (wire.attestationToSsz attestation) = .ok attestation
  | .aggregatedAttestation attestation =>
    wire.aggregationFromSsz (wire.aggregationToSsz attestation) = .ok attestation
  | .block signedBlock => wire.blockFromSsz (wire.blockToSsz signedBlock) = .ok signedBlock
  | .fetchBlock _ => True

/-- What another node's chain should be told of an outgoing message. -/
def incoming : Outgoing H → Option (Message H)
  | .attestation attestation => some (.newAttestation attestation)
  | .aggregatedAttestation attestation => some (.newAggregatedAttestation attestation)
  | .block signedBlock => some (.newBlock signedBlock)
  | .fetchBlock _ => none

/-- The nodes that an outgoing message is for. -/
def Concerns (sender receiver : SwarmConfig) : Outgoing H → Prop
  | .attestation _ => receiver.isAggregator = true ∧ receiver.subnetId = sender.subnetId
  | .aggregatedAttestation _ | .block _ => True
  | .fetchBlock _ => False

theorem publishOn_eq (hraw : wire.Raw) (hlength : maxCompressLen bytes.length < 2 ^ 32) (topic : String) :
    ∃ data, (publishOn wire topic bytes : Exec ε GossipMessage) = .ok ⟨topic, data⟩ ∧
      decompressMessage wire data = if maxPayloadSize < bytes.length
        then .error (.tooLarge bytes.length maxPayloadSize) else .ok bytes := by
  obtain ⟨compressed, hcompress, hlen, hdecompress⟩ := hraw bytes hlength
  refine ⟨compressed, ?_, ?_⟩
  · unfold publishOn compressMessage
    rw [hcompress]
    rfl
  · unfold decompressMessage
    rw [hlen]
    dsimp only
    rw [hdecompress]

theorem receive_eq {α : Type} {fromSsz : List UInt8 → Except String α} {value : α}
    (hdata : decompressMessage wire data = if maxPayloadSize < bytes.length
      then .error (.tooLarge bytes.length maxPayloadSize) else .ok bytes)
    (hvalue : fromSsz bytes = .ok value) (forward : α → Message H) :
    receive wire fromSsz forward blockchain data =
      if bytes.length ≤ maxPayloadSize ∧ blockchain = true then some (forward value) else none := by
  unfold receive
  rw [hdata]
  by_cases hlarge : maxPayloadSize < bytes.length
  · rw [if_pos hlarge, if_neg fun h ↦ absurd h.1 (not_le.mpr hlarge)]
  · rw [if_neg hlarge]
    dsimp only
    rw [hvalue]
    dsimp only
    cases blockchain with
    | true => rw [if_pos rfl, if_pos ⟨not_lt.mp hlarge, rfl⟩]
    | false => rw [if_neg Bool.false_ne_true, if_neg fun h ↦ absurd h.2 Bool.false_ne_true]

theorem handle_block (blockchain : Bool) (data : List UInt8) :
    handleGossipsubMessage wire blockchain ⟨SwarmConfig.blockTopic, data⟩ =
      receive wire wire.blockFromSsz .newBlock blockchain data := by
  unfold handleGossipsubMessage SwarmConfig.blockTopic
  dsimp only
  rw [topicKind_topicName slash_notMem_blockTopicKind]
  exact if_pos rfl

theorem handle_aggregation (blockchain : Bool) (data : List UInt8) :
    handleGossipsubMessage wire blockchain ⟨SwarmConfig.aggregationTopic, data⟩ =
      receive wire wire.aggregationFromSsz .newAggregatedAttestation blockchain data := by
  have hne : aggregationTopicKind.toList ≠ blockTopicKind.toList := by decide +kernel
  unfold handleGossipsubMessage SwarmConfig.aggregationTopic
  dsimp only
  rw [topicKind_topicName slash_notMem_aggregationTopicKind]
  dsimp only
  rw [if_neg hne, if_pos rfl]

theorem handle_attestation (config : SwarmConfig) (blockchain : Bool) (data : List UInt8) :
    handleGossipsubMessage wire blockchain ⟨config.attestationTopic, data⟩ =
      receive wire wire.attestationFromSsz .newAttestation blockchain data := by
  obtain ⟨hblock, haggregation, hprefix⟩ := attestationTopicKind_cases config.subnetId
  unfold handleGossipsubMessage SwarmConfig.attestationTopic
  dsimp only
  rw [topicKind_topicName (slash_notMem_attestationTopicKind _)]
  dsimp only
  rw [if_neg hblock, if_neg haggregation, if_pos hprefix]

theorem attestationTopic_ne (config : SwarmConfig) : config.attestationTopic ≠ SwarmConfig.blockTopic ∧
    config.attestationTopic ≠ SwarmConfig.aggregationTopic := by
  obtain ⟨hblock, haggregation, -⟩ := attestationTopicKind_cases config.subnetId
  have hslash := slash_notMem_attestationTopicKind config.subnetId
  refine ⟨fun h ↦ hblock ?_, fun h ↦ haggregation ?_⟩
  · rw [topicName_inj hslash slash_notMem_blockTopicKind h]
  · rw [topicName_inj hslash slash_notMem_aggregationTopicKind h]

/-- Attestations of a subnet are heard by the aggregators of that subnet. -/
theorem attestationTopic_mem_subscriptions : sender.attestationTopic ∈ receiver.subscriptions ↔
    receiver.isAggregator = true ∧ receiver.subnetId = sender.subnetId := by
  obtain ⟨hblock, haggregation⟩ := attestationTopic_ne sender
  unfold SwarmConfig.subscriptions
  rw [List.mem_append, List.mem_cons, List.mem_singleton]
  constructor
  · rintro ((h | h) | h)
    · exact absurd h hblock
    · exact absurd h haggregation
    · split at h
      · rename_i haggregator
        have hkind := topicName_inj (slash_notMem_attestationTopicKind _)
          (slash_notMem_attestationTopicKind _) (List.mem_singleton.mp h)
        exact ⟨haggregator, (attestationTopicKind_injective hkind).symm⟩
      · exact absurd h List.not_mem_nil
  · rintro ⟨haggregator, hsubnet⟩
    rw [if_pos haggregator, List.mem_singleton, SwarmConfig.attestationTopic,
      SwarmConfig.attestationTopic, hsubnet]
    exact .inr rfl

/-- What a chain sends is published on a topic that exactly those nodes listen to which it is for,
and their networks hand exactly that message to their chains, unless it is longer than they
allow. -/
theorem gossip_reaches (hraw : wire.Raw) (hssz : RoundTrips wire o)
    (hbytes : sszBytes wire o = some bytes) (hlength : maxCompressLen bytes.length < 2 ^ 32)
    (sender receiver : SwarmConfig) (blockchain : Bool) :
    ∃ message, publish wire sender o = some (.ok message : Exec ε GossipMessage) ∧
      (message.topic ∈ receiver.subscriptions ↔ Concerns sender receiver o) ∧
      handleGossipsubMessage wire blockchain message =
        if bytes.length ≤ maxPayloadSize ∧ blockchain = true then incoming o else none := by
  cases o with
  | attestation attestation =>
    obtain rfl := Option.some.inj hbytes
    obtain ⟨data, hpublish, hdata⟩ := publishOn_eq (ε := ε) hraw hlength sender.attestationTopic
    refine ⟨_, congrArg some hpublish, attestationTopic_mem_subscriptions, ?_⟩
    rw [handle_attestation]
    exact receive_eq hdata hssz _
  | aggregatedAttestation attestation =>
    obtain rfl := Option.some.inj hbytes
    obtain ⟨data, hpublish, hdata⟩ := publishOn_eq (ε := ε) hraw hlength SwarmConfig.aggregationTopic
    refine ⟨_, congrArg some hpublish, iff_of_true ?_ trivial, ?_⟩
    · exact List.mem_append_left _ (List.mem_cons_of_mem _ List.mem_cons_self)
    · rw [handle_aggregation]
      exact receive_eq hdata hssz _
  | block signedBlock =>
    obtain rfl := Option.some.inj hbytes
    obtain ⟨data, hpublish, hdata⟩ := publishOn_eq (ε := ε) hraw hlength SwarmConfig.blockTopic
    refine ⟨_, congrArg some hpublish, iff_of_true ?_ trivial, ?_⟩
    · exact List.mem_append_left _ List.mem_cons_self
    · rw [handle_block]
      exact receive_eq hdata hssz _
  | fetchBlock root => exact nomatch hbytes

end Publishing

section Identifiers

variable {H : Type} {wire : GossipWire H} {sha256 : List UInt8 → List UInt8}
  {messages : List GossipMessage} {a b : GossipMessage} {blockchain : Bool}

/-- What a message says, as far as it can be decompressed. -/
def content (wire : GossipWire H) (message : GossipMessage) : List UInt8 × List UInt8 :=
  match decompressMessage wire message.data with
  | .ok data => (messageDomainValidSnappy, data)
  | .error _ => (messageDomainInvalidSnappy, message.data)

theorem messagePreimage_eq (wire : GossipWire H) (message : GossipMessage) :
    messagePreimage wire message = (content wire message).1 ++
      (littleEndian 8 (topicBytes message.topic).length ++
        (topicBytes message.topic ++ (content wire message).2)) := rfl

theorem length_content (wire : GossipWire H) (message : GossipMessage) :
    (content wire message).1.length = 4 := by
  unfold content
  cases decompressMessage wire message.data <;> rfl

theorem topicBytes_inj {s t : String} (h : topicBytes s = topicBytes t) : s = t :=
  String.toByteArray_inj.mp (ByteArray.ext (Array.toList_inj.mp h))

/-- What is hashed determines the topic and what is said on it. -/
theorem messagePreimage_inj (ha : (topicBytes a.topic).length < 2 ^ 64)
    (hb : (topicBytes b.topic).length < 2 ^ 64) :
    messagePreimage wire a = messagePreimage wire b ↔
      a.topic = b.topic ∧ content wire a = content wire b := by
  rw [messagePreimage_eq, messagePreimage_eq]
  constructor
  · intro h
    obtain ⟨hdomain, h⟩ := List.append_inj h ((length_content wire a).trans (length_content wire b).symm)
    obtain ⟨hlength, h⟩ := List.append_inj h (by rw [length_littleEndian, length_littleEndian])
    have hlengths : (topicBytes a.topic).length = (topicBytes b.topic).length := by
      rw [← fromLittleEndian_littleEndian (n := 8) ha, hlength, fromLittleEndian_littleEndian hb]
    obtain ⟨htopic, hdata⟩ := List.append_inj h hlengths
    exact ⟨topicBytes_inj htopic, Prod.ext hdomain hdata⟩
  · rintro ⟨htopic, hcontent⟩
    rw [htopic, hcontent]

theorem receive_congr {α : Type} {x y : List UInt8} (fromSsz : List UInt8 → Except String α)
    (forward : α → Message H) (h : (decompressMessage wire x).toOption =
      (decompressMessage wire y).toOption) :
    receive wire fromSsz forward blockchain x = receive wire fromSsz forward blockchain y := by
  unfold receive
  cases hx : decompressMessage wire x with
  | error e =>
    cases hy : decompressMessage wire y with
    | error e' => rfl
    | ok bytes =>
      rw [hx, hy] at h
      exact nomatch h
  | ok bytes =>
    cases hy : decompressMessage wire y with
    | error e =>
      rw [hx, hy] at h
      exact nomatch h
    | ok bytes' =>
      rw [hx, hy] at h
      rw [Option.some.inj h]

/-- Messages that say the same on the same topic are handled the same. -/
theorem handle_congr (htopic : a.topic = b.topic) (h : content wire a = content wire b) :
    handleGossipsubMessage wire blockchain a = handleGossipsubMessage wire blockchain b := by
  have hsame : (decompressMessage wire a.data).toOption = (decompressMessage wire b.data).toOption := by
    unfold content at h
    cases ha : decompressMessage wire a.data with
    | error e =>
      cases hb : decompressMessage wire b.data with
      | error e' => rfl
      | ok bytes =>
        rw [ha, hb] at h
        exact absurd (Prod.mk.inj h).1 (by decide)
    | ok bytes =>
      cases hb : decompressMessage wire b.data with
      | error e =>
        rw [ha, hb] at h
        exact absurd (Prod.mk.inj h).1 (by decide)
      | ok bytes' =>
        rw [ha, hb] at h
        exact congrArg some (Prod.mk.inj h).2
  unfold handleGossipsubMessage
  rw [htopic]
  cases topicKind b.topic with
  | none => rfl
  | some kind =>
    dsimp only
    rw [receive_congr wire.blockFromSsz _ hsame, receive_congr wire.aggregationFromSsz _ hsame,
      receive_congr wire.attestationFromSsz _ hsame]

/-- What is left of the messages when each that comes with an identifier seen before is dropped, which
is what the identifiers are for. The filter itself is not the repository's. -/
def firsts (wire : GossipWire H) (sha256 : List UInt8 → List UInt8) :
    List (List UInt8) → List GossipMessage → List GossipMessage
  | _, [] => []
  | seen, message :: messages =>
    let id := computeMessageId wire sha256 message
    if id ∈ seen then firsts wire sha256 seen messages
    else message :: firsts wire sha256 (id :: seen) messages

theorem firsts_sublist (seen : List (List UInt8)) (messages : List GossipMessage) :
    (firsts wire sha256 seen messages).Sublist messages := by
  induction messages generalizing seen with
  | nil => exact .slnil
  | cons message messages ih =>
    unfold firsts
    dsimp only
    split
    · exact (ih seen).cons message
    · exact (ih _).cons_cons message

theorem firsts_pairwise (seen : List (List UInt8)) (messages : List GossipMessage) :
    (∀ message ∈ firsts wire sha256 seen messages, computeMessageId wire sha256 message ∉ seen) ∧
      (firsts wire sha256 seen messages).Pairwise fun a b ↦
        computeMessageId wire sha256 a ≠ computeMessageId wire sha256 b := by
  induction messages generalizing seen with
  | nil => exact ⟨fun _ h ↦ absurd h List.not_mem_nil, .nil⟩
  | cons message messages ih =>
    unfold firsts
    dsimp only
    split
    · exact ih seen
    · rename_i hnew
      obtain ⟨hrest, hpairwise⟩ := ih (computeMessageId wire sha256 message :: seen)
      refine ⟨fun m hm ↦ ?_, List.pairwise_cons.mpr ⟨fun m hm heq ↦ ?_, hpairwise⟩⟩
      · rcases List.mem_cons.mp hm with rfl | hm
        · exact hnew
        · exact fun hseen ↦ hrest m hm (List.mem_cons_of_mem _ hseen)
      · exact hrest m hm (heq ▸ List.mem_cons_self)

theorem exists_first {message : GossipMessage} (h : message ∈ messages) (seen : List (List UInt8)) :
    computeMessageId wire sha256 message ∈ seen ∨
      ∃ m ∈ firsts wire sha256 seen messages,
        computeMessageId wire sha256 m = computeMessageId wire sha256 message := by
  induction messages generalizing seen with
  | nil => exact absurd h List.not_mem_nil
  | cons first messages ih =>
    unfold firsts
    dsimp only
    split
    · rename_i hseen
      rcases List.mem_cons.mp h with rfl | h
      · exact .inl hseen
      · exact ih h seen
    · rcases List.mem_cons.mp h with rfl | h
      · exact .inr ⟨message, List.mem_cons_self, rfl⟩
      · rcases ih h (computeMessageId wire sha256 first :: seen) with hid | ⟨m, hm, heq⟩
        · rcases List.mem_cons.mp hid with heq | hid
          · exact .inr ⟨first, List.mem_cons_self, heq.symm⟩
          · exact .inl hid
        · exact .inr ⟨m, List.mem_cons_of_mem _ hm, heq⟩

/-- Two messages have one identifier exactly if they say the same on the same topic, however they
are compressed. So what gossip drops as seen before is nothing but repetitions: the chain is told the
same, and of everything once. -/
theorem duplicates_dropped (hlength : ∀ m ∈ messages, (topicBytes m.topic).length < 2 ^ 64)
    (hhash : ∀ a ∈ messages, ∀ b ∈ messages,
      computeMessageId wire sha256 a = computeMessageId wire sha256 b →
        messagePreimage wire a = messagePreimage wire b) :
    (∀ a ∈ messages, ∀ b ∈ messages,
      computeMessageId wire sha256 a = computeMessageId wire sha256 b ↔
        a.topic = b.topic ∧ content wire a = content wire b) ∧
    (∀ told, told ∈ (firsts wire sha256 [] messages).filterMap (handleGossipsubMessage wire blockchain) ↔
      told ∈ messages.filterMap (handleGossipsubMessage wire blockchain)) ∧
    (firsts wire sha256 [] messages).Pairwise fun a b ↦
      ¬(a.topic = b.topic ∧ content wire a = content wire b) := by
  have hid (a : GossipMessage) (ha : a ∈ messages) (b : GossipMessage) (hb : b ∈ messages) :
      computeMessageId wire sha256 a = computeMessageId wire sha256 b ↔
        a.topic = b.topic ∧ content wire a = content wire b := by
    refine ⟨fun h ↦ ?_, fun h ↦ ?_⟩
    · exact (messagePreimage_inj (hlength a ha) (hlength b hb)).mp (hhash a ha b hb h)
    · rw [computeMessageId, computeMessageId,
        (messagePreimage_inj (hlength a ha) (hlength b hb)).mpr h]
  have hsub : firsts wire sha256 [] messages ⊆ messages := (firsts_sublist [] messages).subset
  refine ⟨hid, fun told ↦ ?_, ?_⟩
  · rw [List.mem_filterMap, List.mem_filterMap]
    constructor
    · rintro ⟨m, hm, htold⟩
      exact ⟨m, hsub hm, htold⟩
    · rintro ⟨m, hm, htold⟩
      obtain ⟨first, hfirst, heq⟩ := (exists_first hm []).resolve_left List.not_mem_nil
      obtain ⟨htopic, hcontent⟩ := (hid first (hsub hfirst) m hm).mp heq
      exact ⟨first, hfirst, (handle_congr htopic hcontent).trans htold⟩
  · refine (firsts_pairwise [] messages).2.imp_of_mem fun ha hb hne hsame ↦ ?_
    exact hne ((hid _ (hsub ha) _ (hsub hb)).mpr hsame)

section Sample

def taggedAttestation : SignedAttestation (Vector UInt8 32) :=
  let root := Vector.replicate 32 0
  ⟨5, ⟨1, ⟨root, 0⟩, ⟨root, 0⟩, ⟨root, 0⟩⟩, Vector.replicate 3112 0⟩

/-- Compression that puts a tag in front, and a short form for one attestation. -/
def taggedWire : GossipWire (Vector UInt8 32) :=
  { Codec.plainWire with
    attestationToSsz := fun _ ↦ [7]
    attestationFromSsz := fun bytes ↦
      if bytes = [7] then .ok taggedAttestation else .error "InvalidByteLength"
    aggregationToSsz := fun _ ↦ []
    aggregationFromSsz := fun _ ↦ .error "InvalidByteLength"
    rawCompress := fun data ↦ some (0 :: data)
    rawDecompressLen := fun compressed ↦
      if compressed = [] then .error "snappy: corrupt input (empty)" else .ok compressed.tail.length
    rawDecompress := fun compressed _ ↦ .ok compressed.tail }

theorem taggedWire_raw : taggedWire.Raw := by
  intro data _
  refine ⟨0 :: data, rfl, ?_, rfl⟩
  simp [taggedWire]

/-- The same attestation under two tags, and something that is none. -/
def taggedMessages : List GossipMessage :=
  [⟨SwarmConfig.topicName "attestation_1", [0, 7]⟩, ⟨SwarmConfig.topicName "attestation_1", [1, 7]⟩,
    ⟨SwarmConfig.topicName "attestation_1", [0, 8]⟩]

/-- Validators 5 and 3 of two committees share a subnet. -/
theorem gossip_reaches_sample : ∃ message,
    publish taggedWire ⟨some 5, 2, false, by decide⟩ (.attestation taggedAttestation) =
      some (.ok message : Exec Empty GossipMessage) ∧
    message.topic ∈ SwarmConfig.subscriptions ⟨some 3, 2, true, by decide⟩ ∧
    handleGossipsubMessage taggedWire true message = some (.newAttestation taggedAttestation) := by
  have hbytes : sszBytes taggedWire (.attestation taggedAttestation) = some [7] := rfl
  have hssz : RoundTrips taggedWire (.attestation taggedAttestation) := rfl
  obtain ⟨message, hpublish, htopic, hhandle⟩ := gossip_reaches (ε := Empty) taggedWire_raw
    hssz hbytes (by decide) ⟨some 5, 2, false, by decide⟩ ⟨some 3, 2, true, by decide⟩ true
  refine ⟨message, hpublish, htopic.mpr ⟨rfl, by decide⟩, hhandle.trans ?_⟩
  exact if_pos ⟨by decide, rfl⟩

theorem duplicates_dropped_sample :
    (firsts taggedWire List.reverse [] taggedMessages).map GossipMessage.data = [[0, 7], [0, 8]] ∧
    ∀ told, told ∈ (firsts taggedWire List.reverse [] taggedMessages).filterMap
        (handleGossipsubMessage taggedWire true) ↔
      told ∈ taggedMessages.filterMap (handleGossipsubMessage taggedWire true) :=
  ⟨by decide +kernel, (duplicates_dropped (by decide +kernel) (by decide +kernel)).2.1⟩

end Sample

end Identifiers

end Ethlambda.Network
