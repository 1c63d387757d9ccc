/-
# The gossip service

`crates/p2p`: the topics, `P2PServiceProxy` and the loop of `P2PService`.  The proxy encodes
what consensus broadcasts and queues it for the service, which publishes it on the topic of its
kind; what arrives by gossip is decoded by its topic and queued for consensus, or dropped where
the queue is full.  Gossip itself is outside of the repository: the topic hash is a parameter,
it may accept or refuse what it is given, and any data may arrive on any topic.
-/
import Tonic.BoundedQueue
import Tonic.GossipCodec
import Tonic.ModelCrypto

namespace Tonic

open Transition

/-! ## Topics -/

inductive GossipTopicTag where
  | consensus
  | block
  deriving DecidableEq

/-- `CONSENSUS_TOPIC` and `BLOCK_TOPIC`. -/
def GossipTopicTag.topic : GossipTopicTag → String
  | .consensus => "consensus"
  | .block => "block"

/-- The name of a topic in a network. -/
def GossipTopicTag.name (networkName : String) (tag : GossipTopicTag) : String :=
  tag.topic ++ "/" ++ networkName

structure GossipTopics (TopicHash : Type) where
  consensusTopic : TopicHash
  blockTopic : TopicHash

namespace GossipTopics

variable {TopicHash : Type}

/-- Panics for an empty network name; `sha256Topic` hashes the name of a topic. -/
def new (sha256Topic : String → TopicHash) (networkName : String) :
    Option (GossipTopics TopicHash) :=
  if networkName.isEmpty then none
  else some {
    consensusTopic := sha256Topic (GossipTopicTag.consensus.name networkName)
    blockTopic := sha256Topic (GossipTopicTag.block.name networkName) }

def getGossipTag [DecidableEq TopicHash] (topics : GossipTopics TopicHash) (topicHash : TopicHash) :
    Option GossipTopicTag :=
  if topicHash = topics.consensusTopic then some .consensus
  else if topicHash = topics.blockTopic then some .block
  else none

def getTopicHash (topics : GossipTopics TopicHash) : GossipTopicTag → TopicHash
  | .consensus => topics.consensusTopic
  | .block => topics.blockTopic

/-- The two topics are told apart. -/
def Separated (topics : GossipTopics TopicHash) : Prop := topics.consensusTopic ≠ topics.blockTopic

instance [DecidableEq TopicHash] (topics : GossipTopics TopicHash) : Decidable topics.Separated :=
  inferInstanceAs (Decidable (_ ≠ _))

variable [DecidableEq TopicHash] {topics : GossipTopics TopicHash}

theorem getGossipTag_getTopicHash (h : topics.Separated) (tag : GossipTopicTag) :
    topics.getGossipTag (topics.getTopicHash tag) = some tag := by
  cases tag with
  | consensus => exact if_pos rfl
  | block =>
    have hne : ¬ topics.getTopicHash .block = topics.consensusTopic := Ne.symm h
    rw [getGossipTag, if_neg hne]
    exact if_pos rfl

theorem getTopicHash_of_getGossipTag {topicHash : TopicHash} {tag : GossipTopicTag}
    (h : topics.getGossipTag topicHash = some tag) : topicHash = topics.getTopicHash tag := by
  unfold getGossipTag at h
  split at h
  next heq =>
    cases h
    exact heq
  next =>
    split at h
    next heq =>
      cases h
      exact heq
    next => cases h

/-- A topic hash has the tag whose topic it is. -/
theorem getGossipTag_eq_some_iff (h : topics.Separated) {topicHash : TopicHash}
    {tag : GossipTopicTag} :
    topics.getGossipTag topicHash = some tag ↔ topicHash = topics.getTopicHash tag := by
  constructor
  · exact getTopicHash_of_getGossipTag
  · rintro rfl
    exact getGossipTag_getTopicHash h tag

end GossipTopics

theorem GossipTopicTag.name_ne (networkName : String) :
    GossipTopicTag.consensus.name networkName ≠ GossipTopicTag.block.name networkName := by
  intro h
  have hhead := congrArg (fun s : String => s.toList.head?) h
  simp [GossipTopicTag.name, GossipTopicTag.topic] at hhead

/-- The names of the two topics differ, so a hash that tells them apart separates the topics. -/
theorem GossipTopics.separated_new {TopicHash : Type} {topics : GossipTopics TopicHash}
    {sha256Topic : String → TopicHash} {networkName : String}
    (hfree : Set.InjOn sha256Topic (Set.range (GossipTopicTag.name networkName)))
    (h : GossipTopics.new sha256Topic networkName = some topics) : topics.Separated := by
  unfold GossipTopics.new at h
  split at h
  · cases h
  · cases h
    intro heq
    exact GossipTopicTag.name_ne networkName
      (hfree (Set.mem_range_self _) (Set.mem_range_self _) heq)

/-- What is encoded is not empty, and fits the limit. -/
theorem GossipCodec.length_of_serialize {α : Type} [BorshSerialize α] [BorshDeserialize α]
    [BorshFits α] [LawfulBorsh α] {codec : GossipCodec} {value : α} {data : List UInt8}
    (h : codec.serialize value = .ok data) :
    0 < data.length ∧ data.length ≤ codec.maxMessageSize := by
  obtain ⟨hvec, hle⟩ := GossipCodec.serialize_eq_ok_iff.mp h
  unfold toVec at hvec
  split at hvec
  · cases hvec
    exact ⟨LawfulBorsh.length_pos value, hle⟩
  · cases hvec

/-! ## The proxy -/

/-- `CHANNEL_SIZE` of the proxy. -/
def P2PServiceProxy.channelSize : ℕ := 1024

/-- `P2PRequest::Broadcast`, and what a gossip message carries. -/
structure P2PRequest (TopicHash : Type) where
  topicHash : TopicHash
  data : List UInt8
  deriving DecidableEq

/-- What the application broadcasts. -/
inductive Outgoing where
  | message (m : IBFTMessage)
  | block (b : FinalizedBlock)
  deriving DecidableEq

/-- What a gossip message is relayed as. -/
inductive Relayed where
  | message (m : IBFTReceivedMessage)
  | block (b : FinalizedBlock)
  deriving DecidableEq

inductive RelayError where
  /-- `Invalid topic hash`. -/
  | invalidTopicHash
  | malformed (error : GossipError)
  deriving DecidableEq

structure P2PServiceProxy (TopicHash : Type) where
  codec : GossipCodec
  topics : GossipTopics TopicHash

namespace P2PServiceProxy

variable {TopicHash : Type}

def new (sha256Topic : String → TopicHash) (networkName : String) :
    Option (P2PServiceProxy TopicHash) :=
  match GossipTopics.new sha256Topic networkName with
  | none => none
  | some topics => some { codec := proxyCodec, topics }

/-- The request of `broadcast_message` and of `broadcast_block`, which panic on an error. -/
def request (proxy : P2PServiceProxy TopicHash) :
    Outgoing → Except GossipError (P2PRequest TopicHash)
  | .message m => do
    let data ← proxy.codec.serialize m
    .ok { topicHash := proxy.topics.getTopicHash .consensus, data }
  | .block b => do
    let data ← proxy.codec.serialize b
    .ok { topicHash := proxy.topics.getTopicHash .block, data }

variable [DecidableEq TopicHash]

/-- `relay_message` and `relay_message_by_tag` up to the channel. -/
def relayed (proxy : P2PServiceProxy TopicHash) (r : P2PRequest TopicHash) :
    Except RelayError Relayed :=
  match proxy.topics.getGossipTag r.topicHash with
  | none => .error .invalidTopicHash
  | some .consensus =>
    match proxy.codec.deserialize r.data with
    | .error error => .error (.malformed error)
    | .ok m => .ok (.message m)
  | some .block =>
    match proxy.codec.deserialize r.data with
    | .error error => .error (.malformed error)
    | .ok b => .ok (.block b)

end P2PServiceProxy

/-- What a broadcast is relayed as at another node. -/
def Outgoing.relayed : Outgoing → Relayed
  | .message m => .message m.received
  | .block b => .block b

namespace P2PServiceProxy

variable {TopicHash : Type} {proxy : P2PServiceProxy TopicHash} {r : P2PRequest TopicHash}

theorem request_message_eq_ok_iff {m : IBFTMessage} :
    proxy.request (.message m) = .ok r ↔
      r.topicHash = proxy.topics.consensusTopic ∧ proxy.codec.serialize m = .ok r.data := by
  rw [request]
  obtain ⟨topicHash, data⟩ := r
  cases hm : proxy.codec.serialize m with
  | error e =>
    constructor
    · intro h
      cases h
    · rintro ⟨-, h⟩
      cases h
  | ok data' =>
    constructor
    · intro h
      cases h
      exact ⟨rfl, rfl⟩
    · rintro ⟨htopic, h⟩
      cases h
      cases htopic
      rfl

theorem request_block_eq_ok_iff {b : FinalizedBlock} :
    proxy.request (.block b) = .ok r ↔
      r.topicHash = proxy.topics.blockTopic ∧ proxy.codec.serialize b = .ok r.data := by
  rw [request]
  obtain ⟨topicHash, data⟩ := r
  cases hb : proxy.codec.serialize b with
  | error e =>
    constructor
    · intro h
      cases h
    · rintro ⟨-, h⟩
      cases h
  | ok data' =>
    constructor
    · intro h
      cases h
      exact ⟨rfl, rfl⟩
    · rintro ⟨htopic, h⟩
      cases h
      cases htopic
      rfl

/-- A message is encoded as what it is decoded as. -/
theorem serialize_received (codec : GossipCodec) (m : IBFTMessage) :
    codec.serialize m.received = codec.serialize m := by
  show codec.serialize m.received.broadcast = codec.serialize m
  rw [IBFTMessage.broadcast_received]

/-- A request carries some data, and not more than the limit. -/
theorem length_of_request {o : Outgoing} (h : proxy.request o = .ok r) :
    0 < r.data.length ∧ r.data.length ≤ proxy.codec.maxMessageSize := by
  cases o with
  | message m =>
    have hm := (request_message_eq_ok_iff.mp h).2
    rw [← serialize_received] at hm
    exact GossipCodec.length_of_serialize hm
  | block b => exact GossipCodec.length_of_serialize (request_block_eq_ok_iff.mp h).2

variable [DecidableEq TopicHash]

theorem relayed_eq_message_iff {m : IBFTReceivedMessage} :
    proxy.relayed r = .ok (.message m) ↔
      proxy.topics.getGossipTag r.topicHash = some .consensus ∧
        proxy.codec.deserialize r.data = .ok m := by
  unfold relayed
  split
  next htag => simp [htag]
  next htag =>
    split
    next herror => simp [htag, herror]
    next hok => simp [htag, hok]
  next htag =>
    split
    next herror => simp [htag]
    next hok => simp [htag]

theorem relayed_eq_block_iff {b : FinalizedBlock} :
    proxy.relayed r = .ok (.block b) ↔
      proxy.topics.getGossipTag r.topicHash = some .block ∧
        proxy.codec.deserialize r.data = .ok b := by
  unfold relayed
  split
  next htag => simp [htag]
  next htag =>
    split
    next herror => simp [htag]
    next hok => simp [htag]
  next htag =>
    split
    next herror => simp [htag, herror]
    next hok => simp [htag, hok]

/-- **The gossip format.**  A gossip message is relayed as what was broadcast if it is the request
of the broadcast, topic and data, and it is relayed as nothing else. -/
theorem relayed_ok_iff_request_ok (h : proxy.topics.Separated) {o : Outgoing} :
    proxy.relayed r = .ok o.relayed ↔ proxy.request o = .ok r := by
  cases o with
  | message m =>
    rw [Outgoing.relayed, relayed_eq_message_iff, request_message_eq_ok_iff,
      GossipTopics.getGossipTag_eq_some_iff h, GossipCodec.deserialize_ok_iff_serialize_ok,
      serialize_received, GossipTopics.getTopicHash]
  | block b =>
    rw [Outgoing.relayed, relayed_eq_block_iff, request_block_eq_ok_iff,
      GossipTopics.getGossipTag_eq_some_iff h, GossipCodec.deserialize_ok_iff_serialize_ok,
      GossipTopics.getTopicHash]

/-- The consensus message in a gossip message. -/
def message? (proxy : P2PServiceProxy TopicHash) (r : P2PRequest TopicHash) :
    Option IBFTReceivedMessage :=
  match proxy.relayed r with
  | .ok (.message m) => some m
  | .ok (.block _) | .error _ => none

/-- The block in a gossip message. -/
def block? (proxy : P2PServiceProxy TopicHash) (r : P2PRequest TopicHash) : Option FinalizedBlock :=
  match proxy.relayed r with
  | .ok (.block b) => some b
  | .ok (.message _) | .error _ => none

theorem message?_of_relayed {m : IBFTReceivedMessage} (h : proxy.relayed r = .ok (.message m)) :
    proxy.message? r = some m ∧ proxy.block? r = none := by
  rw [message?, block?, h]
  exact ⟨rfl, rfl⟩

theorem block?_of_relayed {b : FinalizedBlock} (h : proxy.relayed r = .ok (.block b)) :
    proxy.message? r = none ∧ proxy.block? r = some b := by
  rw [message?, block?, h]
  exact ⟨rfl, rfl⟩

theorem none_of_malformed {error : RelayError} (h : proxy.relayed r = .error error) :
    proxy.message? r = none ∧ proxy.block? r = none := by
  rw [message?, block?, h]
  exact ⟨rfl, rfl⟩

end P2PServiceProxy

/-- The consensus message that is received for a broadcast. -/
def Outgoing.message? : Outgoing → Option IBFTReceivedMessage
  | .message m => some m.received
  | .block _ => none

/-- The block that is received for a broadcast. -/
def Outgoing.block? : Outgoing → Option FinalizedBlock
  | .block b => some b
  | .message _ => none

section Requests

variable {TopicHash : Type} [DecidableEq TopicHash] {proxy : P2PServiceProxy TopicHash}
  {r : P2PRequest TopicHash} {o : Outgoing}

/-- A request comes out on the channel of its kind. -/
theorem P2PServiceProxy.message?_of_request (hsep : proxy.topics.Separated)
    (h : proxy.request o = .ok r) : proxy.message? r = o.message? := by
  have hrelayed := (relayed_ok_iff_request_ok hsep).mpr h
  rw [message?, hrelayed]
  cases o <;> rfl

theorem P2PServiceProxy.block?_of_request (hsep : proxy.topics.Separated)
    (h : proxy.request o = .ok r) : proxy.block? r = o.block? := by
  have hrelayed := (relayed_ok_iff_request_ok hsep).mpr h
  rw [block?, hrelayed]
  cases o <;> rfl

omit [DecidableEq TopicHash] in
/-- What comes out of the requests of a list of broadcasts, in their order. -/
theorem filterMap_of_requests {α : Type} {f : P2PRequest TopicHash → Option α}
    {g : Outgoing → Option α} (hfg : ∀ o r, proxy.request o = .ok r → f r = g o)
    {rs : List (P2PRequest TopicHash)} {os : List Outgoing}
    (h : os.map proxy.request = rs.map .ok) : rs.filterMap f = os.filterMap g := by
  induction os generalizing rs with
  | nil =>
    have hnil : rs = [] := List.map_eq_nil_iff.mp h.symm
    rw [hnil]
    rfl
  | cons o os ih =>
    cases rs with
    | nil => cases h
    | cons r rs =>
      obtain ⟨hr, hrs⟩ := List.cons.inj h
      rw [List.filterMap_cons, List.filterMap_cons, hfg o r hr, ih hrs]

end Requests

/-! ## The service -/

/-- The channels between the application and the service, and what has gone through them. -/
structure P2PService (TopicHash : Type) where
  requestReceiver : BoundedQueue (P2PRequest TopicHash) P2PServiceProxy.channelSize
  consensusRx : BoundedQueue IBFTReceivedMessage P2PServiceProxy.channelSize
  blockRx : BoundedQueue FinalizedBlock P2PServiceProxy.channelSize
  /-- What the application has broadcast. -/
  broadcasts : List Outgoing
  /-- What the service has handed to gossip. -/
  published : List (P2PRequest TopicHash)
  /-- What gossip has accepted of it. -/
  accepted : List (P2PRequest TopicHash)
  /-- What gossip has handed to the service. -/
  arrived : List (P2PRequest TopicHash)
  /-- What the application has taken. -/
  received : List IBFTReceivedMessage
  receivedBlocks : List FinalizedBlock

inductive P2PEvent (TopicHash : Type) where
  /-- The application calls `broadcast_message` or `broadcast_block`. -/
  | broadcast (o : Outgoing)
  /-- The service takes a request, and gossip answers it: an error for data over the 64 KiB of its
  configuration, for data published before, or for a topic without peers. -/
  | request (answer : Except String Unit)
  /-- A gossip message arrives. -/
  | gossip (r : P2PRequest TopicHash)
  /-- The application takes a message. -/
  | recvConsensus
  /-- The application takes a block. -/
  | recvBlock
  deriving DecidableEq

namespace P2PService

open P2PServiceProxy

variable {TopicHash : Type}

/-- `build_proxy`: three empty channels. -/
def build : P2PService TopicHash where
  requestReceiver := .empty
  consensusRx := .empty
  blockRx := .empty
  broadcasts := []
  published := []
  accepted := []
  arrived := []
  received := []
  receivedBlocks := []

/-- `broadcast_message` and `broadcast_block`: refused while the channel is full, which is awaited,
and for what cannot be encoded, which panics. -/
def broadcast (proxy : P2PServiceProxy TopicHash) (p : P2PService TopicHash) (o : Outgoing) :
    Option (P2PService TopicHash) :=
  match proxy.request o with
  | .error _ => none
  | .ok r =>
    (p.requestReceiver.push r).map fun requestReceiver =>
      { p with requestReceiver, broadcasts := p.broadcasts ++ [o] }

/-- Panics for empty data; the answer is returned. -/
def publishMessage (p : P2PService TopicHash) (r : P2PRequest TopicHash)
    (answer : Except String Unit) : Option (Except String (P2PService TopicHash)) :=
  if r.data.isEmpty then none
  else some (answer.map fun _ =>
    { p with published := p.published ++ [r], accepted := p.accepted ++ [r] })

/-- The branch of `run` for a request: one that gossip refuses is reported and dropped. -/
def handleRequest (p : P2PService TopicHash) (answer : Except String Unit) :
    Option (P2PService TopicHash) :=
  match p.requestReceiver.pop with
  | none => none
  | some (r, requestReceiver) =>
    (publishMessage { p with requestReceiver } r answer).map fun
      | .error _ => { p with requestReceiver, published := p.published ++ [r] }
      | .ok p' => p'

/-- The application takes the oldest message. -/
def recvConsensus (p : P2PService TopicHash) : Option (IBFTReceivedMessage × P2PService TopicHash) :=
  p.consensusRx.pop.map fun (m, consensusRx) =>
    (m, { p with consensusRx, received := p.received ++ [m] })

/-- The application takes the oldest block. -/
def recvBlock (p : P2PService TopicHash) : Option (FinalizedBlock × P2PService TopicHash) :=
  p.blockRx.pop.map fun (b, blockRx) =>
    (b, { p with blockRx, receivedBlocks := p.receivedBlocks ++ [b] })

variable [DecidableEq TopicHash]

/-- `relay_message`: what the channel has no room for is dropped. -/
def relayMessage (proxy : P2PServiceProxy TopicHash) (p : P2PService TopicHash)
    (r : P2PRequest TopicHash) : Except RelayError (P2PService TopicHash) :=
  match proxy.relayed r with
  | .error error => .error error
  | .ok (.message m) => .ok { p with consensusRx := p.consensusRx.offer m }
  | .ok (.block b) => .ok { p with blockRx := p.blockRx.offer b }

/-- The branch of `run` for a gossip message: a malformed one is reported and dropped. -/
def handleGossipsubEvent (proxy : P2PServiceProxy TopicHash) (p : P2PService TopicHash)
    (r : P2PRequest TopicHash) : P2PService TopicHash :=
  match relayMessage proxy { p with arrived := p.arrived ++ [r] } r with
  | .error _ => { p with arrived := p.arrived ++ [r] }
  | .ok p' => p'

def step (proxy : P2PServiceProxy TopicHash) (p : P2PService TopicHash) :
    P2PEvent TopicHash → Option (P2PService TopicHash)
  | .broadcast o => p.broadcast proxy o
  | .request answer => p.handleRequest answer
  | .gossip r => some (p.handleGossipsubEvent proxy r)
  | .recvConsensus => p.recvConsensus.map Prod.snd
  | .recvBlock => p.recvBlock.map Prod.snd

/-! ### What a step does -/

/-- A step of the service, with what it asks for. -/
inductive Step (proxy : P2PServiceProxy TopicHash) (p : P2PService TopicHash) :
    P2PEvent TopicHash → P2PService TopicHash → Prop where
  | broadcast {o : Outgoing} {r : P2PRequest TopicHash} {requestReceiver}
      (hrequest : proxy.request o = .ok r) (hpush : p.requestReceiver.push r = some requestReceiver) :
      Step proxy p (.broadcast o) { p with requestReceiver, broadcasts := p.broadcasts ++ [o] }
  | request {r : P2PRequest TopicHash} {requestReceiver}
      (hpop : p.requestReceiver.pop = some (r, requestReceiver)) (hdata : r.data ≠ []) :
      Step proxy p (.request (.ok ()))
        { p with
          requestReceiver, published := p.published ++ [r], accepted := p.accepted ++ [r] }
  | refused {r : P2PRequest TopicHash} {requestReceiver} {why : String}
      (hpop : p.requestReceiver.pop = some (r, requestReceiver)) (hdata : r.data ≠ []) :
      Step proxy p (.request (.error why))
        { p with requestReceiver, published := p.published ++ [r] }
  | malformed {r : P2PRequest TopicHash} {error : RelayError} (h : proxy.relayed r = .error error) :
      Step proxy p (.gossip r) { p with arrived := p.arrived ++ [r] }
  | message {r : P2PRequest TopicHash} {m : IBFTReceivedMessage}
      (h : proxy.relayed r = .ok (.message m)) :
      Step proxy p (.gossip r)
        { p with consensusRx := p.consensusRx.offer m, arrived := p.arrived ++ [r] }
  | block {r : P2PRequest TopicHash} {b : FinalizedBlock} (h : proxy.relayed r = .ok (.block b)) :
      Step proxy p (.gossip r)
        { p with blockRx := p.blockRx.offer b, arrived := p.arrived ++ [r] }
  | recvConsensus {m : IBFTReceivedMessage} {consensusRx}
      (hpop : p.consensusRx.pop = some (m, consensusRx)) :
      Step proxy p .recvConsensus { p with consensusRx, received := p.received ++ [m] }
  | recvBlock {b : FinalizedBlock} {blockRx} (hpop : p.blockRx.pop = some (b, blockRx)) :
      Step proxy p .recvBlock { p with blockRx, receivedBlocks := p.receivedBlocks ++ [b] }

variable {proxy : P2PServiceProxy TopicHash} {p p' : P2PService TopicHash}

theorem step_gossip (proxy : P2PServiceProxy TopicHash) (p : P2PService TopicHash)
    (r : P2PRequest TopicHash) : Step proxy p (.gossip r) (p.handleGossipsubEvent proxy r) := by
  unfold handleGossipsubEvent relayMessage
  cases h : proxy.relayed r with
  | error error => exact .malformed h
  | ok relayed =>
    cases relayed with
    | message m => exact .message h
    | block b => exact .block h

theorem step_of_eq_some {e : P2PEvent TopicHash} (h : step proxy p e = some p') :
    Step proxy p e p' := by
  cases e with
  | broadcast o =>
    change p.broadcast proxy o = some p' at h
    unfold broadcast at h
    split at h
    next => cases h
    next r hrequest =>
      obtain ⟨q, hpush, rfl⟩ := Option.map_eq_some_iff.mp h
      exact .broadcast hrequest hpush
  | request answer =>
    change p.handleRequest answer = some p' at h
    unfold handleRequest at h
    split at h
    next => cases h
    next r q hpop =>
      unfold publishMessage at h
      split at h
      next => cases h
      next hdata =>
        have hne : r.data ≠ [] := by simpa using hdata
        cases answer with
        | ok =>
          cases h
          exact .request hpop hne
        | error why =>
          cases h
          exact .refused hpop hne
  | gossip r =>
    cases h
    exact step_gossip proxy p r
  | recvConsensus =>
    obtain ⟨popped, hrecv, rfl⟩ := Option.map_eq_some_iff.mp h
    obtain ⟨⟨m, q⟩, hpop, rfl⟩ := Option.map_eq_some_iff.mp hrecv
    exact .recvConsensus hpop
  | recvBlock =>
    obtain ⟨popped, hrecv, rfl⟩ := Option.map_eq_some_iff.mp h
    obtain ⟨⟨b, q⟩, hpop, rfl⟩ := Option.map_eq_some_iff.mp hrecv
    exact .recvBlock hpop

/-- A message on the channel has arrived in a gossip message. -/
theorem Step.mem_consensusRx {e : P2PEvent TopicHash} (h : Step proxy p e p')
    {m : IBFTReceivedMessage} (hm : m ∈ p'.consensusRx.items) :
    m ∈ p.consensusRx.items ∨ ∃ r, e = .gossip r ∧ proxy.message? r = some m := by
  cases h with
  | broadcast | request | refused | malformed | block | recvBlock => exact Or.inl hm
  | message hrelayed =>
    rcases BoundedQueue.mem_offer hm with hm | rfl
    · exact Or.inl hm
    · exact Or.inr ⟨_, rfl, (message?_of_relayed hrelayed).1⟩
  | recvConsensus hpop =>
    left
    rw [BoundedQueue.pop_eq_some_iff.mp hpop]
    exact List.mem_cons_of_mem _ hm

/-! ### Nothing out of order and nothing twice -/

/-- What has gone in at one end of each channel against what has come out at the other. -/
structure Inv (proxy : P2PServiceProxy TopicHash) (p : P2PService TopicHash) : Prop where
  requests : p.broadcasts.map proxy.request = (p.published ++ p.requestReceiver.items).map .ok
  consensus : p.consensusRx.Carries (p.arrived.filterMap proxy.message?) p.received
  blocks : p.blockRx.Carries (p.arrived.filterMap proxy.block?) p.receivedBlocks

theorem inv_build : Inv proxy (build : P2PService TopicHash) where
  requests := rfl
  consensus := BoundedQueue.carriesAll_empty.carries
  blocks := BoundedQueue.carriesAll_empty.carries

theorem moves_consensus {e : P2PEvent TopicHash} (h : Step proxy p e p') :
    p.consensusRx.Moves (p.arrived.filterMap proxy.message?) p.received
      p'.consensusRx (p'.arrived.filterMap proxy.message?) p'.received := by
  cases h with
  | broadcast | request | refused | recvBlock => exact .idle
  | malformed h =>
    simp only [List.filterMap_append, List.filterMap_cons, (none_of_malformed h).1,
      List.filterMap_nil, List.append_nil]
    exact .idle
  | message h =>
    simp only [List.filterMap_append, List.filterMap_cons, (message?_of_relayed h).1,
      List.filterMap_nil]
    exact .offer _
  | block h =>
    simp only [List.filterMap_append, List.filterMap_cons, (block?_of_relayed h).1,
      List.filterMap_nil, List.append_nil]
    exact .idle
  | recvConsensus hpop => exact .pop hpop

theorem moves_block {e : P2PEvent TopicHash} (h : Step proxy p e p') :
    p.blockRx.Moves (p.arrived.filterMap proxy.block?) p.receivedBlocks
      p'.blockRx (p'.arrived.filterMap proxy.block?) p'.receivedBlocks := by
  cases h with
  | broadcast | request | refused | recvConsensus => exact .idle
  | malformed h =>
    simp only [List.filterMap_append, List.filterMap_cons, (none_of_malformed h).2,
      List.filterMap_nil, List.append_nil]
    exact .idle
  | message h =>
    simp only [List.filterMap_append, List.filterMap_cons, (message?_of_relayed h).2,
      List.filterMap_nil, List.append_nil]
    exact .idle
  | block h =>
    simp only [List.filterMap_append, List.filterMap_cons, (block?_of_relayed h).2,
      List.filterMap_nil]
    exact .offer _
  | recvBlock hpop => exact .pop hpop

/-- The channel of requests is waited for, so it loses none. -/
theorem requests_of_step {e : P2PEvent TopicHash} (h : Step proxy p e p')
    (hinv : p.broadcasts.map proxy.request = (p.published ++ p.requestReceiver.items).map .ok) :
    p'.broadcasts.map proxy.request = (p'.published ++ p'.requestReceiver.items).map .ok := by
  cases h with
  | broadcast hrequest hpush =>
    obtain ⟨-, hitems⟩ := BoundedQueue.push_eq_some_iff.mp hpush
    show (p.broadcasts ++ [_]).map proxy.request = (p.published ++ _).map .ok
    simp only [hitems, hinv, hrequest, List.map_append, List.map_cons, List.map_nil,
      List.append_assoc]
  | request hpop hdata | refused hpop hdata =>
    rw [BoundedQueue.pop_eq_some_iff.mp hpop] at hinv
    show p.broadcasts.map proxy.request = ((p.published ++ [_]) ++ _).map .ok
    rw [List.append_assoc]
    exact hinv
  | malformed | message | block | recvConsensus | recvBlock => exact hinv

theorem Inv.step {e : P2PEvent TopicHash} (hinv : Inv proxy p) (h : Step proxy p e p') :
    Inv proxy p' where
  requests := requests_of_step h hinv.requests
  consensus := hinv.consensus.moves (moves_consensus h)
  blocks := hinv.blocks.moves (moves_block h)

theorem inv_of_reachable (h : Reachable (step proxy) build p) : Inv proxy p :=
  h.invariant (fun _ _ _ hinv hstep => hinv.step (step_of_eq_some hstep)) inv_build

/-- A request that waits is one of a broadcast. -/
theorem Inv.exists_request (hinv : Inv proxy p) {r : P2PRequest TopicHash}
    (hr : r ∈ p.requestReceiver.items) : ∃ o ∈ p.broadcasts, proxy.request o = .ok r := by
  have hmem : Except.ok r ∈ p.broadcasts.map proxy.request := by
    rw [hinv.requests]
    exact List.mem_map_of_mem (List.mem_append_right _ hr)
  exact List.mem_map.mp hmem

/-- The service never panics over a request. -/
theorem Inv.isSome_handleRequest (hinv : Inv proxy p) (h : p.requestReceiver.items ≠ [])
    (answer : Except String Unit) : (p.handleRequest answer).isSome = true := by
  cases hpop : p.requestReceiver.pop with
  | none => exact absurd (BoundedQueue.pop_eq_none_iff.mp hpop) h
  | some popped =>
    obtain ⟨r, q⟩ := popped
    have hmem : r ∈ p.requestReceiver.items := by
      rw [BoundedQueue.pop_eq_some_iff.mp hpop]
      exact List.mem_cons_self
    obtain ⟨o, -, ho⟩ := hinv.exists_request hmem
    have hpos := (length_of_request ho).1
    have hdata : ¬ r.data.isEmpty = true := by
      intro hempty
      rw [List.isEmpty_iff.mp hempty] at hpos
      exact absurd hpos (Nat.lt_irrefl 0)
    rw [handleRequest, hpop]
    show ((publishMessage { p with requestReceiver := q } r answer).map _).isSome = true
    rw [publishMessage, if_neg hdata]
    rfl

end P2PService

/-- **The channels keep order.**  Over every run of the service, what it has handed to gossip and
what waits for it are the requests of all broadcasts, in the order they were made; what the
application has taken from the channel of messages or of blocks, and what waits there, is some of
what has arrived on its topic, in the order of arrival and nothing twice; and the service does not
panic over a request, whether gossip accepts it or not. -/
theorem channels_keep_order {TopicHash : Type} [DecidableEq TopicHash]
    {proxy : P2PServiceProxy TopicHash} {p : P2PService TopicHash}
    (h : Reachable (P2PService.step proxy) P2PService.build p) :
    p.broadcasts.map proxy.request = (p.published ++ p.requestReceiver.items).map .ok ∧
      (p.received ++ p.consensusRx.items).Sublist (p.arrived.filterMap proxy.message?) ∧
      (p.receivedBlocks ++ p.blockRx.items).Sublist (p.arrived.filterMap proxy.block?) ∧
      (p.requestReceiver.items ≠ [] →
        ∀ answer, (p.step proxy (.request answer)).isSome = true) := by
  have hinv := P2PService.inv_of_reachable h
  exact ⟨hinv.requests, hinv.consensus, hinv.blocks, hinv.isSome_handleRequest⟩

namespace P2PService

variable {TopicHash : Type} [DecidableEq TopicHash] {proxy : P2PServiceProxy TopicHash}
  {p p' : P2PService TopicHash}

/-! ### Nothing lost -/

/-- Where the event is the arrival of a message or a block, its channel has room. -/
def HasRoom (proxy : P2PServiceProxy TopicHash) (p : P2PService TopicHash) :
    P2PEvent TopicHash → Prop
  | .gossip r =>
    (proxy.message? r ≠ none → p.consensusRx.HasRoom) ∧
      (proxy.block? r ≠ none → p.blockRx.HasRoom)
  | .broadcast _ | .request _ | .recvConsensus | .recvBlock => True

instance (proxy : P2PServiceProxy TopicHash) (p : P2PService TopicHash) :
    (e : P2PEvent TopicHash) → Decidable (HasRoom proxy p e)
  | .gossip _ => inferInstanceAs (Decidable (_ ∧ _))
  | .broadcast _ | .request _ | .recvConsensus | .recvBlock => isTrue trivial

theorem arrived_of_step {e : P2PEvent TopicHash} (h : Step proxy p e p') :
    p'.arrived = p.arrived ∨ ∃ r, e = .gossip r ∧ p'.arrived = p.arrived ++ [r] := by
  cases h with
  | broadcast | request | refused | recvConsensus | recvBlock => exact Or.inl rfl
  | malformed | message | block => exact Or.inr ⟨_, rfl, rfl⟩

/-- A channel is offered an item only where there is room. -/
theorem hasRoom_of_filterMap_ne {α : Type} {f : P2PRequest TopicHash → Option α} {room : Prop}
    {e : P2PEvent TopicHash} (h : Step proxy p e p')
    (hroom : ∀ r, e = .gossip r → f r ≠ none → room)
    (hne : p'.arrived.filterMap f ≠ p.arrived.filterMap f) : room := by
  rcases arrived_of_step h with harrived | ⟨r, rfl, harrived⟩
  · rw [harrived] at hne
    exact absurd rfl hne
  · apply hroom r rfl
    intro hnone
    rw [harrived, List.filterMap_append, List.filterMap_cons, hnone] at hne
    exact hne (List.append_nil _)

/-- Nothing that has arrived is missing. -/
structure Lossless (proxy : P2PServiceProxy TopicHash) (p : P2PService TopicHash) : Prop where
  consensus : p.consensusRx.CarriesAll (p.arrived.filterMap proxy.message?) p.received
  blocks : p.blockRx.CarriesAll (p.arrived.filterMap proxy.block?) p.receivedBlocks

theorem Lossless.step {e : P2PEvent TopicHash} (hall : Lossless proxy p) (h : Step proxy p e p')
    (hroom : HasRoom proxy p e) : Lossless proxy p' where
  consensus := by
    apply hall.consensus.moves (moves_consensus h)
    intro hne
    apply hasRoom_of_filterMap_ne h _ hne
    rintro r rfl hsome
    exact hroom.1 hsome
  blocks := by
    apply hall.blocks.moves (moves_block h)
    intro hne
    apply hasRoom_of_filterMap_ne h _ hne
    rintro r rfl hsome
    exact hroom.2 hsome

theorem lossless_of_reachableWithin (h : ReachableWithin (step proxy) (HasRoom proxy) build p) :
    Lossless proxy p := by
  induction h with
  | refl => exact ⟨BoundedQueue.carriesAll_empty, BoundedQueue.carriesAll_empty⟩
  | tail h hroom hstep ih => exact ih.step (step_of_eq_some hstep) hroom

end P2PService

/-- **Nothing is lost or crosses over.**  If no message arrives at a full channel, and what arrives
are the requests of some broadcasts of nodes of the network, in any order and any number of times,
then exactly the messages among them come out on the channel of messages and exactly the blocks
among them on the channel of blocks, in the order of their arrival. -/
theorem broadcasts_come_out {TopicHash : Type} [DecidableEq TopicHash]
    {proxy : P2PServiceProxy TopicHash} {p : P2PService TopicHash}
    (hsep : proxy.topics.Separated)
    (h : ReachableWithin (P2PService.step proxy) (P2PService.HasRoom proxy) P2PService.build p)
    {broadcasts : List Outgoing} (harrived : broadcasts.map proxy.request = p.arrived.map .ok) :
    p.received ++ p.consensusRx.items = broadcasts.filterMap Outgoing.message? ∧
      p.receivedBlocks ++ p.blockRx.items = broadcasts.filterMap Outgoing.block? := by
  have hall := P2PService.lossless_of_reachableWithin h
  constructor
  · rw [hall.consensus]
    apply filterMap_of_requests _ harrived
    intro o r hr
    exact P2PServiceProxy.message?_of_request hsep hr
  · rw [hall.blocks]
    apply filterMap_of_requests _ harrived
    intro o r hr
    exact P2PServiceProxy.block?_of_request hsep hr

/-! ### A service at work -/

/-- The proxy of a network whose topics are not hashed. -/
def plainProxy : P2PServiceProxy String :=
  (P2PServiceProxy.new id "tonic").get (by decide +kernel)

def plainBlock (b : UInt8) : FinalizedBlock where
  rawBlock := [b]
  proof := { round := 0, commitSeals := [] }

/-- The gossip message of a block. -/
def plainRequest (b : UInt8) : P2PRequest String where
  topicHash := "block/tonic"
  data := serialize (plainBlock b)

/-- A consensus message. -/
def plainMessage : IBFTMessage :=
  .prepare ((PrepareMessage.new { height := 1, round := 0 }
    (digestBlock modelCrypto [7] 0)).intoSigned modelCrypto (modelKey 1))

/-- The gossip message of the consensus message. -/
def plainConsensus : P2PRequest String where
  topicHash := "consensus/tonic"
  data := serialize plainMessage

/-- Two blocks go out, of which gossip refuses the second; a message and two blocks come in, and
between them what is no message. -/
def plainEvents : List (P2PEvent String) :=
  [.broadcast (.block (plainBlock 1)), .request (.ok ()), .broadcast (.block (plainBlock 1)),
    .request (.error "duplicate"), .gossip (plainRequest 2), .gossip plainConsensus,
    .gossip { topicHash := "consensus/tonic", data := [7] }, .recvBlock, .gossip (plainRequest 3)]

def plainService : P2PService String :=
  (exec (P2PService.step plainProxy) .build plainEvents).get (by decide +kernel)

theorem channels_keep_order_plain :
    plainService.broadcasts.map plainProxy.request =
        (plainService.published ++ plainService.requestReceiver.items).map .ok ∧
      (plainService.received ++ plainService.consensusRx.items).Sublist
        (plainService.arrived.filterMap plainProxy.message?) ∧
      (plainService.receivedBlocks ++ plainService.blockRx.items).Sublist
        (plainService.arrived.filterMap plainProxy.block?) ∧
      (plainService.requestReceiver.items ≠ [] →
        ∀ answer, (plainService.step plainProxy (.request answer)).isSome = true) :=
  channels_keep_order (reachable_get _)

/-- Two blocks come in, and a message between them. -/
def plainReceiver : P2PService String :=
  (exec (P2PService.step plainProxy) .build
    [.gossip (plainRequest 2), .gossip plainConsensus, .recvBlock, .recvConsensus,
      .gossip (plainRequest 3)]).get (by decide +kernel)

theorem broadcasts_come_out_plain :
    plainReceiver.received ++ plainReceiver.consensusRx.items = [plainMessage.received] ∧
      plainReceiver.receivedBlocks ++ plainReceiver.blockRx.items = [plainBlock 2, plainBlock 3] :=
  @broadcasts_come_out _ _ plainProxy plainReceiver (by decide +kernel)
    (reachableWithin_get (by decide +kernel) _)
    [.block (plainBlock 2), .message plainMessage, .block (plainBlock 3)] (by decide +kernel)

end Tonic
