/-
# Validators on the gossip network

Each honest node is an engine with a gossip service.  What the engine broadcasts is encoded and
queued, published, carried to other nodes as bytes unless gossip refuses it, decoded and queued
again before a handler takes it.  The network may hand any bytes to any node, but it cannot
forge: what they decode to carries no signature of an honest node other than over what it has
signed.  Seen from the engines alone, the whole is a network of validators as in `Network`, so
what holds of every run of that one holds here.
-/
import Tonic.P2PService
import Tonic.Decision

namespace Tonic

open Transition

/-! ## One node -/

/-- What an action sends to the other nodes. -/
def Action.outgoing? : Action → Option Outgoing
  | .broadcast m => some (.message m)
  | .finalized _ block => some (.block block)
  | .entered _ | .verifiedBlock _ _ => none

/-- What a node has asked its service to broadcast, the oldest first. -/
def Node.outgoing (n : Node) : List Outgoing := n.history.filterMap Action.outgoing?

structure WireNode (TopicHash : Type) where
  node : Node
  service : P2PService TopicHash

inductive WireEvent (TopicHash : Type) where
  /-- A step of the engine other than the receipt of a message. -/
  | engine (ev : Event)
  /-- The handler takes the oldest message of its channel. -/
  | receive
  | service (e : P2PEvent TopicHash)

namespace WireNode

variable {TopicHash : Type}

/-- A broadcast is one that the engine waits for, later than the ones made.  One may be left out:
the task that waits for it can be aborted. -/
def Permits (w : WireNode TopicHash) : P2PEvent TopicHash → Prop
  | .broadcast o => (w.service.broadcasts ++ [o]).Sublist w.node.outgoing
  | .recvConsensus => False
  | .request _ | .gossip _ | .recvBlock => True

instance (w : WireNode TopicHash) : (e : P2PEvent TopicHash) → Decidable (w.Permits e)
  | .broadcast _ => inferInstanceAs (Decidable (List.Sublist _ _))
  | .recvConsensus => isFalse id
  | .request _ | .gossip _ | .recvBlock => isTrue trivial

variable [DecidableEq TopicHash]

/-- A step of the engine other than the receipt of a message. -/
def stepEngine (cfg : Config) (w : WireNode TopicHash) (ev : Event) : Option (WireNode TopicHash) :=
  match ev.message? with
  | some _ => none
  | none => (w.node.step cfg ev).map fun node => { w with node }

/-- The handler takes the next message. -/
def stepReceive (cfg : Config) (w : WireNode TopicHash) : Option (WireNode TopicHash) :=
  match w.service.recvConsensus with
  | none => none
  | some (m, service) =>
    (w.node.step cfg (.receive m.broadcast)).map fun node => { node, service }

def stepService (proxy : P2PServiceProxy TopicHash) (w : WireNode TopicHash)
    (e : P2PEvent TopicHash) : Option (WireNode TopicHash) :=
  if w.Permits e then (w.service.step proxy e).map fun service => { w with service } else none

def step (cfg : Config) (proxy : P2PServiceProxy TopicHash) (w : WireNode TopicHash) :
    WireEvent TopicHash → Option (WireNode TopicHash)
  | .engine ev => w.stepEngine cfg ev
  | .receive => w.stepReceive cfg
  | .service e => w.stepService proxy e

/-- A step of one node, with what it asks for. -/
inductive Step (cfg : Config) (proxy : P2PServiceProxy TopicHash) (w : WireNode TopicHash) :
    WireEvent TopicHash → WireNode TopicHash → Prop where
  | engine {ev : Event} {node : Node} (hquiet : ev.message? = none)
      (hnode : w.node.step cfg ev = some node) : Step cfg proxy w (.engine ev) { w with node }
  | receive {m : IBFTReceivedMessage} {service : P2PService TopicHash} {node : Node}
      (hservice : w.service.recvConsensus = some (m, service))
      (hnode : w.node.step cfg (.receive m.broadcast) = some node) :
      Step cfg proxy w .receive { node, service }
  | service {e : P2PEvent TopicHash} {service : P2PService TopicHash} (hpermits : w.Permits e)
      (hservice : w.service.step proxy e = some service) :
      Step cfg proxy w (.service e) { w with service }

variable {cfg : Config} {proxy : P2PServiceProxy TopicHash} {w w' : WireNode TopicHash}
  {e : WireEvent TopicHash}

theorem step_of_eq_some (h : w.step cfg proxy e = some w') : Step cfg proxy w e w' := by
  cases e with
  | engine ev =>
    change w.stepEngine cfg ev = some w' at h
    unfold stepEngine at h
    split at h
    next => cases h
    next hquiet =>
      obtain ⟨node, hnode, rfl⟩ := Option.map_eq_some_iff.mp h
      exact .engine hquiet hnode
  | receive =>
    change w.stepReceive cfg = some w' at h
    unfold stepReceive at h
    split at h
    next => cases h
    next m service hservice =>
      obtain ⟨node, hnode, rfl⟩ := Option.map_eq_some_iff.mp h
      exact .receive hservice hnode
  | service e =>
    change w.stepService proxy e = some w' at h
    unfold stepService at h
    split at h
    next hpermits =>
      obtain ⟨service, hservice, rfl⟩ := Option.map_eq_some_iff.mp h
      exact .service hpermits hservice
    next => cases h

/-- The service makes a step of its own, or none. -/
theorem Step.service_step (h : Step cfg proxy w e w') :
    w'.service = w.service ∨ ∃ pe, w.service.step proxy pe = some w'.service ∧
      (pe = .recvConsensus ∨ e = .service pe) := by
  cases h with
  | engine => exact Or.inl rfl
  | receive hservice =>
    right
    refine ⟨.recvConsensus, ?_, Or.inl rfl⟩
    show w.service.recvConsensus.map Prod.snd = _
    rw [hservice]
    rfl
  | service _ hservice => exact Or.inr ⟨_, hservice, Or.inr rfl⟩

end WireNode

/-- What a step adds to the history of a node comes last. -/
theorem NodeStep.history_append {cfg : Config} {n n' : Node} {ev : Event}
    (h : NodeStep cfg n ev n') : ∃ actions, n'.history = n.history ++ actions := by
  cases h with
  | receive | addPending => exact ⟨[], (List.append_nil _).symm⟩
  | @runHeight height past hpast =>
    subst hpast
    exact ⟨(Run.start cfg n.messages height).log, Node.history_of_run (n := { n with
      run := some (Run.start cfg n.messages height), past := n.runs }) rfl⟩
  | @run ev run run' msgs height hrun hstep =>
    obtain ⟨actions, hlog⟩ := hstep.log_append
    have hadvances : Node.Advances n { n with messages := msgs, run := some run', height } run run'
        actions := ⟨hrun, rfl, rfl, rfl, rfl, hlog⟩
    exact ⟨actions, hadvances.history⟩

/-- What a step makes a node send comes last. -/
theorem Node.outgoing_append {cfg : Config} {n n' : Node} {ev : Event}
    (h : n.step cfg ev = some n') : ∃ os, n'.outgoing = n.outgoing ++ os := by
  obtain ⟨actions, hactions⟩ := (nodeStep_of_step h).history_append
  exact ⟨actions.filterMap Action.outgoing?, by
    rw [Node.outgoing, hactions, List.filterMap_append]
    rfl⟩

/-- Only the receipt of a message adds to what a node has received. -/
theorem Node.received_of_step {cfg : Config} {n n' : Node} {ev : Event}
    (h : n.step cfg ev = some n') : n'.received = ev.message?.toList ++ n.received := by
  cases nodeStep_of_step h with
  | receive => rfl
  | addPending | runHeight => rfl
  | @run ev run run' msgs height hrun hstep => cases hstep <;> rfl

theorem mem_outgoing_message {n : Node} {m : IBFTMessage} :
    .message m ∈ n.outgoing ↔ .broadcast m ∈ n.history := by
  rw [Node.outgoing, List.mem_filterMap]
  constructor
  · rintro ⟨a, ha, hm⟩
    cases a with
    | broadcast =>
      cases hm
      exact ha
    | entered | verifiedBlock | finalized => cases hm
  · intro h
    exact ⟨_, h, rfl⟩

namespace WireNode

variable {TopicHash : Type} [DecidableEq TopicHash] {cfg : Config}
  {proxy : P2PServiceProxy TopicHash} {w w' : WireNode TopicHash} {e : WireEvent TopicHash}

/-- An engine and its service agree on what has passed between them. -/
structure Joined (w : WireNode TopicHash) : Prop where
  broadcasts : w.service.broadcasts.Sublist w.node.outgoing
  received : w.node.received = (w.service.received.map IBFTReceivedMessage.broadcast).reverse

omit [DecidableEq TopicHash] in
theorem recvConsensus_eq_some {p p' : P2PService TopicHash} {m : IBFTReceivedMessage}
    (h : p.recvConsensus = some (m, p')) :
    p.consensusRx.items = m :: p'.consensusRx.items ∧ p'.received = p.received ++ [m] ∧
      p'.broadcasts = p.broadcasts := by
  obtain ⟨⟨m', q⟩, hpop, heq⟩ := Option.map_eq_some_iff.mp h
  cases heq
  exact ⟨BoundedQueue.pop_eq_some_iff.mp hpop, rfl, rfl⟩

/-- Only a broadcast adds to the broadcasts, and only the handler takes from its channel. -/
theorem service_of_permitted {pe : P2PEvent TopicHash} {p : P2PService TopicHash}
    (hpermits : w.Permits pe) (h : w.service.step proxy pe = some p) :
    p.received = w.service.received ∧ (p.broadcasts = w.service.broadcasts ∨
      p.broadcasts.Sublist w.node.outgoing) := by
  cases P2PService.step_of_eq_some h with
  | broadcast => exact ⟨rfl, Or.inr hpermits⟩
  | request | refused | malformed | message | block | recvBlock => exact ⟨rfl, Or.inl rfl⟩
  | recvConsensus => exact absurd hpermits id

/-- A message that waits for the handler has arrived in a gossip message. -/
theorem Step.mem_consensusRx (h : Step cfg proxy w e w') {m : IBFTReceivedMessage}
    (hm : m ∈ w'.service.consensusRx.items) :
    m ∈ w.service.consensusRx.items ∨
      ∃ r, e = .service (.gossip r) ∧ proxy.message? r = some m := by
  cases h with
  | engine => exact Or.inl hm
  | receive hservice =>
    left
    rw [(recvConsensus_eq_some hservice).1]
    exact List.mem_cons_of_mem _ hm
  | service _ hservice =>
    rcases (P2PService.step_of_eq_some hservice).mem_consensusRx hm with hm | ⟨r, rfl, hr⟩
    · exact Or.inl hm
    · exact Or.inr ⟨r, rfl, hr⟩

theorem Joined.step (hjoined : w.Joined) (h : Step cfg proxy w e w') : w'.Joined := by
  cases h with
  | @engine ev node hquiet hnode =>
    obtain ⟨os, hos⟩ := Node.outgoing_append hnode
    refine ⟨?_, ?_⟩
    · show w.service.broadcasts.Sublist node.outgoing
      rw [hos]
      exact hjoined.broadcasts.trans (List.sublist_append_left _ _)
    · show node.received = _
      rw [Node.received_of_step hnode, hquiet]
      exact hjoined.received
  | @receive m service node hservice hnode =>
    obtain ⟨-, hreceived, hbroadcasts⟩ := recvConsensus_eq_some hservice
    obtain ⟨os, hos⟩ := Node.outgoing_append hnode
    refine ⟨?_, ?_⟩
    · show service.broadcasts.Sublist node.outgoing
      rw [hbroadcasts, hos]
      exact hjoined.broadcasts.trans (List.sublist_append_left _ _)
    · show node.received = (service.received.map _).reverse
      rw [Node.received_of_step hnode, hjoined.received, hreceived, List.map_append,
        List.reverse_append]
      rfl
  | @service pe p hpermits hservice =>
    obtain ⟨hreceived, hbroadcasts⟩ := service_of_permitted hpermits hservice
    refine ⟨?_, ?_⟩
    · show p.broadcasts.Sublist w.node.outgoing
      rcases hbroadcasts with heq | hsub
      · rw [heq]
        exact hjoined.broadcasts
      · exact hsub
    · show w.node.received = (p.received.map _).reverse
      rw [hreceived]
      exact hjoined.received

end WireNode

/-! ## The network -/

/-- The honest nodes with their services. -/
abbrev WireNetwork (ι TopicHash : Type) := ι → WireNode TopicHash

variable {ι : Type} {TopicHash : Type}

/-- The engines of a network. -/
def WireNetwork.nodes (net : WireNetwork ι TopicHash) : Network ι := fun i => (net i).node

namespace Deployment

variable [Fintype ι] (S : Deployment ι)

/-- All nodes before their first event, with empty channels. -/
def wireInit (heights : ι → UInt64) : WireNetwork ι TopicHash := fun i =>
  { node := Node.init (S.config i) (heights i), service := .build }

variable [DecidableEq TopicHash] (proxy : P2PServiceProxy TopicHash)

/-- What may happen to a node: a message that gossip hands to it is no forgery. -/
def WireAllows (net : WireNetwork ι TopicHash) : WireEvent TopicHash → Prop
  | .service (.gossip r) =>
    ∀ m, proxy.message? r = some m → S.Authentic net.nodes m.broadcast
  | _ => True

instance (net : WireNetwork ι TopicHash) :
    (e : WireEvent TopicHash) → Decidable (S.WireAllows proxy net e)
  | .service (.gossip r) =>
    match h : proxy.message? r with
    | none => isTrue fun m hm => by
        rw [h] at hm
        cases hm
    | some m => decidable_of_iff (S.Authentic net.nodes m.broadcast) (by
        constructor
        · intro hauth m' hm'
          rw [h] at hm'
          cases hm'
          exact hauth
        · intro hall
          exact hall m h)
  | .engine _ | .receive | .service (.broadcast _) | .service (.request _)
  | .service .recvConsensus | .service .recvBlock => isTrue trivial

/-- An event at one of the nodes. -/
def wireStep [DecidableEq ι] (net : WireNetwork ι TopicHash) (e : ι × WireEvent TopicHash) :
    Option (WireNetwork ι TopicHash) :=
  if S.WireAllows proxy net e.2 then
    ((net e.1).step (S.config e.1) proxy e.2).map (Function.update net e.1)
  else none

variable {S proxy} [DecidableEq ι] {heights : ι → UInt64} {net net' : WireNetwork ι TopicHash}

theorem wireStep_eq_some {i : ι} {e : WireEvent TopicHash} :
    S.wireStep proxy net (i, e) = some net' ↔ S.WireAllows proxy net e ∧
      ∃ w, (net i).step (S.config i) proxy e = some w ∧ net' = Function.update net i w := by
  unfold wireStep
  split
  next h => simp [h, eq_comm]
  next h => simp [h]

omit [DecidableEq ι] in
theorem allows_of_quiet {net : Network ι} {ev : Event} (h : ev.message? = none) :
    S.Allows net ev := by
  cases ev with
  | receive => cases h
  | _ => exact trivial

omit [Fintype ι] [DecidableEq TopicHash] in
theorem nodes_update (net : WireNetwork ι TopicHash) (i : ι) (w : WireNode TopicHash) :
    WireNetwork.nodes (Function.update net i w) = Function.update net.nodes i w.node := by
  funext j
  by_cases hij : j = i
  · subst hij
    simp [WireNetwork.nodes]
  · simp [WireNetwork.nodes, hij]

/-- What is known of the nodes of a network and of the channels between engine and service. -/
structure Wired (S : Deployment ι) (heights : ι → UInt64) (net : WireNetwork ι TopicHash) :
    Prop where
  nodes : Reachable S.step (S.init heights) net.nodes
  joined : ∀ i, (net i).Joined
  authentic : ∀ i, ∀ m ∈ (net i).service.consensusRx.items, S.Authentic net.nodes m.broadcast

omit [DecidableEq TopicHash] in
theorem wired_init : Wired S heights (S.wireInit heights : WireNetwork ι TopicHash) where
  nodes := .refl _
  joined _ := ⟨List.nil_sublist _, rfl⟩
  authentic _ _ hm := absurd hm List.not_mem_nil

/-- The engines make a step of a network of validators, or none. -/
theorem Wired.nodes_step (h : Wired S heights net) {i : ι} {e : WireEvent TopicHash}
    {w : WireNode TopicHash} (hw : WireNode.Step (S.config i) proxy (net i) e w) :
    Function.update net.nodes i w.node = net.nodes ∨
      ∃ ev, S.step net.nodes (i, ev) = some (Function.update net.nodes i w.node) := by
  cases hw with
  | @engine ev node hquiet hnode =>
    right
    exact ⟨ev, step_eq_some.mpr ⟨allows_of_quiet hquiet, node, hnode, rfl⟩⟩
  | @receive m service node hservice hnode =>
    right
    have hm : m ∈ (net i).service.consensusRx.items := by
      rw [(WireNode.recvConsensus_eq_some hservice).1]
      exact List.mem_cons_self
    exact ⟨.receive m.broadcast, step_eq_some.mpr ⟨h.authentic i m hm, node, hnode, rfl⟩⟩
  | service => exact Or.inl (Function.update_eq_self i net.nodes)

theorem Wired.step (h : Wired S heights net) {e : ι × WireEvent TopicHash}
    (hstep : S.wireStep proxy net e = some net') : Wired S heights net' := by
  obtain ⟨i, e⟩ := e
  obtain ⟨hallows, w, hw, rfl⟩ := wireStep_eq_some.mp hstep
  replace hw := WireNode.step_of_eq_some hw
  -- Below the service nothing happens, or one node takes one step.
  have hnodes : net.nodes = WireNetwork.nodes (Function.update net i w) ∨
      ∃ ev, S.step net.nodes (i, ev) = some (WireNetwork.nodes (Function.update net i w)) := by
    rw [nodes_update]
    exact (h.nodes_step hw).imp Eq.symm id
  have hle : ∀ j, (net.nodes j).knowledge ≤
      (WireNetwork.nodes (Function.update net i w) j).knowledge := by
    intro j
    rcases hnodes with heq | ⟨ev, hev⟩
    · rw [← heq]
      exact Knowledge.le_refl _
    · exact knowledge_le_of_step hev j
  refine ⟨?_, ?_, ?_⟩
  · rcases hnodes with heq | ⟨ev, hev⟩
    · rw [← heq]
      exact h.nodes
    · exact h.nodes.tail hev
  · intro j
    by_cases hij : j = i
    · subst hij
      rw [Function.update_self]
      exact (h.joined j).step hw
    · rw [Function.update_of_ne hij]
      exact h.joined j
  · -- What waits was authentic when it came, and stays so.
    intro j m hm
    suffices hauth : S.Authentic net.nodes m.broadcast from fun e he => (hauth e he).mono hle
    by_cases hij : j = i
    · subst hij
      rw [Function.update_self] at hm
      rcases hw.mem_consensusRx hm with hm | ⟨r, rfl, hr⟩
      · exact h.authentic j m hm
      · exact hallows m hr
    · rw [Function.update_of_ne hij] at hm
      exact h.authentic j m hm

theorem wired_of_reachable (h : Reachable (S.wireStep proxy) (S.wireInit heights) net) :
    Wired S heights net :=
  h.invariant (fun _ _ _ hwired hstep => hwired.step hstep) wired_init

/-- **The gossip network refines the network of validators.**  Over every run, whatever bytes gossip
hands to whom and however the channels are scheduled, the engines make a run of `S.step`; a handler
receives exactly what was taken from its channel, in that order; and what a service is asked to
broadcast is what its engine has broadcast, in that order and nothing twice. -/
theorem wire_refines (h : Reachable (S.wireStep proxy) (S.wireInit heights) net) :
    Reachable S.step (S.init heights) net.nodes ∧ ∀ i,
      (net i).node.received =
        ((net i).service.received.map IBFTReceivedMessage.broadcast).reverse ∧
      (net i).service.broadcasts.Sublist (net i).node.outgoing := by
  have hwired := wired_of_reachable h
  exact ⟨hwired.nodes, fun i => ⟨(hwired.joined i).received, (hwired.joined i).broadcasts⟩⟩

/-! ## Delivery -/

/-- Where the event is the arrival of a message or a block, its channel has room. -/
def WireHasRoom (proxy : P2PServiceProxy TopicHash) (net : WireNetwork ι TopicHash)
    (e : ι × WireEvent TopicHash) : Prop :=
  ∀ pe, e.2 = .service pe → P2PService.HasRoom proxy (net e.1).service pe

/-- The service of a node makes a run of its own, with room where the network has it. -/
theorem service_reachable
    (h : ReachableWithin (S.wireStep proxy) (WireHasRoom proxy) (S.wireInit heights) net) (i : ι) :
    ReachableWithin (P2PService.step proxy) (P2PService.HasRoom proxy) .build (net i).service := by
  induction h with
  | refl => exact .refl
  | @tail net net' e h hroom hstep ih =>
    obtain ⟨j, e⟩ := e
    obtain ⟨-, w, hw, rfl⟩ := wireStep_eq_some.mp hstep
    by_cases hij : i = j
    · subst hij
      rw [Function.update_self]
      rcases (WireNode.step_of_eq_some hw).service_step with heq | ⟨pe, hpe, rfl | rfl⟩
      · rw [heq]
        exact ih
      · have hroom' : P2PService.HasRoom proxy (net i).service .recvConsensus := trivial
        exact ih.tail hroom' hpe
      · exact ih.tail (hroom pe rfl) hpe
    · rw [Function.update_of_ne hij]
      exact ih

/-- Nothing that one node has broadcast is still on its way to another: it was queued and handed to
gossip, what gossip accepted of it has arrived, and the handler has taken it. -/
structure CaughtUp (net : WireNetwork ι TopicHash) (i j : ι) : Prop where
  queued : (net i).node.outgoing ⊆ (net i).service.broadcasts
  published : (net i).service.requestReceiver.items = []
  arrived : (net i).service.accepted ⊆ (net j).service.arrived
  drained : (net j).service.consensusRx.items = []

/-- **Delivery.**  If no message arrives at a full channel, then a message that a node has
broadcast, once nothing is on its way any more, has been received by the engine of the other node,
or gossip has refused its request: encoding, queues, topics and decoding lose and alter none. -/
theorem wire_delivers (hsep : proxy.topics.Separated)
    (h : ReachableWithin (S.wireStep proxy) (WireHasRoom proxy) (S.wireInit heights) net) {i j : ι}
    (hcaught : CaughtUp net i j) {m : IBFTMessage}
    (hsent : .broadcast m ∈ (net.nodes i).history) :
    m ∈ (net.nodes j).received ∨ ∃ r, proxy.request (.message m) = .ok r ∧
      r ∈ (net i).service.published ∧ r ∉ (net i).service.accepted := by
  have hsender := P2PService.inv_of_reachable (service_reachable h i).reachable
  have hlossless := P2PService.lossless_of_reachableWithin (service_reachable h j)
  have hjoined := (wired_of_reachable h.reachable).joined j
  -- The request of the message was handed to gossip.
  obtain ⟨r, hr, hrequest⟩ : ∃ r ∈ (net i).service.published,
      proxy.request (.message m) = .ok r := by
    have hmem : proxy.request (.message m) ∈ (net i).service.broadcasts.map proxy.request :=
      List.mem_map_of_mem (hcaught.queued (mem_outgoing_message.mpr hsent))
    rw [hsender.requests, hcaught.published, List.append_nil] at hmem
    obtain ⟨r, hr, heq⟩ := List.mem_map.mp hmem
    exact ⟨r, hr, heq.symm⟩
  by_cases haccepted : r ∈ (net i).service.accepted
  · left
    -- What arrived was decoded and taken.
    have htaken : m.received ∈ (net j).service.received := by
      have hall := hlossless.consensus
      rw [BoundedQueue.CarriesAll, hcaught.drained, List.append_nil] at hall
      rw [hall, List.mem_filterMap]
      exact ⟨r, hcaught.arrived haccepted, P2PServiceProxy.message?_of_request hsep hrequest⟩
    have hreceived : (net.nodes j).received =
        ((net j).service.received.map IBFTReceivedMessage.broadcast).reverse := hjoined.received
    rw [hreceived, List.mem_reverse]
    exact List.mem_map.mpr ⟨_, htaken, IBFTMessage.broadcast_received m⟩
  · exact Or.inr ⟨r, hrequest, hr, haccepted⟩

/-! ## Two validators -/

/-- A broadcast of one node goes all the way to the handler of another. -/
def carry {ι TopicHash : Type} (proxy : P2PServiceProxy TopicHash) (i j : ι) (m : IBFTMessage) :
    List (ι × WireEvent TopicHash) :=
  match proxy.request (.message m) with
  | .error _ => []
  | .ok r =>
    [(i, .service (.broadcast (.message m))), (i, .service (.request (.ok ()))),
      (j, .service (.gossip r)), (j, .receive)]

/-- The events of two nodes, with what one receives carried from the other. -/
def overWire : Fin 2 × Event → List (Fin 2 × WireEvent String)
  | (i, .receive m) => carry plainProxy i.rev i m
  | (i, ev) => [(i, .engine ev)]

/-- Both validators commit to the block, with all messages carried by gossip. -/
def wireEvents : List (Fin 2 × WireEvent String) := (duoEvents.take 23).flatMap overWire

instance (net : WireNetwork (Fin 2) String) (e : Fin 2 × WireEvent String) :
    Decidable (WireHasRoom plainProxy net e) :=
  match h : e.2 with
  | .engine _ | .receive => isTrue (by
      intro pe hpe
      rw [h] at hpe
      cases hpe)
  | .service pe => decidable_of_iff (P2PService.HasRoom plainProxy (net e.1).service pe) (by
      constructor
      · intro hroom pe' hpe
        rw [h] at hpe
        cases hpe
        exact hroom
      · intro hall
        exact hall pe h)

def wireNetwork : WireNetwork (Fin 2) String :=
  (exec (duoDeployment.wireStep plainProxy) (duoDeployment.wireInit fun _ => 0) wireEvents).get
    (by decide +kernel)

theorem wireNetwork_reachable :
    ReachableWithin (duoDeployment.wireStep plainProxy) (WireHasRoom plainProxy)
      (duoDeployment.wireInit fun _ => 0) wireNetwork :=
  reachableWithin_get (by decide +kernel) _

theorem wire_refines_duo :
    Reachable duoDeployment.step (duoDeployment.init fun _ => 0) wireNetwork.nodes ∧ ∀ i,
      (wireNetwork i).node.received =
        ((wireNetwork i).service.received.map IBFTReceivedMessage.broadcast).reverse ∧
      (wireNetwork i).service.broadcasts.Sublist (wireNetwork i).node.outgoing :=
  wire_refines wireNetwork_reachable.reachable

/-- Gossip has accepted all that the second validator handed to it, so its commit came through. -/
theorem wire_delivers_duo :
    (wireNetwork 1).service.accepted = (wireNetwork 1).service.published ∧
      (.commit (duoCommit 1) ∈ (wireNetwork.nodes 0).received ∨
        ∃ r, plainProxy.request (.message (.commit (duoCommit 1))) = .ok r ∧
          r ∈ (wireNetwork 1).service.published ∧ r ∉ (wireNetwork 1).service.accepted) := by
  have hsep : plainProxy.topics.Separated := by decide +kernel
  have hcaught : CaughtUp wireNetwork 1 0 := by
    exact ⟨by decide +kernel, by decide +kernel, by decide +kernel, by decide +kernel⟩
  exact ⟨by decide +kernel, wire_delivers hsep wireNetwork_reachable hcaught (by decide +kernel)⟩

end Deployment

end Tonic
