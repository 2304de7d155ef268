/-
# Messages from a peer

`read_cb` of `net.c` : what arrives from a peer is appended to the receive buffer of its node, and
every complete message in it is checked and handed on. The flags of a node are modelled with what
`dogecoin_node_misbehave` and `dogecoin_node_disconnect` make of them; everything else of a node,
and what its callbacks reach, is one parameter.

* `connected_nodeMisbehave` : a node that misbehaved is not connected any more;
* `messages` : the messages of a stream from a state of the node on;
* `readCb_feeds` : one call of `read_cb` takes messages off the front of the stream;
* `readCb_chunks` : the messages do not depend on how the stream arrives.
-/
import Mathlib.Data.Finset.Insert
import Libdogecoin.ChunkedReader
import Libdogecoin.Serialize

namespace Libdogecoin

open ChunkedReader

/-! ## Nodes -/

/-- `enum NODE_STATE`, whose values are combined as bits. -/
inductive NodeState where
  | connecting
  | connected
  | errored
  | timeout
  | headersync
  | blocksync
  | missbehaved
  | disconnected
  | disconnectedFromRemotePeer
  deriving DecidableEq

/-- `dogecoin_node` : its state, and the rest of it with what its callbacks reach. -/
structure PeerNode (σ : Type) where
  state : Finset NodeState
  rest : σ

/-- `dogecoin_p2p_msg_hdr`. -/
structure MsgHdr where
  netmagic : Bytes
  command : Bytes
  dataLen : UInt32
  hash : Bytes
  deriving DecidableEq

/-- What is called for a node. The callbacks for a changed connection do not take back that a node
misbehaved. -/
structure NodeGroup (σ : Type) where
  /-- `dogecoin_node_parse_message`. -/
  parseMessage : PeerNode σ → MsgHdr → Bytes → PeerNode σ
  /-- `node_connection_state_changed_cb`. -/
  connectionStateChangedCb : PeerNode σ → PeerNode σ
  /-- `should_connect_to_more_nodes_cb` and `dogecoin_node_group_connect_next_nodes`. -/
  connectMore : PeerNode σ → PeerNode σ
  /-- `dogecoin_node_send_version`, where there is an event buffer. -/
  sendVersion : PeerNode σ → PeerNode σ
  /-- `dogecoin_node_release_events`. -/
  releaseEvents : σ → σ
  cb_missbehaved : ∀ node : PeerNode σ, .missbehaved ∈ node.state →
    .missbehaved ∈ (connectionStateChangedCb node).state
  more_missbehaved : ∀ node : PeerNode σ, .missbehaved ∈ node.state →
    .missbehaved ∈ (connectMore node).state

variable {σ : Type}

/-- `dogecoin_node_disconnect`. -/
def nodeDisconnect (g : NodeGroup σ) (node : PeerNode σ) : PeerNode σ where
  state := insert .disconnected ((node.state.erase .connecting).erase .connected)
  rest := g.releaseEvents node.rest

/-- `dogecoin_node_connection_state_changed`. -/
def nodeConnectionStateChanged (g : NodeGroup σ) (node : PeerNode σ) : PeerNode σ :=
  let node := g.connectionStateChangedCb node
  let node :=
    if .errored ∈ node.state then g.connectMore { node with rest := g.releaseEvents node.rest }
    else node
  if .missbehaved ∈ node.state then
    if .connected ∈ node.state ∨ .connecting ∈ node.state then nodeDisconnect g node else node
  else if .connected ∈ node.state then g.sendVersion node
  else node

/-- `dogecoin_node_misbehave`. -/
def nodeMisbehave (g : NodeGroup σ) (node : PeerNode σ) : PeerNode σ :=
  nodeConnectionStateChanged g { node with state := insert .missbehaved node.state }

/-- **A node that misbehaved is not connected.** -/
theorem connected_nodeMisbehave (g : NodeGroup σ) (node : PeerNode σ) :
    .connected ∉ (nodeMisbehave g node).state := by
  have hcb : .missbehaved ∈
      (g.connectionStateChangedCb { node with state := insert .missbehaved node.state }).state :=
    g.cb_missbehaved _ (Finset.mem_insert_self _ _)
  unfold nodeMisbehave nodeConnectionStateChanged
  dsimp only
  generalize g.connectionStateChangedCb _ = changed at hcb ⊢
  generalize hmore : (if .errored ∈ changed.state then
    g.connectMore { changed with rest := g.releaseEvents changed.rest } else changed) = more
  have hmiss : .missbehaved ∈ more.state := by
    rw [← hmore]
    split
    · exact g.more_missbehaved _ hcb
    · exact hcb
  rw [if_pos hmiss]
  split
  · show _ ∉ insert NodeState.disconnected ((more.state.erase .connecting).erase .connected)
    simp
  · next hnot => exact fun h => hnot (Or.inl h)

/-! ## The receive buffer -/

/-- `DOGECOIN_P2P_HDRSZ`. -/
def p2pHdrsz : ℕ := 24

/-- `DOGECOIN_MAX_P2P_MSG_SIZE`. -/
def maxP2pMsgSize : UInt32 := 0x003D0900

/-- `dogecoin_p2p_deser_msghdr`. -/
def p2pDeserMsghdr (buf : Bytes) : Option (MsgHdr × Bytes) := do
  let (netmagic, rest) ← deserBytes 4 buf
  let (command, rest) ← deserBytes 12 rest
  let (dataLen, rest) ← deserU32 rest
  let (hash, rest) ← deserBytes 4 rest
  some ({ netmagic := netmagic, command := command, dataLen := dataLen, hash := hash }, rest)

/-- What is written for a header. -/
def p2pSerMsghdr (hdr : MsgHdr) : Bytes :=
  hdr.netmagic ++ (hdr.command ++ (serU32 hdr.dataLen ++ hdr.hash))

variable {rest : Bytes} {hdr : MsgHdr}

/-- A header is the 24 bytes at the front. -/
theorem p2pDeserMsghdr_eq_some {buf : Bytes} (h : p2pDeserMsghdr buf = some (hdr, rest)) :
    (p2pSerMsghdr hdr).length = 24 ∧ buf = p2pSerMsghdr hdr ++ rest ∧
      ∀ next, p2pDeserMsghdr (p2pSerMsghdr hdr ++ next) = some (hdr, next) := by
  unfold p2pDeserMsghdr at h
  simp only [Option.bind_eq_bind, Option.bind_eq_some_iff] at h
  obtain ⟨⟨netmagic, rest1⟩, hmagic, ⟨command, rest2⟩, hcommand, ⟨dataLen, rest3⟩, hlen,
    ⟨hash, rest4⟩, hhash, h⟩ := h
  cases h
  obtain ⟨hmagicLen, rfl⟩ := deserBytes_eq_some hmagic
  obtain ⟨hcommandLen, rfl⟩ := deserBytes_eq_some hcommand
  obtain ⟨hhashLen, rfl⟩ := deserBytes_eq_some hhash
  have hrest := deserU32_eq_append hlen
  dsimp only at hrest hmagicLen hcommandLen hhashLen
  refine ⟨?_, ?_, ?_⟩
  · simp [p2pSerMsghdr, hmagicLen, hcommandLen, hhashLen]
  · simp only [p2pSerMsghdr, hrest, List.append_assoc]
  · intro next
    unfold p2pDeserMsghdr p2pSerMsghdr
    simp only [List.append_assoc, deserBytes_append_of_length hmagicLen,
      deserBytes_append_of_length hcommandLen, deserBytes_append_of_length hhashLen,
        deserU32_serU32,
      Option.bind_eq_bind, Option.bind_some]

theorem length_p2pDeserMsghdr {buf : Bytes} (h : p2pDeserMsghdr buf = some (hdr, rest)) :
    rest.length + 24 = buf.length := by
  obtain ⟨hlen, hbuf, -⟩ := p2pDeserMsghdr_eq_some h
  rw [hbuf, List.length_append, hlen, Nat.add_comm]

/-- A header that was read is read in front of more bytes. -/
theorem p2pDeserMsghdr_append {buf : Bytes} (h : p2pDeserMsghdr buf = some (hdr, rest))
    (next : Bytes) :
    p2pDeserMsghdr (buf ++ next) = some (hdr, rest ++ next) := by
  obtain ⟨-, hbuf, hread⟩ := p2pDeserMsghdr_eq_some h
  rw [hbuf, List.append_assoc, hread]

theorem p2pDeserMsghdr_isSome {buf : Bytes} (h : p2pHdrsz ≤ buf.length) :
    ∃ hdr rest, p2pDeserMsghdr buf = some (hdr, rest) := by
  rw [p2pHdrsz] at h
  have hread : ∀ (n : ℕ) (bs : Bytes), n ≤ bs.length →
    deserBytes n bs = some (bs.take n, bs.drop n) :=
    fun n bs hle => if_neg (Nat.not_lt.mpr hle)
  have h1 := hread 4 buf (by omega)
  have h2 := hread 12 (buf.drop 4) (by rw [List.length_drop]; omega)
  have h3 := hread 4 ((buf.drop 4).drop 12) (by simp only [List.length_drop]; omega)
  have h4 := hread 4 (((buf.drop 4).drop 12).drop 4) (by simp only [List.length_drop]; omega)
  unfold p2pDeserMsghdr deserU32
  simp only [h1, h2, h3, h4, Option.bind_eq_bind, Option.bind_some, Option.map_some]
  exact ⟨_, _, rfl⟩

/-- The end of `read_cb` : what was read is cut off the receive buffer. The position `read_upto` is
given by the bytes behind it. -/
def cutRecvBuffer (recvBuffer : Bytes) (readUpto : Option Bytes) : Bytes :=
  match readUpto with
  | some rest => if recvBuffer.length ≠ 0 ∧ rest.length ≠ 0 then rest else recvBuffer
  | none => recvBuffer

/-- The loop of `read_cb` over the bytes `buf` at the end of the receive buffer, with the messages
that it hands on. -/
def readLoop (pf : Platform) (g : NodeGroup σ) (recvBuffer : Bytes)
    (node : PeerNode σ) (buf : Bytes) (readUpto : Option Bytes) :
    Reader (PeerNode σ) UInt8 × List (MsgHdr × Bytes) :=
  if buf.length < p2pHdrsz then (⟨node, cutRecvBuffer recvBuffer readUpto⟩, [])
  else
    match _h : p2pDeserMsghdr buf with
    | none => (⟨node, recvBuffer⟩, [])
    | some (hdr, rest) =>
      if hdr.dataLen > maxP2pMsgSize then (⟨nodeMisbehave g node, recvBuffer⟩, [])
      else if rest.length < hdr.dataLen.toNat then (⟨node, cutRecvBuffer recvBuffer readUpto⟩, [])
      else
        let cmdDataBuf := rest.take hdr.dataLen.toNat
        if .connected ∉ node.state then (⟨node, recvBuffer⟩, [])
        else if (pf.sha256d cmdDataBuf).1.take 4 ≠ hdr.hash then
          (⟨nodeMisbehave g node, recvBuffer⟩, [])
        else
          let node := g.parseMessage node hdr cmdDataBuf
          let buf' := rest.drop hdr.dataLen.toNat
          if buf'.length = 0 then (⟨node, cutRecvBuffer [] (some buf')⟩, [(hdr, cmdDataBuf)])
          else
            let (reader, delivered) := readLoop pf g recvBuffer node buf' (some buf')
            (reader, (hdr, cmdDataBuf) :: delivered)
  termination_by buf.length
  decreasing_by
    have := length_p2pDeserMsghdr _h
    rw [List.length_drop]
    omega

/-- `read_cb` on the bytes that have arrived, with the messages that it hands on. -/
def readCb (pf : Platform) (g : NodeGroup σ) (r : Reader (PeerNode σ) UInt8) (input : Bytes) :
    Reader (PeerNode σ) UInt8 × List (MsgHdr × Bytes) :=
  if .connected ∉ r.state.state then (r, [])
  else readLoop pf g (r.kept ++ input) r.state (r.kept ++ input) none

/-! ## The messages of a stream -/

/-- What stands at the front of a stream. -/
inductive NextMessage where
  | incomplete
  | bad
  | message (hdr : MsgHdr) (payload rest : Bytes)

/-- A message is a header and as many bytes as it says, if they are not too many and have the
checksum in the header. -/
def nextMessage (pf : Platform) (stream : Bytes) : NextMessage :=
  match p2pDeserMsghdr stream with
  | none => .incomplete
  | some (hdr, rest) =>
    if hdr.dataLen > maxP2pMsgSize then .bad
    else if rest.length < hdr.dataLen.toNat then .incomplete
    else if (pf.sha256d (rest.take hdr.dataLen.toNat)).1.take 4 ≠ hdr.hash then .bad
    else .message hdr (rest.take hdr.dataLen.toNat) (rest.drop hdr.dataLen.toNat)

/-- A message is its header and its payload. -/
theorem nextMessage_eq_message {pf : Platform} {stream payload : Bytes}
    (h : nextMessage pf stream = .message hdr payload rest) :
    stream = p2pSerMsghdr hdr ++ payload ++ rest ∧ (p2pSerMsghdr hdr).length = 24 ∧
      payload.length = hdr.dataLen.toNat ∧ hdr.dataLen ≤ maxP2pMsgSize ∧
      (pf.sha256d payload).1.take 4 = hdr.hash := by
  unfold nextMessage at h
  split at h
  · cases h
  · next hdr' after hread =>
      obtain ⟨hlen, hstream, -⟩ := p2pDeserMsghdr_eq_some hread
      split at h
      · cases h
      · next hsize =>
          split at h
          · cases h
          · next hcomplete =>
              split at h
              · cases h
              · next hsum =>
                  cases h
                  refine ⟨?_, hlen, ?_, UInt32.not_lt.mp hsize, not_not.mp hsum⟩
                  · rw [List.append_assoc, List.take_append_drop, ← hstream]
                  · rw [List.length_take]
                    omega

/-- The same with more bytes behind it. -/
def NextMessage.before (m : NextMessage) (next : Bytes) : NextMessage :=
  match m with
  | .incomplete => .incomplete
  | .bad => .bad
  | .message hdr payload rest => .message hdr payload (rest ++ next)

/-- A message, or something bad, at the front of a stream stays there when more arrives. -/
theorem nextMessage_append {pf : Platform} {stream : Bytes}
    (h : nextMessage pf stream ≠ .incomplete) (next : Bytes) : nextMessage pf (stream ++ next) =
    (nextMessage pf stream).before next := by
  unfold nextMessage at h ⊢
  cases hread : p2pDeserMsghdr stream with
  | none =>
    rw [hread] at h
    exact absurd rfl h
  | some parsed =>
    obtain ⟨hdr, rest⟩ := parsed
    rw [hread] at h
    rw [p2pDeserMsghdr_append hread next]
    dsimp only at h ⊢
    by_cases hsize : hdr.dataLen > maxP2pMsgSize
    · rw [if_pos hsize, if_pos hsize]
      rfl
    · rw [if_neg hsize] at h
      rw [if_neg hsize, if_neg hsize]
      by_cases hshort : rest.length < hdr.dataLen.toNat
      · rw [if_pos hshort] at h
        exact absurd rfl h
      · have hle : hdr.dataLen.toNat ≤ rest.length := Nat.le_of_not_lt hshort
        have hlong : ¬ (rest ++ next).length < hdr.dataLen.toNat := by
          rw [List.length_append]
          omega
        rw [if_neg hshort, if_neg hlong, List.take_append_of_le_length hle,
          List.drop_append_of_le_length hle]
        split
        · rfl
        · rfl

theorem length_rest_lt {pf : Platform} {stream payload : Bytes}
    (h : nextMessage pf stream = .message hdr payload rest) : rest.length < stream.length := by
  obtain ⟨hstream, hlen, -⟩ := nextMessage_eq_message h
  rw [hstream, List.length_append, List.length_append, hlen]
  omega

/-- **The messages of a stream** from a state of the node on: each is the next header and its
payload, up to the first that is incomplete or bad, or until the node is not connected. -/
def messages (pf : Platform) (g : NodeGroup σ) (node : PeerNode σ) (stream : Bytes) :
    List (MsgHdr × Bytes) :=
  if .connected ∉ node.state then []
  else
    match _h : nextMessage pf stream with
    | .incomplete => []
    | .bad => []
    | .message hdr payload rest =>
      (hdr, payload) :: messages pf g (g.parseMessage node hdr payload) rest
  termination_by stream.length
  decreasing_by exact length_rest_lt _h

section

variable {pf : Platform} {g : NodeGroup σ} {node : PeerNode σ} {stream : Bytes}

theorem messages_of_not_connected (h : .connected ∉ node.state) :
    messages pf g node stream = [] := by
  rw [messages, if_pos h]

theorem messages_of_not_message
    (h : ∀ hdr payload rest, nextMessage pf stream ≠ .message hdr payload rest) :
    messages pf g node stream = [] := by
  rw [messages]
  split
  · rfl
  · split
    · rfl
    · rfl
    · next hdr payload rest hnext => exact absurd hnext (h hdr payload rest)

theorem messages_of_message (hconn : .connected ∈ node.state) {hdr : MsgHdr} {payload rest : Bytes}
    (h : nextMessage pf stream = .message hdr payload rest) :
    messages pf g node stream = (hdr, payload) ::
      messages pf g (g.parseMessage node hdr payload) rest := by
  rw [messages, if_neg (not_not.mpr hconn)]
  split
  · next hnext => rw [h] at hnext; cases hnext
  · next hnext => rw [h] at hnext; cases hnext
  · next hdr' payload' rest' hnext =>
      rw [h] at hnext
      cases hnext
      rfl

end

/-! ## The loop -/

section

variable {pf : Platform} {g : NodeGroup σ} {recvBuffer buf : Bytes} {node : PeerNode σ}
  {readUpto : Option Bytes}

/-- What the loop does with a header and what stands behind it. -/
theorem readLoop_of_header {hdr : MsgHdr} {rest : Bytes}
    (h : p2pDeserMsghdr buf = some (hdr, rest)) :
    readLoop pf g recvBuffer node buf readUpto =
      if hdr.dataLen > maxP2pMsgSize then (⟨nodeMisbehave g node, recvBuffer⟩, [])
      else if rest.length < hdr.dataLen.toNat then (⟨node, cutRecvBuffer recvBuffer readUpto⟩, [])
      else if .connected ∉ node.state then (⟨node, recvBuffer⟩, [])
      else if (pf.sha256d (rest.take hdr.dataLen.toNat)).1.take 4 ≠ hdr.hash then
        (⟨nodeMisbehave g node, recvBuffer⟩, [])
      else if (rest.drop hdr.dataLen.toNat).length = 0 then
        (⟨g.parseMessage node hdr (rest.take hdr.dataLen.toNat),
          cutRecvBuffer [] (some (rest.drop hdr.dataLen.toNat))⟩,
            [(hdr, rest.take hdr.dataLen.toNat)])
      else
        ((readLoop pf g recvBuffer (g.parseMessage node hdr (rest.take hdr.dataLen.toNat))
            (rest.drop hdr.dataLen.toNat) (some (rest.drop hdr.dataLen.toNat))).1,
          (hdr, rest.take hdr.dataLen.toNat) ::
            (readLoop pf g recvBuffer (g.parseMessage node hdr (rest.take hdr.dataLen.toNat))
              (rest.drop hdr.dataLen.toNat) (some (rest.drop hdr.dataLen.toNat))).2) := by
  have hlen := length_p2pDeserMsghdr h
  rw [readLoop, if_neg (by rw [p2pHdrsz]; omega)]
  split
  · next hnone =>
      rw [h] at hnone
      cases hnone
  · next hdr' rest' hsome =>
      rw [h] at hsome
      cases hsome
      rfl

theorem readLoop_of_incomplete (h : nextMessage pf buf = .incomplete) :
    readLoop pf g recvBuffer node buf readUpto =
      (⟨node, cutRecvBuffer recvBuffer readUpto⟩, []) := by
  by_cases hshort : buf.length < p2pHdrsz
  · rw [readLoop, if_pos hshort]
  · obtain ⟨hdr, rest, hread⟩ := p2pDeserMsghdr_isSome (Nat.le_of_not_lt hshort)
    unfold nextMessage at h
    rw [hread] at h
    dsimp only at h
    rw [readLoop_of_header hread]
    split at h
    · cases h
    · next hsize =>
        rw [if_neg hsize]
        split at h
        · next hrest => rw [if_pos hrest]
        · split at h
          · cases h
          · cases h

/-- At something bad the loop returns, and the node is not connected. -/
theorem readLoop_of_bad (h : nextMessage pf buf = .bad) :
    ∃ node' : PeerNode σ, .connected ∉ node'.state ∧
      readLoop pf g recvBuffer node buf readUpto = (⟨node', recvBuffer⟩, []) := by
  unfold nextMessage at h
  split at h
  · cases h
  · next hdr rest hread =>
      rw [readLoop_of_header hread]
      split at h
      · next hsize => exact ⟨_, connected_nodeMisbehave g node, if_pos hsize⟩
      · next hsize =>
          rw [if_neg hsize]
          split at h
          · cases h
          · next hrest =>
              rw [if_neg hrest]
              split at h
              · next hsum =>
                  by_cases hconn : .connected ∉ node.state
                  · exact ⟨node, hconn, if_pos hconn⟩
                  · rw [if_neg hconn, if_pos hsum]
                    exact ⟨_, connected_nodeMisbehave g node, rfl⟩
              · cases h

/-- A message is handed on if the node is connected. -/
theorem readLoop_of_message {hdr : MsgHdr} {payload rest : Bytes}
    (h : nextMessage pf buf = .message hdr payload rest) :
    readLoop pf g recvBuffer node buf readUpto =
      if .connected ∉ node.state then (⟨node, recvBuffer⟩, [])
      else if rest.length = 0 then
        (⟨g.parseMessage node hdr payload, cutRecvBuffer [] (some rest)⟩, [(hdr, payload)])
      else
        ((readLoop pf g recvBuffer (g.parseMessage node hdr payload) rest (some rest)).1,
          (hdr, payload) ::
            (readLoop pf g recvBuffer (g.parseMessage node hdr payload) rest (some rest)).2) := by
  unfold nextMessage at h
  split at h
  · cases h
  · next hdr' rest' hread =>
      rw [readLoop_of_header hread]
      split at h
      · cases h
      · next hsize =>
          rw [if_neg hsize]
          split at h
          · cases h
          · next hrest =>
              rw [if_neg hrest]
              split at h
              · cases h
              · next hsum =>
                  cases h
                  rw [if_neg hsum]

/-- **The loop takes messages off the front of the stream,** and stops where the next is incomplete
or the node is not connected. The bytes of the loop are those that would be kept. -/
theorem readLoop_spec (hkept : cutRecvBuffer recvBuffer readUpto = buf)
    (hle : buf.length ≤ recvBuffer.length) :
    (∀ next, messages pf g node (buf ++ next) =
      (readLoop pf g recvBuffer node buf readUpto).2 ++
        messages pf g (readLoop pf g recvBuffer node buf readUpto).1.state
          ((readLoop pf g recvBuffer node buf readUpto).1.kept ++ next)) ∧
      messages pf g (readLoop pf g recvBuffer node buf readUpto).1.state
        (readLoop pf g recvBuffer node buf readUpto).1.kept = [] := by
  induction hn : buf.length using Nat.strong_induction_on generalizing buf node readUpto with
  | _ n ih =>
    cases hnext : nextMessage pf buf with
    | incomplete =>
      rw [readLoop_of_incomplete hnext, hkept]
      refine ⟨fun next => rfl, messages_of_not_message fun hdr payload rest h => ?_⟩
      rw [hnext] at h
      cases h
    | bad =>
      obtain ⟨node', hconn, hloop⟩ := @readLoop_of_bad σ pf g recvBuffer buf node readUpto hnext
      rw [hloop]
      refine ⟨fun next => ?_, messages_of_not_connected hconn⟩
      have hbad : nextMessage pf (buf ++ next) = .bad := by
        rw [nextMessage_append (by rw [hnext]; exact NextMessage.noConfusion), hnext]
        rfl
      rw [messages_of_not_connected hconn, List.append_nil]
      exact messages_of_not_message fun hdr payload rest h => by rw [hbad] at h; cases h
    | message hdr payload rest =>
      have hlater : ∀ next, nextMessage pf (buf ++ next) = .message hdr payload (rest ++ next) := by
        intro next
        rw [nextMessage_append (by rw [hnext]; exact NextMessage.noConfusion), hnext]
        rfl
      have hlt := length_rest_lt hnext
      rw [readLoop_of_message hnext]
      by_cases hconn : .connected ∉ node.state
      · rw [if_pos hconn]
        refine ⟨fun next => ?_, messages_of_not_connected hconn⟩
        rw [messages_of_not_connected hconn, messages_of_not_connected hconn]
        rfl
      · rw [if_neg hconn]
        have hmessages := fun next => @messages_of_message σ pf g node (buf ++ next)
          (not_not.mp hconn) hdr payload (rest ++ next) (hlater next)
        by_cases hempty : rest.length = 0
        · rw [if_pos hempty]
          obtain rfl := List.length_eq_zero_iff.mp hempty
          refine ⟨fun next => hmessages next, messages_of_not_message fun hdr payload rest h => ?_⟩
          obtain ⟨hstream, hlen, -⟩ := nextMessage_eq_message h
          have := congrArg List.length hstream
          simp [cutRecvBuffer, hlen] at this
          omega
        · rw [if_neg hempty]
          have hcut : cutRecvBuffer recvBuffer (some rest) = rest := by
            unfold cutRecvBuffer
            dsimp only
            rw [if_pos ⟨by omega, hempty⟩]
          obtain ⟨hitems, hsettled⟩ := @ih rest.length (by omega) rest
            (g.parseMessage node hdr payload) (some rest) hcut (by omega) rfl
          refine ⟨fun next => ?_, hsettled⟩
          rw [hmessages next, hitems next]
          rfl

end

/-- **One call of `read_cb`** takes messages off the front of the stream, and leaves none
complete. -/
theorem readCb_feeds (pf : Platform) (g : NodeGroup σ) : Feeds (messages pf g) (readCb pf g) := by
  have hspec : ∀ (r : Reader (PeerNode σ) UInt8) (chunk : Bytes),
      (∀ next, messages pf g r.state (r.kept ++ chunk ++ next) =
        (readCb pf g r chunk).2 ++ messages pf g (readCb pf g r chunk).1.state
          ((readCb pf g r chunk).1.kept ++ next)) ∧
        messages pf g (readCb pf g r chunk).1.state (readCb pf g r chunk).1.kept = [] := by
    intro r chunk
    unfold readCb
    split
    · next hconn =>
        refine ⟨fun next => ?_, messages_of_not_connected hconn⟩
        rw [messages_of_not_connected hconn, messages_of_not_connected hconn]
        rfl
    · exact readLoop_spec rfl (le_refl _)
  exact ⟨fun r chunk next => (hspec r chunk).1 next, fun r chunk => (hspec r chunk).2⟩

/-- The messages stand one behind the other at the front of the stream, each payload with its length
and its checksum. -/
theorem messages_prefix (pf : Platform) (g : NodeGroup σ) (node : PeerNode σ) (stream : Bytes) :
    (messages pf g node stream).flatMap (fun m => p2pSerMsghdr m.1 ++ m.2) <+: stream ∧
      ∀ m ∈ messages pf g node stream, m.2.length = m.1.dataLen.toNat ∧
        m.1.dataLen ≤ maxP2pMsgSize ∧ (pf.sha256d m.2).1.take 4 = m.1.hash := by
  induction hn : stream.length using Nat.strong_induction_on generalizing stream node with
  | _ n ih =>
    by_cases hconn : .connected ∈ node.state
    · cases hnext : nextMessage pf stream with
      | incomplete =>
        rw [messages_of_not_message (by rw [hnext]; exact fun _ _ _ => NextMessage.noConfusion)]
        exact ⟨List.nil_prefix, List.forall_mem_nil _⟩
      | bad =>
        rw [messages_of_not_message (by rw [hnext]; exact fun _ _ _ => NextMessage.noConfusion)]
        exact ⟨List.nil_prefix, List.forall_mem_nil _⟩
      | message hdr payload rest =>
        have hlt := length_rest_lt hnext
        obtain ⟨hstream, -, hlen, hsize, hsum⟩ := nextMessage_eq_message hnext
        obtain ⟨hstart, hall⟩ := ih rest.length (by omega)
          (g.parseMessage node hdr payload) rest rfl
        rw [messages_of_message hconn hnext, List.flatMap_cons]
        refine ⟨?_, List.forall_mem_cons.mpr ⟨⟨hlen, hsize, hsum⟩, hall⟩⟩
        rw [hstream]
        exact (List.prefix_append_right_inj _).mpr hstart
    · rw [messages_of_not_connected hconn]
      exact ⟨List.nil_prefix, List.forall_mem_nil _⟩

/-- **The messages do not depend on how the stream arrives.** Cut into chunks in any two ways, a
stream from a peer is handed on as the same messages: those of the stream, each the next header and
the bytes of its payload, in order, up to the first that is bad or until the node is not
connected. -/
theorem readCb_chunks (pf : Platform) (g : NodeGroup σ) (node : PeerNode σ)
    {chunks chunks' : List Bytes} (hflat : chunks.flatten = chunks'.flatten) :
    (run (readCb pf g) ⟨node, []⟩ chunks).2 = (run (readCb pf g) ⟨node, []⟩ chunks').2 ∧
      (run (readCb pf g) ⟨node, []⟩ chunks).2 = messages pf g node chunks.flatten ∧
      (run (readCb pf g) ⟨node, []⟩ chunks).2.flatMap (fun m => p2pSerMsghdr m.1 ++ m.2) <+:
        chunks.flatten ∧
      ∀ m ∈ (run (readCb pf g) ⟨node, []⟩ chunks).2, m.2.length = m.1.dataLen.toNat := by
  have hempty : messages pf g node [] = [] := by
    apply messages_of_not_message
    intro hdr payload rest h
    exact absurd (length_rest_lt h) (Nat.not_lt_zero _)
  have hitems : (run (readCb pf g) ⟨node, []⟩ chunks).2 = messages pf g node chunks.flatten :=
    (readCb_feeds pf g).items_run chunks hempty
  obtain ⟨hstart, hall⟩ := messages_prefix pf g node chunks.flatten
  refine ⟨(readCb_feeds pf g).items_eq hflat hempty, hitems, ?_, ?_⟩
  · rw [hitems]
    exact hstart
  · rw [hitems]
    exact fun m hm => (hall m hm).1

/-- A group that only keeps the nodes as they are. -/
def idleGroup : NodeGroup Unit where
  parseMessage := fun node _ _ => node
  connectionStateChangedCb := id
  connectMore := id
  sendVersion := id
  releaseEvents := id
  cb_missbehaved := fun _ h => h
  more_missbehaved := fun _ h => h

/-- A hash that is always zero. -/
def zeroPlatform : Platform where
  sha256Raw := fun _ => Uint256.zero
  scrypt := fun _ => Uint256.zero
  pastEnd := fun _ _ => 0

/-- The header of a message of some length whose payload has the zero checksum. -/
def sampleHdr (dataLen : UInt32) : MsgHdr :=
  ⟨[0xc0, 0xc0, 0xc0, 0xc0], "getheaders".toList.map (fun c => c.toNat.toUInt8) ++ [0, 0],
    dataLen, [0, 0, 0, 0]⟩

/-- A message of three bytes, one of two, and the front of a third one. -/
def sampleStream : Bytes :=
  p2pSerMsghdr (sampleHdr 3) ++ [1, 2, 3] ++ p2pSerMsghdr (sampleHdr 2) ++ [4, 5] ++ [0xc0, 0xc0]

/-- Two messages that are cut inside a header and inside a payload, or arrive at once. -/
theorem readCb_chunks_twoMessages :
    (run (readCb zeroPlatform idleGroup) ⟨⟨{.connected}, ()⟩, []⟩
        [sampleStream.take 10, (sampleStream.drop 10).take 16, sampleStream.drop 26]).2 =
      (run (readCb zeroPlatform idleGroup) ⟨⟨{.connected}, ()⟩, []⟩ [sampleStream]).2 ∧
    (run (readCb zeroPlatform idleGroup) ⟨⟨{.connected}, ()⟩, []⟩ [sampleStream]).2 =
      [(sampleHdr 3, [1, 2, 3]), (sampleHdr 2, [4, 5])] := by
  have hfirst : nextMessage zeroPlatform [sampleStream].flatten = .message (sampleHdr 3) [1, 2, 3]
    (p2pSerMsghdr (sampleHdr 2) ++ [4, 5] ++ [0xc0, 0xc0]) := rfl
  have hsecond : nextMessage zeroPlatform (p2pSerMsghdr (sampleHdr 2) ++ [4, 5] ++ [0xc0, 0xc0]) =
    .message (sampleHdr 2) [4, 5] [0xc0, 0xc0] := rfl
  have hlast : ∀ hdr payload rest, nextMessage zeroPlatform [0xc0, 0xc0] ≠
    .message hdr payload rest := nofun
  have hflat : [sampleStream.take 10, (sampleStream.drop 10).take 16,
    sampleStream.drop 26].flatten =
    [sampleStream].flatten := by decide
  obtain ⟨hsame, hcut, -⟩ := readCb_chunks zeroPlatform idleGroup ⟨{.connected}, ()⟩ hflat
  refine ⟨hsame, ?_⟩
  rw [← hsame, hcut, hflat, messages_of_message (Finset.mem_singleton_self _) hfirst,
    messages_of_message (Finset.mem_singleton_self _) hsecond, messages_of_not_message hlast]

end Libdogecoin
