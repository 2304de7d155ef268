/-
# Version messages

`dogecoin_p2p_msg_version_ser` and `dogecoin_p2p_msg_version_deser` of `protocol.c`. The user agent
has 128 bytes in memory. A peer declares up to 1024, of which the first 128 are copied, and no
terminator is put behind them.

* `terminated_iff` : the buffers whose user agent ends inside its field;
* `versionDeser_versionSer` : what is read of a message that was written;
* `versionMessage_iff` : both together.
-/
import Libdogecoin.SignMessage
import Libdogecoin.TxWire

namespace Libdogecoin

/-- A field of a fixed number of bytes. -/
abbrev ByteField (n : ℕ) := {bs : Bytes // bs.length = n}

/-- `deser_bytes` into a field. -/
def deserField (n : ℕ) (buf : Bytes) : Option (ByteField n × Bytes) :=
  if h : buf.length < n then none
  else some (⟨buf.take n, by rw [List.length_take]; omega⟩, buf.drop n)

/-- `DOGECOIN_ADDR_TIME_VERSION`. -/
def addrTimeVersion : ℕ := 31402

/-- `dogecoin_p2p_address`. -/
structure P2pAddress where
  time : UInt32
  services : UInt64
  ip : ByteField 16
  port : UInt16
  deriving DecidableEq

/-- `dogecoin_p2p_ser_addr`. -/
def p2pSerAddr (protover : ℕ) (addr : P2pAddress) : Bytes :=
  (if addrTimeVersion ≤ protover then serU32 addr.time else []) ++
    (serU64 addr.services ++ (addr.ip.1 ++ serU16 addr.port))

/-- `dogecoin_p2p_deser_addr`. -/
def p2pDeserAddr (protocolVersion : ℕ) (buf : Bytes) : Option (P2pAddress × Bytes) := do
  let (time, buf) ← if addrTimeVersion ≤ protocolVersion then deserU32 buf else some (0, buf)
  let (services, buf) ← deserU64 buf
  let (ip, buf) ← deserField 16 buf
  let (port, buf) ← deserU16 buf
  some (⟨time, services, ip, port⟩, buf)

/-- The fields of `dogecoin_p2p_version_msg` in front of the user agent, with the bit patterns of
the signed ones. -/
structure VersionHead where
  version : UInt32
  services : UInt64
  timestamp : UInt64
  addrRecv : P2pAddress
  addrFrom : P2pAddress
  nonce : UInt64
  deriving DecidableEq

/-- `dogecoin_p2p_version_msg`. -/
structure P2pVersionMsg extends VersionHead where
  useragent : ByteField 128
  startHeight : UInt32
  relay : UInt8
  deriving DecidableEq

namespace VersionMessage

/-- `ser_str` on some memory. -/
def serStr (memory : Bytes) (maxlen : ℕ) : Bytes :=
  let str := cString (memory.take maxlen)
  if 0xffffffff < str.length then serVarlen 0 else serVarlen (UInt32.ofNat str.length) ++ str

/-- What `dogecoin_p2p_msg_version_ser` writes in front of the user agent. -/
def headSer (head : VersionHead) : Bytes :=
  serU32 head.version ++ (serU64 head.services ++
    (serU64 head.timestamp ++ (p2pSerAddr 0 head.addrRecv ++
    (p2pSerAddr 0 head.addrFrom ++ serU64 head.nonce))))

/-- `dogecoin_p2p_msg_version_ser`. `behind` is the memory behind the user agent. -/
def versionSer (msg : P2pVersionMsg) (behind : Bytes) : Bytes :=
  headSer msg.toVersionHead ++ (serStr (msg.useragent.1 ++ behind) 1024 ++
    (serU32 msg.startHeight ++ [msg.relay]))

/-- What `dogecoin_p2p_msg_version_deser` reads in front of the user agent. -/
def headDeser (buf : Bytes) : Option (VersionHead × Bytes) := do
  let (version, buf) ← deserU32 buf
  let (services, buf) ← deserU64 buf
  let (timestamp, buf) ← deserU64 buf
  let (addrRecv, buf) ← p2pDeserAddr 0 buf
  let (addrFrom, buf) ← p2pDeserAddr 0 buf
  let (nonce, buf) ← deserU64 buf
  some (⟨version, services, timestamp, addrRecv, addrFrom, nonce⟩, buf)

/-- The field after `cpy_len` bytes were copied into its zeros. -/
def userAgentField (uaStr : Bytes) : ByteField 128 :=
  ⟨(uaStr ++ List.replicate 128 0).take 128, by
    rw [List.length_take, List.length_append, List.length_replicate]
    exact Nat.min_eq_left (Nat.le_add_left _ _)⟩

/-- `version > 70003` on signed numbers. -/
def hasRelay (version : UInt32) : Bool := 70003 < version.toInt32.toInt

/-- The last field, which stays zero in messages of old versions. -/
def relayDeser (version : UInt32) (buf : Bytes) : Option (UInt8 × Bytes) :=
  if hasRelay version then (deserBytes 1 buf).map fun (relay, rest) => (relay.headD 0, rest)
  else some (0, buf)

/-- `dogecoin_p2p_msg_version_deser`. -/
def versionDeser (buf : Bytes) : Option (P2pVersionMsg × Bytes) := do
  let (head, buf) ← headDeser buf
  let (uaLen, buf) ← deserVarlen buf
  -- up to 1024 bytes are taken from the message, of which 128 are kept
  if 1024 < uaLen.toNat then none
  else do
    let (uaStr, buf) ← deserBytes uaLen.toNat buf
    let (startHeight, buf) ← deserU32 buf
    let (relay, buf) ← relayDeser head.version buf
    some (⟨head, userAgentField uaStr, startHeight, relay⟩, buf)

/-! ## Fields -/

theorem deserField_append {n : ℕ} (field : ByteField n) (rest : Bytes) :
    deserField n (field.1 ++ rest) = some (field, rest) := by
  have hlen := field.2
  unfold deserField
  rw [dif_neg (by rw [List.length_append]; omega)]
  congr 1
  apply Prod.ext
  · exact Subtype.ext (List.take_left' hlen)
  · exact List.drop_left' hlen

variable {buf rest : Bytes} {msg : P2pVersionMsg} {useragent : ByteField 128}

theorem deserField_eq_append {n : ℕ} {field : ByteField n}
    (h : deserField n buf = some (field, rest)) :
    buf = field.1 ++ rest := by
  unfold deserField at h
  split at h
  · cases h
  · obtain ⟨rfl, rfl⟩ := Prod.mk.inj (Option.some.inj h)
    exact (List.take_append_drop n buf).symm

/-- An address is written without its time in a version message. -/
theorem p2pSerAddr_zero (addr : P2pAddress) :
    p2pSerAddr 0 addr = serU64 addr.services ++ (addr.ip.1 ++ serU16 addr.port) := rfl

theorem length_p2pSerAddr (addr : P2pAddress) : (p2pSerAddr 0 addr).length = 26 := by
  rw [p2pSerAddr_zero, List.length_append, List.length_append, addr.ip.2]
  rw [serU64, serU16, LittleEndian.length_toBytes, LittleEndian.length_toBytes]

theorem p2pDeserAddr_serAddr (addr : P2pAddress) (rest : Bytes) :
    p2pDeserAddr 0 (p2pSerAddr 0 addr ++ rest) = some ({ addr with time := 0 }, rest) := by
  unfold p2pDeserAddr
  simp only [p2pSerAddr_zero, List.append_assoc]
  rw [if_neg (by decide), Option.bind_eq_bind, Option.bind_some]
  dsimp only
  rw [deserU64_serU64, Option.bind_eq_bind, Option.bind_some]
  dsimp only
  rw [deserField_append, Option.bind_eq_bind, Option.bind_some]
  dsimp only
  rw [deserU16_serU16]
  rfl

theorem p2pDeserAddr_eq_append {addr : P2pAddress} (h : p2pDeserAddr 0 buf = some (addr, rest)) :
    buf = p2pSerAddr 0 addr ++ rest := by
  unfold p2pDeserAddr at h
  rw [if_neg (by decide), Option.bind_eq_bind, Option.bind_some] at h
  dsimp only at h
  obtain ⟨⟨services, buf1⟩, hservices, h⟩ := Option.bind_eq_some_iff.mp h
  obtain ⟨⟨ip, buf2⟩, hip, h⟩ := Option.bind_eq_some_iff.mp h
  obtain ⟨⟨port, buf3⟩, hport, h⟩ := Option.bind_eq_some_iff.mp h
  obtain ⟨rfl, rfl⟩ := Prod.mk.inj (Option.some.inj h)
  dsimp only at hip hport ⊢
  rw [deserU64_eq_append hservices, deserField_eq_append hip, deserU16_eq_append hport,
    p2pSerAddr_zero]
  simp only [List.append_assoc]

/-- The bytes in front of the user agent. -/
theorem length_headSer (head : VersionHead) : (headSer head).length = 80 := by
  unfold headSer serU64
  simp only [List.length_append, length_serU32, LittleEndian.length_toBytes, length_p2pSerAddr]

/-- The fields that a version message has room for. -/
def withoutTimes (head : VersionHead) : VersionHead :=
  { head with
    addrRecv := { head.addrRecv with time := 0 }, addrFrom := { head.addrFrom with time := 0 } }

theorem headDeser_headSer (head : VersionHead) (rest : Bytes) :
    headDeser (headSer head ++ rest) = some (withoutTimes head, rest) := by
  unfold headDeser headSer
  simp only [List.append_assoc]
  rw [deserU32_serU32, Option.bind_eq_bind, Option.bind_some]
  dsimp only
  rw [deserU64_serU64, Option.bind_eq_bind, Option.bind_some]
  dsimp only
  rw [deserU64_serU64, Option.bind_eq_bind, Option.bind_some]
  dsimp only
  rw [p2pDeserAddr_serAddr, Option.bind_some]
  dsimp only
  rw [p2pDeserAddr_serAddr, Option.bind_some]
  dsimp only
  rw [deserU64_serU64]
  rfl

theorem headDeser_eq_append {head : VersionHead} (h : headDeser buf = some (head, rest)) :
    buf = headSer head ++ rest := by
  unfold headDeser at h
  obtain ⟨⟨version, buf1⟩, hversion, h⟩ := Option.bind_eq_some_iff.mp h
  obtain ⟨⟨services, buf2⟩, hservices, h⟩ := Option.bind_eq_some_iff.mp h
  obtain ⟨⟨timestamp, buf3⟩, htimestamp, h⟩ := Option.bind_eq_some_iff.mp h
  obtain ⟨⟨addrRecv, buf4⟩, hrecv, h⟩ := Option.bind_eq_some_iff.mp h
  obtain ⟨⟨addrFrom, buf5⟩, hfrom, h⟩ := Option.bind_eq_some_iff.mp h
  obtain ⟨⟨nonce, buf6⟩, hnonce, h⟩ := Option.bind_eq_some_iff.mp h
  obtain ⟨rfl, rfl⟩ := Prod.mk.inj (Option.some.inj h)
  rw [deserU32_eq_append hversion, deserU64_eq_append hservices, deserU64_eq_append htimestamp,
    p2pDeserAddr_eq_append hrecv, p2pDeserAddr_eq_append hfrom, deserU64_eq_append hnonce, headSer]
  simp only [List.append_assoc]

/-! ## The user agent -/

/-- The user agent ends inside its field. -/
def Terminated (useragent : ByteField 128) : Prop := 0 ∈ useragent.1

instance (useragent : ByteField 128) : Decidable (Terminated useragent) :=
  inferInstanceAs (Decidable (0 ∈ useragent.1))

/-- The user agent that a buffer declares. -/
def declaredUserAgent (buf : Bytes) : Bytes :=
  match deserVarlen (buf.drop 80) with
  | some (uaLen, rest) => rest.take uaLen.toNat
  | none => []

theorem terminated_userAgentField (uaStr : Bytes) :
    Terminated (userAgentField uaStr) ↔ uaStr.length < 128 ∨ 0 ∈ uaStr.take 128 := by
  have htake : (userAgentField uaStr).1 =
    uaStr.take 128 ++ List.replicate (128 - uaStr.length) 0 := by
    show (uaStr ++ List.replicate 128 0).take 128 = _
    rw [List.take_append, List.take_replicate, Nat.min_eq_left (Nat.sub_le _ _)]
  unfold Terminated
  rw [htake, List.mem_append, List.mem_replicate, or_comm]
  constructor
  -- a zero of the field is one of the padding or one that was copied
  · rintro (⟨hne, -⟩ | hmem)
    · exact Or.inl (by omega)
    · exact Or.inr hmem
  · rintro (hlt | hmem)
    · exact Or.inl ⟨by omega, rfl⟩
    · exact Or.inr hmem

/-- What is in the field is what the buffer declares. -/
theorem useragent_of_versionDeser (h : versionDeser buf = some (msg, rest)) :
    msg.useragent = userAgentField (declaredUserAgent buf) := by
  unfold versionDeser at h
  obtain ⟨⟨head, buf1⟩, hhead, h⟩ := Option.bind_eq_some_iff.mp h
  obtain ⟨⟨uaLen, buf2⟩, hlen, h⟩ := Option.bind_eq_some_iff.mp h
  have hdrop : buf.drop 80 = buf1 := by
    rw [headDeser_eq_append hhead]
    exact List.drop_left' (length_headSer head)
  dsimp only at h
  split at h
  · cases h
  · obtain ⟨⟨uaStr, buf3⟩, hua, h⟩ := Option.bind_eq_some_iff.mp h
    obtain ⟨⟨startHeight, buf4⟩, -, h⟩ := Option.bind_eq_some_iff.mp h
    obtain ⟨⟨relay, buf5⟩, -, h⟩ := Option.bind_eq_some_iff.mp h
    obtain ⟨rfl, rfl⟩ := Prod.mk.inj (Option.some.inj h)
    obtain ⟨hcount, rfl⟩ := deserBytes_eq_some hua
    have hdeclared : declaredUserAgent buf = uaStr := by
      unfold declaredUserAgent
      rw [hdrop, hlen]
      exact List.take_left' hcount
    rw [hdeclared]

/-- **The buffers whose user agent ends inside its field.** -/
theorem terminated_iff (h : versionDeser buf = some (msg, rest)) :
    Terminated msg.useragent ↔ (declaredUserAgent buf).length < 128 ∨
    0 ∈ (declaredUserAgent buf).take 128 := by
  rw [useragent_of_versionDeser h, terminated_userAgentField]

/-! ## Round trips -/

/-- The string in a field ends at the first zero of the field, whatever stands behind. -/
theorem cString_of_terminated (h : Terminated useragent) (behind : Bytes) :
    cString (useragent.1 ++ behind) = cString useragent.1 ∧ (cString useragent.1).length < 128 ∧
      0 ∉ cString useragent.1 := by
  obtain ⟨front, back, hsplit, hfront⟩ := List.eq_append_cons_of_mem h
  have hlen := useragent.2
  have hstr : cString useragent.1 = front := by
    rw [hsplit]
    exact cString_of_not_mem hfront back
  refine ⟨?_, ?_, ?_⟩
  · rw [hstr, hsplit, List.append_assoc, List.cons_append]
    exact cString_of_not_mem hfront _
  · rw [hstr]
    rw [hsplit, List.length_append, List.length_cons] at hlen
    omega
  · rw [hstr]
    exact hfront

/-- A user agent that ends inside its field is written as its string. -/
theorem serStr_of_terminated (h : Terminated useragent) (behind : Bytes) :
    serStr (useragent.1 ++ behind) 1024 =
      serVarlen (UInt32.ofNat (cString useragent.1).length) ++ cString useragent.1 := by
  have htake : (useragent.1 ++ behind).take 1024 = useragent.1 ++ behind.take (1024 - 128) := by
    rw [List.take_append, useragent.2, List.take_of_length_le (by rw [useragent.2]; decide)]
  obtain ⟨hstr, hlen, -⟩ := cString_of_terminated h (behind.take (1024 - 128))
  unfold serStr
  rw [htake]
  dsimp only
  rw [hstr, if_neg (by omega)]

/-- The field that a string of fewer than 128 characters is read into has this string. -/
theorem cString_userAgentField {uaStr : Bytes} (hlen : uaStr.length < 128) (hzero : 0 ∉ uaStr) :
    cString (userAgentField uaStr).1 = uaStr := by
  have hfield : (userAgentField uaStr).1 = uaStr ++ 0 :: List.replicate (127 - uaStr.length) 0 := by
    show (uaStr ++ List.replicate 128 0).take 128 = _
    rw [List.take_append, List.take_of_length_le (by omega), List.take_replicate,
      ← List.replicate_succ]
    congr 2
    omega
  rw [hfield]
  exact cString_of_not_mem hzero _

/-- **What is read of a message that was written**, whatever the memory behind the user agent and
the bytes behind the message. -/
theorem versionDeser_versionSer (hrelay : hasRelay msg.version = true)
    (h : Terminated msg.useragent) (behind rest : Bytes) :
    versionDeser (versionSer msg behind ++ rest) = some
      (⟨withoutTimes msg.toVersionHead, userAgentField (cString msg.useragent.1), msg.startHeight,
        msg.relay⟩, rest) := by
  obtain ⟨-, hlen, -⟩ := cString_of_terminated h []
  have hcount : (UInt32.ofNat (cString msg.useragent.1).length).toNat =
    (cString msg.useragent.1).length := by
    rw [UInt32.toNat_ofNat', Nat.mod_eq_of_lt (by omega)]
  unfold versionDeser versionSer
  rw [serStr_of_terminated h]
  simp only [List.append_assoc]
  rw [headDeser_headSer, Option.bind_eq_bind, Option.bind_some]
  dsimp only
  rw [deserVarlen_serVarlen, Option.bind_eq_bind, Option.bind_some]
  dsimp only
  rw [hcount, if_neg (by omega), deserBytes_append, Option.bind_eq_bind, Option.bind_some]
  dsimp only
  rw [deserU32_serU32, Option.bind_some]
  dsimp only
  have hversion : (withoutTimes msg.toVersionHead).version = msg.version := rfl
  unfold relayDeser
  rw [hversion, if_pos hrelay]
  rfl

/-- A message is given back: all fields, and the user agent as the string it holds. -/
def SameFields (back msg : P2pVersionMsg) : Prop :=
  back.toVersionHead = msg.toVersionHead ∧ cString back.useragent.1 = cString msg.useragent.1 ∧
    back.startHeight = msg.startHeight ∧ back.relay = msg.relay

theorem withoutTimes_eq_iff (head : VersionHead) :
    withoutTimes head = head ↔ head.addrRecv.time = 0 ∧ head.addrFrom.time = 0 := by
  obtain ⟨version, services, timestamp, ⟨timeRecv, servicesRecv, ipRecv, portRecv⟩,
    ⟨timeFrom, servicesFrom, ipFrom, portFrom⟩, nonce⟩ := head
  unfold withoutTimes
  constructor
  · intro h
    injection h with _ _ _ hrecv hfrom
    injection hrecv with hrecv
    injection hfrom with hfrom
    exact ⟨hrecv.symm, hfrom.symm⟩
  · rintro ⟨hrecv, hfrom⟩
    dsimp only at hrecv hfrom
    rw [hrecv, hfrom]

/-- Only the times of the addresses are lost. -/
theorem sameFields_iff (hrelay : hasRelay msg.version = true) (h : Terminated msg.useragent)
    (behind rest : Bytes) :
    (∃ back, versionDeser (versionSer msg behind ++ rest) = some (back, rest) ∧
      SameFields back msg) ↔
      msg.addrRecv.time = 0 ∧ msg.addrFrom.time = 0 := by
  obtain ⟨-, hlen, hzero⟩ := cString_of_terminated h []
  rw [versionDeser_versionSer hrelay h, ← withoutTimes_eq_iff]
  constructor
  · rintro ⟨back, hback, hhead, -⟩
    obtain ⟨rfl, -⟩ := Prod.mk.inj (Option.some.inj hback)
    exact hhead
  · intro hhead
    exact ⟨_, rfl, hhead, cString_userAgentField hlen hzero, rfl, rfl⟩

/-- **Version messages.** Of the buffers that are accepted, those whose user agent has fewer than
128 bytes or a zero in its first 128 leave a string in the field; the messages with a string in the
field are read back. -/
theorem versionMessage_iff (behind rest : Bytes) :
    (∀ buf msg rest', versionDeser buf = some (msg, rest') → (Terminated msg.useragent ↔
      (declaredUserAgent buf).length < 128 ∨ 0 ∈ (declaredUserAgent buf).take 128)) ∧
    ∀ msg : P2pVersionMsg, hasRelay msg.version = true → Terminated msg.useragent →
      ((∃ back, versionDeser (versionSer msg behind ++ rest) = some (back, rest) ∧
        SameFields back msg) ↔
        msg.addrRecv.time = 0 ∧ msg.addrFrom.time = 0) :=
  ⟨fun _ _ _ h => terminated_iff h, fun _ hrelay h => sameFields_iff hrelay h behind rest⟩

/-- A message without a user agent, of version 70004. -/
def sampleMsg : P2pVersionMsg :=
  ⟨⟨70004, 1, 0, ⟨0, 0, ⟨List.replicate 16 0, rfl⟩, 0⟩, ⟨0, 0, ⟨List.replicate 16 0, rfl⟩, 0⟩, 0⟩,
    ⟨List.replicate 128 0, rfl⟩, 7, 1⟩

theorem versionMessage_iff_sample :
    (∃ msg rest, versionDeser (versionSer sampleMsg []) = some (msg, rest) ∧
      Terminated msg.useragent) ∧
      ∃ back, versionDeser (versionSer sampleMsg [] ++ [9]) = some (back, [9]) ∧
      SameFields back sampleMsg := by
  constructor
  · have hsome : (versionDeser (versionSer sampleMsg [])).isSome = true := by decide +kernel
    obtain ⟨⟨msg, rest⟩, hdeser⟩ := Option.isSome_iff_exists.mp hsome
    exact ⟨msg, rest, hdeser, ((versionMessage_iff [] []).1 _ msg rest hdeser).mpr
      (Or.inl (by decide +kernel))⟩
  · exact ((versionMessage_iff [] [9]).2 sampleMsg (by decide) (by decide +kernel)).mpr ⟨rfl, rfl⟩

/-- A message whose user agent is 128 letters. -/
def longUserAgent : Bytes :=
  List.replicate 80 0 ++ 128 :: List.replicate 128 97 ++ [0, 0, 0, 0]

/-- The field is filled to its end, so there is no terminator. -/
theorem not_terminated :
    ¬ ∀ buf msg rest, versionDeser buf = some (msg, rest) → Terminated msg.useragent := by
  intro h
  have hsome : (versionDeser longUserAgent).isSome = true := by decide +kernel
  obtain ⟨⟨msg, rest⟩, hdeser⟩ := Option.isSome_iff_exists.mp hsome
  have hfull : (versionDeser longUserAgent).map (fun r => decide (Terminated r.1.useragent)) =
    some false := by
    decide +kernel
  rw [hdeser] at hfull
  exact absurd (h _ _ _ hdeser) (of_decide_eq_false (Option.some.inj hfull))

end VersionMessage

end Libdogecoin
