/-
# Reading a stream in chunks

A stream determines a list of items, from a state on. A reader is fed the stream chunk by chunk and
keeps what it has not used. If feeding one chunk is right for every continuation of the stream, then
the items do not depend on the chunks.

* `Feeds.run` : what has been read and what is still to come make up the items of the stream;
* `Feeds.items_run`, `Feeds.items_eq` : the items of a whole run, for every way to cut the stream.
-/
import Mathlib.Data.List.Basic

namespace ChunkedReader

variable {σ α β : Type}

/-- A reader between two chunks: the state and the part of the stream it keeps. -/
structure Reader (σ β : Type) where
  state : σ
  kept : List β

/-- Feeding chunk by chunk: the items in order, and the reader after the last chunk. -/
def run (feed : Reader σ β → List β → Reader σ β × List α) :
    Reader σ β → List (List β) → Reader σ β × List α
  | r, [] => (r, [])
  | r, chunk :: chunks =>
    ((run feed (feed r chunk).1 chunks).1, (feed r chunk).2 ++ (run feed (feed r chunk).1 chunks).2)

/-- Feeding one chunk takes items off the front of the stream, whatever follows the chunk, and
leaves none that are complete. -/
structure Feeds (items : σ → List β → List α)
    (feed : Reader σ β → List β → Reader σ β × List α) : Prop where
  feed_items : ∀ (r : Reader σ β) (chunk next : List β),
    items r.state (r.kept ++ chunk ++ next) =
      (feed r chunk).2 ++ items (feed r chunk).1.state ((feed r chunk).1.kept ++ next)
  settled : ∀ (r : Reader σ β) (chunk : List β),
    items (feed r chunk).1.state (feed r chunk).1.kept = []

variable {items : σ → List β → List α} {feed : Reader σ β → List β → Reader σ β × List α}

/-- A run of chunks takes items off the front of the stream. -/
theorem Feeds.run (h : Feeds items feed) (chunks : List (List β)) (r : Reader σ β) (next : List β) :
    items r.state (r.kept ++ chunks.flatten ++ next) =
      (run feed r chunks).2 ++ items (run feed r chunks).1.state
      ((run feed r chunks).1.kept ++ next) := by
  induction chunks generalizing r with
  | nil => simp [ChunkedReader.run]
  | cons chunk chunks ih =>
    have hfirst := h.feed_items r chunk (chunks.flatten ++ next)
    have hrest := ih (feed r chunk).1
    rw [List.append_assoc] at hrest
    rw [hrest] at hfirst
    simpa only [List.flatten_cons, List.append_assoc, ChunkedReader.run] using hfirst

variable {r : Reader σ β}

/-- A reader without complete items in store stays so. -/
theorem Feeds.run_settled (h : Feeds items feed) (chunks : List (List β))
    (hr : items r.state r.kept = []) :
    items (ChunkedReader.run feed r chunks).1.state (ChunkedReader.run feed r chunks).1.kept =
      [] := by
  induction chunks generalizing r with
  | nil => exact hr
  | cons chunk chunks ih => exact ih (h.settled r chunk)

/-- **A run reads the items of the stream.** -/
theorem Feeds.items_run (h : Feeds items feed) (chunks : List (List β))
    (hr : items r.state r.kept = []) :
    (ChunkedReader.run feed r chunks).2 = items r.state (r.kept ++ chunks.flatten) := by
  have hrun := h.run chunks r []
  rw [List.append_nil, List.append_nil, h.run_settled chunks hr, List.append_nil] at hrun
  exact hrun.symm

/-- **Any two ways to cut a stream** give the same items. -/
theorem Feeds.items_eq (h : Feeds items feed) {chunks chunks' : List (List β)}
    (hflat : chunks.flatten = chunks'.flatten) (hr : items r.state r.kept = []) :
    (ChunkedReader.run feed r chunks).2 = (ChunkedReader.run feed r chunks').2 := by
  rw [h.items_run chunks hr, h.items_run chunks' hr, hflat]

end ChunkedReader
