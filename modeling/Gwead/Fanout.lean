import Gwead.Lib.Broadcast
import Gwead.StreamReads

/-!
# Fan-out of a readable

The source of a readable is taken and split into branches: by a forwarder over bounded channels,
or drained at once and copied.  Both broadcast the items up to the first error.
-/

namespace Gwead

open Broadcast (upTo)

def Item.isError : Item → Bool
  | .chunk _ => false
  | .error _ => true

/-- The items up to the first error. -/
def Source.upstream (source : Source) : List Item := upTo Item.isError source.items

/-- The branches and their forwarder; the source is gone from the producer's handle. -/
def fanOutReadableStreaming (inner : StreamInner) (nBranches channelCapacity : Nat) :
    Except String (StreamInner × Broadcast.State Item nBranches) :=
  if nBranches = 0 then .error "fan_out_readable_streaming: n_branches must be > 0"
  else if channelCapacity = 0 then
    .error "fan_out_readable_streaming: channel_capacity must be > 0"
  else
    match inner.takeReadable with
    | none => .error "fan_out_readable_streaming: producer is not an open readable"
    | some (source, inner) => .ok (inner, Broadcast.start nBranches source.items)

/-- All chunks before the first error, and its text. -/
def drainSource : List Item → List Bytes × Option String
  | [] => ([], none)
  | .chunk bytes :: rest => (bytes :: (drainSource rest).1, (drainSource rest).2)
  | .error text :: _ => ([], some text)

def drainedBranch (drained : List Bytes × Option String) : Source :=
  .live (drained.1.map Item.chunk ++ (drained.2.map Item.error).toList)

def fanOutReadableShared (inner : StreamInner) (nBranches : Nat) :
    Except String (StreamInner × List Source) :=
  if nBranches = 0 then .error "fan_out_readable_shared: n_branches must be > 0"
  else
    match inner.takeReadable with
    | none => .error "fan_out_readable_shared: producer is not an open readable"
    | some (source, inner) =>
      .ok (inner, List.replicate nBranches (drainedBranch (drainSource source.items)))

/-- What so many pulls of a source yield, with `none` for the end. -/
def Source.pulls : Nat → Source → List (Option Item)
  | 0, _ => []
  | k + 1, source => source.next.1 :: source.next.2.pulls k

theorem drainSource_items (items : List Item) :
    (drainedBranch (drainSource items)).items = upTo Item.isError items := by
  induction items with
  | nil => rfl
  | cons item rest ih =>
    cases item with
    | chunk bytes => exact congrArg (Item.chunk bytes :: ·) ih
    | error text => rfl

theorem pulls_empty (k : Nat) : Source.empty.pulls k = List.replicate k none := by
  induction k with
  | zero => rfl
  | succ k ih => simp [Source.pulls, Source.next, ih, List.replicate_succ]

/-- A source yields its items and then the end for ever. -/
theorem pulls_items (source : Source) (k : Nat) :
    source.pulls k = (source.items.map some ++ List.replicate k none).take k := by
  induction k generalizing source with
  | zero => rfl
  | succ k ih =>
    cases source with
    | empty => simp [Source.items, pulls_empty]
    | live items =>
      cases items with
      | nil =>
        have hnext : Source.next (.live []) = (none, .live []) := rfl
        rw [Source.pulls, hnext, ih]
        simp [Source.items, List.replicate_succ]
      | cons item rest =>
        have hnext : Source.next (.live (item :: rest)) = (some item, .live rest) := rfl
        rw [Source.pulls, hnext, ih]
        simp [Source.items, List.take_append, List.take_replicate]
        omega

/-- Each branch yields a beginning of the items up to the first error, and all of them where it is
not dropped and the forwarder is done; a drained source gives the same to every branch. -/
theorem fan_out_exact {inner inner' : StreamInner} {n capacity : Nat}
    {f s : Broadcast.State Item n} {es : List (Broadcast.Event Item n)}
    (hfan : fanOutReadableStreaming inner n capacity = .ok (inner', f))
    (hrun : Transition.Run (Broadcast.Step Item.isError capacity) f es s) :
    ∃ source, inner.takeReadable = some (source, inner') ∧
      Broadcast.Exact Item.isError capacity source.upstream es s ∧
      ∃ branches, fanOutReadableShared inner n = .ok (inner', branches) ∧
        branches.length = n ∧ ∀ branch ∈ branches, ∀ k,
          branch.pulls k = (source.upstream.map some ++ List.replicate k none).take k := by
  unfold fanOutReadableStreaming at hfan
  split at hfan
  · cases hfan
  · rename_i hn
    split at hfan
    · cases hfan
    · split at hfan
      · cases hfan
      · rename_i source inner'' htake
        cases hfan
        refine ⟨source, htake, Broadcast.exact_run hrun,
          List.replicate n (drainedBranch (drainSource source.items)), ?_,
          List.length_replicate, ?_⟩
        · rw [fanOutReadableShared, if_neg hn, htake]
        · intro branch hbranch k
          rw [List.eq_of_mem_replicate hbranch, pulls_items, drainSource_items]
          rfl

/-! ### Two branches -/

def linesInner : StreamInner :=
  ⟨.readable (.live [.chunk [1], .error "torn", .chunk [2]]) none, false, none⟩

/-- The second reader goes away before it has read anything. -/
def linesChoices : List (Broadcast.Choice 2) :=
  [.pull, .commit 0, .drop 1, .refuse 1, .join, .pull, .read 0, .commit 0, .refuse 1, .join,
    .read 0, .read 0]

def linesRun (f : Broadcast.State Item 2) :
    Option (List (Broadcast.Event Item 2) × Broadcast.State Item 2) :=
  Transition.drive (fun s choice => Broadcast.step Item.isError 1 s choice) linesChoices f

/-- The first one gets everything up to the error, and then the end. -/
theorem fan_out_exact_lines : ∃ (inner' : StreamInner) (f s : Broadcast.State Item 2)
    (es : List (Broadcast.Event Item 2)), fanOutReadableStreaming linesInner 2 1 = .ok (inner', f) ∧
      Broadcast.yields 0 es = [some (.chunk [1]), some (.error "torn"), none] ∧
      Broadcast.Exact Item.isError 1 [.chunk [1], .error "torn"] es s := by
  have hfan : ∃ (inner' : StreamInner) (f s : Broadcast.State Item 2)
      (es : List (Broadcast.Event Item 2)),
      fanOutReadableStreaming linesInner 2 1 = .ok (inner', f) ∧ linesRun f = some (es, s) ∧
        Broadcast.yields 0 es = [some (.chunk [1]), some (.error "torn"), none] :=
    ⟨_, _, _, _, rfl, rfl, rfl⟩
  obtain ⟨inner', f, s, es, hfan, hdrive, hyields⟩ := hfan
  have hrun : Transition.Run (Broadcast.Step Item.isError 1) f es s :=
    Transition.drive_run (fun choice _ _ _ _ hstep => ⟨choice, hstep⟩) hdrive
  obtain ⟨source, htake, hexact, -⟩ := fan_out_exact hfan hrun
  refine ⟨inner', f, s, es, hfan, hyields, ?_⟩
  cases htake
  exact hexact

end Gwead
