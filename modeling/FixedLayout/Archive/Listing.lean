import FixedLayout.Archive.Header

/-!
# Listing an archive

The walk through an archive goes from header to header until a block is all zeros or there is no
whole block left. A size may be negative, so that the walk can come back to a header it has seen; it
then never ends.

* `Step`, `step`: what is found at an offset;
* `Ending`, `walk`: how a walk of a limited number of steps ends, and the entries it has met;
* `list`: the walk from the start, with as many steps as there can be different offsets.
-/

namespace FixedLayout.Archive

/-- What is found at an offset: the end, an entry, or a block that is no header. -/
inductive Step
  | finish
  | entry (e : Entry)
  | fault (fault : Fault)

/-- The block at an offset; a negative offset counts from the end. -/
def blockAt (data : Bytes) (offset : Int) : Bytes := Bytes.slice data offset (offset + blockSize)

/-- What is found at an offset. -/
def step (data : Bytes) (offset : Int) : Step :=
  let block := blockAt data offset
  if offset + blockSize ≤ data.length ∧ block.any (· != 0) then
    match Entry.ofHeader block with
    | .ok e => .entry e
    | .error fault => .fault fault
  else .finish

/-- How a walk ends. An unfinished one has used up its steps. -/
inductive Ending
  | complete
  | failed (fault : Fault)
  | unfinished

/-- The entries from an offset on, and how a walk of at most that many steps ends. -/
def walk (data : Bytes) : Nat → Int → List Entry × Ending
  | 0, _ => ([], .unfinished)
  | steps + 1, offset =>
    match step data offset with
    | .finish => ([], .complete)
    | .fault fault => ([], .failed fault)
    | .entry e =>
      let (entries, ending) := walk data steps (offset + e.advance)
      (e :: entries, ending)

/-- The number of steps that any walk which ends at all gets by with: all offsets are multiples of
the block size, and one at which there is a block is no further from zero, in either direction, than
the data is long. -/
def stepLimit (data : Bytes) : Nat := 2 * (data.length / blockSize) + 3

/-- The entries of an archive, and how its listing ends. -/
def list (data : Bytes) : List Entry × Ending := walk data (stepLimit data) 0

end FixedLayout.Archive
