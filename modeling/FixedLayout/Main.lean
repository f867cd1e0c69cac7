import FixedLayout.Archive.Report
import FixedLayout.BlockHeader

/-!
# Reports on the command line

Without an argument, the report on the sample archive; with a path, that on the archive there; with
`--block`, the report on the sample block header.
-/

open FixedLayout

/-- Prints the report on an archive. -/
def printArchive (data : Bytes) : IO UInt32 := do
  let (lines, fault) := Archive.report data
  for line in lines do
    IO.println line
  match fault with
  | none => return 0
  | some fault =>
    IO.eprintln (fault.message.getD "the archive cannot be read")
    return 1

/-- Prints a report. -/
def main (args : List String) : IO UInt32 := do
  match args with
  | [] => printArchive Archive.sample
  | "--block" :: _ =>
    for line in BlockHeader.report do
      IO.println line
    return 0
  | path :: _ => printArchive (← IO.FS.readBinFile path).toList
