import FixedLayout.Archive.Listing

/-!
# A report on an archive

* `sample`: a small archive of two files;
* `report`: the listing of an archive, and what becomes of its first header with a wrong type.
-/

namespace FixedLayout.Archive

/-- The bytes of a text, filled up with zeros. -/
def padded (length : Nat) (s : String) : Bytes :=
  let content := Utf8.encode s
  content ++ Bytes.zeros (length - content.length)

/-- The octal digits of a number, as many as asked for. -/
def octalDigits : Nat → Nat → String
  | 0, _ => ""
  | k + 1, n => octalDigits k (n / 8) ++ toString (n % 8)

/-- The header of a file of a given name and size, with a given content of the checksum field. -/
def fileHeaderWith (name : String) (size : Nat) (checksum : Bytes) : Bytes :=
  padded 100 name ++ padded 8 "0000644" ++ padded 8 "0000000" ++ padded 8 "0000000" ++
    padded 12 (octalDigits 11 size) ++ padded 12 "00000000000" ++ checksum ++ Utf8.encode "0" ++
    Bytes.zeros 100 ++ padded 6 "ustar" ++ Utf8.encode "00" ++ Bytes.zeros 64 ++
    padded 8 "0000000" ++ padded 8 "0000000" ++ Bytes.zeros 167

/-- The header of a file. The checksum is the sum of all bytes, with blanks in its own place. -/
def fileHeader (name : String) (size : Nat) : Bytes :=
  let blank := fileHeaderWith name size (List.replicate 8 32)
  let sum := blank.foldl (fun n b => n + b.toNat) 0
  fileHeaderWith name size (padded 7 (octalDigits 6 sum) ++ [32])

/-- A file of an archive: the header, and the content filled up to whole blocks. -/
def fileEntry (name : String) (content : Bytes) : Bytes :=
  fileHeader name content.length ++ content ++
    Bytes.zeros ((blockSize - content.length % blockSize) % blockSize)

/-- A small archive. -/
def sample : Bytes :=
  fileEntry "hello.txt" (Utf8.encode "hello world\n") ++
    fileEntry "notes.md" (Utf8.encode (String.join (List.replicate 100 "# notes\n"))) ++
    Bytes.zeros 7168

/-- The line that sets off a title. -/
def ruler : String := String.ofList (List.replicate 60 '=')

/-- The lines about the first header after its type has been overwritten. -/
def corruptionLines (data : Bytes) : List String × Option Fault :=
  let block := data.take blockSize
  if block.length ≤ 156 then ([], some .noEntry)
  else
    match header.accept (block.set 156 90) with
    | .ok () => ([], none)
    | .error (.rejected e) => ([s!"   Rejected at {e.path}", s!"   {e.summary}"], none)
    | .error fault => ([], some fault.toFault)

/-- The lines of a report on an archive, up to the first failure. -/
def report (data : Bytes) : List String × Option Fault :=
  let (entries, ending) := list data
  let start := [ruler, "packview Archive Listing Example", ruler, "",
    s!"1. Listing entries (header size: {header.size} bytes)..."] ++ entries.map Entry.line
  match ending with
  | .failed fault => (start, some fault)
  | .unfinished => (start, none)
  | .complete =>
    let (lines, fault) := corruptionLines data
    (start ++ ["", "2. Corrupting the first header..."] ++ lines, fault)

end FixedLayout.Archive
