import FixedLayout.Codec
import FixedLayout.Text.Octal

/-!
# Headers of archive entries

A tape archive is a sequence of blocks of 512 bytes. Every entry starts with a header block that
holds its name, its size in octal digits, its type, and a fixed mark.

* `header`: the layout of a header;
* `sizeOf?`: the number in a size field;
* `Entry`, `Entry.ofHeader`: what a listing shows of an entry, and how it is read;
* `Entry.line`: the line of a listing for an entry.
-/

namespace FixedLayout.Archive

/-- A positional model with one field of bytes. -/
def wrapped (name : String) (length : Nat) : Layout :=
  .composite (.model ⟨name, [], true, ["raw"]⟩) (.ofList [("raw", some "raw", .bytes length)])

/-- A unit of the given bytes. -/
def mark (name : String) (content : Bytes) : Layout := .unit ⟨name, [], false, []⟩ (.bytes content)

/-- The types of entries, each with the character that stands for it. -/
def typeFlag : Enumeration :=
  .mk "TypeFlag" true .u8
    [("NORMAL_FILE", 0x30), ("HARD_LINK", 0x31), ("SYMBOLIC_LINK", 0x32),
     ("CHARACTER_SPECIAL", 0x33), ("BLOCK_SPECIAL", 0x34), ("DIRECTORY", 0x35), ("FIFO", 0x36),
     ("CONTIGUOUS_FILE", 0x37), ("GLOBAL_EXTENDED", 0x67), ("EXTENDED_HEADER", 0x78)]

/-- The fields of a header in order. The padding has no accessor. -/
def headerFields : List (String × Option String × Layout) :=
  let number : Layout := .int .u64
  let named := fun (name : String) (layout : Layout) => (name, some name, layout)
  [named "filename" (wrapped "FileName" 100),
   named "file_mode" (.bytes 8),
   named "owner" number,
   named "group" number,
   named "file_size" (wrapped "FileSize" 12),
   named "last_update" (.bytes 12),
   named "checksum" (.bytes 8),
   named "type_flag" (.enumeration typeFlag),
   named "linked_file" (wrapped "FileName" 100),
   named "ustar" (mark "UStar" [117, 115, 116, 97, 114, 0]),
   named "version" (mark "Version" [48, 48]),
   named "user_name" (.bytes 32),
   named "group_name" (.bytes 32),
   named "device_major_number" (.bytes 8),
   named "device_minor_number" (.bytes 8),
   named "filename_prefix" (.bytes 155),
   ("padding", none, mark "HeaderPadding" (Bytes.zeros 12))]

/-- The layout of a header. -/
def header : Layout :=
  .composite (.model ⟨"Header", [], false, headerFields.map (·.1)⟩) (.ofList headerFields)

/-- The size of a block, which is that of a header. -/
def blockSize : Nat := 512

/-- A header fills a block. -/
theorem size_header : header.size = blockSize := by decide

/-- The bytes of a field of a header. -/
def fieldBytes (name : String) (block : Bytes) : Bytes :=
  match header.slots.find? (·.name == name) with
  | some slot => Bytes.slice block slot.start slot.stop
  | none => []

/-- The number in a size field: nothing but padding means zero. -/
def sizeOf? (raw : Bytes) : Option Int :=
  match Octal.trim (fun b => b == 0 || b == 32) raw with
  | [] => some 0
  | digits => Octal.read? digits

/-- The text of a name field, which ends before the zero bytes at its end. -/
def nameOf (raw : Bytes) : String :=
  Utf8.decodeLossy (raw.reverse.dropWhile (· == 0)).reverse

/-- What a listing shows of an entry. -/
structure Entry where
  name : String
  size : Int
  flag : String
  deriving DecidableEq, Repr

namespace Entry

/-- The entry that a block describes. The block has to be a header, and its size a number. -/
def ofHeader (block : Bytes) : Except Fault Entry := do
  (header.accept block).mapError CheckFault.toFault
  let flag ←
    match (typeFlag.repr.read (fieldBytes "type_flag" block)).bind typeFlag.variant? with
    | some variant => pure variant.1
    | none => throw .noEntry
  match sizeOf? (fieldBytes "file_size" block) with
  | some size => return ⟨nameOf (fieldBytes "filename" block), size, flag⟩
  | none => throw .unfitContent

/-- The line of a listing for an entry. -/
def line (e : Entry) : String := s!"   {e.name} ({e.size} bytes, {e.flag})"

/-- The distance from a header to the next one: the header's block and as many as the content
fills. -/
def advance (e : Entry) : Int := blockSize + (e.size + blockSize - 1).fdiv blockSize * blockSize

end Entry

end FixedLayout.Archive
