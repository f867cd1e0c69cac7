import FixedLayout.Codec

/-!
# Block headers

The header of a block of a chain, 80 bytes: a version, two hashes, and three numbers. The version is
reached under another name than the field's, the digest of a hash not at all.

* `BlockHeader.layout`: the layout;
* `BlockHeader`, `BlockHeader.ofBytes`: a header, and how it is read;
* `BlockHeader.report`: the places of the fields, and the content of a sample header.
-/

namespace FixedLayout

/-- A block header. -/
structure BlockHeader where
  version : Int
  previous : Bytes
  merkle : Bytes
  timestamp : Int
  difficulty : Int
  nonce : Int
  deriving DecidableEq, Repr

namespace BlockHeader

/-- The layout of a hash. -/
def hash : Layout :=
  .composite (.model ⟨"Hash", [], true, ["digest"]⟩) (.ofList [("digest", none, .bytes 32)])

/-- The layout of a version. -/
def versionNumber : Layout :=
  .composite (.model ⟨"Version", [], true, ["value"]⟩)
    (.ofList [("value", some "value", .int .i32)])

/-- The fields of a header in order. -/
def fields : List (String × Option String × Layout) :=
  let number : Layout := .int .u32
  [("version", some "get_version", versionNumber),
   ("prev_block", some "prev_block", hash),
   ("merkle_root", some "merkle_root", hash),
   ("timestamp", some "timestamp", number),
   ("difficulty_target", some "difficulty_target", number),
   ("nonce", some "nonce", number)]

/-- The layout of a header. -/
def layout : Layout :=
  .composite (.model ⟨"Header", [], false, fields.map (·.1)⟩) (.ofList fields)

/-- A header has 80 bytes. -/
theorem size_layout : layout.size = 80 := by decide

/-- The header that a decoded value stands for. -/
def ofValue? (v : Value) : Option BlockHeader := do
  let number := fun name => (v.field? name).bind Value.integer?
  let digest := fun name => ((v.field? name).bind (·.field? "digest")).bind Value.flatBytes?
  return ⟨← ((v.field? "version").bind (·.field? "value")).bind Value.integer?,
    ← digest "prev_block", ← digest "merkle_root",
    ← number "timestamp", ← number "difficulty_target", ← number "nonce"⟩

/-- The header that bytes encode. -/
def ofBytes (data : Bytes) : Except Fault BlockHeader := do
  (layout.accept data).mapError CheckFault.toFault
  match ofValue? (← layout.unpack data) with
  | some h => return h
  | none => throw .noAttribute

/-- A hash as it is shown: the most significant byte first. -/
def hashText (digest : Bytes) : String := Bytes.toHex digest.reverse

/-- A sample header. -/
def sample : Bytes :=
  [0x02, 0x00, 0x00, 0x00, 0x03, 0x5a, 0xb1, 0x54, 0x18, 0x35, 0x70, 0x28, 0x2c, 0xe9, 0xaf,
   0xc0, 0xb4, 0x94, 0xc9, 0xfc, 0x6a, 0x3c, 0xfe, 0xa0, 0x5a, 0xa8, 0xc1, 0xad, 0xd2, 0xec,
   0xc5, 0x64, 0x90, 0x00, 0x00, 0x00, 0x03, 0x8b, 0xa3, 0xd7, 0x8e, 0x45, 0x00, 0xa5, 0xa7,
   0x57, 0x0d, 0xbe, 0x61, 0x96, 0x03, 0x98, 0xad, 0xd4, 0x41, 0x0d, 0x27, 0x8b, 0x21, 0xcd,
   0x97, 0x08, 0xe6, 0xd9, 0x74, 0x3f, 0x37, 0x4d, 0x54, 0x4f, 0xc0, 0x55, 0x22, 0x7f, 0x10,
   0x01, 0xc2, 0x9c, 0x1e, 0xa3]

/-- The line that sets off a title. -/
def ruler : String := String.ofList (List.replicate 60 '=')

/-- The lines about the places of the fields. -/
def placeLines : List String :=
  layout.slots.map (fun s => s!"   {s.name}: bytes {s.start}..{s.stop}") ++
    [s!"   Total: {layout.size} bytes"]

/-- Whether a header's bytes are those that its value is written as. -/
def reencodes (data : Bytes) : Bool :=
  match layout.unpack data with
  | .ok v =>
    match layout.pack v with
    | .ok content => content == data
    | .error _ => false
  | .error _ => false

/-- The lines of a report on the sample header. -/
def report : List String :=
  [ruler, "packview Block Header Example", ruler, "", "1. Layout..."] ++ placeLines ++
    match ofBytes sample with
    | .error _ => []
    | .ok h =>
      ["", "2. Reading fields through a view...",
       s!"   Version: {h.version}", s!"   Timestamp: {h.timestamp}", s!"   Nonce: {h.nonce}",
       "   Accessors: " ++ ", ".intercalate layout.accessors, "", "3. Decoded value...",
       "   Previous block: " ++ hashText h.previous, "   Merkle root:    " ++ hashText h.merkle,
       "   Re-encodes identically: " ++ if reencodes sample then "True" else "False"]

end BlockHeader

end FixedLayout
