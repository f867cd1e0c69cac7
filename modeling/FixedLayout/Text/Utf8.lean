import FixedLayout.Bytes

/-!
# UTF-8

Decoding runs a machine over the bytes, one byte at a time. An ill-formed stretch is a maximal
prefix of a well-formed sequence, or a single byte that can start none.

* `Utf8.Fault`, `Utf8.Piece`: why a stretch is ill-formed; a character or such a stretch;
* `Utf8.pieces`: a byte string cut into pieces;
* `Utf8.decode`: the text, or the first ill-formed stretch;
* `Utf8.decodeLossy`: the text with a replacement character for every ill-formed stretch;
* `Utf8.encode`: the bytes of a text.
-/

namespace FixedLayout.Utf8

/-- Why a stretch of bytes is ill-formed. -/
inductive Fault
  | start
  | continuation
  | truncated
  deriving DecidableEq, Repr

/-- A fault in words. -/
def Fault.reason : Fault → String
  | .start => "invalid start byte"
  | .continuation => "invalid continuation byte"
  | .truncated => "unexpected end of data"

/-- A decoded character, or an ill-formed stretch with its position, length and first byte. -/
inductive Piece
  | char (c : Char)
  | bad (start length : Nat) (first : UInt8) (fault : Fault)
  deriving DecidableEq, Repr

/-- A sequence under way: how many bytes are owed, the bounds of the next one, the number read so
far, the position and the first byte of the sequence and how many of its bytes have been read. -/
structure Pending where
  owed : Nat
  low : UInt8
  high : UInt8
  value : Nat
  start : Nat
  first : UInt8
  taken : Nat

/-- What a byte between sequences starts: a piece of its own or a longer sequence. -/
def opening (pos : Nat) (b : UInt8) : Piece ⊕ Pending :=
  if b < 0x80 then .inl (.char (Char.ofNat b.toNat))
  else if b < 0xC2 then .inl (.bad pos 1 b .start)
  else if b < 0xE0 then .inr ⟨1, 0x80, 0xBF, b.toNat % 32, pos, b, 1⟩
  else if b < 0xF0 then
    .inr ⟨2, if b = 0xE0 then 0xA0 else 0x80, if b = 0xED then 0x9F else 0xBF, b.toNat % 16, pos, b,
      1⟩
  else if b < 0xF5 then
    .inr ⟨3, if b = 0xF0 then 0x90 else 0x80, if b = 0xF4 then 0x8F else 0xBF, b.toNat % 8, pos, b,
      1⟩
  else .inl (.bad pos 1 b .start)

/-- The piece of a sequence that cannot go on. -/
def Pending.fail (p : Pending) (fault : Fault) : Piece := .bad p.start p.taken p.first fault

/-- A byte of a sequence under way: `none` if it cannot continue the sequence. -/
def Pending.next? (p : Pending) (b : UInt8) : Option (Piece ⊕ Pending) :=
  if p.low ≤ b ∧ b ≤ p.high then
    let value := p.value * 64 + b.toNat % 64
    if p.owed ≤ 1 then some (.inl (.char (Char.ofNat value)))
    else some (.inr ⟨p.owed - 1, 0x80, 0xBF, value, p.start, p.first, p.taken + 1⟩)
  else none

/-- The pieces of the bytes from position `pos` on, with a sequence possibly under way. -/
def piecesFrom : Option Pending → Nat → Bytes → List Piece
  | none, _, [] => []
  | some p, _, [] => [p.fail .truncated]
  | none, pos, b :: rest =>
    match opening pos b with
    | .inl piece => piece :: piecesFrom none (pos + 1) rest
    | .inr p => piecesFrom (some p) (pos + 1) rest
  | some p, pos, b :: rest =>
    match p.next? b with
    | some (.inl piece) => piece :: piecesFrom none (pos + 1) rest
    | some (.inr q) => piecesFrom (some q) (pos + 1) rest
    | none =>
      p.fail .continuation ::
        match opening pos b with
        | .inl piece => piece :: piecesFrom none (pos + 1) rest
        | .inr q => piecesFrom (some q) (pos + 1) rest

/-- A byte string cut into characters and ill-formed stretches. -/
def pieces (data : Bytes) : List Piece := piecesFrom none 0 data

/-- An ill-formed stretch of a byte string that had to be UTF-8. -/
structure DecodeError where
  start : Nat
  length : Nat
  first : UInt8
  fault : Fault
  deriving DecidableEq, Repr

/-- The message for an ill-formed stretch: its first byte if it is one byte long, else its
extent. -/
def DecodeError.message (e : DecodeError) : String :=
  if e.length = 1 then
    "'utf-8' codec can't decode byte 0x" ++ String.ofList (Bytes.hexPair e.first) ++
      s!" in position {e.start}: " ++ e.fault.reason
  else
    s!"'utf-8' codec can't decode bytes in position {e.start}-{e.start + e.length - 1}: " ++
      e.fault.reason

/-- The characters of the pieces, up to the first ill-formed stretch. -/
def chars : List Piece → Except DecodeError (List Char)
  | [] => .ok []
  | .char c :: rest => (chars rest).map (c :: ·)
  | .bad start length first fault :: _ => .error ⟨start, length, first, fault⟩

/-- The characters of a byte string, or its first ill-formed stretch. -/
def decode (data : Bytes) : Except DecodeError (List Char) := chars (pieces data)

/-- The character that stands for a piece: the replacement character for an ill-formed stretch. -/
def Piece.lossy : Piece → Char
  | .char c => c
  | .bad .. => Char.ofNat 0xFFFD

/-- The text of a byte string, with a replacement character for every ill-formed stretch. -/
def decodeLossy (data : Bytes) : String := String.ofList ((pieces data).map Piece.lossy)

/-- The bytes of a text. -/
def encode (s : String) : Bytes := s.toList.flatMap String.utf8EncodeChar

end FixedLayout.Utf8
