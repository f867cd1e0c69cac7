import FixedLayout.Text.Quoted
import FixedLayout.Value.Basic

/-!
# Values in messages

`Value.display` is the text of a value inside a message: quoted texts and byte strings, brackets
around collections, a lone tuple entry followed by a comma, the name and payload of a member between
angle brackets, the fields of an instance as an argument list.
-/

namespace FixedLayout

/-- The text of a view: its layout's name and its bytes. -/
def displayView (layout : Layout) : Option Bytes → String
  | none => s!"View[{layout.typeName}](<released>)"
  | some content => s!"View[{layout.typeName}]({Text.quoteBytes content})"

/-- The text of a packet. -/
def displayPacket (layout : Layout) (content : Bytes) : String :=
  s!"Packet[{layout.typeName}]({Text.quoteBytes content})"

namespace Value

mutual

/-- The text of a value in a message. -/
def display : Value → String
  | .null => "None"
  | .bool b => if b then "True" else "False"
  | .int n => toString n
  | .float x => x.render
  | .text s => Text.quote s
  | .list items => "[" ++ ", ".intercalate (displayEach items) ++ "]"
  | .tuple [item] => "(" ++ display item ++ ",)"
  | .tuple items => "(" ++ ", ".intercalate (displayEach items) ++ ")"
  | .dict items => "\x7b" ++ ", ".intercalate (displayPairs items) ++ "\x7d"
  | .bytes content => Text.quoteBytes content
  | .bytearray content => s!"bytearray({Text.quoteBytes content})"
  | .memory _ => "<memory>"
  | .member enum name _ payload => s!"<{enum}.{name}: " ++ display payload ++ ">"
  | .record cls fields => cls.name ++ "(" ++ ", ".intercalate (displayFields fields) ++ ")"
  | .view layout content => displayView layout content
  | .packet layout content => displayPacket layout content

/-- The texts of the items of a collection. -/
def displayEach : List Value → List String
  | [] => []
  | v :: rest => display v :: displayEach rest

/-- The texts of the entries of a dictionary. -/
def displayPairs : List (Value × Value) → List String
  | [] => []
  | (k, v) :: rest => (display k ++ ": " ++ display v) :: displayPairs rest

/-- The texts of the fields of an instance. -/
def displayFields : List (String × Value) → List String
  | [] => []
  | (name, v) :: rest => (name ++ "=" ++ display v) :: displayFields rest

end

/-- The text of a value put into a message without quotes: a text is itself, an integral member is
its number. -/
def plain : Value → String
  | .text s => s
  | .member enum name integral payload =>
    if integral then display payload else enum ++ "." ++ name
  | v => display v

end Value

end FixedLayout
