import FixedLayout.Value.Display

/-!
# Rejected bytes

A `PackError` says why bytes are no encoding of a type. It keeps one frame for every enclosing
composite, innermost first, so that the path from the outermost type to the failing leaf is known.

* `Frame`: a field or an entry of a type, or a note attached to one; its text in messages, in paths
  and on its own;
* `PackError.Reason`: what is wrong with the bytes;
* `PackError.message`, `PackError.path`: the reason in words, the path to the leaf;
* `PackError.summary`: the message together with the path, if there is one;
* `PackError.describe`: all frames and the reason, outermost first, each further to the right.
-/

namespace FixedLayout

/-- Where in a type an error arose. -/
inductive Frame
  | field (typeName field : String)
  | entry (typeName : String) (index : Int)
  | note (typeName message : String)
  deriving DecidableEq, Repr

namespace Frame

/-- The type that a frame belongs to. -/
def typeName : Frame → String
  | .field typeName _ => typeName
  | .entry typeName _ => typeName
  | .note typeName _ => typeName

/-- A frame in words. -/
def describe : Frame → String
  | .field typeName name => s!"Field {name} of {typeName} is not valid"
  | .entry typeName index => s!"Tuple entry {typeName}.{index} is not valid"
  | .note typeName message => s!"{typeName}: {message}"

/-- The part of a path that a frame stands for. -/
def segment : Frame → String
  | .field _ name => "." ++ name
  | .entry _ index => s!"[{index}]"
  | .note _ _ => ""

/-- The text of a frame itself. -/
def display : Frame → String
  | .field typeName name =>
    s!"FieldContext(type_name={Text.quote typeName}, field={Text.quote name})"
  | .entry typeName index => s!"TupleContext(type_name={Text.quote typeName}, index={index})"
  | .note typeName message =>
    s!"MessageContext(type_name={Text.quote typeName}, message={Text.quote message})"

/-- The content of a frame without its kind, by which it is looked up in tables. -/
def key : Frame → String × (String ⊕ Int)
  | .field typeName name => (typeName, .inl name)
  | .entry typeName index => (typeName, .inr index)
  | .note typeName message => (typeName, .inl message)

end Frame

/-- An error of another kind that is the cause of a rejection. -/
structure Cause where
  kind : String
  text : String
  deriving DecidableEq, Repr

/-- The cause of a given kind and text; the text of a missing key is the quoted key. -/
def Cause.of (kind text : String) : Cause :=
  ⟨kind, if kind = "KeyError" then Text.quote text else text⟩

/-- Ill-formed UTF-8 as a cause. -/
def Cause.ofUtf8 (e : Utf8.DecodeError) : Cause := ⟨"UnicodeDecodeError", e.message⟩

/-- What is wrong with bytes. -/
inductive PackError.Reason
  | size (expected received : Int)
  | assumption (assumption detail : String)
  | discriminant (found : Value) (options : List Int)
  | custom (cause : Cause)
  | message (text : String)
  | plain (text : String)

/-- Why bytes are no encoding of a type, with the frames around the failing leaf, innermost
first. -/
structure PackError where
  typeName : String
  reason : PackError.Reason
  frames : List Frame

namespace PackError

/-- An error that no frame encloses yet. -/
def of (typeName : String) (reason : Reason) : PackError := ⟨typeName, reason, []⟩

/-- The error inside one more frame. -/
def within (e : PackError) (frame : Frame) : PackError := { e with frames := e.frames ++ [frame] }

@[simp] theorem typeName_within (e : PackError) (frame : Frame) :
    (e.within frame).typeName = e.typeName := rfl

@[simp] theorem reason_within (e : PackError) (frame : Frame) :
    (e.within frame).reason = e.reason := rfl

@[simp] theorem frames_within (e : PackError) (frame : Frame) :
    (e.within frame).frames = e.frames ++ [frame] := rfl

/-- Legal discriminants, separated by commas. -/
def optionsText (options : List Int) : String := ", ".intercalate (options.map toString)

/-- The reason in words. -/
def message (e : PackError) : String :=
  match e.reason with
  | .size expected received =>
    s!"Invalid size for {e.typeName}: expected {expected} bytes but received {received} bytes"
  | .assumption assumption detail =>
    "Assumption `" ++ assumption ++ s!"` failed for {e.typeName}: " ++ detail
  | .discriminant found options =>
    s!"Invalid discriminant for {e.typeName}, received {found.display} " ++
      s!"while expecting one of: [ {optionsText options} ]"
  | .custom cause => cause.text
  | .message text => text
  | .plain text => text

/-- The outermost type that reported the error. -/
def rootType (e : PackError) : String :=
  match e.frames.getLast? with
  | some frame => frame.typeName
  | none => e.typeName

/-- The path from the outermost type to the failing leaf. -/
def path (e : PackError) : String :=
  e.rootType ++ String.join (e.frames.reverse.map Frame.segment)

/-- The message, followed by the path if any frame contributes to it. -/
def summary (e : PackError) : String :=
  if e.frames.any fun frame => frame.segment != "" then s!"{e.message} (at {e.path})" else e.message

/-- The lines of a description, each indented by its depth. -/
def indentLines : Nat → List String → List String
  | _, [] => []
  | depth, line :: rest =>
    (String.ofList (List.replicate (2 * depth) ' ') ++
        (if depth = 0 then "" else "caused by: ") ++ line) :: indentLines (depth + 1) rest

/-- All frames, outermost first, and the message, one to a line. -/
def describe (e : PackError) : String :=
  "\n".intercalate (indentLines 0 (e.frames.reverse.map Frame.describe ++ [e.message]))

/-- Fails unless a comparison holds. -/
def ensure (typeName : String) (condition : Bool) (assumption detail : String) :
    Except PackError Unit :=
  if condition then .ok () else .error (of typeName (.assumption assumption detail))

theorem ensure_eq_ok_iff {typeName : String} {condition : Bool} {assumption detail : String} :
    ensure typeName condition assumption detail = .ok () ↔ condition = true := by
  cases condition <;> simp [ensure]

end PackError

end FixedLayout
