import Overseer.Amount
import Overseer.Markup.Error
import Overseer.Markup.Token

/-!
Documents: one root element with blanks, comments and declarations around it.  A text is read from
its tokens with a stack of open elements; `Document.parse` reports the first fault with its byte
offset.
-/

namespace Overseer.Markup

/-- What may stand around the root element. -/
inductive Misc where
  | blank (c : Char)
  | markup (text : List Char)
  deriving DecidableEq, Repr

def Misc.render : Misc → List Char
  | .blank c => [c]
  | .markup text => text

structure Document where
  prolog : List Misc
  root : Element
  epilog : List Misc

def Document.render (d : Document) : List Char :=
  d.prolog.flatMap Misc.render ++ d.root.render ++ d.epilog.flatMap Misc.render

/-! ## Elements from tokens -/

/-- An element whose closing tag is still to come, its content so far with the latest piece
first. -/
structure Frame where
  tag : Tag
  content : List Piece

def Frame.push (f : Frame) (p : Piece) : Frame := { f with content := p :: f.content }

def Frame.close (f : Frame) (gap : List Char) : Element := .closed f.tag f.content.reverse gap

/-- Read until the outermost open element is closed. -/
def build (frame : Frame) (outer : List Frame) (s : List Char) :
    Except Fault (Element × List Char) :=
  match _h : nextToken s with
  | .error f => .error f
  | .ok (.char c, rest) => build (frame.push (.char c)) outer rest
  | .ok (.markup text, rest) => build (frame.push (.markup text)) outer rest
  | .ok (.empty tag, rest) => build (frame.push (.child (.empty tag))) outer rest
  | .ok (.opening tag, rest) => build ⟨tag, []⟩ (frame :: outer) rest
  | .ok (.closing name gap, rest) =>
    if name ≠ frame.tag.name then .error (.mismatchedTag s frame.tag.name name)
    else match outer with
      | [] => .ok (frame.close gap, rest)
      | parent :: outer => build (parent.push (.child (frame.close gap))) outer rest
termination_by s.length
decreasing_by all_goals exact nextToken_length _h

/-! ## Documents -/

/-- Blanks and markup items, as many as there are. -/
def readMisc (s : List Char) : Except Fault (List Misc × List Char) :=
  match s with
  | [] => .ok ([], [])
  | c :: r =>
    if isBlank c then do
      let (ms, rest) ← readMisc r
      .ok (.blank c :: ms, rest)
    else match _hs : markupEnd? (c :: r) with
      | none => .ok ([], c :: r)
      | some stop =>
        match _h : readMarkup stop (c :: r) with
        | .error f => .error f
        | .ok (text, rest) => do
          let (ms, rest) ← readMisc rest
          .ok (.markup text :: ms, rest)
termination_by s.length
decreasing_by
  · simp
  · exact readMarkup_length (markupEnd?_ne_nil _hs) _h

def readRoot (s : List Char) : Except Fault (Element × List Char) := do
  let s ← expect '<' "expected '<'" s
  let ((tag, closesItself), rest) ← readTag s
  if closesItself then .ok (.empty tag, rest) else build ⟨tag, []⟩ [] rest

def readDocument (s : List Char) : Except Fault Document := do
  let (prolog, s) ← readMisc s
  let (root, s) ← readRoot s
  let (epilog, s) ← readMisc s
  if s = [] then .ok ⟨prolog, root, epilog⟩
  else .error (.malformed s "content after root element")

/-! ## Faults and their offsets -/

/-- Bytes that a text takes in UTF-8. -/
def byteLength (s : List Char) : Nat := (String.ofList s).utf8ByteSize

/-- The error for a fault in a text of `total` bytes. -/
def Fault.toError (total : Nat) : Fault → Error
  | .unexpectedEnd => .unexpectedEnd
  | .malformed rest reason => .malformed (total - byteLength rest) reason
  | .mismatchedTag rest expected found =>
    .mismatchedTag (total - byteLength rest) (.ofList expected) (.ofList found)

def Document.parse (text : String) : Except Error Document :=
  (readDocument text.toList).mapError (Fault.toError text.utf8ByteSize)

/-- The root element of a document. -/
def Element.parse (text : String) : Except Error Element :=
  (Document.parse text).map Document.root

end Overseer.Markup
