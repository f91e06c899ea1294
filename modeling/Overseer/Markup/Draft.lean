import Overseer.Markup.Error
import Overseer.Markup.Reference

/-!
Drafts: lists of instructions that write markup.  Being data, a draft can be carried out again from
the start when the room it was given is too small.  `Instr.run` and `runDraft` carry one out with a
`Writer`, which refuses a text that passes its limit and keeps what was written before.
-/

namespace Overseer.Markup

/-- `measure` and `attempt` write a note: the length so far, and how an instruction ended.  An
attempted instruction that fails does not end the draft. -/
inductive Instr where
  | node (name : String) (content : List Instr)
  | attribute (name value : String)
  | rawAttribute (name source : String)
  | append (source : String)
  | measure
  | attempt (instr : Instr)

abbrev Draft := List Instr

inductive Note where
  | length (bytes : Nat)
  | outcome (error : Option Error)
  deriving DecidableEq, Repr

/-- `limit` counts bytes; without one everything fits.  `tagOpen` says that a start tag lacks its
bracket. -/
structure Writer where
  limit : Option Nat
  text : String
  tagOpen : Bool
  notes : List Note
  deriving DecidableEq, Repr

def Writer.new (limit : Option Nat) : Writer := ⟨limit, "", false, []⟩

abbrev WriteM := EStateM Error Writer

/-! ## Writing -/

/-- Write a text whole or not at all. -/
def push (s : String) : WriteM Unit := fun w =>
  match w.limit with
  | none => .ok () { w with text := w.text ++ s }
  | some limit =>
    if w.text.utf8ByteSize + s.utf8ByteSize ≤ limit then .ok () { w with text := w.text ++ s }
    else .error (.bufferExceeded limit) w

def setTagOpen (tagOpen : Bool) : WriteM Unit := modify ({ · with tagOpen })

/-- Close a start tag that lacks its bracket with `bracket`; otherwise do `otherwise`. -/
def closeTag (bracket : String) (otherwise : WriteM Unit) : WriteM Unit := do
  if (← get).tagOpen then
    setTagOpen false
    push bracket
  else otherwise

def openNode (name : String) : WriteM Unit := do
  closeTag ">" (pure ())
  push "<"
  push name
  setTagOpen true

/-- A node without content closes itself. -/
def closeNode (name : String) : WriteM Unit :=
  closeTag "/>" do
    push "</"
    push name
    push ">"

/-- A value that holds a double quote stands in single quotes. -/
def writeAttribute (name source : String) : WriteM Unit := do
  let w ← get
  if w.tagOpen then
    let quote := if source.toList.contains '"' then "'" else "\""
    push " "
    push name
    push "="
    push quote
    push source
    push quote
  else throw (.malformed w.text.utf8ByteSize "attribute written after element content")

/-- Appending nothing leaves a start tag open. -/
def writeSource (source : String) : WriteM Unit := do
  if source.isEmpty then pure ()
  else
    closeTag ">" (pure ())
    push source

def note (n : Note) : WriteM Unit := modify fun w => { w with notes := w.notes ++ [n] }

def escape (value : String) : String := .ofList (Reference.encode value.toList)

mutual
def Instr.run : Instr → WriteM Unit
  | .node name content => do
    openNode name
    runDraft content
    closeNode name
  | .attribute name value => writeAttribute name (escape value)
  | .rawAttribute name source => writeAttribute name source
  | .append source => writeSource source
  | .measure => do note (.length (← get).text.utf8ByteSize)
  | .attempt instr => fun w =>
    match instr.run w with
    | .ok _ w => note (.outcome none) w
    | .error e w => note (.outcome (some e)) w

/-- The first instruction that fails ends the draft. -/
def runDraft : List Instr → WriteM Unit
  | [] => pure ()
  | instr :: draft => do
    instr.run
    runDraft draft
end

end Overseer.Markup
