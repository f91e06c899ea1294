import Overseer.Effect
import Overseer.Markup.Draft
import Overseer.Reallocator
import Overseer.Registry

/-!
The init configuration: how an accepted one changes the registry, and what is published of it.
Start entries are written with the versions and quotas of the registry; everything else is copied
from the source.
-/

namespace Overseer

open Markup (Draft Instr)

/-- A configuration text with its root element. -/
structure InitConfig where
  text : String
  root : Markup.Element
  parse_text : Markup.Element.parse text = .ok root

namespace InitConfig

def parse (text : String) : Except Markup.Error InitConfig :=
  match h : Markup.Element.parse text with
  | .ok root => .ok ⟨text, root, h⟩
  | .error e => .error e

/-! ## Bookkeeping -/

/-- What a configuration and its slices make of the registry and the reallocator. -/
structure Books where
  registry : Registry
  reallocator : Reallocator
  deriving DecidableEq, Repr

/-- Log that a dynamic quota replaces the configured one. -/
def overrides (s : Slice) : List Effect :=
  [Resource.caps, .ram].filterMap fun r =>
    if s.dynamic.get r = 0 then none
    else
      let word := r.word
      let name := s.name
      let configured := r.render (s.configured.get r)
      let dynamic := r.render (s.dynamic.get r)
      some (.debug s!"upgrade dynamic {word} of '{name}' from {configured} to {dynamic}")

/-- Enter a start entry: its quotas and deploy version count, and a pending restart is carried
out. -/
def Books.enter (b : Books) (start : Markup.Element) : Books × List Effect :=
  let name := start.startName
  let reg := b.registry.add name
  match reg.find? name with
  | none => (b, [])
  | some s =>
    let (reallocator, s) := b.reallocator.observe s start.quotas
    let s := { s with deployVersion := start.amount "version" 0 }.updateInternalVersion
    ({ registry := (reg.update? name fun _ => s).getD reg, reallocator }, overrides s)

def Books.enterAll : Books → List Markup.Element → Books × List Effect
  | b, [] => (b, [])
  | b, start :: starts =>
    let (b, effects) := b.enter start
    let (b, rest) := enterAll b starts
    (b, effects ++ rest)

/-- Drop the slices that are no longer started, then enter every start entry. -/
def Books.update (b : Books) (root : Markup.Element) : Books × List Effect :=
  let (registry, removed) := b.registry.removeOutdated root
  let dropped := removed.map fun name => .debug s!"slice '{name}' no longer started, dropped"
  let (b, effects) := enterAll { b with registry } root.starts
  (b, dropped ++ effects)

/-! ## Publishing -/

/-- A child of a start entry; a dynamic memory quota replaces the configured one. -/
def startChild (ram : Nat) (e : Markup.Element) : Instr :=
  if e.isRamResource then
    .node "resource" [.attribute "name" "RAM", .attribute "quantum" (ByteSize.render ram)]
  else .append e.source

def startEntry (start : Markup.Element) (s : Slice) : Instr :=
  let own := ["name", "version", "caps"]
  let caps := s.assigned .caps
  let ram := s.dynamic.ram
  .node "start" <|
    [.attribute "name" s.name, .attribute "version" (toString s.combinedVersion)] ++
    (if 0 < caps then [.attribute "caps" (toString caps)] else []) ++
    (start.attributes.filter fun a => !own.contains a.1).map (fun a => .rawAttribute a.1 a.2) ++
    if ram = 0 then [.append start.contentSource] else start.children.map (startChild ram)

def entry (reg : Registry) (e : Markup.Element) : Instr :=
  match reg.find? e.startName with
  | some s => if e.name == "start" then startEntry e s else .append e.source
  | none => .append e.source

/-- The configuration as it is published. -/
def draft (root : Markup.Element) (reg : Registry) : Draft :=
  root.attributes.map (fun a => .rawAttribute a.1 a.2) ++ root.children.map (entry reg)

end InitConfig

end Overseer
