import ScriptInference.Registry.Basic

/-!
# Scopes

A scope is a chain of frames from the innermost outwards, over the globals of its document. The root
scope has one frame whose locals are the globals. Every nested frame has locals of its own and may
have a context, which is what `self` means inside a method.

Four names never become bindings: `self`, `locals`, `outer` and `globals` stand for parts of the
scope.
-/

namespace ScriptInference

structure Frame where
  locals : Handle
  context : Option Handle := none
  deriving DecidableEq, Repr

structure Scope where
  frame : Frame
  enclosing : List Frame
  globals : Handle
  deriving DecidableEq, Repr

/-- What a reserved name stands for: a part of the scope, or a receiver of which nothing is
known. -/
inductive Pseudo where
  | stored (h : Handle)
  | unknownReceiver
  deriving DecidableEq, Repr

namespace Scope

def reservedNames : List String := ["self", "locals", "outer", "globals"]

def isReserved (name : String) : Bool := reservedNames.contains name

def newGlobals : Entity := { Entity.ofType .map Tag.map with label := "globals" }

def newLocals : Entity := { Entity.ofType .map Tag.map with label := "locals" }

/-- The frames, innermost first. -/
def frames (c : Scope) : List Frame := c.frame :: c.enclosing

def isRoot (c : Scope) : Bool := c.enclosing.isEmpty

def locals (c : Scope) : Handle := c.frame.locals

def context? (c : Scope) : Option Handle := c.frame.context

def parent? (c : Scope) : Option Scope :=
  match c.enclosing with
  | [] => none
  | f :: rest => some { c with frame := f, enclosing := rest }

/-- Locals of the enclosing frame; at the root, the globals. -/
def outer (c : Scope) : Handle :=
  match c.enclosing with
  | [] => c.globals
  | f :: _ => f.locals

/-- The entities of the frames, innermost first: locals, then the context. -/
def frameEntities (c : Scope) : List Handle :=
  c.frames.flatMap fun f => f.locals :: f.context.toList

/-- The entities that the scope holds. -/
def holds (c : Scope) : List Handle := c.globals :: c.frameEntities

/-- What a name stands for if it is reserved; `self` stands for something only in a nested frame. -/
def pseudo? (c : Scope) (name : String) : Option Pseudo :=
  if name = "locals" then some (.stored c.locals)
  else if name = "outer" then some (.stored c.outer)
  else if name = "globals" then some (.stored c.globals)
  else if name = "self" && !c.isRoot then
    some (match c.context? with
      | some h => .stored h
      | none => .unknownReceiver)
  else none

/-- The root scope over some globals; takes over the caller's hold on them. -/
def root (globals : Handle) (s : Store) : Scope × Store :=
  ({ frame := { locals := globals }, enclosing := [], globals }, s.retain globals)

/-- A nested scope. It takes over the caller's hold on the context and takes holds of its own on
what the outer scope holds. -/
def child (outer : Scope) (context : Option Handle) (s : Store) : Scope × Store :=
  let (locals, s) := s.alloc newLocals
  ({ frame := { locals, context }, enclosing := outer.frames, globals := outer.globals },
    s.retainAll outer.holds)

/-- Frames like the given ones, with entities taken from a list in order: first the locals of a
frame, then its context if it has one. -/
def readBack : List Frame → List Handle → List Frame
  | f :: rest, locals :: copies =>
    { locals, context := f.context.bind fun _ => copies.head? } ::
      readBack rest (copies.drop f.context.toList.length)
  | _, _ => []

/-- An independent copy of the whole chain. Globals, locals and contexts are copied together, so
that sharing between them is kept, and the frames are read back from the copies. -/
def copy (c : Scope) (s : Store) : Scope × Store :=
  match s.copyGraph c.holds with
  | (globals :: copies, t) =>
    match readBack c.frames copies with
    | frame :: enclosing => ({ frame, enclosing, globals }, t)
    | [] => root globals t
  | ([], t) =>
    let (globals, t) := t.alloc newGlobals
    root globals t

/-- The binding of a name in the innermost frame that has one, or in the globals. Passes no hold. -/
def find? (c : Scope) (s : Store) (name : String) : Option Handle :=
  (c.frames.map Frame.locals ++ [c.globals]).findSome? fun h => s.findName? h name

def hasProperty (c : Scope) (s : Store) (name : String) : Bool :=
  (c.pseudo? name).isSome || (c.find? s name).isSome

/-- Binds a name in the innermost frame, consuming the hold on the value. Reserved names are
refused. -/
def setProperty (c : Scope) (name : String) (value : Handle) (s : Store) : Bool × Store :=
  if isReserved name then (false, s.release value)
  else s.setProperty c.locals (.identifier name) value

def pseudoCompletion (s : Store) : Pseudo → Completion
  | .stored h => ⟨.internal, (s.node h).types.toList, none⟩
  | .unknownReceiver => ⟨.internal, [Tag.any], none⟩

/-- Every name visible from the innermost frame. Inner bindings hide outer ones; then come the
reserved names and those of the general type. -/
def completions (c : Scope) (r : TypeRegistry) (s : Store) : Completions :=
  let bound := (c.frames.map Frame.locals ++ [c.globals]).foldl s.addNames ∅
  let named := reservedNames.foldl (fun items name =>
    match c.pseudo? name with
    | some p => items.insertIfNew name (pseudoCompletion s p)
    | none => items) bound
  Completions.addMissing named (r.generalIdentifiers s)

end Scope

namespace Infer

/-- The entity that a reserved name stands for. -/
def resolveReserved (c : Scope) (name : String) : Infer (Option Handle) :=
  match c.pseudo? name with
  | none => return none
  | some (.stored h) => return some (← retain h)
  | some .unknownReceiver => return some (← alloc (.anyNamed "self"))

/-- The stored binding of a name. Never calls it. -/
def lookupName (c : Scope) (name : String) : Infer (Option Handle) := do
  match c.find? (← get) name with
  | none => return none
  | some h => return some (← retain h)

def bindName (c : Scope) (name : String) (value : Handle) : Infer Bool :=
  modifyGet (c.setProperty name value)

/-- An identifier as an expression reads it. It always has an answer: after the bindings the general
type is asked, and an unknown name is a new `any`. -/
def resolveName (r : TypeRegistry) (c : Scope) (name : String) (suppress : Bool) :
    Infer Handle := do
  match ← resolveReserved c name with
  | some h => return h
  | none =>
    match ← lookupName c name with
    | some found => readMember found suppress
    | none =>
      match ← generalDefinition r name suppress with
      | some h => return h
      | none => alloc (.anyNamed name)

end Infer

end ScriptInference
