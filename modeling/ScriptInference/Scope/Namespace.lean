import ScriptInference.Scope.Basic

/-!
# Namespaces

A namespace is anything an assignment can bind into: an entity, or the innermost frame of a scope. A
scope has no type tags and no result, so two of the operations on entities are misuse there.
-/

namespace ScriptInference

inductive Namespace where
  | entity (h : Handle)
  | scope (c : Scope)

inductive NamespaceError where
  | scopeHasNoTypes
  | scopeHasNoResult
  deriving DecidableEq, Repr

def NamespaceError.message : NamespaceError → String
  | scopeHasNoTypes => "add_type called on a scope: scopes carry no type tags"
  | scopeHasNoResult => "set_return_entity called on a scope: scopes have no return value"

namespace Namespace

/-- Where members are stored. -/
def container : Namespace → Handle
  | entity h => h
  | scope c => c.locals

/-- The entity that methods bound here get as their `self`. Passes no hold. -/
def owner? : Namespace → Option Handle
  | entity h => some h
  | scope _ => none

/-- The member stored directly under a key. Passes no hold. -/
def local? (n : Namespace) (s : Store) (key : EntryKey) : Option Handle := s.member? n.container key

def addTypes (tags : List String) (s : Store) : Namespace → Except NamespaceError Store
  | entity h => .ok (s.modifyNode h fun e => { e with types := e.types.insertMany tags })
  | scope _ => .error .scopeHasNoTypes

/-- Stores the result of calls, taking over the caller's hold on it. -/
def setResult (value : Handle) (s : Store) : Namespace → Except NamespaceError Store
  | entity h => .ok (s.setResult h value)
  | scope _ => .error .scopeHasNoResult

/-- Writes a member, consuming the hold on the value. -/
def setProperty (n : Namespace) (key : Property) (value : Handle) (s : Store) : Bool × Store :=
  match n, key with
  | scope c, .identifier name => c.setProperty name value s
  | n, key => s.setProperty n.container key value

def hasProperty (n : Namespace) (key : Property) : Infer Bool :=
  match n, key with
  | scope c, .identifier name => return c.hasProperty (← get) name
  | n, key => Infer.hasProperty n.container key

def resolveProperty (r : TypeRegistry) (n : Namespace) (key : Property) (suppress : Bool) :
    Infer Handle :=
  match n, key with
  | scope c, .identifier name => Infer.resolveName r c name suppress
  | n, key => Infer.resolveProperty r n.container key suppress

def extend (n : Namespace) (other : Handle) : Infer Unit := Infer.join {} n.container other

end Namespace

end ScriptInference
