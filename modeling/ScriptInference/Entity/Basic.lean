import Std.Data.TreeMap
import ScriptInference.Catalog.Signature

/-!
# Entities

An entity is one node of the type graph: what is known about a value, a binding or a catalog type.
It carries a set of type tags, the signatures under which it can be called, and members under two
kinds of key. Identifier keys come from `a.b` and from indexing with a string literal, type keys
from indexing with any other value.

Nodes refer to each other by handle. A member and a declared result are held, which keeps their node
alive. A prototype link and a context link do not, except that an entity may hold a prototype that
nothing else holds.
-/

namespace ScriptInference

inductive EntityKind where
  | variable
  | property
  | parameter
  | function
  | literal
  | map
  | list
  | expression
  | internal
  | unknown
  deriving DecidableEq, Repr, Inhabited

namespace EntityKind

def name : EntityKind → String
  | .variable => "variable"
  | .property => "property"
  | .parameter => "parameter"
  | .function => "function"
  | .literal => "literal"
  | .map => "map"
  | .list => "list"
  | .expression => "expression"
  | .internal => "internal"
  | .unknown => "unknown"

def all : List EntityKind :=
  [.variable, .property, .parameter, .function, .literal, .map, .list, .expression, .internal,
    .unknown]

def ofName? (s : String) : Option EntityKind := all.find? (·.name = s)

end EntityKind

inductive EntryKey where
  | identifier (name : String)
  | type (tag : String)
  deriving DecidableEq, Repr

namespace EntryKey

def identifier? : EntryKey → Option String
  | identifier name => some name
  | type _ => none

def tag? : EntryKey → Option String
  | identifier _ => none
  | type tag => some tag

/-- Identifiers come before type tags; within a group the order is that of the texts. -/
def Precedes : EntryKey → EntryKey → Prop
  | identifier a, identifier b => a < b
  | identifier _, type _ => True
  | type _, identifier _ => False
  | type a, type b => a < b

instance : LT EntryKey := ⟨Precedes⟩

instance : DecidableLT EntryKey
  | identifier a, identifier b => inferInstanceAs (Decidable (a < b))
  | identifier _, type _ => .isTrue trivial
  | type _, identifier _ => .isFalse id
  | type a, type b => inferInstanceAs (Decidable (a < b))

instance : StrictOrder EntryKey where
  irrefl
    | identifier a => StrictOrder.irrefl a
    | type a => StrictOrder.irrefl a
  trans {a b c} hab hbc := by
    cases a <;> cases b <;> cases c
    · exact String.lt_trans hab hbc
    · trivial
    · exact hbc.elim
    · trivial
    · exact hab.elim
    · exact hab.elim
    · exact hbc.elim
    · exact String.lt_trans hab hbc
  connected {a b} h ne := by
    cases a <;> cases b
    · exact instStrictOrderString.connected h fun e => ne (congrArg _ e)
    · exact (h trivial).elim
    · trivial
    · exact instStrictOrderString.connected h fun e => ne (congrArg _ e)

end EntryKey

structure Handle where
  index : Nat
  deriving DecidableEq, Repr, Inhabited

instance : Ord Handle := ⟨compareOn Handle.index⟩

instance : Std.TransOrd Handle := inferInstanceAs (Std.TransCmp (compareOn Handle.index))

instance : Std.LawfulEqOrd Handle where
  eq_of_compare {a b} h := by
    cases a
    cases b
    exact congrArg Handle.mk (Std.compare_eq_iff_eq.1 h)

/-- A prototype link; `owned` tells whether the link holds its target. -/
structure Prototype where
  target : Handle
  owned : Bool
  deriving DecidableEq, Repr

/-- The result of a call is described by the signatures unless `result` names a node. A `shaped`
entity was seeded from a catalog type and has members whatever its tags. -/
structure Entity where
  kind : EntityKind
  label : String := ""
  types : SortedSet String := ∅
  members : SortedMap EntryKey Handle := ∅
  signatures : ContentSet Definition := ∅
  isa : Option Prototype := none
  context : Option Handle := none
  result : Option Handle := none
  source : Option String := none
  line : Option UInt64 := none
  shaped : Bool := false
  deriving DecidableEq

namespace Entity

def ofType (kind : EntityKind) (tag : String) : Entity := { kind, types := .ofList [tag] }

def any : Entity := ofType .unknown Tag.any

def anyNamed (label : String) : Entity := { any with label }

instance : Inhabited Entity := ⟨any⟩

def literal (tag label : String) (line : UInt64) : Entity :=
  { ofType .literal tag with label, line := some line }

/-- Tags whose values hold members. -/
def holdsMembers (types : SortedSet String) : Bool :=
  Tag.map ∈ types || Tag.list ∈ types || Tag.any ∈ types

def isMapShaped (e : Entity) : Bool := e.shaped || holdsMembers e.types

/-- Whether the entity answers lookups when reached through a prototype link. -/
def isInheritable (e : Entity) : Bool := holdsMembers e.types

/-- Maps and lists are shared when bound; every other value is copied. -/
def isReferenceShaped (e : Entity) : Bool := Tag.map ∈ e.types || Tag.list ∈ e.types

def isCallable (e : Entity) : Bool := e.signatures.toList.any Definition.isFunction

/-- Everything that some callable signature may return. -/
def returnTypes (e : Entity) : SortedSet String :=
  .ofList ((e.signatures.toList.filter Definition.isFunction).flatMap Definition.returns)

def member? (e : Entity) (key : EntryKey) : Option Handle := e.members.get? key

/-- Members and result: what a deep copy copies along. -/
def parts (e : Entity) : List Handle := e.members.values ++ e.result.toList

/-- The nodes kept alive by this one. -/
def holds (e : Entity) : List Handle :=
  e.parts ++ (e.isa.filter Prototype.owned).toList.map Prototype.target

/-- The members stored under type keys that a key of the given types selects. -/
def indexMatches (e : Entity) (keyTypes : SortedSet String) : List Handle :=
  if Tag.any ∈ keyTypes then
    e.members.toList.filterMap fun entry => entry.1.tag?.map fun _ => entry.2
  else keyTypes.toList.filterMap fun tag => e.member? (.type tag)

end Entity

/-- Fields that a copy may replace. -/
structure Overrides where
  kind : Option EntityKind := none
  label : Option String := none
  line : Option UInt64 := none
  source : Option String := none

def Entity.override (e : Entity) (o : Overrides) : Entity :=
  { e with
    kind := o.kind.getD e.kind
    label := o.label.getD e.label
    line := o.line.or e.line
    source := o.source.or e.source }

end ScriptInference
