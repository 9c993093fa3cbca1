import ScriptInference.Entity.Lookup

/-!
# Descriptions of entities

Three ways to show an entity: a record for display, the short item that completion lists show, and a
line of text with its member keys.
-/

namespace ScriptInference

structure Completion where
  kind : EntityKind
  types : List String
  line : Option UInt64
  deriving DecidableEq, Repr

def Completion.ofEntity (e : Entity) : Completion := ⟨e.kind, e.types.toList, e.line⟩

abbrev Completions := SortedMap String Completion

structure EntityInfo where
  label : String
  kind : EntityKind
  types : List String
  members : List String
  indexes : List String
  callable : Bool
  returns : List String
  isa : Option String
  line : Option UInt64
  deriving DecidableEq, Repr

namespace Store

/-- Adds the named members of a node under the names that are still free. -/
def addNames (s : Store) (items : Completions) (h : Handle) : Completions :=
  (s.node h).members.toList.foldl (fun items entry =>
    match entry.1 with
    | .identifier name => items.insertIfNew name (.ofEntity (s.node entry.2))
    | .type _ => items) items

/-- Names found by lookups on an entity; nearer members hide those of prototypes. -/
def memberNames (s : Store) (h : Handle) : Completions := (s.lookupChain h).foldl s.addNames ∅

def describe (s : Store) (h : Handle) : EntityInfo :=
  let e := s.node h
  { label := e.label
    kind := e.kind
    types := e.types.toList
    members := e.members.keys.filterMap EntryKey.identifier?
    indexes := e.members.keys.filterMap EntryKey.tag?
    callable := e.isCallable
    returns := e.returnTypes.toList
    isa := (s.isa? h).map fun p => (s.node p).label
    line := e.line }

end Store

def optionalField {α : Type} (name : String) (encode : α → Json) : Option α → List (String × Json)
  | some a => [(name, encode a)]
  | none => []

def EntityInfo.fields (i : EntityInfo) : List (String × Json) :=
  [("label", .str i.label), ("kind", .str i.kind.name), ("types", .strings i.types),
    ("members", .strings i.members), ("indexes", .strings i.indexes),
    ("callable", .bool i.callable), ("returns", .strings i.returns)] ++
    optionalField "isa" .str i.isa ++ optionalField "line" (fun n => .nat n.toNat) i.line

/-- The description of an entity, with its source if it has one. -/
def Store.report (s : Store) (h : Handle) : Json :=
  .object ((s.describe h).fields ++ optionalField "source" .str (s.node h).source)

def Completion.toJson (c : Completion) : Json :=
  .object [("kind", .str c.kind.name), ("types", .strings c.types),
    ("line", .ofOption (fun n => .nat n.toNat) c.line)]

def Completions.toJson (items : Completions) : Json :=
  .object (items.toList.map fun e => (e.1, e.2.toJson))

def EntryKey.toJson : EntryKey → Json
  | identifier name => .object [("namespace", .str "identifier"), ("key", .str name)]
  | type tag => .object [("namespace", .str "type"), ("key", .str tag)]

/-- A character inside a quoted text. Control characters are written as their code. -/
def escapeChar (c : Char) : String :=
  match c with
  | '"' => "\\\""
  | '\\' => "\\\\"
  | '\n' => "\\n"
  | '\r' => "\\r"
  | '\t' => "\\t"
  | c =>
    if c.toNat = 0 then "\\0"
    else if c.toNat < 32 || (127 ≤ c.toNat && c.toNat < 160) then
      "\\u\x7b" ++ String.ofList (Nat.toDigits 16 c.toNat) ++ "\x7d"
    else c.toString

def quoted (s : String) : String := "\"" ++ String.join (s.toList.map escapeChar) ++ "\""

def EntryKey.text : EntryKey → String
  | identifier name => "Identifier(" ++ quoted name ++ ")"
  | type tag => "Type(" ++ quoted tag ++ ")"

/-- One line with kind, label, types and member keys. Members themselves are left out, since the
graph may have cycles. -/
def Entity.text (e : Entity) : String :=
  "Entity \x7b kind: " ++ e.kind.name.capitalize ++ ", label: " ++ quoted e.label ++
    ", types: \x7b" ++ String.intercalate ", " (e.types.toList.map quoted) ++ "\x7d, members: [" ++
    String.intercalate ", " (e.members.keys.map EntryKey.text) ++ "], .. \x7d"

end ScriptInference
