import ScriptInference.Options
import ScriptInference.Resolution.AccessChain
import ScriptInference.Resolution.Bind
import ScriptInference.Syntax.Walk

/-!
# From expressions to entities

An access chain is resolved from its root outwards. A hop that is followed by a call is read without
calling it, so that the call happens once. Chains with too many hops are not resolved.

Functions met on the way are recorded under the ids of their declarations; the table holds them.
-/

namespace ScriptInference

structure Env where
  scope : Scope
  registry : TypeRegistry
  options : Options

/-- Function entities by declaration id. -/
abbrev FunctionTable := SortedMap String Handle

abbrev Resolve (α : Type) := StateT FunctionTable Infer α

namespace Env

/-- Names go through the scope and literals have their primitive types; all else is `any`. -/
def resolveType (env : Env) (suppress : Bool) : Expr → Infer Handle
  | .identifier name _ => Infer.resolveName env.registry env.scope name suppress
  | .nil s => Infer.alloc (.literal Tag.null "null" s.line)
  | .string v s => Infer.alloc (.literal Tag.string v s.line)
  | .number v s => Infer.alloc (.literal Tag.number v.plainText s.line)
  | .boolean v s => Infer.alloc (.literal Tag.number (if v then "true" else "false") s.line)
  | e => Infer.alloc { Entity.ofType .expression Tag.any with line := some e.line }

/-- The hops of an expression, if there are not too many. -/
def chain? (env : Env) (e : Expr) : Option (List Hop) :=
  e.accessChain.filter fun hops => hops.length ≤ env.options.maxChainLength

/-- Whether a hop is read without calling it. -/
def suppresses (hop : Hop) (rest : List Hop) : Bool :=
  hop.reference || (rest.head?.any fun next => next.access.isCall)

/-- One hop from an entity. -/
def resolveHop (env : Env) (current : Handle) (hop : Hop) (suppress : Bool) : Infer Handle := do
  match hop.access with
  | .member name => Infer.resolveProperty env.registry current (.identifier name) suppress
  | .index e =>
    let key ← env.resolveType false e
    let found ← Infer.resolveProperty env.registry current (.value key) suppress
    Infer.release key
    return found
  | .call _ =>
    if (← Infer.node current).isCallable && !hop.reference then Infer.invoke current
    else Infer.retain current
  | .slice => Infer.copy current { kind := some .expression }
  | .name _ => Infer.alloc .any
  | .value _ => Infer.alloc .any

/-- The next `count` hops from an entity; consumes the hold on it. -/
def resolveHops (env : Env) : Nat → Handle → List Hop → Infer Handle
  | 0, current, _ => return current
  | _ + 1, current, [] => return current
  | count + 1, current, hop :: rest => do
    let next ← env.resolveHop current hop (suppresses hop rest)
    Infer.release current
    env.resolveHops count next rest

/-- The first hops of a chain up to the given number, the root included. A root that is a value is
resolved by `root`. -/
def walk (env : Env) (root : Resolve Handle) (count : Nat) : List Hop → Resolve (Option Handle)
  | [] => return none
  | hop :: rest => do
    match hop.access with
    | .name name =>
      let first ← Infer.resolveName env.registry env.scope name (suppresses hop rest)
      return some (← env.resolveHops (count - 1) first rest)
    | .value _ =>
      let first ← root
      return some (← env.resolveHops (count - 1) first rest)
    | _ => return none

/-- An access expression whose root value, if it has one, is resolved by `root`. -/
def resolveChain (env : Env) (root : Resolve Handle) (e : Expr) : Resolve (Option Handle) :=
  match env.chain? e with
  | none => return none
  | some hops => env.walk root hops.length hops

/-- An access expression, or what its outermost node tells. -/
def resolveAccess (env : Env) (suppress : Bool) (root : Resolve Handle) (e : Expr) :
    Resolve Handle := do
  match ← env.resolveChain root e with
  | some h => return h
  | none => env.resolveType suppress e

/-- Stores a field of a map constructor, consuming the hold on the value. -/
def setField (env : Env) (map : Handle) (key : Expr) (value : Handle) : Infer Unit := do
  if (← Infer.node value).kind = .function then modify (Store.setContext value map)
  match key with
  | .string name s =>
    let value ← Infer.prepare value (some name) s.line
    let _ ← Infer.setProperty map (.identifier name) value
  | key =>
    let k ← env.resolveType false key
    let value ← Infer.prepare value none key.line
    let _ ← Infer.setProperty map (.value k) value
    Infer.release k

/-- Stores the element of a list constructor; consumes the holds on the items. -/
def setItems (list : Handle) (line : UInt64) : List Handle → Infer Unit
  | [] => return
  | [item] => do
    let element ← Infer.prepare item none line
    setElement list element
  | items => do
    let element ← Infer.union .expression "element" items
    setElement list element
    Infer.releaseAll items
where
  setElement (list element : Handle) : Infer Unit := do
    let key ← Infer.alloc (.ofType .literal Tag.number)
    let _ ← Infer.setProperty list (.value key) element
    Infer.release key

/-- A map constructor whose fields are stored by `fill`. -/
def newMap (line : UInt64) (fill : Handle → Resolve Unit) : Resolve Handle := do
  let map ← Infer.alloc { Entity.ofType .map Tag.map with line := some line }
  fill map
  return map

/-- A list constructor over the given items. -/
def newList (line : UInt64) (items : Resolve (List Handle)) : Resolve Handle := do
  let list ← Infer.alloc { Entity.ofType .list Tag.list with line := some line }
  setItems list line (← items)
  return list

/-- A map that inherits from an entity, which it takes over. -/
def newHeir (line : UInt64) (prototype : Handle) : Infer Handle := do
  let made ← Infer.alloc { Entity.ofType .map Tag.map with line := some line }
  Infer.inherit made prototype
  return made

/-- The entity of a function, recorded in the table. -/
def newFunction (arguments : List Argument) (declaration : Span) : Resolve Handle := do
  let h ← Infer.alloc
    { Entity.ofType .function Tag.function with
      label := "function"
      source := some declaration.id
      line := some declaration.line
      signatures := .ofList [.function arguments []] }
  let table ← get
  let _ ← Infer.retain h
  Infer.releaseAll (table.get? declaration.id).toList
  set (table.insert declaration.id h)
  return h

mutual

/-- The entity of an expression in the place of a value. -/
def resolve (env : Env) : Expr → Resolve Handle
  | .function d _ => env.resolveFunction d
  | .map fs s => newMap s.line fun map => env.resolveFields map fs
  | .list is s => newList s.line (env.resolveItems is)
  | .unary .new a s => do newHeir s.line (← env.resolveAccess true (env.rootValue a) a)
  | .unary .reference a s => env.resolveAccess false (env.rootValue a) (.unary .reference a s)
  | .unary _ _ s => Infer.alloc { Entity.ofType .expression Tag.number with line := some s.line }
  | .member b n s => env.resolveAccess false (env.rootValue b) (.member b n s)
  | .index b i s => env.resolveAccess false (env.rootValue b) (.index b i s)
  | .slice b l r s => env.resolveAccess false (env.rootValue b) (.slice b l r s)
  | .call b as s => env.resolveAccess false (env.rootValue b) (.call b as s)
  | .identifier n s =>
    env.resolveAccess false (env.resolveType false (.identifier n s)) (.identifier n s)
  | e => env.resolveType false e

/-- The value at the root of an access expression. -/
def rootValue (env : Env) : Expr → Resolve Handle
  | .unary _ a _ => env.rootValue a
  | .member b _ _ => env.rootValue b
  | .index b _ _ => env.rootValue b
  | .slice b _ _ _ => env.rootValue b
  | .call b _ _ => env.rootValue b
  | .map fs s => newMap s.line fun map => env.resolveFields map fs
  | .list is s => newList s.line (env.resolveItems is)
  | e => env.resolveType false e

def resolveFields (env : Env) (map : Handle) : Fields → Resolve Unit
  | [] => return
  | (k, v) :: fs => do
    let value ← env.resolve v
    env.setField map k value
    env.resolveFields map fs

def resolveItems (env : Env) : List Expr → Resolve (List Handle)
  | [] => return []
  | e :: es => return (← env.resolve e) :: (← env.resolveItems es)

def resolveFunction (env : Env) : FunctionDecl → Resolve Handle
  | .mk ps _ s => do newFunction (← env.resolveArguments ps) s

def resolveArguments (env : Env) : List Param → Resolve (List Argument)
  | [] => return []
  | p :: ps => return (← env.resolveArgument p) :: (← env.resolveArguments ps)

/-- A parameter without a default takes anything. -/
def resolveArgument (env : Env) : Param → Resolve Argument
  | .plain n _ => return { label := n, types := [Tag.any] }
  | .withDefault n d _ => do
    let value ← env.resolve d
    let types := (← Infer.node value).types.toList
    Infer.release value
    return { label := n, types, optional := true }

end

/-- An access expression; `none` when it is no chain that can be resolved. -/
def resolveNamespace (env : Env) (e : Expr) : Resolve (Option Handle) :=
  env.resolveChain (env.rootValue e) e

/-- Binds a value at an assignment target, consuming the hold on it. A lone name is bound in the
scope; a longer chain is bound on what its prefix resolves to. -/
def define (env : Env) (target : Expr) (value : Handle) : Resolve Bool := do
  let merge := env.options.mergeReassignments
  let refuse : Resolve Bool := do
    Infer.release value
    return false
  match env.chain? target with
  | none => refuse
  | some [] => refuse
  | some [hop] =>
    match hop.access with
    | .name name => Infer.bind merge (.scope env.scope) (.identifier name) value target.line
    | _ => refuse
  | some hops =>
    match ← env.walk (env.rootValue target) (hops.length - 1) hops with
    | none => refuse
    | some container =>
      let taken ← match hops.getLast?.map Hop.access with
        | some (.member name) =>
          Infer.bind merge (.entity container) (.identifier name) value target.line
        | some (.index e) => do
          let key ← env.resolveType false e
          let taken ← Infer.bind merge (.entity container) (.value key) value target.line
          Infer.release key
          pure taken
        | _ => refuse
      Infer.release container
      return taken

/-- Resolves an initialiser and binds it. -/
def assign (env : Env) (target init : Expr) : Resolve Bool := do
  env.define target (← env.resolve init)

/-- What a parameter stands for if nothing is passed for it. -/
def parameterValue (env : Env) (p : Param) : Resolve Handle :=
  match p.default? with
  | some d => env.resolve d
  | none => Infer.alloc .any

/-- Binds a parameter of a function in its scope. -/
def defineParameter (env : Env) (p : Param) : Resolve Unit := do
  let value ← env.parameterValue p
  let bound ← Infer.copy value
    { kind := some .parameter, label := some p.name, line := some p.span.line }
  let _ ← Infer.bindName env.scope p.name bound
  Infer.release value

def defineParameters (env : Env) : List Param → Resolve Unit
  | [] => return
  | p :: ps => do
    env.defineParameter p
    env.defineParameters ps

/-- The element of a list. -/
def listElement (env : Env) (list : Handle) : Infer Handle := do
  let key ← Infer.alloc (.ofType .literal Tag.number)
  let h ← Infer.resolveProperty env.registry list (.value key) false
  Infer.release key
  return h

/-- An entry of a map, with a key and a value that may be anything. -/
def mapEntry : Infer Handle := do
  let entry ← Infer.alloc (.ofType .map Tag.map)
  let _ ← Infer.setProperty entry (.identifier "key") (← Infer.alloc .any)
  let _ ← Infer.setProperty entry (.identifier "value") (← Infer.alloc .any)
  return entry

/-- What iterating a collection gives for each of the types that can be iterated. -/
def elementSources (env : Env) (collection : Handle) : List (String × Infer Handle) :=
  [(Tag.list, env.listElement collection),
    (Tag.string, Infer.alloc (.ofType .expression Tag.string)), (Tag.map, mapEntry)]

/-- The pieces that iterating a collection may give. -/
def elementParts (env : Env) (collection : Handle) : Infer (List Handle) := do
  let types := (← Infer.node collection).types
  ((env.elementSources collection).filter (·.1 ∈ types)).mapM (·.2)

/-- The element that iterating an expression gives. -/
def resolveElement (env : Env) (iterator : Expr) : Resolve Handle := do
  let collection ← env.resolve iterator
  let parts ← env.elementParts collection
  let element ← match parts with
    | [] => Infer.alloc .any
    | [part] => pure part
    | parts => do
      let merged ← Infer.union .expression "element" parts
      Infer.releaseAll parts
      pure merged
  Infer.release collection
  return element

/-- Binds the variable of a loop, and its index if the options ask for it. -/
def defineLoop (env : Env) (element iterator : Expr) (span : Span) : Resolve Bool := do
  let bound ← env.define element (← env.resolveElement iterator)
  if env.options.implicitLoopIndex then
    match element.identifier? with
    | some name =>
      let label := "__" ++ name ++ "_idx"
      let index ← Infer.alloc
        { Entity.ofType .variable Tag.number with label, line := some span.line }
      let _ ← Infer.bindName env.scope label index
    | none => pure ()
  return bound

/-- Makes one binding of a block. -/
def run (env : Env) : Binding → Resolve Bool
  | .assignment target init _ => env.assign target init
  | .loop element iterator span => env.defineLoop element iterator span

end Env

end ScriptInference
