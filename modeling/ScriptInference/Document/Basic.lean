import ScriptInference.Hashing.Hasher
import ScriptInference.Resolution.Resolve
import ScriptInference.Syntax.Block

/-!
# Documents

A document drives the inference of one program. Every block gets a scope of its own, chained to the
scope of the block around it and created when it is first needed. Analyzing a block first analyzes
the blocks around it, so that methods know their receiver, and a block is analyzed only once.

Analysis records every assignment target and loop variable under its structural hash. A search for
the definitions of an expression compares hashes first and canonical ids second.
-/

namespace ScriptInference

inductive DocumentError where
  | unknownBlock (id : String)
  | blockNotAnalyzed (id : String)
  | catalog (e : CatalogError)
  | capacity (e : CapacityError)
  deriving DecidableEq, Repr

def DocumentError.message : DocumentError → String
  | unknownBlock id => s!"Block '{id}' does not belong to this document"
  | blockNotAnalyzed id => s!"Block '{id}' has not been analyzed"
  | catalog e => "Catalog error: " ++ e.message
  | capacity e => e.message

/-- A recorded assignment target or loop variable: its canonical id, the block it belongs to, and
where it stands. -/
structure DefinitionSite where
  id : String
  block : String
  span : Span
  deriving DecidableEq, Repr

/-- The document holds its globals, its scopes, the functions of its table and its registry. -/
structure Document where
  chunk : Chunk
  registry : TypeRegistry
  options : Options
  hasher : Hasher
  globals : Handle
  scopes : SortedMap String Scope := ∅
  functions : FunctionTable := ∅
  definitions : List (UInt32 × DefinitionSite) := []
  analyzed : SortedSet String := ∅

namespace Document

/-- A document over a registry, which it takes over. -/
def new (chunk : Chunk) (registry : TypeRegistry) (options : Options) (hasher : Hasher)
    (s : Store) : Document × Store :=
  let (globals, s) := s.alloc Scope.newGlobals
  ({ chunk, registry, options, globals, hasher }, s)

/-- A document over a registry of its own, seeded from a catalog that has just been read. A catalog
that could not be read comes before a cache that cannot be made. -/
def ofCatalog (chunk : Chunk) (catalog : Except CatalogError Catalog) (options : Options)
    (s : Store) : Except DocumentError (Document × Store) := do
  let catalog ← catalog.mapError .catalog
  let hasher ← (Hasher.reserve options.hashCacheCapacity).mapError .capacity
  let (registry, s) := TypeRegistry.new catalog s
  return new chunk registry options hasher s

def rootId (d : Document) : String := d.chunk.span.id

/-- Ids of all blocks, enclosing blocks first. -/
def blockIds (d : Document) : List String := d.chunk.blockIds

def isAnalyzed (d : Document) (id : String) : Bool := id ∈ d.analyzed

/-- The block with an id, and the id of the block around it. -/
def block? (d : Document) (id : String) : Option (Block × Option String) :=
  d.chunk.blocks.reverse.find? fun b => b.1.id = id

def block (d : Document) (id : String) : Except DocumentError (Block × Option String) :=
  match d.block? id with
  | some b => .ok b
  | none => .error (.unknownBlock id)

/-- The ids from a block outwards, following enclosing blocks. -/
def ancestorsWithin (d : Document) : Nat → String → Except DocumentError (List String)
  | 0, _ => .ok []
  | bound + 1, id => do
    match (← d.block id).2 with
    | none => return [id]
    | some around => return id :: (← d.ancestorsWithin bound around)

/-- The block followed by the blocks around it, innermost first. -/
def ancestors (d : Document) (id : String) : Except DocumentError (List String) :=
  d.ancestorsWithin d.chunk.blocks.length id

/-- The scope of the first block of a chain of enclosing blocks, created together with those it
needs. -/
def scopeFor : List String → Document → Infer (Scope × Document)
  | [], d => do
    let c ← modifyGet (Scope.root (← Infer.retain d.globals))
    return (c, d)
  | id :: around, d => do
    match d.scopes.get? id with
    | some c => return (c, d)
    | none =>
      match around with
      | [] =>
        let c ← modifyGet (Scope.root (← Infer.retain d.globals))
        return (c, { d with scopes := d.scopes.insert id c })
      | around =>
        let (outer, d) ← scopeFor around d
        let context := (d.functions.get? id).bind (← get).context?
        modify (Store.retainAll context.toList)
        let c ← modifyGet (outer.child context)
        return (c, { d with scopes := d.scopes.insert id c })

/-- Records where a target is bound. -/
def record (d : Document) (block : String) (target : Expr) : Document :=
  let (id, hasher) := (Hasher.id target).run d.hasher
  let (hash, hasher) := (Hasher.hash target).run hasher
  { d with hasher, definitions := d.definitions ++ [(hash, { id, block, span := target.span })] }

/-- Adds functions to the table, taking over the holds on them; entries that they replace are
released. -/
def addFunctions (d : Document) : List (String × Handle) → Infer Document
  | [] => return d
  | (id, h) :: rest => do
    Infer.releaseAll (d.functions.get? id).toList
    addFunctions { d with functions := d.functions.insert id h } rest

/-- The environment in which expressions of a scope are resolved. -/
def env (d : Document) (scope : Scope) : Env :=
  { scope, registry := d.registry, options := d.options }

def runBindings (env : Env) : List Binding → Resolve Unit
  | [] => return
  | b :: rest => do
    let _ ← env.run b
    runBindings env rest

/-- Makes the bindings of a block, given the chain of blocks that starts with it. -/
def runBlock (d : Document) (block : Block) (chain : List String) : Infer Document := do
  let (scope, d) ← scopeFor chain d
  let env := d.env scope
  let ((), functions) ← (do
    env.defineParameters block.parameters
    runBindings env block.bindings : Resolve Unit).run ∅
  let d := (block.bindings.map Binding.target).foldl (fun d t => d.record block.id t) d
  let d ← d.addFunctions functions.toList
  return { d with analyzed := d.analyzed.insert block.id }

/-- Runs the blocks of a chain that are not analyzed yet, outermost first. -/
def runChain : List String → Document → Infer Document
  | [], d => return d
  | id :: around, d => do
    let ran ← runChain around d
    if d.isAnalyzed id then return ran
    else
      match d.block? id with
      | none => return ran
      | some (block, _) => ran.runBlock block (id :: around)

/-- Analyzes a block after the blocks around it. -/
def analyzeBlock (d : Document) (id : String) : Infer (Except DocumentError Document) :=
  match d.ancestors id with
  | .error e => return .error e
  | .ok chain => return .ok (← runChain chain d)

def analyzeAll : List String → Document → Infer (Except DocumentError Document)
  | [], d => return .ok d
  | id :: rest, d => do
    match ← d.analyzeBlock id with
    | .error e => return .error e
    | .ok d => analyzeAll rest d

/-- Analyzes every block. -/
def analyze (d : Document) : Infer (Except DocumentError Document) := analyzeAll d.blockIds d

/-- The scope of an analyzed block. Passes no hold. -/
def scope (d : Document) (id : String) : Except DocumentError Scope := do
  let _ ← d.block id
  match d.scopes.get? id with
  | some c => if d.isAnalyzed id then return c else throw (.blockNotAnalyzed id)
  | none => throw (.blockNotAnalyzed id)

/-- What a name means inside a block. -/
def resolve (d : Document) (id name : String) : Infer (Except DocumentError Handle) :=
  match d.scope id with
  | .error e => return .error e
  | .ok c => return .ok (← Infer.resolveName d.registry c name false)

/-- What an expression means inside a block. -/
def resolveExpression (d : Document) (id : String) (e : Expr) :
    Infer (Except DocumentError Handle) :=
  match d.scope id with
  | .error e => return .error e
  | .ok c => do
    let (h, functions) ← ((d.env c).resolve e).run ∅
    Infer.releaseAll functions.values
    return .ok h

/-- Names visible inside a block. -/
def completions (d : Document) (s : Store) (id : String) : Except DocumentError Completions :=
  (d.scope id).map fun c => c.completions d.registry s

/-- Recorded definitions of an expression that are visible from a block, innermost block first and
in source order within each block. -/
def findDefinitions (d : Document) (id : String) (e : Expr) :
    Except DocumentError (List DefinitionSite) × Document :=
  match d.ancestors id with
  | .error e => (.error e, d)
  | .ok visible =>
    let (hash, hasher) := (Hasher.hash e).run d.hasher
    let bucket := (d.definitions.filter fun x => x.1 = hash).map (·.2)
    if bucket.isEmpty then (.ok [], { d with hasher })
    else
      let (canonical, hasher) := (Hasher.id e).run hasher
      (.ok (visible.flatMap fun b => bucket.filter fun x => x.block = b && x.id = canonical),
        { d with hasher })

/-- Registers a type in the document, consuming the hold on its entity. -/
def setCustom (d : Document) (name : String) (h : Handle) (s : Store) : Bool × Document × Store :=
  let (taken, registry, s) := d.registry.setCustom name h s
  (taken, { d with registry }, s)

/-- Takes over the custom types of another document. Documents are told apart by their keys, and a
document takes nothing from itself. -/
def mergeKeyed {κ : Type} [DecidableEq κ] (target source : κ × Document) (s : Store) :
    Document × Store :=
  let (registry, s) := TypeRegistry.mergeKeyed (target.1, target.2.registry)
    (source.1, source.2.registry) s
  ({ target.2 with registry }, s)

end Document

end ScriptInference
