import RsProperties.InfoTrie.Parser

/-!
# The trie builder

`TrieBuilder` collects the rules of the property-context files in a trie over name segments. A node
carries the rule that ends in a dot at its own path, the prefix and exact rules whose last segment hangs
below it, and its children. The hash sets and maps of the source are lists here, kept free of duplicates by
the operations themselves; a child's key is the name of its entry. The sets of contexts and types are
sorted lists.
-/

namespace RsProperties

open ByteMem

/-- An entry as the builder holds it; two entries count as duplicates when their names agree. -/
structure PropertyEntryBuilder where
  name : Bytes
  context : Option Bytes
  rtype : Option Bytes
  deriving DecidableEq, Repr

/-- A trie node under construction. -/
structure TrieBuilderNode where
  propertyEntry : PropertyEntryBuilder
  prefixes : List PropertyEntryBuilder
  exactMatches : List PropertyEntryBuilder
  children : List TrieBuilderNode

namespace TrieBuilderNode

def new (name : Bytes) : TrieBuilderNode where
  propertyEntry := { name := name, context := none, rtype := none }
  prefixes := []
  exactMatches := []
  children := []

/-- The key of a node among its siblings. -/
def key (node : TrieBuilderNode) : Bytes := node.propertyEntry.name

def addExactMatchContext (node : TrieBuilderNode) (name context rtype fullName : Bytes) :
    Except Error TrieBuilderNode :=
  if node.exactMatches.any (·.name = name) then
    .error (.fileValidation s!"Exact match already exists for '{display fullName}'")
  else .ok { node with exactMatches := node.exactMatches ++ [⟨name, some context, some rtype⟩] }

def addPrefixContext (node : TrieBuilderNode) (name context rtype fullName : Bytes) :
    Except Error TrieBuilderNode :=
  if node.prefixes.any (·.name = name) then
    .error (.fileValidation s!"Prefix already exists for '{display fullName}'")
  else .ok { node with prefixes := node.prefixes ++ [⟨name, some context, some rtype⟩] }

/-- The trailing-dot rule of the node itself, set at most once. -/
def setRule (node : TrieBuilderNode) (context rtype fullName : Bytes) :
    Except Error TrieBuilderNode :=
  if node.propertyEntry.context.isSome || node.propertyEntry.rtype.isSome then
    .error (.fileValidation s!"Duplicate prefix match detected for '{display fullName}'")
  else .ok { node with
    propertyEntry := { node.propertyEntry with context := some context, rtype := some rtype } }

/-- Work on the child with the given key, which is created first where it is missing. -/
def updateChildren (part : Bytes) (f : TrieBuilderNode → Except Error TrieBuilderNode) :
    List TrieBuilderNode → Except Error (List TrieBuilderNode)
  | [] => do
    let child ← f (new part)
    return [child]
  | child :: children =>
    if child.key = part then do
      let child ← f child
      return child :: children
    else do
      let children ← updateChildren part f children
      return child :: children

/-- Work on a child of a node. -/
def updateChild (part : Bytes) (f : TrieBuilderNode → Except Error TrieBuilderNode)
    (node : TrieBuilderNode) : Except Error TrieBuilderNode := do
  let children ← updateChildren part f node.children
  return { node with children := children }

/-- The walk of `add_to_trie` along the name's inner segments, creating what is missing, and the work
at its end. -/
def descend (f : TrieBuilderNode → Except Error TrieBuilderNode) :
    List Bytes → TrieBuilderNode → Except Error TrieBuilderNode
  | [], node => f node
  | part :: parts, node => updateChild part (descend f parts) node

end TrieBuilderNode

/-- `intern`: insert into a sorted set. -/
def intern (s : Bytes) : List Bytes → List Bytes
  | [] => [s]
  | x :: xs =>
    match compare s x with
    | .lt => s :: x :: xs
    | .eq => x :: xs
    | .gt => x :: intern s xs

def maxNameSegments : ℕ := 256

structure TrieBuilder where
  root : TrieBuilderNode
  contexts : List Bytes
  types : List Bytes

/-- The segments of a rule's name: one empty segment behind a trailing dot is dropped, and whether it
was there is returned. -/
def nameParts (name : Bytes) : List Bytes × Bool :=
  let parts := splitDot name
  if parts.getLast? = some [] then (parts.dropLast, true) else (parts, false)

namespace TrieBuilder

def new (defaultContext defaultType : Bytes) : TrieBuilder where
  root := { TrieBuilderNode.new (ascii "root") with
    propertyEntry :=
      { name := ascii "root", context := some defaultContext, rtype := some defaultType } }
  contexts := [defaultContext]
  types := [defaultType]

def addToTrie (builder : TrieBuilder) (name context rtype : Bytes) (exact : Bool) :
    Except Error TrieBuilder := do
  validateNoInteriorNul "property name" name
  validateNoInteriorNul "context" context
  validateNoInteriorNul "type" rtype
  let (parts, endsWithDot) := nameParts name
  if maxNameSegments < parts.length then
    throw (.parse s!"Property name has more than {maxNameSegments} segments")
  if parts.any (·.isEmpty) then
    throw (.parse s!"Property name contains an empty segment: '{display name}'")
  let some lastName := parts.getLast?
    | throw (.parse s!"No name parts for '{display name}'")
  let contexts := intern context builder.contexts
  let types := intern rtype builder.types
  let finish : TrieBuilderNode → Except Error TrieBuilderNode :=
    if exact then fun node => node.addExactMatchContext lastName context rtype name
    else if !endsWithDot then fun node => node.addPrefixContext lastName context rtype name
    else fun node => node.updateChild lastName fun child => child.setRule context rtype name
  let root ← builder.root.descend finish parts.dropLast
  return { root := root, contexts := contexts, types := types }

end TrieBuilder

end RsProperties
