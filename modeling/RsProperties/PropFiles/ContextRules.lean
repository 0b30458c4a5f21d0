import RsProperties.PropFiles.Loader
import RsProperties.InfoTrie.Serializer

/-!
# Property-contexts files

`PropertyInfoEntry::parse_from_file` reads the rules of a property-contexts file, one a line:
a name, a context, how to match, and a type. A line that cannot be parsed is reported and skipped.
-/

namespace RsProperties

open ByteMem

namespace PropertyInfoEntry

def noParameterTypes : List Bytes :=
  [ascii "string", ascii "int", ascii "bool", ascii "uint", ascii "double", ascii "size"]

def isTypeValid : List Str → Bool
  | [] => false
  | t :: rest =>
    if t.bytes = ascii "enum" then !rest.isEmpty
    else if !rest.isEmpty then false
    else noParameterTypes.contains t.bytes

/-- The type check of `parse_from_line`, and the entry. -/
def ofTokens (property context : Str) (exact : Bool) (typeStrings : List Str) :
    Except Error PropertyInfoEntry :=
  if !typeStrings.isEmpty && !isTypeValid typeStrings then
    .error (.parse s!"Type '{display (Str.joinSpace typeStrings).bytes}' is not valid.")
  else
    .ok { name := property, context := context, typeStr := Str.joinSpace typeStrings,
          exactMatch := exact }

def parseFromLine (line : Str) (requirePrefixOrExact : Bool) : Except Error PropertyInfoEntry :=
  match line.splitWhitespace with
  | [] => .error (.parse s!"Did not find a property entry in '{display line.bytes}'")
  | [_] => .error (.parse s!"Did not find a context entry in '{display line.bytes}'")
  | property :: context :: rest =>
    let matchOperation := rest.head?
    let typeStrings := rest.tail
    let exact := matchOperation.map Str.bytes = some (ascii "exact")
    -- a missing operation is a prefix match; an unknown one is only refused on demand
    match matchOperation with
    | some op =>
      if !exact && op.bytes ≠ ascii "prefix" && requirePrefixOrExact then
        .error (.parse
          s!"Match operation '{display op.bytes}' is not valid. Must be 'prefix' or 'exact'")
      else ofTokens property context exact typeStrings
    | none => ofTokens property context exact typeStrings

/-- The entries and the errors of the lines of a file, from the given line number on. -/
def parseLines (filename : Bytes) (requirePrefixOrExact : Bool) :
    ℕ → List BoundedLine → List PropertyInfoEntry × List Error
  | _, [] => ([], [])
  | lineCount, line :: lines =>
    let (entries, errors) := parseLines filename requirePrefixOrExact (lineCount + 1) lines
    let fail (msg : String) : List PropertyInfoEntry × List Error :=
      (entries, .parse s!"line {lineCount} of \"{display filename}\": {msg}" :: errors)
    if line.truncated then fail s!"line longer than {maxLineLen} bytes"
    else
      match fromUtf8 line.buf with
      | none => fail s!"non-UTF-8 line: {Error.utf8.message}"
      | some text =>
        let text := text.trim
        if text.bytes.isEmpty || text.bytes.head? = some hash then (entries, errors)
        else
          match parseFromLine text requirePrefixOrExact with
          | .ok entry => (entry :: entries, errors)
          | .error (.parse msg) => fail msg
          | .error other => fail other.message

def parseFromFile (fs : FileSystem) (filename : Bytes) (requirePrefixOrExact : Bool) :
    Except Error (List PropertyInfoEntry × List Error) :=
  match fs.openFile filename with
  | .error e => .error (.context
      s!"Failed to open property info file \"{display filename}\"" (.io e))
  | .ok reader => .ok (parseLines filename requirePrefixOrExact 1 reader.lines)

end PropertyInfoEntry

end RsProperties
