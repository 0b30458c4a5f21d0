import RsProperties.Wire
import RsProperties.Library.Process

/-!
# The socket handler

`handle_client` serves one connection: it reads a command word, decodes a V1 or V2 set request, asks
the properties service to apply it and, for V2, answers with a status word. It is written as a
`Process` whose operations are its `await` points: an exact read, a write and an `ask` of the service.
Errors end the handler (`?` of the source) through `ExceptT`.

Words travel in the byte order of the machine, a parameter here.
-/

namespace RsProperties

open ByteMem

namespace Service

/-- The message forwarded to the properties service. -/
structure PropertyMessage where
  name : Str
  value : Str
  deriving DecidableEq

/-- What a socket operation can fail with. -/
inductive IoError
  | unexpectedEof
  | other (msg : String)
  deriving DecidableEq, Repr

def IoError.toError : IoError → Error
  | .unexpectedEof => .io "unexpected end of file"
  | .other msg => .io msg

/-- The points at which the handler waits. -/
inductive SocketOp
  | readExact (n : ℕ)
  | writeAll (bytes : Bytes)
  | ask (message : PropertyMessage)
  deriving DecidableEq

/-- The answers. A failed `ask` (the actor is gone) carries its text. -/
@[reducible]
def SocketOp.Ans : SocketOp → Type
  | .readExact _ => Except IoError Bytes
  | .writeAll _ => Except IoError Unit
  | .ask _ => Except String Bool

abbrev Handler := Process SocketOp SocketOp.Ans

/-- Handler code with the `?` operator. -/
abbrev HandlerM := ExceptT Error Handler

/-- Perform an operation and look at its answer. -/
def await (o : SocketOp) : HandlerM o.Ans := ExceptT.lift (Process.op o)

/-- A computation without an `await`. -/
def liftExcept {α : Type} (r : Except Error α) : HandlerM α := ExceptT.mk (pure r)

/-- `stream.read_exact(..).await?`. -/
def readExact (n : ℕ) : HandlerM Bytes := do
  let r : Except IoError Bytes ← await (.readExact n)
  match r with
  | .ok bytes => return bytes
  | .error e => throw e.toError

/-- `i32::to_ne_bytes`. -/
def i32Bytes (order : ByteOrder) (x : ℤ) : Bytes := u32Bytes order (x % 2 ^ 32).toNat

section Handlers

variable (order : ByteOrder)

def sendResponse (response : ℤ) : HandlerM Unit := do
  let r : Except IoError Unit ← await (.writeAll (i32Bytes order response))
  match r with
  | .ok _ => return ()
  | .error e => throw e.toError

/-- `let _ = Self::send_response(stream, PROP_ERROR).await; return Err(e)`. -/
def refuse {α : Type} (e : Error) : HandlerM α := do
  let _ ← await (.writeAll (i32Bytes order propError))
  throw e

/-- `string_from_fixed`: a NUL-padded V1 field up to its first NUL. -/
def stringFromFixed (buf : Bytes) : Except Error Str :=
  match fromUtf8 (buf.takeWhile (· != 0)) with
  | some s => .ok s
  | none => .error .utf8

def readU32 : HandlerM ℕ := do
  let buf ← readExact 4
  return ofU32Bytes order buf

/-- `read_string`: a NUL in a length-prefixed string is an error, not its end. -/
def readString (len : ℕ) : HandlerM Str := do
  if len = 0 then return ⟨[], Utf8.valid_nil⟩
  else
    let buf ← readExact len
    if buf.contains 0 then throw (.encoding "wire string contains an interior NUL byte")
    else
      match fromUtf8 buf with
      | some s => return s
      | none => throw .utf8

/-- The legacy command: fixed fields, no status word. -/
def handleSetpropV1 : HandlerM Unit := do
  let nameBuf ← readExact propNameMax
  let valueBuf ← readExact propValueMax
  let name ← liftExcept (stringFromFixed (nameBuf.set (propNameMax - 1) 0))
  let value ← liftExcept (stringFromFixed (valueBuf.set (propValueMax - 1) 0))
  -- the three answers only differ in what is logged
  let _ ← await (.ask ⟨name, value⟩)
  return ()

/-- The V2 command. Failures from the name on are answered before the connection closes. -/
def handleSetprop2 : HandlerM Unit := do
  let nameLen ← readU32 order
  if maxWireNameLen < nameLen then
    refuse order (.fileValidation s!"Name length too large: {nameLen}")
  else
    let name ← tryCatch (readString nameLen) (refuse order)
    let valueLen ← tryCatch (readU32 order) (refuse order)
    if maxWireValueLen < valueLen then
      refuse order (.fileValidation s!"Value length too large: {valueLen}")
    else
      let value ← tryCatch (readString valueLen) (refuse order)
      let r : Except String Bool ← await (.ask ⟨name, value⟩)
      match r with
      | .ok true => sendResponse order propSuccess
      | .ok false => sendResponse order propError
      | .error _ => sendResponse order propError

def handleClient : HandlerM Unit := do
  let r : Except IoError Bytes ← await (.readExact 4)
  match r with
  | .error .unexpectedEof => return ()
  | .error e => throw e.toError
  | .ok cmdBuf =>
    let cmd := ofU32Bytes order cmdBuf
    if cmd = propMsgSetprop then handleSetpropV1
    else if cmd = propMsgSetprop2 then handleSetprop2 order
    else sendResponse order propError

end Handlers

end Service

end RsProperties
