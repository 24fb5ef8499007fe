import TinyKv.Types

/-!
# Requests and responses on the wire

`api/codec.cpp`. A request line is split at white space, the first token names the command in any
case, the others are its arguments. A response is a line of three fields, two of them strings behind
their decimal length:

`status=<STATUS> message=<length>:<bytes> data=<length>:<bytes>`

The decoder keeps a position in the line; `std::string::compare` throws when it is behind the end.
-/

namespace TinyKv

open Bytes

namespace protocol

/-- `protocol::Command`. -/
inductive Command where
  | PUT
  | GET
  | DEL
  | EXIT
  | _FLUSH
  | UNKNOWN
  deriving DecidableEq, Repr

/-- `protocol::Request`. -/
structure Request where
  command : Command
  args : List Bytes
  deriving DecidableEq, Repr

/-- `std::isspace` in the classic locale: tab, line feed, vertical tab, form feed, carriage return
and blank. -/
def isSpace (b : UInt8) : Bool := b == 9 || b == 10 || b == 11 || b == 12 || b == 13 || b == 32

/-- What repeated `iss >> token` reads. -/
def tokens (line : Bytes) : List Bytes := (line.splitOnP isSpace).filter (· ≠ [])

/-- `std::toupper` in the classic locale. -/
def toupper (b : UInt8) : UInt8 := if 97 ≤ b ∧ b ≤ 122 then b - 32 else b

def parseCommand (cmd : Bytes) : Command :=
  let cmd := cmd.map toupper
  if cmd = ("PUT" : Bytes) then .PUT
  else if cmd = ("GET" : Bytes) then .GET
  else if cmd = ("DEL" : Bytes) then .DEL
  else if cmd = ("EXIT" : Bytes) then .EXIT
  else if cmd = ("_FLUSH" : Bytes) then ._FLUSH
  else .UNKNOWN

/-- `encodeRequest`. -/
def encodeRequest (req : Request) : Bytes :=
  let encoded : Bytes := match req.command with
    | .PUT => "PUT"
    | .GET => "GET"
    | .DEL => "DEL"
    | .EXIT => "EXIT"
    | ._FLUSH => "_FLUSH"
    | .UNKNOWN => "UNKNOWN"
  encoded ++ (req.args.flatMap fun arg => (" " : Bytes) ++ arg) ++ ("\n" : Bytes)

/-- `decodeLine`: the request, or the text of the error. -/
def decodeLine (line : Bytes) : Except Bytes Request :=
  match tokens line with
  | [] => .error "empty command"
  | cmdStr :: args => .ok ⟨parseCommand cmdStr, args⟩

/-! ## Responses -/

/-- `encodeResponse`. -/
def encodeResponse (resp : Response) : Bytes :=
  let data := resp.data.getD []
  ("status=" : Bytes) ++ (if resp.ok then ("OK" : Bytes) else ("ERR" : Bytes)) ++
    (" message=" : Bytes) ++ decimal resp.message.length ++ (":" : Bytes) ++ resp.message ++
    (" data=" : Bytes) ++ decimal data.length ++ (":" : Bytes) ++ data ++ ("\n" : Bytes)

/-- `consumeLiteral`: the position behind the literal, if it stands at `pos`. -/
def consumeLiteral (line : Bytes) (pos : Nat) (literal : Bytes) : Except Fault (Option Nat) :=
  if line.length < pos then .error (.outOfRange "basic_string::compare")
  else if (line.drop pos).take literal.length = literal then .ok (some (pos + literal.length))
  else .ok none

/-- `std::stoull` of a string of digits. -/
def stoull (digits : Bytes) : Option Nat :=
  if decimalVal digits < 2 ^ 64 then some (decimalVal digits) else none

/-- `parseLengthPrefixedField`: the payload and the position behind it, or the text of the error. -/
def parseLengthPrefixedField (line : Bytes) (pos : Nat) (fieldName : Bytes) :
    Except Fault (Except Bytes (Bytes × Nat)) :=
  match consumeLiteral line pos fieldName with
  | .error f => .error f
  | .ok none => .ok (.error (("expected field " : Bytes) ++ fieldName))
  | .ok (some lengthStart) =>
    let digits := (line.drop lengthStart).takeWhile isDigit
    let pos := lengthStart + digits.length
    if digits = [] then .ok (.error (("expected length for field " : Bytes) ++ fieldName))
    else if (line)[pos]? ≠ some 58 then
      .ok (.error (("expected ':' after length for field " : Bytes) ++ fieldName))
    else
      match stoull digits with
      | none => .ok (.error (("invalid length for field " : Bytes) ++ fieldName))
      | some length =>
        let pos := pos + 1
        if line.length - pos < length then
          .ok (.error (("payload shorter than declared length for field " : Bytes) ++ fieldName))
        else .ok (.ok ((line.drop pos).take length, pos + length))

/-- The fields of a response behind its status. -/
def decodeFields (line : Bytes) (ok : Bool) (pos : Nat) : Except Fault (Except Bytes Response) :=
  match consumeLiteral line pos " " with
  | .error f => .error f
  | .ok none => .ok (.error "expected space after status field")
  | .ok (some pos) =>
    match parseLengthPrefixedField line pos "message=" with
    | .error f => .error f
    | .ok (.error err) => .ok (.error err)
    | .ok (.ok (message, pos)) =>
      match consumeLiteral line pos " " with
      | .error f => .error f
      | .ok none => .ok (.error "expected space after message field")
      | .ok (some pos) =>
        match parseLengthPrefixedField line pos "data=" with
        | .error f => .error f
        | .ok (.error err) => .ok (.error err)
        | .ok (.ok (data, pos)) =>
          let pos := if (line)[pos]? = some 10 then pos + 1 else pos
          if pos ≠ line.length then .ok (.error "unexpected trailing response bytes")
          else .ok (.ok ⟨ok, message, if data = [] then none else some data⟩)

/-- `decodeResponseLine`: the response, or the text of the error. -/
def decodeResponseLine (line : Bytes) : Except Fault (Except Bytes Response) :=
  match consumeLiteral line 0 "status=" with
  | .error f => .error f
  | .ok none => .ok (.error "expected status field")
  | .ok (some statusStart) =>
    let status := (line.drop statusStart).takeWhile (· != 32)
    let pos := statusStart + status.length
    if status = ("OK" : Bytes) then decodeFields line true pos
    else if status = ("ERR" : Bytes) then decodeFields line false pos
    else .ok (.error "invalid response status")

end protocol

end TinyKv
