import TinyKv.Api.Codec

/-!
# The port

`readPortFromEnv` of `server_main.cpp` and of `cli_main.cpp`, which differ in the text of their
complaint. The value of the variable is a C string: its bytes, without the NUL that ends it.
-/

namespace TinyKv

open Bytes protocol

/-- What `std::strtoul` gives: the number, what stands from `end` on, and whether `errno` has been
set. -/
structure Strtoul where
  parsed : UInt64
  rest : Bytes
  erange : Bool := false

/-- Whether a minus sign stands in front, and what stands behind the sign. -/
def takeSign : Bytes → Bool × Bytes
  | 45 :: rest => (true, rest)
  | 43 :: rest => (false, rest)
  | rest => (false, rest)

/-- `std::strtoul(str, &end, 10)`: white space, a sign, digits. A number behind a minus sign is
negated as an `unsigned long`; one of `2 ^ 64` or more is out of range. Without digits `end` is
`str`. -/
def strtoul (str : Bytes) : Strtoul :=
  let (negative, body) := takeSign (str.dropWhile isSpace)
  let rest := body.dropWhile isDigit
  if body.takeWhile isDigit = [] then { parsed := 0, rest := str }
  else
    match stoull (body.takeWhile isDigit) with
    | none => { parsed := UInt64.ofNat (2 ^ 64 - 1), rest := rest, erange := true }
    | some n => { parsed := if negative then -UInt64.ofNat n else UInt64.ofNat n, rest := rest }

/-- The port in the variable, if there is one, and what is written to `std::cerr`. -/
def readPort (complaint : Bytes) (rawPort : Option Bytes) : Option UInt16 × Bytes :=
  match rawPort with
  | none | some [] => (none, [])
  | some rawPort =>
    let s := strtoul rawPort
    if s.erange ∨ s.rest = rawPort ∨ s.rest ≠ [] ∨ s.parsed > 65535 then
      (none, complaint ++ rawPort ++ ("\n" : Bytes))
    else (some s.parsed.toUInt16, [])

/-- `readPortFromEnv` of `server_main.cpp`. -/
def ServerMain.readPortFromEnv (rawPort : Option Bytes) : Option UInt16 × Bytes :=
  readPort "Invalid TINYKV_PORT value: " rawPort

/-- `readPortFromEnv` of `cli_main.cpp`. -/
def CliMain.readPortFromEnv (raw : Option Bytes) : Option UInt16 × Bytes :=
  readPort "Invalid TINYKV_PORT: " raw

end TinyKv
