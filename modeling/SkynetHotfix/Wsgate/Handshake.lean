import Mathlib.Logic.Function.Basic
import Mathlib.Data.List.Infix

/-!
# The handshake of the gate

How `wsgateserver.lua` reads the request of a handshake (`parse_httpheader`)
and answers it (`checkwebsocket_valid`). Texts are lists of characters up to
the fields of the header.
-/

namespace SkynetHotfix.Wsgate

open Function (update)

/-- The fields of a request, by their name in lower case. -/
abbrev Header := String → Option String

/-- What a text has between its line ends. -/
def pieces : List Char → List (List Char)
  | [] => [[]]
  | '\r' :: '\n' :: s => [] :: pieces s
  | c :: s =>
    match pieces s with
    | [] => [[c]]
    | p :: ps => (c :: p) :: ps

/-- `[%a-]` -/
def isKey (c : Char) : Bool := c.isAlpha || c == '-'

/-- `%s` -/
def isSpace (c : Char) : Bool := c == ' ' || (9 ≤ c.toNat && c.toNat ≤ 13)

/-- `string.match(str, "([%a-]+)%s*: (.*)")` -/
def matchField : List Char → Option (List Char × List Char)
  | [] => none
  | c :: s =>
    if isKey c then
      match ((c :: s).dropWhile isKey).dropWhile isSpace with
      | ':' :: ' ' :: value => some ((c :: s).takeWhile isKey, value)
      | _ => matchField s
    else matchField s

/-- `parse_httpheader(http_str)`: the lines after the first that end, a later field of a name over
an earlier. -/
def parse_httpheader (http_str : List Char) : Header :=
  (pieces http_str).tail.dropLast.foldl (fun header str =>
    match matchField str with
    | none => header
    | some (key, value) =>
      update header (String.ofList (key.map Char.toLower)) (some (String.ofList value)))
    fun _ => none

/-- `s:lower()` -/
def lower (s : String) : List Char := s.toList.map Char.toLower

/-- `getwebsocket_response(key, protocol)`, where `digest` stands for the base64 of the sha1. -/
def getwebsocket_response (digest : String → String) (key : String) (protocol : Option String) :
    String :=
  let protocol := protocol.getD ""
  let protocol := if protocol ≠ "" then protocol ++ "\r\n" else protocol
  let accept := digest (key ++ "258EAFA5-E914-47DA-95CA-C5AB0DC85B11")
  "HTTP/1.1 101 Switching Protocols\r\n" ++ "Upgrade: websocket\r\n" ++
    "Connection: Upgrade\r\n" ++ "Sec-WebSocket-Accept: " ++ accept ++ "\r\n" ++ protocol ++ "\r\n"

/-- `checkwebsocket_valid(header, check_origin, check_origin_ok)`, with `none` for a `check_origin`
that is not set: a code and its text, or the response. -/
def checkwebsocket_valid (digest : String → String) (header : Header)
    (check_origin : Option (String → Option String → Bool)) : Except (Nat × String) String :=
  if (header "upgrade").map lower ≠ some "websocket".toList then
    .error (400, "Can \"Upgrade\" only to \"WebSocket\".")
  else if ¬ (header "connection").any fun connection =>
      decide ("upgrade".toList <:+: lower connection) then
    .error (400, "\"Connection\" must be \"Upgrade\".")
  else if ((header "origin").or (header "sec-websocket-origin")).any fun origin =>
      check_origin.any fun check_origin_ok => !check_origin_ok origin (header "host") then
    .error (403, "Cross origin websockets not allowed")
  else if header "sec-websocket-version" ≠ some "13" then
    .error (400, "HTTP/1.1 Upgrade Required\r\nSec-WebSocket-Version: 13\r\n\r\n")
  else
    match header "sec-websocket-key" with
    | none => .error (400, "\"Sec-WebSocket-Key\" must not be  nil.")
    | some key => .ok (getwebsocket_response digest key (header "sec-websocket-protocol"))

end SkynetHotfix.Wsgate
