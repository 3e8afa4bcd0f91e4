-- lab10/proxy.c: one connection of the web proxy. A byte is a character. A stream is the
-- bytes that come in up to the end of the file; every write goes through.
import IcsLabs.CText

open ics_labs.ctext

namespace ics_labs.proxy

def MAXLINE : Nat := 8192

/-- What the string functions see of a buffer: the bytes in front of the first NUL. -/
def cstr (buf : Text) : Text := buf.takeWhile (· ≠ '\x00')

def blank : Text := ['\r', '\n']

/-! ## Reading -/

/-- The loop of `rio_readlineb`: at most `n` bytes, up to the end of the line. -/
def readline_loop : Text → Nat → Text × Text
  | [], _ => ([], [])
  | c :: s, 0 => ([], c :: s)
  | c :: s, n + 1 => if c = '\n' then ([c], s) else
    ((c :: (readline_loop s n).1), (readline_loop s n).2)

/-- The line and the bytes behind it. An empty line is the end of the file. -/
def rio_readlineb (s : Text) (maxlen : Nat) : Text × Text := readline_loop s (maxlen - 1)

/-- The number at the front of a text, where there is one. -/
def scanned (cs : Text) : Option Int :=
  let (neg, t) := takeSign (cs.dropWhile isspace)
  if (t.head?.any Char.isDigit) = true then some (if neg then -digits t 0 else digits t 0) else none

/-- `%d` of `sscanf`: the number is read as a `long`, and its low half is kept. -/
def stored (n : Int) : Int := int (max (-2 ^ 63) (min (2 ^ 63 - 1) n))

/-- `%s` of `sscanf`: the next word and the text behind it. -/
def word (cs : Text) : Text × Text :=
  let t := cs.dropWhile isspace
  (t.takeWhile fun c => !isspace c, t.dropWhile fun c => !isspace c)

/-- `sscanf(buf, "%s %s %s", method, uri, version)`. -/
def request_line (buf : Text) : Option (Text × Text × Text) :=
  let (method, t) := word (cstr buf)
  let (uri, t) := word t
  let (version, _) := word t
  if version = [] then none else some (method, uri, version)

/-- `strncasecmp(buf, key, n) == 0` for a key of `n` bytes in small letters. -/
def startsWith (key buf : Text) : Bool := ((cstr buf).take key.length).map Char.toLower == key

/-- The host name, the path name and the port. -/
def parse_uri (uri : Text) : Option (Text × Text × Text) :=
  if startsWith "http://".toList uri = false then none
  else
    let hostbegin := uri.drop 7
    let ends := fun c => c ∈ " :/\r\n".toList
    let hostend := hostbegin.dropWhile fun c => !ends c
    if hostend = [] then none
    else
      let hostname := hostbegin.takeWhile fun c => !ends c
      let port := if hostend.head? = some ':' then hostend.tail.takeWhile Char.isDigit else "80".toList
      let pathname := (hostbegin.dropWhile (· ≠ '/')).tail
      some (hostname, pathname, port)

/-! ## One connection -/

/-- The locals of `doit` while it copies, the bytes not read yet on both sides, and the bytes
written so far. -/
structure State where
  conn : Text
  client : Text
  toServer : Text
  toClient : Text
  buf : Text
  body_len : Int
  body_len_set : Bool
  recv_len : Int
deriving DecidableEq

/-- `strncasecmp(buf, "Content-length:", 15) == 0` -/
def isLength (buf : Text) : Bool := startsWith "content-length:".toList buf

/-- The first `Content-length` line of a header sets `body_len`, when there is a number. -/
def notice (s : State) : State :=
  if !s.body_len_set && isLength s.buf then
    { s with body_len := ((scanned ((cstr s.buf).drop 15)).map stored).getD s.body_len
             body_len_set := true }
  else s

/-- Forward the request lines to the server. At the end of the file `doit` gives up. -/
def request_header : Nat → State → Except State State
  | 0, s => .error s
  | n + 1, s =>
    let (buf, conn) := rio_readlineb s.conn MAXLINE
    let s := { s with buf, conn }
    if buf = [] then .error s
    else
      let s := notice { s with toServer := s.toServer ++ buf }
      if cstr buf = blank then .ok s else request_header n s

/-- The loop over the body of the request, byte by byte. -/
def request_loop : Text → Nat → State → Except State State
  | [], _, s => .error { s with conn := [] }
  | c :: conn, req_body_len, s =>
    let s := { s with conn, buf := c :: s.buf.tail, toServer := s.toServer ++ [c] }
    if (req_body_len + 1 : Int) ≥ s.body_len then .ok s else request_loop conn (req_body_len + 1) s

def request_body (s : State) : Except State State :=
  if s.body_len_set then request_loop s.conn 0 s else .ok s

/-- The loop over the lines of the response header, from the line in `buf` on. -/
def response_lines : Nat → State → Except State State
  | 0, s => .error s
  | n + 1, s =>
    if cstr s.buf = blank then .ok s
    else
      let len := if s.buf.length = MAXLINE ∧ s.buf[MAXLINE - 2]? ≠ some '\n' then s.buf.length - 1
        else s.buf.length
      let s := notice { s with toClient := s.toClient ++ s.buf.take len
                               recv_len := int (s.recv_len + len) }
      let (buf, client) := rio_readlineb s.client MAXLINE
      let s := { s with buf, client }
      if buf = [] then .error s else response_lines n s

def response_header (s : State) : Except State State :=
  let (buf, client) := rio_readlineb s.client MAXLINE
  let s := { s with buf, client }
  if buf = [] then .error s
  else do
    let s ← response_lines (s.client.length + 1) s
    return { s with toClient := s.toClient ++ blank.take s.buf.length
                    recv_len := int (s.recv_len + s.buf.length) }

/-- The loop over the body of the response, byte by byte. -/
def response_body : Text → Nat → State → Except State State
  | [], _, s => .error { s with client := [] }
  | c :: client, recv_body_len, s =>
    let s := { s with client, buf := c :: s.buf.tail, toClient := s.toClient ++ [c]
                      recv_len := int (s.recv_len + 1) }
    if (recv_body_len + 1 : Int) ≥ s.body_len then .ok s
    -- only the first byte of `buf` is new, so this never holds
    else if cstr s.buf = ['0', '\r', '\n'] then
      .ok { s with toClient := s.toClient ++ blank, recv_len := int (s.recv_len + 2) }
    else response_body client (recv_body_len + 1) s

/-- What a connection did: the bytes written to both sides, those of the client that were not
read, and the uri and the size in the log. -/
structure Outcome where
  toServer : Text
  toClient : Text
  left : Text
  logged : Option (Text × Int)
deriving DecidableEq

/-- `doit` once both connections are there. The rewritten request line is taken to fit into
`buf`. -/
def forward (method uri pathname conn client : Text) : Outcome :=
  let s := { conn, client, toServer := method ++ " /".toList ++ pathname ++ " HTTP/1.1\r\n".toList,
             toClient := [], buf := [], body_len := 0x7fffffff, body_len_set := false, recv_len := 0 }
  let run := do
    let s ← request_header (conn.length + 1) s
    let s ← request_body s
    let s ← response_header { s with body_len_set := false }
    response_body s.client 0 s
  match run with
  | .ok s => ⟨s.toServer, s.toClient, s.conn, some (uri, s.recv_len)⟩
  | .error s => ⟨s.toServer, s.toClient, s.conn, none⟩

/-- `connect` is `open_clientfd`: the bytes that the server at a host and a port sends. -/
def doit (connect : Text → Text → Option Text) (conn : Text) : Outcome :=
  let (buf, conn) := rio_readlineb conn MAXLINE
  match request_line buf with
  | none => ⟨[], [], conn, none⟩
  | some (method, uri, _) =>
    match parse_uri uri with
    | none => ⟨[], [], conn, none⟩
    | some (hostname, pathname, port) =>
      match connect hostname port with
      | none => ⟨[], [], conn, none⟩
      | some client => forward method uri pathname conn client

end ics_labs.proxy
