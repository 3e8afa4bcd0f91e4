-- Which descriptors doit of lab10 (proxy.c) closes, on each of its exits. A stream ends with the
-- end of the file or with a failed read, and the name lookup, the sockets and the connects can fail.
import IcsLabs.ProxyForward

open ics_labs.ctext

namespace ics_labs.proxy

/-- The bytes that come in, and whether a failed read stands behind them. -/
structure Stream where
  bytes : Text
  fails : Bool

/-- The line is not complete when the bytes run out. -/
def cutShort (line : Text) : Prop := line.length < MAXLINE - 1 ∧ line.getLast? ≠ some '\n'

instance (line : Text) : Decidable (cutShort line) := by unfold cutShort; infer_instance

/-- A failed read is the end of the file for the caller, and what came of the line is lost. -/
def Rio_readlineb_w (fails : Bool) (s : Text) : Text × Text :=
  let (line, rest) := rio_readlineb s MAXLINE
  if fails = true ∧ cutShort line then ([], []) else (line, rest)

theorem readline_loop_parts (s : Text) (n : Nat) :
    (readline_loop s n).1 ++ (readline_loop s n).2 = s := by
  induction s generalizing n with
  | nil => rfl
  | cons c s ih =>
    cases n with
    | zero => rfl
    | succ n =>
      unfold readline_loop
      split_ifs with hc
      · rfl
      · rw [List.cons_append, ih]

theorem readline_w_shorter {fails : Bool} {s buf rest : Text}
    (h : Rio_readlineb_w fails s = (buf, rest)) (hne : buf ≠ []) : rest.length < s.length := by
  have hparts : (rio_readlineb s MAXLINE).1 ++ (rio_readlineb s MAXLINE).2 = s :=
    readline_loop_parts s _
  simp only [Rio_readlineb_w] at h
  split_ifs at h with hcut
  · simp only [Prod.mk.injEq] at h
    exact absurd h.1.symm hne
  · obtain ⟨rfl, rfl⟩ := Prod.mk.inj h
    nth_rewrite 2 [← hparts]
    rw [List.length_append]
    have := List.length_pos_iff.2 hne
    omega

@[simp] theorem notice_conn (s : State) : (notice s).conn = s.conn := by
  unfold notice
  split_ifs <;> rfl

@[simp] theorem notice_client (s : State) : (notice s).client = s.client := by
  unfold notice
  split_ifs <;> rfl

/-! ## The loops over the lines -/

/-- Forward the request lines to the server. -/
def forward_request_header (fails : Bool) (s : State) : Except State State :=
  match _h : Rio_readlineb_w fails s.conn with
  | (buf, conn) =>
    let s := { s with buf, conn }
    if _hne : buf = [] then .error s
    else
      let s := notice { s with toServer := s.toServer ++ buf }
      if cstr buf = blank then .ok s else forward_request_header fails s
termination_by s.conn.length
decreasing_by simpa using readline_w_shorter _h _hne

/-- The line in `buf` goes to the client. -/
def send_line (s : State) : State :=
  let len := if s.buf.length = MAXLINE ∧ s.buf[MAXLINE - 2]? ≠ some '\n' then s.buf.length - 1
    else s.buf.length
  notice { s with toClient := s.toClient ++ s.buf.take len, recv_len := int (s.recv_len + len) }

@[simp] theorem send_line_client (s : State) : (send_line s).client = s.client :=
  notice_client _

/-- Send the response lines to the client, from the line in `buf` on. -/
def forward_response_lines (fails : Bool) (s : State) : Except State State :=
  if cstr s.buf = blank then .ok s
  else
    let s := send_line s
    match _h : Rio_readlineb_w fails s.client with
    | (buf, client) =>
      let s := { s with buf, client }
      if _hne : buf = [] then .error s else forward_response_lines fails s
termination_by s.client.length
decreasing_by simpa +zetaDelta using readline_w_shorter _h _hne

def forward_response_header (fails : Bool) (s : State) : Except State State :=
  let (buf, client) := Rio_readlineb_w fails s.client
  let s := { s with buf, client }
  if buf = [] then .error s
  else do
    let s ← forward_response_lines fails s
    return { s with toClient := s.toClient ++ blank.take s.buf.length
                    recv_len := int (s.recv_len + s.buf.length) }

theorem Rio_readlineb_w_eof (s : Text) : Rio_readlineb_w false s = rio_readlineb s MAXLINE := by
  simp [Rio_readlineb_w]

theorem forward_request_header_eof {n : Nat} {s : State} (hn : s.conn.length < n) :
    forward_request_header false s = request_header n s := by
  induction n generalizing s with
  | zero => omega
  | succ n ih =>
    rw [forward_request_header, request_header]
    split
    next buf conn h =>
    have hshort := readline_w_shorter h
    rw [Rio_readlineb_w_eof] at h
    simp only [h]
    split_ifs with hbuf hblank
    · rfl
    · rfl
    · have := hshort hbuf
      apply ih
      simp only [notice_conn]
      omega

theorem forward_response_lines_eof {n : Nat} {s : State} (hn : s.client.length < n) :
    forward_response_lines false s = response_lines n s := by
  induction n generalizing s with
  | zero => omega
  | succ n ih =>
    have hlines : response_lines (n + 1) s = if cstr s.buf = blank then .ok s else
        if (rio_readlineb (send_line s).client MAXLINE).1 = [] then
          .error { send_line s with buf := (rio_readlineb (send_line s).client MAXLINE).1
                                    client := (rio_readlineb (send_line s).client MAXLINE).2 }
        else response_lines n
          { send_line s with buf := (rio_readlineb (send_line s).client MAXLINE).1
                             client := (rio_readlineb (send_line s).client MAXLINE).2 } := rfl
    rw [forward_response_lines, hlines]
    by_cases hblank : cstr s.buf = blank
    · rw [if_pos hblank, if_pos hblank]
    · rw [if_neg hblank, if_neg hblank]
      have hshort : (rio_readlineb (send_line s).client MAXLINE).1 ≠ [] →
          (rio_readlineb (send_line s).client MAXLINE).2.length < (send_line s).client.length :=
        readline_w_shorter (Rio_readlineb_w_eof _)
      simp only [Rio_readlineb_w_eof]
      split_ifs with hbuf
      · rfl
      · have := hshort hbuf
        apply ih
        simp only [send_line_client] at this ⊢
        omega

theorem forward_response_header_eof (s : State) :
    forward_response_header false s = response_header s := by
  unfold forward_response_header response_header
  simp only [Rio_readlineb_w_eof, forward_response_lines_eof (Nat.lt_succ_self _)]

/-- On streams without a failed read `forward` is made of these loops: its fuel is enough. -/
theorem forward_eof (method uri pathname conn client : Text) :
    forward method uri pathname conn client =
      match (do
        let s ← forward_request_header false (start conn client
          (method ++ " /".toList ++ pathname ++ " HTTP/1.1\r\n".toList))
        let s ← request_body s
        let s ← forward_response_header false { s with body_len_set := false }
        response_body s.client 0 s : Except State State) with
      | .ok s => ⟨s.toServer, s.toClient, s.conn, some (uri, s.recv_len)⟩
      | .error s => ⟨s.toServer, s.toClient, s.conn, none⟩ := by
  rw [forward_request_header_eof (n := conn.length + 1) (Nat.lt_succ_self _)]
  simp only [forward_response_header_eof]
  rfl

/-! ## Descriptors -/

/-- The descriptors that are open, and those that `Close` was called with. -/
structure Process where
  opened : List Int
  closed : List Int

/-- `close` fails for a descriptor that is not open, and then the whole process ends. -/
def Close (p : Process) (fd : Int) : Except Process Process :=
  if fd ∈ p.opened then .ok { opened := p.opened.erase fd, closed := p.closed ++ [fd] }
  else .error { p with closed := p.closed ++ [fd] }

/-- One address of the server: the result of `socket`, and whether `connect` and `close` work. -/
structure Address where
  socket : Int
  connects : Bool
  closes : Bool

/-- The walk over the addresses. -/
def try_addresses : List Address → Int
  | [] => -1
  | p :: rest =>
    if p.socket < 0 then try_addresses rest
    else if p.connects then p.socket
    else if p.closes then try_addresses rest
    else -1

/-- What `getaddrinfo` finds, if it finds anything, comes first. -/
def open_clientfd : Option (List Address) → Int
  | none => -2
  | some listp => try_addresses listp

/-- What a connection meets: the client's stream, the name lookup for a host and a port, and the
stream of the server that answers there. -/
structure World where
  connfd : Int
  client : Stream
  lookup : Text → Text → Option (List Address)
  server : Text → Text → Stream

/-- The exits behind the second connection. -/
def close_both (p : Process) (clientfd connfd : Int) : Except Process Process := do
  let p ← Close p clientfd
  Close p connfd

/-- `doit`: what `open_clientfd` returned, if it was called, and the process at the end. A read on
a negative descriptor fails. -/
def doit_closes (w : World) (opened : List Int) : Option Int × Except Process Process :=
  let p := { opened := w.connfd :: opened, closed := [] }
  let (buf, conn) := Rio_readlineb_w w.client.fails w.client.bytes
  if buf = [] then (none, Close p w.connfd)
  else
    match request_line buf with
    | none => (none, Close p w.connfd)
    | some (method, uri, _) =>
      match parse_uri uri with
      | none => (none, Close p w.connfd)
      | some (hostname, pathname, port) =>
        let clientfd := open_clientfd (w.lookup hostname port)
        if clientfd = -1 then (some clientfd, Close p w.connfd)
        else
          let p := if 0 ≤ clientfd then { p with opened := clientfd :: p.opened } else p
          let server := if 0 ≤ clientfd then w.server hostname port else ⟨[], true⟩
          let s := start conn server.bytes
            (method ++ " /".toList ++ pathname ++ " HTTP/1.1\r\n".toList)
          (some clientfd,
            match forward_request_header w.client.fails s with
            | .error _ => close_both p clientfd w.connfd
            | .ok s =>
              match request_body s with
              | .error _ => close_both p clientfd w.connfd
              | .ok s =>
                match forward_response_header server.fails { s with body_len_set := false } with
                | .error _ => close_both p clientfd w.connfd
                | .ok s =>
                  match response_body s.client 0 s with
                  | .error _ => close_both p clientfd w.connfd
                  -- the log entry is written between the two
                  | .ok _ => close_both p clientfd w.connfd)

/-! ## The exits -/

/-- The process when `doit` is done or has ended it. -/
def ended : Except Process Process → Process
  | .ok p => p
  | .error p => p

/-- The first line of the request. -/
def firstLine (w : World) : Text := (Rio_readlineb_w w.client.fails w.client.bytes).1

/-- The request line names a host and a port. -/
def Names (w : World) (hostname port : Text) : Prop :=
  ∃ method uri version pathname, request_line (firstLine w) = some (method, uri, version) ∧
    parse_uri uri = some (hostname, pathname, port)

theorem Names.unique {w : World} {h₁ p₁ h₂ p₂ : Text} (h : Names w h₁ p₁) (h' : Names w h₂ p₂) :
    h₁ = h₂ ∧ p₁ = p₂ := by
  obtain ⟨_, _, _, _, hline, huri⟩ := h
  obtain ⟨_, _, _, _, hline', huri'⟩ := h'
  rw [hline] at hline'
  simp only [Option.some.injEq, Prod.mk.injEq] at hline'
  rw [hline'.2.1, huri'] at huri
  simp only [Option.some.injEq, Prod.mk.injEq] at huri
  exact ⟨huri.1.symm, huri.2.2.symm⟩

/-- The table of descriptors when both connections are there. -/
def connected (w : World) (opened : List Int) (clientfd : Int) : Process where
  opened := if 0 ≤ clientfd then clientfd :: w.connfd :: opened else w.connfd :: opened
  closed := []

/-- Up to the call of `open_clientfd` only `connfd` is closed. -/
theorem doit_closes_refused {w : World} {opened : List Int}
    (h : ¬∃ hostname port, Names w hostname port) :
    doit_closes w opened = (none, Close ⟨w.connfd :: opened, []⟩ w.connfd) := by
  unfold doit_closes
  simp only
  split_ifs with hbuf
  · rfl
  · split
    · rfl
    · next hline =>
      split
      · rfl
      · next huri => exact absurd ⟨_, _, _, _, _, _, hline, huri⟩ h

/-- Behind it there are two exits: all that follow on each other close the same. -/
theorem doit_closes_named {w : World} {opened : List Int} {hostname port : Text}
    (h : Names w hostname port) :
    let clientfd := open_clientfd (w.lookup hostname port)
    doit_closes w opened = (some clientfd,
      if clientfd = -1 then Close ⟨w.connfd :: opened, []⟩ w.connfd
      else close_both (connected w opened clientfd) clientfd w.connfd) := by
  intro clientfd
  obtain ⟨method, uri, version, pathname, hline, huri⟩ := h
  have hbuf : firstLine w ≠ [] := by
    intro hnil
    rw [hnil] at hline
    cases hline
  unfold firstLine at hline hbuf
  unfold doit_closes
  simp only [if_neg hbuf, hline, huri]
  by_cases hfd : clientfd = -1
  · rw [if_pos hfd, if_pos hfd]
  · rw [if_neg hfd, if_neg hfd]
    have hp : (if 0 ≤ clientfd then
        (⟨clientfd :: w.connfd :: opened, []⟩ : Process) else ⟨w.connfd :: opened, []⟩) =
        connected w opened clientfd := by
      unfold connected
      split_ifs <;> rfl
    rw [hp]
    congr 1
    split
    · rfl
    · split
      · rfl
      · split
        · rfl
        · split <;> rfl

theorem try_addresses_result (listp : List Address) :
    try_addresses listp = -1 ∨
      0 ≤ try_addresses listp ∧ ∃ p ∈ listp, p.socket = try_addresses listp := by
  induction listp with
  | nil => exact Or.inl rfl
  | cons p rest ih =>
    have hrest : try_addresses rest = -1 ∨ 0 ≤ try_addresses rest ∧
        ∃ q ∈ p :: rest, q.socket = try_addresses rest := by
      rcases ih with h | ⟨h, q, hq, heq⟩
      · exact Or.inl h
      · exact Or.inr ⟨h, q, List.mem_cons_of_mem _ hq, heq⟩
    unfold try_addresses
    split_ifs with hneg hconn hclose
    · exact hrest
    · exact Or.inr ⟨by omega, p, by simp, rfl⟩
    · exact hrest
    · exact Or.inl rfl

theorem close_both_closed (p : Process) {clientfd connfd : Int} (hc : clientfd ∈ p.opened)
    (hn : connfd ∈ p.opened.erase clientfd) :
    (ended (close_both p clientfd connfd)).closed = p.closed ++ [clientfd] ++ [connfd] := by
  simp [close_both, Close, hc, hn, ended, bind, Except.bind]

/-- The first descriptor is closed, or the process ends with it. -/
theorem mem_close_both (p : Process) (clientfd connfd : Int) :
    clientfd ∈ (ended (close_both p clientfd connfd)).closed := by
  unfold close_both Close
  split_ifs
  · simp only [bind, Except.bind]
    split_ifs <;> simp [ended]
  · simp [bind, Except.bind, ended]

theorem closed_conn (connfd : Int) (opened : List Int) :
    (ended (Close ⟨connfd :: opened, []⟩ connfd)).closed = [connfd] := by
  simp [Close, ended]

/-! ## The law -/

/-- Every descriptor that is open is closed once, and no other value goes to `Close`. -/
structure ClosesRight (connfd : Int) (clientfd : Option Int) (closed : List Int) : Prop where
  conn : closed.count connfd = 1
  client : ∀ fd, clientfd = some fd → closed.count fd = if 0 ≤ fd then 1 else 0
  nonneg : ∀ fd ∈ closed, 0 ≤ fd

/-- `accept` and `socket` give descriptors that are not open. -/
structure Fresh (w : World) : Prop where
  connfd : 0 ≤ w.connfd
  socket : ∀ hostname port listp, w.lookup hostname port = some listp →
    ∀ p ∈ listp, p.socket ≠ w.connfd

theorem only_conn_right {connfd : Int} (h : 0 ≤ connfd) {clientfd : Option Int}
    (hc : clientfd = none ∨ clientfd = some (-1)) : ClosesRight connfd clientfd [connfd] := by
  refine ⟨by simp, ?_, by simpa using h⟩
  rintro fd rfl
  obtain rfl := by simpa using hc
  have hne : connfd ≠ -1 := by omega
  simp [hne]

theorem both_right {connfd clientfd : Int} (h : 0 ≤ connfd) (hc : 0 ≤ clientfd)
    (hne : clientfd ≠ connfd) : ClosesRight connfd (some clientfd) [clientfd, connfd] := by
  refine ⟨by simp [hne], ?_, by simp [h, hc]⟩
  rintro fd hfd
  obtain rfl := by simpa using hfd
  simp [hc, hne.symm]

/-- The descriptors are closed as they should unless the name lookup fails: -2 is then taken for a
descriptor. -/
theorem every_descriptor_is_closed_once_iff {w : World} (hw : Fresh w) (opened : List Int) :
    ClosesRight w.connfd (doit_closes w opened).1 (ended (doit_closes w opened).2).closed ↔
      ¬∃ hostname port, Names w hostname port ∧ w.lookup hostname port = none := by
  by_cases hnames : ∃ hostname port, Names w hostname port
  · obtain ⟨hostname, port, hname⟩ := hnames
    rw [doit_closes_named hname]
    cases hl : w.lookup hostname port with
    | none =>
      constructor
      · intro hr
        have hmem := mem_close_both (connected w opened (-2)) (-2) w.connfd
        exact absurd (hr.nonneg (-2) hmem) (by decide)
      · intro hno
        exact absurd ⟨hostname, port, hname, hl⟩ hno
    | some listp =>
      have hno : ¬∃ hostname port, Names w hostname port ∧ w.lookup hostname port = none := by
        rintro ⟨h', p', hname', hl'⟩
        obtain ⟨rfl, rfl⟩ := hname.unique hname'
        rw [hl] at hl'
        cases hl'
      refine iff_of_true ?_ hno
      have hresult : open_clientfd (some listp) = -1 ∨ 0 ≤ open_clientfd (some listp) ∧
          ∃ p ∈ listp, p.socket = open_clientfd (some listp) := try_addresses_result listp
      generalize open_clientfd (some listp) = fd at hresult ⊢
      rcases hresult with hfd | ⟨hfd, p, hp, hsocket⟩
      · rw [if_pos hfd, closed_conn, hfd]
        exact only_conn_right hw.connfd (Or.inr rfl)
      · have hne : fd ≠ w.connfd := hsocket ▸ hw.socket _ _ _ hl p hp
        rw [if_neg (by omega), close_both_closed _ (by simp [connected, hfd])
          (by simp [connected, hfd])]
        exact both_right hw.connfd hfd hne
  · have hno : ¬∃ hostname port, Names w hostname port ∧ w.lookup hostname port = none :=
      fun ⟨hostname, port, hname, _⟩ => hnames ⟨hostname, port, hname⟩
    refine iff_of_true ?_ hno
    rw [doit_closes_refused hnames, closed_conn]
    exact only_conn_right hw.connfd (Or.inl rfl)

/-- A request for `http://h/` on descriptor 4, and what the lookup of the name finds. -/
def hostRequest (found : Option (List Address)) : World where
  connfd := 4
  client := ⟨"GET http://h/ HTTP/1.0\r\n\r\n".toList, false⟩
  lookup := fun _ _ => found
  server := fun _ _ => ⟨[], false⟩

theorem hostRequest_names (found : Option (List Address)) :
    Names (hostRequest found) ['h'] ['8', '0'] := by
  refine ⟨"GET".toList, "http://h/".toList, "HTTP/1.0".toList, [], ?_, by decide +kernel⟩
  show request_line (Rio_readlineb_w false "GET http://h/ HTTP/1.0\r\n\r\n".toList).1 = _
  decide +kernel

/-- The name is not known. -/
theorem a_failed_lookup_ends_the_process :
    ¬ ∀ (w : World) (opened : List Int), Fresh w →
      ClosesRight w.connfd (doit_closes w opened).1 (ended (doit_closes w opened).2).closed := by
  intro hall
  have hr := hall (hostRequest none) [] ⟨by decide, by simp [hostRequest]⟩
  rw [doit_closes_named (hostRequest_names _)] at hr
  exact absurd (hr.nonneg (-2) (mem_close_both _ (-2) _)) (by decide)

/-- The first address of the host refuses the connection, the second one answers. -/
def secondAnswers : World := hostRequest (some [⟨5, false, true⟩, ⟨5, true, true⟩])

theorem a_second_address_closes_both :
    ClosesRight secondAnswers.connfd (doit_closes secondAnswers [3]).1
        (ended (doit_closes secondAnswers [3]).2).closed ↔
      ¬∃ hostname port, Names secondAnswers hostname port ∧
        secondAnswers.lookup hostname port = none := by
  refine every_descriptor_is_closed_once_iff ⟨by decide, ?_⟩ [3]
  intro hostname port listp hl p hp
  obtain rfl : [⟨5, false, true⟩, ⟨5, true, true⟩] = listp := by
    simpa [secondAnswers, hostRequest] using hl
  simp only [List.mem_cons, List.not_mem_nil, or_false] at hp
  rcases hp with rfl | rfl <;> decide

end ics_labs.proxy
