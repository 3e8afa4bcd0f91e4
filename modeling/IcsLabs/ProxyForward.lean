-- What the proxy writes to the client and reads from it, in closed form, and when that is
-- the response and the request as their headers describe them.
import IcsLabs.Proxy

open ics_labs.ctext

namespace ics_labs.proxy

/-! ## Headers -/

/-- A whole line that fits into the buffer. -/
def Line (h : Text) : Prop := ∃ t, h = t ++ ['\n'] ∧ '\n' ∉ t ∧ h.length < MAXLINE

/-- What one call of `rio_readlineb` takes: a line, or a buffer full of one. -/
def Piece (h : Text) : Prop := Line h ∨ '\n' ∉ h ∧ h.length = MAXLINE - 1

/-- The number in the first `Content-length` line of a header. -/
def contentLength (hs : List Text) : Option Int :=
  (hs.find? isLength).bind fun h => scanned ((cstr h).drop 15)

/-- A request and a response that `doit` can forward: the request line names a server that
answers, and both headers end with a blank line. -/
structure Handled (connect : Text → Text → Option Text) (line : Text) (hs rs : List Text)
    (body : Text) : Prop where
  first : Piece line
  names : ∃ method uri version hostname pathname port,
    request_line line = some (method, uri, version) ∧
      parse_uri uri = some (hostname, pathname, port) ∧
      connect hostname port = some (rs.flatten ++ (blank ++ body))
  request : ∀ h ∈ hs, Piece h ∧ cstr h ≠ blank
  response : ∀ r ∈ rs, Line r ∧ r ≠ blank

/-- The bytes of the body that the response header asks for. -/
def wanted (rs : List Text) (body : Text) : Text :=
  match contentLength rs with
  | some n => body.take n.toNat
  | none => body

/-- The client gets the header, the blank line and the body as the header describes it, and as
many bytes of the request body are read as its header says. -/
structure ForwardedRight (o : Outcome) (hs : List Text) (cbody : Text) (rs : List Text)
    (body : Text) : Prop where
  toClient : o.toClient = rs.flatten ++ (blank ++ wanted rs body)
  read : ∃ r, cbody = r ++ o.left ∧ (r.length : Int) = (contentLength hs).getD 0

/-! ## Reading lines -/

theorem readline_line {t s : Text} {n : Nat} (ht : '\n' ∉ t) (hn : t.length < n) :
    readline_loop (t ++ '\n' :: s) n = (t ++ ['\n'], s) := by
  induction t generalizing n with
  | nil =>
    obtain ⟨n, rfl⟩ : ∃ k, n = k + 1 := ⟨n - 1, by omega⟩
    simp [readline_loop]
  | cons c t ih =>
    simp only [List.length_cons] at hn
    obtain ⟨n, rfl⟩ : ∃ k, n = k + 1 := ⟨n - 1, by omega⟩
    simp only [List.mem_cons, not_or] at ht
    rw [List.cons_append, readline_loop, if_neg (fun he => ht.1 he.symm), ih ht.2 (by omega)]
    simp

theorem readline_full {t s : Text} {n : Nat} (ht : '\n' ∉ t) (hn : t.length = n) :
    readline_loop (t ++ s) n = (t, s) := by
  induction t generalizing n with
  | nil =>
    subst hn
    cases s <;> rfl
  | cons c t ih =>
    subst hn
    simp only [List.mem_cons, not_or] at ht
    rw [List.cons_append, List.length_cons, readline_loop, if_neg (fun he => ht.1 he.symm),
      ih ht.2 rfl]

theorem Piece.read {h : Text} (hp : Piece h) (s : Text) :
    rio_readlineb (h ++ s) MAXLINE = (h, s) := by
  unfold rio_readlineb
  rcases hp with ⟨t, rfl, ht, hlen⟩ | ⟨ht, hlen⟩
  · rw [List.append_assoc, List.singleton_append]
    simp only [List.length_append, List.length_singleton] at hlen
    exact readline_line ht (by omega)
  · exact readline_full ht hlen

theorem Line.piece {h : Text} (hl : Line h) : Piece h := Or.inl hl

theorem Piece.length_lt {h : Text} (hp : Piece h) : h.length < MAXLINE := by
  rcases hp with ⟨t, -, -, hlen⟩ | ⟨-, hlen⟩
  · exact hlen
  · rw [hlen]
    decide

theorem Piece.ne_nil {h : Text} (hp : Piece h) : h ≠ [] := by
  rintro rfl
  rcases hp with ⟨t, ht, -⟩ | ⟨-, hlen⟩
  · simp at ht
  · exact absurd hlen (by decide)

theorem blank_line : Line blank := ⟨['\r'], rfl, by decide, by decide⟩

theorem blank_piece : Piece blank := blank_line.piece

theorem cstr_blank : cstr blank = blank := by decide

/-- A line that reads as a blank one is blank. -/
theorem Line.cstr_ne {h : Text} (hl : Line h) (hne : h ≠ blank) : cstr h ≠ blank := by
  obtain ⟨t, rfl, ht, -⟩ := hl
  intro hc
  have hpre : blank <+: t ++ ['\n'] := by
    rw [← hc]
    exact List.takeWhile_prefix _
  obtain ⟨u, hu⟩ := hpre
  match t, ht, hu with
  | [], _, hu => simp [blank] at hu
  | [c], _, hu =>
    simp only [blank, List.cons_append, List.nil_append, List.cons.injEq] at hu
    obtain ⟨rfl, -, -⟩ := hu
    exact hne rfl
  | c :: d :: t, ht, hu =>
    simp only [blank, List.cons_append, List.nil_append, List.cons.injEq] at hu
    obtain ⟨-, rfl, -⟩ := hu
    simp at ht

/-! ## The lengths -/

/-- `body_len` after the lines of a header. -/
def bodyLen (s : State) (hs : List Text) : Int :=
  if s.body_len_set then s.body_len else ((contentLength hs).map stored).getD s.body_len

@[simp] theorem contentLength_nil : contentLength [] = none := rfl

theorem bodyLen_nil (s : State) : bodyLen s [] = s.body_len := by
  unfold bodyLen
  simp

/-- One line noticed, then the others. -/
theorem notice_eq (s : State) :
    notice s = { s with body_len := bodyLen s [s.buf]
                        body_len_set := s.body_len_set || isLength s.buf } := by
  obtain ⟨conn, client, toServer, toClient, buf, body_len, set, recv_len⟩ := s
  unfold notice bodyLen contentLength
  cases set <;> cases hl : isLength buf <;> simp [hl]

theorem bodyLen_cons (s : State) (h : Text) (hs : List Text) :
    bodyLen { s with body_len := bodyLen s [h], body_len_set := s.body_len_set || isLength h } hs =
      bodyLen s (h :: hs) := by
  unfold bodyLen contentLength
  cases hs : s.body_len_set <;> cases hl : isLength h <;> simp [hl]

theorem isLength_blank : isLength blank = false := by decide

/-- A line that is no `Content-length` line changes nothing. -/
theorem notice_other {s : State} (h : isLength s.buf = false) : notice s = s := by
  unfold notice
  rw [h]
  simp

/-! ## The loops -/

/-- The request header goes to the server as it is. -/
theorem request_header_eq {hs : List Text} (hh : ∀ h ∈ hs, Piece h ∧ cstr h ≠ blank) {n : Nat}
    (hn : hs.length < n) {s : State} {rest : Text} (hc : s.conn = hs.flatten ++ (blank ++ rest)) :
    request_header n s = .ok { s with
      conn := rest, buf := blank, toServer := s.toServer ++ (hs.flatten ++ blank)
      body_len := bodyLen s hs, body_len_set := s.body_len_set || hs.any isLength } := by
  induction hs generalizing n s with
  | nil =>
    obtain ⟨n, rfl⟩ : ∃ k, n = k + 1 := ⟨n - 1, by omega⟩
    unfold request_header
    rw [hc, List.flatten_nil, List.nil_append, blank_piece.read]
    simp only
    rw [if_neg blank_piece.ne_nil, if_pos cstr_blank, notice_other isLength_blank]
    simp [bodyLen_nil]
  | cons h hs ih =>
    simp only [List.length_cons] at hn
    obtain ⟨n, rfl⟩ : ∃ k, n = k + 1 := ⟨n - 1, by omega⟩
    obtain ⟨hp, hne⟩ := hh h (by simp)
    unfold request_header
    rw [hc, List.flatten_cons, List.append_assoc, hp.read]
    simp only
    rw [if_neg hp.ne_nil, if_neg hne, notice_eq,
      ih (fun x hx => hh x (by simp [hx])) (by omega) rfl]
    congr 2
    · simp
    · exact bodyLen_cons s h hs
    · simp [Bool.or_assoc]

theorem length_le_flatten {hs : List Text} (hh : ∀ h ∈ hs, h ≠ []) :
    hs.length ≤ hs.flatten.length := by
  induction hs with
  | nil => simp
  | cons h hs ih =>
    have h1 := List.length_pos_of_ne_nil (hh h (by simp))
    have h2 := ih fun x hx => hh x (by simp [hx])
    simp only [List.flatten_cons, List.length_append, List.length_cons]
    omega

/-- There is a next line in a response header, and no more lines behind it than bytes. -/
theorem read_next {rs : List Text} (hr : ∀ r ∈ rs, Piece r ∧ cstr r ≠ blank) (body : Text) :
    (rio_readlineb (rs.flatten ++ (blank ++ body)) MAXLINE).1 ≠ [] ∧
      rs.length ≤ (rio_readlineb (rs.flatten ++ (blank ++ body)) MAXLINE).2.length := by
  cases rs with
  | nil =>
    rw [List.flatten_nil, List.nil_append, blank_piece.read]
    exact ⟨blank_piece.ne_nil, Nat.zero_le _⟩
  | cons r rs =>
    have hp : Piece r := (hr r (by simp)).1
    rw [List.flatten_cons, List.append_assoc, hp.read]
    refine ⟨hp.ne_nil, ?_⟩
    have hne : ∀ x ∈ rs, x ≠ [] := fun x hx => (hr x (by simp [hx])).1.ne_nil
    have hle := length_le_flatten hne
    have hb : blank.length = 2 := rfl
    simp only [List.length_append, List.length_cons]
    omega

/-- Numbers added up in an `int`. -/
theorem int_add (a b : Int) : int (int a + b) = int (a + b) := Int.bmod_add_bmod

/-- The response header goes to the client as it is, up to the blank line, and is counted. -/
theorem response_lines_eq {rs : List Text} (hr : ∀ r ∈ rs, Piece r ∧ cstr r ≠ blank) {n : Nat}
    (hn : rs.length < n) {s : State} {body : Text} {m : Int} (hm : s.recv_len = int m)
    (hc : (s.buf, s.client) = rio_readlineb (rs.flatten ++ (blank ++ body)) MAXLINE) :
    response_lines n s = .ok { s with
      client := body, buf := blank, toClient := s.toClient ++ rs.flatten
      body_len := bodyLen s rs, body_len_set := s.body_len_set || rs.any isLength
      recv_len := int (m + rs.flatten.length) } := by
  induction rs generalizing n s m with
  | nil =>
    obtain ⟨n, rfl⟩ : ∃ k, n = k + 1 := ⟨n - 1, by omega⟩
    rw [List.flatten_nil, List.nil_append, blank_piece.read] at hc
    obtain ⟨hb, hcl⟩ := Prod.mk.inj hc
    unfold response_lines
    rw [hb, if_pos cstr_blank]
    simp [bodyLen_nil, ← hb, ← hcl, ← hm]
  | cons r rs ih =>
    simp only [List.length_cons] at hn
    obtain ⟨n, rfl⟩ : ∃ k, n = k + 1 := ⟨n - 1, by omega⟩
    obtain ⟨hp, hne⟩ := hr r (by simp)
    rw [List.flatten_cons, List.append_assoc, hp.read] at hc
    obtain ⟨hb, hcl⟩ := Prod.mk.inj hc
    have hlen : r.length ≠ MAXLINE := hp.length_lt.ne
    have hrest : ∀ x ∈ rs, Piece x ∧ cstr x ≠ blank := fun x hx => hr x (by simp [hx])
    have hnext := (read_next hrest body).1
    unfold response_lines
    rw [hb, if_neg hne, if_neg (by simp [hlen])]
    simp only [List.take_length, notice_eq]
    rw [hcl]
    generalize hnx : rio_readlineb (rs.flatten ++ (blank ++ body)) MAXLINE = nx at hnext ⊢
    obtain ⟨nb, nc⟩ := nx
    simp only at hnext ⊢
    rw [if_neg hnext]
    have hcount : int (s.recv_len + r.length) = int (m + r.length) := by rw [hm, int_add]
    refine (ih hrest (by omega) hcount hnx.symm).trans ?_
    congr 2
    · simp
    · exact bodyLen_cons s r rs
    · simp [Bool.or_assoc]
    · rw [List.flatten_cons, List.length_append, Nat.cast_add, Int.add_assoc]

theorem response_header_eq {rs : List Text} (hr : ∀ r ∈ rs, Piece r ∧ cstr r ≠ blank) {s : State}
    {body : Text} {m : Int} (hm : s.recv_len = int m)
    (hc : s.client = rs.flatten ++ (blank ++ body)) :
    response_header s = .ok { s with
      client := body, buf := blank, toClient := s.toClient ++ (rs.flatten ++ blank)
      body_len := bodyLen s rs, body_len_set := s.body_len_set || rs.any isLength
      recv_len := int (m + (rs.flatten ++ blank).length) } := by
  obtain ⟨hnext, hfuel⟩ := read_next hr body
  unfold response_header
  rw [hc]
  generalize hnx : rio_readlineb (rs.flatten ++ (blank ++ body)) MAXLINE = nx at hnext hfuel ⊢
  obtain ⟨nb, nc⟩ := nx
  simp only at hnext hfuel ⊢
  rw [if_neg hnext, @response_lines_eq rs hr _ (Nat.lt_succ_of_le hfuel)
    { s with buf := nb, client := nc } body m hm hnx.symm]
  show Except.ok _ = Except.ok _
  congr 2
  · simp [blank]
  · rw [int_add, List.length_append, Nat.cast_add, Int.add_assoc]

/-! ## The bodies -/

/-- The body loops stop after this many bytes. -/
def stopAt (body_len : Int) : Nat := (max 1 body_len).toNat

/-- The loop over the body of the request: it takes what `body_len` says, and at least a byte. -/
theorem request_loop_eq (conn : Text) (k : Nat) (s : State) :
    ((stopAt (s.body_len - k) ≤ conn.length ∧ ∃ b t, request_loop conn k s =
        .ok { s with conn := conn.drop (stopAt (s.body_len - k)), buf := b, toServer := t }) ∨
      (conn.length < stopAt (s.body_len - k) ∧ ∃ t, request_loop conn k s = .error t ∧
        t.toClient = s.toClient)) := by
  induction conn generalizing k s with
  | nil =>
    right
    exact ⟨by unfold stopAt; simp only [List.length_nil]; omega, _, rfl, rfl⟩
  | cons c conn ih =>
    unfold request_loop
    by_cases hk : (k + 1 : Int) ≥ s.body_len
    · left
      have h1 : stopAt (s.body_len - k) = 1 := by
        unfold stopAt
        omega
      rw [h1]
      refine ⟨by simp, c :: s.buf.tail, s.toServer ++ [c], ?_⟩
      simp only
      rw [if_pos hk, List.drop_one, List.tail_cons]
    · have h1 : stopAt (s.body_len - k) = stopAt (s.body_len - (k + 1 : Nat)) + 1 := by
        unfold stopAt
        omega
      rw [h1, List.length_cons, List.drop_succ_cons]
      simp only
      rw [if_neg hk]
      rcases ih (k + 1) { s with
        conn := conn, buf := c :: s.buf.tail, toServer := s.toServer ++ [c] } with
        ⟨hle, b, t, hrun⟩ | ⟨hlt, t, hrun, ht⟩
      · left
        exact ⟨Nat.succ_le_succ hle, b, t, hrun⟩
      · right
        exact ⟨Nat.succ_lt_succ hlt, t, hrun, ht⟩

/-- Where the loops end, with or without an end of the file. -/
def final : Except State State → State
  | .ok s => s
  | .error s => s

/-- The loop over the body of the response: it copies and counts what `body_len` says, and at
least a byte, or all there is. The test for a last chunk never holds. -/
theorem response_body_eq (client : Text) (k : Nat) {s : State} {m : Int}
    (hb : s.buf.tail = ['\n']) (hm : s.recv_len = int m) :
    (stopAt (s.body_len - k) ≤ client.length ∧ ∃ b, response_body client k s = .ok { s with
        client := client.drop (stopAt (s.body_len - k)), buf := b
        toClient := s.toClient ++ client.take (stopAt (s.body_len - k))
        recv_len := int (m + stopAt (s.body_len - k)) }) ∨
      (client.length < stopAt (s.body_len - k) ∧ ∃ t, response_body client k s = .error t ∧
        t.toClient = s.toClient ++ client ∧ t.conn = s.conn) := by
  induction client generalizing k s m with
  | nil =>
    right
    refine ⟨?_, _, rfl, by simp, rfl⟩
    unfold stopAt
    simp only [List.length_nil]
    omega
  | cons c client ih =>
    unfold response_body
    by_cases hk : (k + 1 : Int) ≥ s.body_len
    · left
      have h1 : stopAt (s.body_len - k) = 1 := by
        unfold stopAt
        omega
      rw [h1]
      refine ⟨by simp, c :: s.buf.tail, ?_⟩
      simp only
      rw [if_pos hk, hm, int_add]
      rfl
    · have h1 : stopAt (s.body_len - k) = stopAt (s.body_len - (k + 1 : Nat)) + 1 := by
        unfold stopAt
        omega
      have hchunk : cstr (c :: s.buf.tail) ≠ ['0', '\r', '\n'] := by
        rw [hb]
        unfold cstr
        by_cases hc : c = '\x00' <;> simp [hc]
      have hcount : int (s.recv_len + 1) = int (m + 1) := by rw [hm, int_add]
      simp only
      rw [if_neg hk, if_neg hchunk, h1, List.length_cons, List.drop_succ_cons, List.take_succ_cons]
      rcases @ih (k + 1) { s with
        client := client, buf := c :: s.buf.tail, toClient := s.toClient ++ [c]
        recv_len := int (s.recv_len + 1) } _ hb hcount with
        ⟨hle, b, hrun⟩ | ⟨hlt, t, hrun, hto, hconn⟩
      · left
        refine ⟨Nat.succ_le_succ hle, b, hrun.trans ?_⟩
        congr 2
        · simp
        · rw [Nat.cast_add, Int.add_assoc, Int.add_comm 1]
          rfl
      · right
        exact ⟨Nat.succ_lt_succ hlt, t, hrun, by simpa using hto, hconn⟩

/-! ## A connection -/

section Connection

variable {hs rs : List Text} {cbody body : Text}

/-- `body_len` behind the request header, and behind both. -/
def requestLen (hs : List Text) : Int := ((contentLength hs).map stored).getD 0x7fffffff

def responseLen (hs rs : List Text) : Int := ((contentLength rs).map stored).getD (requestLen hs)

/-- The locals of `doit` before the first loop. -/
def start (conn client toServer : Text) : State where
  conn := conn
  client := client
  toServer := toServer
  toClient := []
  buf := []
  body_len := 0x7fffffff
  body_len_set := false
  recv_len := 0

/-- The loops of a connection, one behind the other. -/
def exchange (n : Nat) (s : State) : Except State State :=
  request_header n s >>= fun s => request_body s >>= fun s =>
    response_header { s with body_len_set := false } >>= fun s => response_body s.client 0 s

/-- What a connection did whose loops ended so: there is a log line when the last loop stopped by
itself. -/
def outcome (uri : Text) : Except State State → Outcome
  | .ok s => ⟨s.toServer, s.toClient, s.conn, some (uri, s.recv_len)⟩
  | .error s => ⟨s.toServer, s.toClient, s.conn, none⟩

@[simp] theorem outcome_toClient (uri : Text) (e : Except State State) :
    (outcome uri e).toClient = (final e).toClient := by
  cases e <;> rfl

@[simp] theorem outcome_left (uri : Text) (e : Except State State) :
    (outcome uri e).left = (final e).conn := by
  cases e <;> rfl

/-- The uri and the end of the loops, where `doit` comes to them. -/
def loops (connect : Text → Text → Option Text) (conn : Text) :
    Option (Text × Except State State) :=
  let (buf, conn) := rio_readlineb conn MAXLINE
  (request_line buf).bind fun (method, uri, _) =>
    (parse_uri uri).bind fun (hostname, pathname, port) =>
      (connect hostname port).map fun client =>
        (uri, exchange (conn.length + 1)
          (start conn client (method ++ " /".toList ++ pathname ++ " HTTP/1.1\r\n".toList)))

theorem doit_loops {connect : Text → Text → Option Text} {conn uri : Text}
    {e : Except State State} (h : loops connect conn = some (uri, e)) :
    doit connect conn = outcome uri e := by
  unfold loops at h
  simp only [Option.bind_eq_some_iff, Option.map_eq_some_iff, Prod.exists, Prod.mk.injEq] at h
  obtain ⟨method, uri', version, hline, hostname, pathname, port, huri, client, hclient, rfl, rfl⟩ := h
  unfold doit
  simp only [hline, huri, hclient]
  unfold forward outcome
  rfl

/-- The request body is shorter than what the copy of it waits for. -/
def BodyMissing (hs : List Text) (cbody : Text) : Prop :=
  hs.any isLength = true ∧ cbody.length < stopAt (requestLen hs)

instance (hs : List Text) (cbody : Text) : Decidable (BodyMissing hs cbody) :=
  inferInstanceAs (Decidable (_ ∧ _))

/-- What is not read of the bytes behind the request header. -/
def leftOver (hs : List Text) (cbody : Text) : Text :=
  if hs.any isLength = true then cbody.drop (stopAt (requestLen hs)) else cbody

/-- The ways in which the loops of a connection end: the client sends too little, the server
closes, or the count is reached. -/
inductive Ending (hs rs : List Text) (cbody body : Text) : Except State State → Prop
  | unasked {t : State} (cut : BodyMissing hs cbody) (toClient : t.toClient = []) :
      Ending hs rs cbody body (.error t)
  | closed {t : State} (whole : ¬ BodyMissing hs cbody)
      (short : body.length < stopAt (responseLen hs rs))
      (toClient : t.toClient = rs.flatten ++ (blank ++ body)) (conn : t.conn = leftOver hs cbody) :
      Ending hs rs cbody body (.error t)
  | counted {s : State} (whole : ¬ BodyMissing hs cbody)
      (enough : stopAt (responseLen hs rs) ≤ body.length)
      (toClient : s.toClient = rs.flatten ++ (blank ++ body.take (stopAt (responseLen hs rs))))
      (conn : s.conn = leftOver hs cbody)
      (client : s.client = body.drop (stopAt (responseLen hs rs)))
      (recv_len : s.recv_len = int (rs.flatten.length + 2 + stopAt (responseLen hs rs))) :
      Ending hs rs cbody body (.ok s)

/-- The response side of a connection, from any state behind the request. -/
theorem response_ends (hr : ∀ r ∈ rs, Piece r ∧ cstr r ≠ blank) {s : State}
    (hc : s.client = rs.flatten ++ (blank ++ body)) (hl : s.body_len = requestLen hs)
    (hset : s.body_len_set = false) (ht : s.toClient = []) (hcount : s.recv_len = 0)
    (hwhole : ¬ BodyMissing hs cbody) (hconn : s.conn = leftOver hs cbody) :
    Ending hs rs cbody body (response_header s >>= fun s => response_body s.client 0 s) := by
  have hlen : bodyLen s rs = responseLen hs rs := by
    unfold bodyLen responseLen
    rw [hset, hl]
    rfl
  have hm : s.recv_len = int 0 := by rw [hcount, int, Int.zero_bmod]
  obtain ⟨s', hheader, hclient, hbuf, hto, hlen', hconn', hcount'⟩ : ∃ s',
      response_header s = .ok s' ∧ s'.client = body ∧ s'.buf.tail = ['\n'] ∧
      s'.toClient = rs.flatten ++ blank ∧ s'.body_len = responseLen hs rs ∧ s'.conn = s.conn ∧
      s'.recv_len = int (rs.flatten.length + 2) :=
    ⟨_, response_header_eq hr hm hc, rfl, rfl, by simp [ht], hlen, rfl, by simp [blank]⟩
  rw [hheader]
  show Ending hs rs cbody body (response_body s'.client 0 s')
  rw [hclient]
  rcases response_body_eq body 0 hbuf hcount' with ⟨hle, b, hrun⟩ | ⟨hlt, t, hrun, hto', hconnt⟩
  · simp only [Nat.cast_zero, sub_zero, hlen'] at hle hrun
    rw [hrun]
    refine .counted hwhole hle ?_ (hconn'.trans hconn) rfl ?_
    · simp [hto]
    · dsimp only
  · simp only [Nat.cast_zero, sub_zero, hlen'] at hlt
    rw [hrun]
    refine .closed hwhole hlt ?_ (hconnt.trans (hconn'.trans hconn))
    rw [hto', hto, List.append_assoc]

/-- A connection, from its request header on. -/
theorem exchange_ends (hh : ∀ h ∈ hs, Piece h ∧ cstr h ≠ blank)
    (hr : ∀ r ∈ rs, Piece r ∧ cstr r ≠ blank) {n : Nat} (hn : hs.length < n) (toServer : Text) :
    Ending hs rs cbody body (exchange n (start (hs.flatten ++ (blank ++ cbody))
      (rs.flatten ++ (blank ++ body)) toServer)) := by
  obtain ⟨s, hs1, hconn, hclient, hlen, hto, hset, hcount⟩ : ∃ s, request_header n (start
      (hs.flatten ++ (blank ++ cbody)) (rs.flatten ++ (blank ++ body)) toServer) = .ok s ∧
      s.conn = cbody ∧ s.client = rs.flatten ++ (blank ++ body) ∧ s.body_len = requestLen hs ∧
      s.toClient = [] ∧ s.body_len_set = hs.any isLength ∧ s.recv_len = 0 :=
    ⟨_, request_header_eq hh hn rfl, rfl, rfl, rfl, rfl, rfl, rfl⟩
  have hx : exchange n (start (hs.flatten ++ (blank ++ cbody)) (rs.flatten ++ (blank ++ body))
      toServer) = (request_body s >>= fun s =>
        response_header { s with body_len_set := false } >>= fun s => response_body s.client 0 s) := by
    unfold exchange
    rw [hs1]
    rfl
  rw [hx]
  cases hany : hs.any isLength with
  | false =>
    have hbody : request_body s = .ok s := by
      unfold request_body
      rw [hset, hany]
      rfl
    have hwhole : ¬ BodyMissing hs cbody := fun hcut => by simpa [hany] using hcut.1
    have hleft : leftOver hs cbody = cbody := if_neg (by simp [hany])
    rw [hbody]
    exact @response_ends hs rs cbody body hr { s with body_len_set := false } hclient hlen rfl hto
      hcount hwhole (hconn.trans hleft.symm)
  | true =>
    have hbody : request_body s = request_loop cbody 0 s := by
      unfold request_body
      rw [hset, hany, hconn]
      rfl
    have hleft : leftOver hs cbody = cbody.drop (stopAt (requestLen hs)) := if_pos hany
    rw [hbody]
    rcases request_loop_eq cbody 0 s with ⟨hle, b, t, hrun⟩ | ⟨hlt, t, hrun, ht⟩
    · simp only [hlen, Nat.cast_zero, sub_zero] at hle hrun
      have hwhole : ¬ BodyMissing hs cbody := fun hcut => absurd hcut.2 (by omega)
      rw [hrun]
      exact @response_ends hs rs cbody body hr { s with
        conn := cbody.drop (stopAt (requestLen hs)), buf := b, toServer := t
        body_len := requestLen hs, body_len_set := false } hclient rfl rfl hto hcount hwhole hleft.symm
    · simp only [hlen, Nat.cast_zero, sub_zero] at hlt
      rw [hrun]
      exact .unasked ⟨hany, hlt⟩ (ht.trans hto)

/-- What the client gets, and what is left of its bytes. -/
theorem Ending.copied {e : Except State State} (h : Ending hs rs cbody body e) :
    if BodyMissing hs cbody then (final e).toClient = []
    else (final e).toClient = rs.flatten ++ (blank ++ body.take (stopAt (responseLen hs rs))) ∧
      (final e).conn = leftOver hs cbody := by
  cases h with
  | unasked cut toClient =>
    rw [if_pos cut]
    exact toClient
  | closed whole short toClient conn =>
    rw [if_neg whole, List.take_of_length_le short.le]
    exact ⟨toClient, conn⟩
  | counted whole enough toClient conn client recv_len =>
    rw [if_neg whole]
    exact ⟨toClient, conn⟩

/-- `doit` comes to its loops: the request line names a server that answers, and a blank line
ends the request header. -/
structure Asked (connect : Text → Text → Option Text) (line : Text) (hs : List Text)
    (response : Text) : Prop where
  first : Piece line
  names : ∃ method uri version hostname pathname port,
    request_line line = some (method, uri, version) ∧
      parse_uri uri = some (hostname, pathname, port) ∧ connect hostname port = some response
  request : ∀ h ∈ hs, Piece h ∧ cstr h ≠ blank

theorem Handled.asked {connect : Text → Text → Option Text} {line : Text}
    (h : Handled connect line hs rs body) :
    Asked connect line hs (rs.flatten ++ (blank ++ body)) := ⟨h.first, h.names, h.request⟩

theorem loops_end {connect : Text → Text → Option Text} {line : Text} (cbody : Text)
    (h : Asked connect line hs (rs.flatten ++ (blank ++ body)))
    (hr : ∀ r ∈ rs, Piece r ∧ cstr r ≠ blank) :
    ∃ uri e, loops connect (line ++ (hs.flatten ++ (blank ++ cbody))) = some (uri, e) ∧
      Ending hs rs cbody body e := by
  obtain ⟨method, uri, version, hostname, pathname, port, hline, huri, hconnect⟩ := h.names
  have hne : ∀ h' ∈ hs, h' ≠ [] := fun h' hm => (h.request h' hm).1.ne_nil
  have hfuel : hs.length < (hs.flatten ++ (blank ++ cbody)).length + 1 := by
    have := length_le_flatten hne
    rw [List.length_append]
    omega
  refine ⟨uri, _, ?_, exchange_ends h.request hr hfuel
    (method ++ " /".toList ++ pathname ++ " HTTP/1.1\r\n".toList)⟩
  unfold loops
  rw [h.first.read]
  simp only [hline, huri, hconnect, Option.bind_some, Option.map_some]

/-- What the client gets, and what is left of its bytes. -/
theorem doit_eq {connect : Text → Text → Option Text} {line : Text} (cbody : Text)
    (h : Handled connect line hs rs body) :
    let o := doit connect (line ++ (hs.flatten ++ (blank ++ cbody)))
    if BodyMissing hs cbody then o.toClient = []
    else o.toClient = rs.flatten ++ (blank ++ body.take (stopAt (responseLen hs rs))) ∧
      o.left = leftOver hs cbody := by
  have hpieces : ∀ r ∈ rs, Piece r ∧ cstr r ≠ blank := fun r hm =>
    ⟨(h.response r hm).1.piece, (h.response r hm).1.cstr_ne (h.response r hm).2⟩
  obtain ⟨uri, e, hloops, hend⟩ := loops_end cbody h.asked hpieces
  intro o
  rw [show o = outcome uri e from doit_loops hloops, outcome_toClient, outcome_left]
  exact hend.copied

/-! ## The law -/

/-- The request header names no length, or one from 1 to the largest `int` that the client then
sends in full. -/
def RequestFits (hs : List Text) (cbody : Text) : Prop :=
  hs.any isLength = true → ∃ k, contentLength hs = some k ∧ 1 ≤ k ∧ k < 2 ^ 31 ∧ k ≤ cbody.length

/-- Where the copy of the response body stops: at the length of the response header, else at
that of the request header, else at the largest `int`, and never before the first byte. -/
def stopsAt (hs rs : List Text) : Nat :=
  (max 1 ((((contentLength rs).or (contentLength hs)).map stored).getD 0x7fffffff)).toNat

/-- The response header names a length from 1 to the largest `int`; or the body is no longer
than what the header asks for, nor than where the copy stops. -/
def ResponseFits (hs rs : List Text) (body : Text) : Prop :=
  match contentLength rs with
  | some n => 1 ≤ n ∧ n < 2 ^ 31 ∨ body.length ≤ n.toNat ∧ body.length ≤ stopsAt hs rs
  | none => body.length ≤ stopsAt hs rs

theorem stored_range (n : Int) : -2 ^ 31 ≤ stored n ∧ stored n < 2 ^ 31 := by
  unfold stored int
  generalize max (-2 ^ 63) (min (2 ^ 63 - 1) n) = m
  have h1 := Int.le_bmod (x := m) (m := 2 ^ 32) (by decide)
  have h2 := Int.bmod_lt (x := m) (m := 2 ^ 32) (by decide)
  omega

theorem stored_eq {n : Int} (h1 : 0 ≤ n) (h2 : n < 2 ^ 31) : stored n = n := by
  unfold stored int
  rw [show max (-2 ^ 63) (min (2 ^ 63 - 1) n) = n by omega]
  rw [Int.bmod_eq_of_le] <;> omega

theorem stopAt_responseLen : stopAt (responseLen hs rs) = stopsAt hs rs := by
  unfold responseLen requestLen stopAt stopsAt
  cases contentLength rs <;> simp

/-- The body is copied as the header says exactly under `ResponseFits`. -/
theorem body_right_iff : body.take (stopsAt hs rs) = wanted rs body ↔ ResponseFits hs rs body := by
  unfold wanted ResponseFits
  cases hn : contentLength rs with
  | none =>
    simp only
    constructor
    · intro h
      have := congrArg List.length h
      simp only [List.length_take] at this
      omega
    · exact fun h => List.take_of_length_le h
  | some n =>
    simp only
    rw [List.take_eq_take_iff]
    have hstop : stopsAt hs rs = (max 1 (stored n)).toNat := by
      unfold stopsAt
      rw [hn]
      rfl
    have hrange := stored_range n
    constructor
    · intro h
      omega
    · rintro (⟨h1, h2⟩ | h)
      · rw [hstop, stored_eq (by omega) h2, max_eq_right h1]
      · omega

/-- As many bytes of the request body are read as the header says, or fewer are there. -/
theorem read_right_iff :
    (∃ r, cbody = r ++ leftOver hs cbody ∧ (r.length : Int) = (contentLength hs).getD 0) ∧
      ¬ BodyMissing hs cbody ↔ RequestFits hs cbody := by
  unfold RequestFits leftOver BodyMissing
  cases hany : hs.any isLength with
  | false =>
    have hnone : contentLength hs = none := by
      unfold contentLength
      rw [List.find?_eq_none.mpr (by simpa using hany)]
      rfl
    simp [hnone]
  | true =>
    rw [if_pos rfl]
    have hpos : 1 ≤ stopAt (requestLen hs) := by
      unfold stopAt
      omega
    constructor
    · rintro ⟨⟨r, hr, hlen⟩, hn⟩ -
      have hm : stopAt (requestLen hs) ≤ cbody.length := by
        simp only [true_and, Nat.not_lt] at hn
        exact hn
      have hrl := congrArg List.length hr
      rw [List.length_append, List.length_drop] at hrl
      cases hk : contentLength hs with
      | none =>
        rw [hk, Option.getD_none] at hlen
        omega
      | some k =>
        rw [hk, Option.getD_some] at hlen
        have hreq : requestLen hs = stored k := by
          unfold requestLen
          rw [hk]
          rfl
        have hrange := stored_range k
        have hstop : stopAt (requestLen hs) = (max 1 (stored k)).toNat := by rw [hreq, stopAt]
        exact ⟨k, rfl, by omega, by omega, by omega⟩
    · intro hfit
      obtain ⟨k, hk, h1, h2, h3⟩ := hfit rfl
      have hstop : stopAt (requestLen hs) = k.toNat := by
        unfold requestLen stopAt
        rw [hk]
        show (max 1 (stored k)).toNat = _
        rw [stored_eq (by omega) h2, max_eq_right h1]
      rw [hstop]
      refine ⟨⟨cbody.take k.toNat, ?_, ?_⟩, ?_⟩
      · rw [List.take_append_drop]
      · rw [hk, List.length_take, Option.getD_some]
        omega
      · omega

/-- The client gets the response as its header describes it, and the request is read as its
header describes it, exactly when both headers fit what the loops do. -/
theorem the_exchange_is_right_iff {connect : Text → Text → Option Text} {line : Text}
    (h : Handled connect line hs rs body) :
    ForwardedRight (doit connect (line ++ (hs.flatten ++ (blank ++ cbody)))) hs cbody rs body ↔
      RequestFits hs cbody ∧ ResponseFits hs rs body := by
  have hout := doit_eq cbody h
  simp only at hout
  generalize doit connect (line ++ (hs.flatten ++ (blank ++ cbody))) = o at hout ⊢
  by_cases hshort : BodyMissing hs cbody
  · rw [if_pos hshort] at hout
    constructor
    · intro hf
      -- nothing came to the client, not even the blank line
      have := congrArg List.length (hout.symm.trans hf.toClient)
      simp [blank] at this
    · rintro ⟨hreq, -⟩
      exact absurd hshort (read_right_iff.mpr hreq).2
  · rw [if_neg hshort, stopAt_responseLen] at hout
    obtain ⟨hto, hleft⟩ := hout
    rw [← body_right_iff]
    constructor
    · intro hf
      have hread := hf.read
      rw [hleft] at hread
      refine ⟨read_right_iff.mp ⟨hread, hshort⟩, ?_⟩
      have := hto.symm.trans hf.toClient
      rwa [List.append_cancel_left_eq, List.append_cancel_left_eq] at this
    · rintro ⟨hreq, hbody⟩
      refine ⟨by rw [hto, hbody], ?_⟩
      rw [hleft]
      exact (read_right_iff.mpr hreq).1

end Connection

/-! ## Two connections -/

def getLine : Text := "GET http://h/p HTTP/1.1\r\n".toList
def okLine : Text := "HTTP/1.1 200 OK\r\n".toList
def fiveLine : Text := "Content-Length: 5\r\n".toList

theorem getLine_line : Line getLine := ⟨getLine.dropLast, by decide, by decide, by decide⟩

theorem okLine_line : Line okLine ∧ okLine ≠ blank :=
  ⟨⟨okLine.dropLast, by decide, by decide, by decide⟩, by decide⟩

theorem fiveLine_line : Line fiveLine ∧ fiveLine ≠ blank :=
  ⟨⟨fiveLine.dropLast, by decide, by decide, by decide⟩, by decide⟩

theorem asked_of (hs : List Text) (response : Text) (h : ∀ x ∈ hs, Line x ∧ x ≠ blank) :
    Asked (fun _ _ => some response) getLine hs response := by
  refine ⟨getLine_line.piece, ⟨"GET".toList, "http://h/p".toList, "HTTP/1.1".toList, "h".toList,
    "p".toList, "80".toList, by decide +kernel, by decide +kernel, rfl⟩, fun x hx => ?_⟩
  obtain ⟨hline, hne⟩ := h x hx
  exact ⟨hline.piece, hline.cstr_ne hne⟩

theorem handled_of (hs rs : List Text) (body : Text) (hh : ∀ h ∈ hs, h = fiveLine)
    (hr : ∀ r ∈ rs, r = okLine ∨ r = fiveLine) :
    Handled (fun _ _ => some (rs.flatten ++ (blank ++ body))) getLine hs rs body := by
  have hasked := asked_of hs (rs.flatten ++ (blank ++ body)) fun h hm => by
    rw [hh h hm]
    exact fiveLine_line
  refine ⟨hasked.first, hasked.names, hasked.request, fun r hm => ?_⟩
  rcases hr r hm with rfl | rfl
  · exact okLine_line
  · exact fiveLine_line

/-- A request with a body of 5 bytes, and a response that names no length: the client gets 5
bytes of it. -/
theorem the_request_cuts_the_response : ¬ ∀ connect line hs cbody rs body,
    Handled connect line hs rs body →
      ForwardedRight (doit connect (line ++ (hs.flatten ++ (blank ++ cbody)))) hs cbody rs body := by
  intro hall
  have h := hall _ _ _ "hello".toList _ _ (handled_of [fiveLine] [okLine] "hello world".toList
    (by simp) (by simp))
  exact absurd h.toClient (by decide +kernel)

/-- And with a response that names its own length all is well. -/
theorem a_response_with_a_length_is_right :
    ForwardedRight (doit (fun _ _ => some ([okLine, fiveLine].flatten ++ (blank ++ "world".toList)))
      (getLine ++ ([fiveLine].flatten ++ (blank ++ "hello".toList)))) [fiveLine] "hello".toList
      [okLine, fiveLine] "world".toList := by
  refine (the_exchange_is_right_iff (handled_of _ _ "world".toList (by simp) (by simp))).mpr ⟨?_, ?_⟩
  · intro _
    exact ⟨5, by decide +kernel, by decide, by decide, by decide⟩
  · show ResponseFits [fiveLine] [okLine, fiveLine] "world".toList
    unfold ResponseFits
    rw [show contentLength [okLine, fiveLine] = some 5 by decide +kernel]
    exact Or.inl ⟨by decide, by decide⟩

end ics_labs.proxy
