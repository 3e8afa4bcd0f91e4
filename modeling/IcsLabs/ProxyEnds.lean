-- Where the copy of a response ends in lab10 (proxy.c), and what the log says then: the last
-- chunk of a response is never seen, and an end of the file leaves no line in the log.
import IcsLabs.ProxyForward

open ics_labs.ctext

namespace ics_labs.proxy

/-! ## Responses in chunks -/

/-- Some data behind its size in hexadecimal digits. -/
structure Chunk where
  size : Text
  data : Text
  data_ne : data ≠ []
  size_digits : ∀ c ∈ size, isDigitIn 16 c = true
  size_eq : number 16 size = data.length

def Chunk.text (c : Chunk) : Text := c.size ++ blank ++ c.data ++ blank

def lastChunk : Text := "0\r\n\r\n".toList

/-- The lines of the header, which may be longer than the buffer of `doit`, and the chunks. -/
structure Chunked where
  lines : List Text
  chunks : List Chunk
  whole : ∀ l ∈ lines, ∃ t, l = t ++ ['\n'] ∧ '\n' ∉ t
  not_blank : ∀ l ∈ lines, l ≠ blank
  no_length : ∀ l ∈ lines, isLength l = false

namespace Chunked

def body (r : Chunked) : Text := (r.chunks.map Chunk.text).flatten ++ lastChunk

def text (r : Chunked) : Text := r.lines.flatten ++ (blank ++ r.body)

end Chunked

/-! ## The header as it is read -/

/-- The pieces in front of the first one that reads as a blank line. A line that is longer than
the buffer comes in several. -/
def headerRead : Nat → Text → List Text
  | 0, _ => []
  | n + 1, s =>
    let (piece, rest) := rio_readlineb s MAXLINE
    if cstr piece = blank then [] else piece :: headerRead n rest

theorem Piece.eq_blank {h : Text} (hp : Piece h) (hc : cstr h = blank) : h = blank := by
  rcases hp with hl | ⟨hn, -⟩
  · by_contra hne
    exact hl.cstr_ne hne hc
  · have hmem : '\n' ∈ cstr h := by
      rw [hc]
      decide
    exact absurd ((List.takeWhile_sublist _).subset hmem) hn

/-- The rest of a text that ends with a line does so too. -/
theorem ends_of_append {p q : Text} (h : (p ++ q).getLast? = some '\n') :
    q = [] ∨ q.getLast? = some '\n' := by
  cases q with
  | nil => exact Or.inl rfl
  | cons c q =>
    right
    rw [List.getLast?_append] at h
    simpa [List.getLast?_cons] using h

/-- Lines start with a piece, and behind that are lines or nothing. -/
theorem first_piece {s : Text} (h : s.getLast? = some '\n') :
    ∃ p q, Piece p ∧ s = p ++ q ∧ (q = [] ∨ q.getLast? = some '\n') := by
  obtain ⟨t, u, rfl, ht⟩ := List.eq_append_cons_of_mem (List.mem_of_getLast? h)
  by_cases hlen : t.length + 1 < MAXLINE
  · have hline : Piece (t ++ ['\n']) := Or.inl ⟨t, rfl, ht, by simpa using hlen⟩
    have hsplit : t ++ '\n' :: u = (t ++ ['\n']) ++ u := by simp
    rw [hsplit] at h ⊢
    exact ⟨_, u, hline, rfl, ends_of_append h⟩
  · have hfull : Piece (t.take (MAXLINE - 1)) := by
      refine Or.inr ⟨fun hmem => ht (List.mem_of_mem_take hmem), ?_⟩
      rw [List.length_take]
      omega
    have hsplit : t ++ '\n' :: u = t.take (MAXLINE - 1) ++ (t.drop (MAXLINE - 1) ++ '\n' :: u) := by
      rw [← List.append_assoc, List.take_append_drop]
    rw [hsplit] at h ⊢
    exact ⟨_, _, hfull, rfl, ends_of_append h⟩

/-- Lines with a blank one behind them are read up to the first piece that reads as blank. -/
theorem headerRead_eq {n : Nat} {s : Text} (hs : s = [] ∨ s.getLast? = some '\n')
    (hn : s.length < n) (body : Text) :
    (∀ r ∈ headerRead n (s ++ (blank ++ body)), Piece r ∧ cstr r ≠ blank) ∧
      ∃ rest, s ++ (blank ++ body) =
        (headerRead n (s ++ (blank ++ body))).flatten ++ (blank ++ rest) := by
  induction n generalizing s with
  | zero => omega
  | succ n ih =>
    rcases hs with rfl | hs
    · rw [List.nil_append, headerRead, blank_piece.read]
      simp only [cstr_blank, if_true]
      exact ⟨by simp, body, rfl⟩
    · obtain ⟨p, q, hp, rfl, hq⟩ := first_piece hs
      have hpos := List.length_pos_of_ne_nil hp.ne_nil
      rw [List.length_append] at hn
      rw [List.append_assoc, headerRead, hp.read]
      simp only
      split
      · rename_i hblank
        rw [hp.eq_blank hblank]
        exact ⟨by simp, q ++ (blank ++ body), rfl⟩
      · rename_i hblank
        obtain ⟨hpieces, rest, hrest⟩ := ih hq (by omega)
        refine ⟨?_, rest, ?_⟩
        · intro r hr
          rcases List.mem_cons.mp hr with rfl | hr
          · exact ⟨hp, hblank⟩
          · exact hpieces r hr
        · rw [List.flatten_cons, List.append_assoc, ← hrest]

/-- Lines that fit into the buffer are read one by one. -/
theorem headerRead_lines {ls : List Text} (hl : ∀ l ∈ ls, Line l ∧ l ≠ blank) {n : Nat}
    (hn : ls.length < n) (body : Text) : headerRead n (ls.flatten ++ (blank ++ body)) = ls := by
  induction ls generalizing n with
  | nil =>
    obtain ⟨n, rfl⟩ : ∃ k, n = k + 1 := ⟨n - 1, by omega⟩
    rw [List.flatten_nil, List.nil_append, headerRead, blank_piece.read]
    simp [cstr_blank]
  | cons l ls ih =>
    simp only [List.length_cons] at hn
    obtain ⟨n, rfl⟩ : ∃ k, n = k + 1 := ⟨n - 1, by omega⟩
    obtain ⟨hline, hne⟩ := hl l (by simp)
    rw [List.flatten_cons, List.append_assoc, headerRead, hline.piece.read]
    simp only
    rw [if_neg (hline.cstr_ne hne), ih (fun x hx => hl x (by simp [hx])) (by omega)]

theorem lines_end {ls : List Text} (h : ∀ l ∈ ls, ∃ t, l = t ++ ['\n'] ∧ '\n' ∉ t) :
    ls.flatten = [] ∨ ls.flatten.getLast? = some '\n' := by
  rcases List.eq_nil_or_concat ls with rfl | ⟨front, l, rfl⟩
  · exact Or.inl rfl
  · right
    obtain ⟨t, rfl, -⟩ := h l (by simp)
    simp [List.getLast?_append]

namespace Chunked

variable (r : Chunked)

/-- The header as `doit` reads it. -/
def header : List Text := headerRead (r.text.length + 1) r.text

theorem header_pieces : ∀ l ∈ r.header, Piece l ∧ cstr l ≠ blank :=
  (headerRead_eq (lines_end r.whole) (by simp [text]) r.body).1

theorem text_eq : ∃ rest, r.text = r.header.flatten ++ (blank ++ rest) :=
  (headerRead_eq (lines_end r.whole) (by simp [text]) r.body).2

/-- A header whose lines fit into the buffer is read as it is. -/
theorem header_eq (h : ∀ l ∈ r.lines, l.length < MAXLINE) : r.header = r.lines := by
  have hlines : ∀ l ∈ r.lines, Line l ∧ l ≠ blank := fun l hl => by
    obtain ⟨t, rfl, ht⟩ := r.whole l hl
    exact ⟨⟨t, rfl, ht, h _ hl⟩, r.not_blank _ hl⟩
  have hle := length_le_flatten fun l hl => (hlines l hl).1.piece.ne_nil
  refine headerRead_lines hlines ?_ r.body
  rw [text, List.length_append]
  omega

end Chunked

/-! ## The end of a response in chunks -/

section Chunks

variable {connect : Text → Text → Option Text} {line : Text} {hs : List Text}

/-- The copy of the body ended by a test of its own, `response` is what the client got, and
`more` was not read. -/
def StopsBehind (connect : Text → Text → Option Text) (conn response more : Text) : Prop :=
  (doit connect conn).toClient = response ∧
    ∃ uri s, loops connect conn = some (uri, .ok s) ∧ s.client = more

/-- The number of bytes behind which the copy stops: those of the header as it is read, the blank
line, and the length that is in force then. -/
def copied (hs rs : List Text) : Nat := rs.flatten.length + 2 + stopAt (responseLen hs rs)

/-- What the client has when the count has stopped the copy. -/
theorem copied_length {rs : List Text} {body : Text}
    (h : stopAt (responseLen hs rs) ≤ body.length) :
    (rs.flatten ++ (blank ++ body.take (stopAt (responseLen hs rs)))).length = copied hs rs := by
  unfold copied
  rw [List.length_append, List.length_append, List.length_take_of_le h,
    show blank.length = 2 from rfl, Nat.add_assoc]

/-- With header lines that fit into the buffer, the length in force is the one of the request. -/
theorem copied_eq_iff (hs : List Text) (r : Chunked) (h : ∀ l ∈ r.lines, l.length < MAXLINE) :
    copied hs r.header = r.text.length ↔ stopAt (requestLen hs) = r.body.length := by
  have hnone : contentLength r.lines = none := by
    unfold contentLength
    rw [List.find?_eq_none.mpr fun l hl => by simp [r.no_length l hl]]
    rfl
  have hlen : responseLen hs r.lines = requestLen hs := by
    unfold responseLen
    rw [hnone]
    rfl
  unfold copied Chunked.text
  rw [r.header_eq h, hlen, List.length_append, List.length_append, show blank.length = 2 from rfl]
  omega

/-- The client gets a response in chunks, and nothing of what stands behind it is read, exactly
when the count happens to stop there: the test for the last chunk plays no part. -/
theorem the_copy_stops_behind_the_last_chunk_iff (cbody : Text) (r : Chunked) (more : Text)
    (h : Asked connect line hs (r.text ++ more)) :
    StopsBehind connect (line ++ (hs.flatten ++ (blank ++ cbody))) r.text more ↔
      ¬ BodyMissing hs cbody ∧ copied hs r.header = r.text.length := by
  obtain ⟨rest, hrest⟩ := r.text_eq
  have hall : r.text ++ more = r.header.flatten ++ (blank ++ (rest ++ more)) := by
    rw [hrest, List.append_assoc, List.append_assoc]
  have hsize := congrArg List.length hall
  simp only [List.length_append, show blank.length = 2 from rfl] at hsize
  rw [hall] at h
  obtain ⟨uri, e, hloops, hend⟩ := loops_end cbody h r.header_pieces
  unfold StopsBehind
  rw [doit_loops hloops, hloops, outcome_toClient]
  cases hend with
  | unasked cut toClient =>
    exact ⟨fun ⟨_, _, _, he, _⟩ => by simp at he, fun ⟨hwhole, _⟩ => absurd cut hwhole⟩
  | closed whole short toClient conn =>
    rw [List.length_append] at short
    refine ⟨fun ⟨_, _, _, he, _⟩ => by simp at he, fun ⟨_, hlen⟩ => ?_⟩
    unfold copied at hlen
    omega
  | @counted s whole enough toClient conn client recv_len =>
    have hparts : s.toClient ++ s.client = r.text ++ more := by
      rw [toClient, client, hall, List.append_assoc, List.append_assoc, List.take_append_drop]
    rw [← copied_length enough, ← toClient]
    constructor
    · rintro ⟨hto, -⟩
      exact ⟨whole, congrArg List.length hto⟩
    · rintro ⟨-, hlen⟩
      obtain ⟨hto, hmore⟩ := List.append_inj hparts hlen
      exact ⟨hto, uri, s, rfl, hmore⟩

end Chunks

/-- A chunk whose data reads like a last chunk. -/
def zeroChunk : Chunk where
  size := ['3']
  data := "0\r\n".toList
  data_ne := by simp
  size_digits := by simp [isDigitIn, digitVal]
  size_eq := by decide

def inChunks (chunks : List Chunk) : Chunked where
  lines := [okLine]
  chunks := chunks
  whole := fun l hl => ⟨okLine.dropLast, by rw [List.mem_singleton.mp hl]; decide⟩
  not_blank := fun l hl => by rw [List.mem_singleton.mp hl]; decide
  no_length := fun l hl => by rw [List.mem_singleton.mp hl]; decide

/-- The byte behind the last chunk goes to the client too. -/
theorem the_last_chunk_is_not_seen : ¬ ∀ connect line hs cbody (r : Chunked) more,
    Asked connect line hs (r.text ++ more) →
      StopsBehind connect (line ++ (hs.flatten ++ (blank ++ cbody))) r.text more := by
  intro hall
  have h := hall _ _ [] [] (inChunks []) ['x'] (asked_of [] _ (by simp))
  exact absurd h.1 (by decide +kernel)

/-- A request with a body of 13 bytes, and a response without a length whose body has 13 bytes
too. -/
theorem a_request_of_the_same_length_ends_the_copy :
    StopsBehind (fun _ _ => some ((inChunks [zeroChunk]).text ++ ['x']))
      (getLine ++ (["Content-Length: 13\r\n".toList].flatten ++ (blank ++ "hello, world!".toList)))
      (inChunks [zeroChunk]).text ['x'] := by
  have hline : Line "Content-Length: 13\r\n".toList :=
    ⟨"Content-Length: 13\r".toList, by decide, by decide, by decide⟩
  have hasked := asked_of ["Content-Length: 13\r\n".toList] ((inChunks [zeroChunk]).text ++ ['x'])
    fun x hx => by rw [List.mem_singleton.mp hx]; exact ⟨hline, by decide⟩
  refine (the_copy_stops_behind_the_last_chunk_iff _ _ _ hasked).mpr ⟨by decide +kernel, ?_⟩
  rw [copied_eq_iff _ _ fun l hl => by rw [List.mem_singleton.mp hl]; decide]
  decide +kernel

/-! ## The log -/

section Log

variable {connect : Text → Text → Option Text} {line : Text} {hs rs : List Text}
  {cbody body : Text}

theorem int_eq_iff (n : Nat) : int n = n ↔ n < 2 ^ 31 := by
  constructor
  · intro h
    have hlt := @Int.bmod_lt n (2 ^ 32) (by decide)
    unfold int at h
    omega
  · intro h
    exact Int.bmod_eq_of_le (by omega) (by omega)

/-- The client got the response as its header describes it: as many bytes of the body as it says,
or, when it says nothing, all bytes up to the end of the file. -/
def ForwardedToItsEnd (o : Outcome) (rs : List Text) (body : Text) : Prop :=
  o.toClient = rs.flatten ++ (blank ++ wanted rs body) ∧
    ∀ n, contentLength rs = some n → n ≤ body.length

/-- Behind a response header that came in completely: there is a line in the log, and it counts
what the client got, exactly when the copy of the body stopped by its count and not at the end of
the file, and an `int` holds the sum. -/
theorem the_log_counts_what_the_client_got_iff
    (h : Asked connect line hs (rs.flatten ++ (blank ++ body)))
    (hr : ∀ r ∈ rs, Piece r ∧ cstr r ≠ blank) (hwhole : ¬ BodyMissing hs cbody) :
    let o := doit connect (line ++ (hs.flatten ++ (blank ++ cbody)))
    (∃ uri, o.logged = some (uri, (o.toClient.length : Int))) ↔
      stopAt (responseLen hs rs) ≤ body.length ∧ copied hs rs < 2 ^ 31 := by
  obtain ⟨uri, e, hloops, hend⟩ := loops_end cbody h hr
  intro o
  rw [show o = outcome uri e from doit_loops hloops]
  cases hend with
  | unasked cut toClient => exact absurd cut hwhole
  | closed whole short toClient conn =>
    exact ⟨fun ⟨_, hlogged⟩ => by simp [outcome] at hlogged, fun ⟨henough, _⟩ => by omega⟩
  | @counted s whole enough toClient conn client recv_len =>
    have hsize : s.toClient.length = copied hs rs := by rw [toClient, copied_length enough]
    have hcount : s.recv_len = int (copied hs rs) := by
      unfold copied
      rw [recv_len]
      push_cast
      rfl
    have hlogged : (∃ u, (outcome uri (.ok s)).logged =
        some (u, ((outcome uri (.ok s)).toClient.length : Int))) ↔
        int (copied hs rs) = copied hs rs := by
      rw [← hcount, ← hsize]
      simp [outcome]
    rw [hlogged, int_eq_iff]
    exact ⟨fun hlt => ⟨enough, hlt⟩, fun hlt => hlt.2⟩

end Log

/-- A response without a length comes to its end when the server closes, and nothing is logged. -/
theorem a_response_up_to_the_end_of_file_is_not_logged : ¬ ∀ connect line hs rs cbody body,
    Asked connect line hs (rs.flatten ++ (blank ++ body)) →
      (∀ r ∈ rs, Piece r ∧ cstr r ≠ blank) → ¬ BodyMissing hs cbody →
      let o := doit connect (line ++ (hs.flatten ++ (blank ++ cbody)))
      ForwardedToItsEnd o rs body → ∃ uri, o.logged = some (uri, (o.toClient.length : Int)) := by
  intro hall
  obtain ⟨uri, h⟩ := hall _ _ [] [okLine] [] "world".toList (asked_of [] _ (by simp))
    (fun r hr => by rw [List.mem_singleton.mp hr]; exact ⟨okLine_line.1.piece, by decide⟩) (by decide)
    ⟨by decide +kernel, fun n hn => by simp [show contentLength [okLine] = none by decide] at hn⟩
  have hnone : (doit (fun _ _ => some ([okLine].flatten ++ (blank ++ "world".toList)))
      (getLine ++ (List.flatten [] ++ (blank ++ [])))).logged = none := by decide +kernel
  rw [hnone] at h
  exact absurd h (by simp)

/-- A response of five bytes that says so. -/
theorem a_response_with_a_length_is_logged :
    ∃ uri, (doit (fun _ _ => some ([okLine, fiveLine].flatten ++ (blank ++ "world".toList)))
      (getLine ++ (List.flatten [] ++ (blank ++ [])))).logged =
        some (uri, ((doit (fun _ _ => some ([okLine, fiveLine].flatten ++ (blank ++ "world".toList)))
          (getLine ++ (List.flatten [] ++ (blank ++ [])))).toClient.length : Int)) := by
  refine (the_log_counts_what_the_client_got_iff (asked_of [] _ (by simp)) (fun r hr => ?_)
    (by decide)).mpr ⟨by decide +kernel, by decide +kernel⟩
  rcases List.mem_pair.mp hr with rfl | rfl
  · exact ⟨okLine_line.1.piece, by decide⟩
  · exact ⟨fiveLine_line.1.piece, by decide⟩

end ics_labs.proxy
