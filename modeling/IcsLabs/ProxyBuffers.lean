-- The buffers of lab10 (proxy.c): every one of them has the size of the input line, also those for
-- the rewritten request line and for the log entry, which add text of their own.
import Mathlib.Data.List.TakeWhile
import IcsLabs.ProxyCloses

open ics_labs.ctext

namespace ics_labs.proxy

/-! ## What is written -/

/-- `sprintf(buf, "%s /%s HTTP/1.1\r\n", method, pathname)` -/
def rewritten_line (method pathname : Text) : Text :=
  method ++ " /".toList ++ pathname ++ " HTTP/1.1\r\n".toList

/-- `%d` -/
def decimal (n : Int) : Text :=
  if n < 0 then '-' :: Nat.toDigits 10 n.natAbs else Nat.toDigits 10 n.natAbs

def ntohl (x : BitVec 32) : BitVec 32 :=
  x.extractLsb' 0 8 ++ x.extractLsb' 8 8 ++ x.extractLsb' 16 8 ++ x.extractLsb' 24 8

/-- The four numbers of an address are each put into an `unsigned char`. -/
def format_log_entry (time_str : Text) (s_addr : BitVec 32) (uri : Text) (size : Int) : Text :=
  let host := ntohl s_addr
  let a := (host >>> 24).setWidth 8
  let b := ((host >>> 16) &&& 0xff).setWidth 8
  let c := ((host >>> 8) &&& 0xff).setWidth 8
  let d := (host &&& 0xff).setWidth 8
  time_str ++ ": ".toList ++ decimal a.toNat ++ ['.'] ++ decimal b.toNat ++ ['.'] ++
    decimal c.toNat ++ ['.'] ++ decimal d.toNat ++ [' '] ++ uri ++ [' '] ++ decimal size

/-- The string and its terminator have room in a buffer of `MAXLINE` bytes. -/
def Fits (s : Text) : Prop := s.length + 1 ≤ MAXLINE

/-- The strings of one request, for every time, every address of a client and every size. -/
structure AllFit (method uri hostname pathname port : Text) : Prop where
  host : Fits hostname
  path : Fits pathname
  number : Fits port
  request : Fits (rewritten_line method pathname)
  entry : ∀ time_str s_addr n, time_str.length ≤ 64 →
    Fits (format_log_entry time_str s_addr uri (int n))

/-! ## Lengths -/

theorem decimal_byte (x : BitVec 8) : (decimal x.toNat).length ≤ 3 := by
  have hx := x.isLt
  have hlen : (Nat.toDigits 10 x.toNat).length ≤ 3 :=
    (Nat.length_toDigits_le_iff (by decide) (by decide)).2 (by omega)
  have hneg : ¬(x.toNat : Int) < 0 := by omega
  rwa [decimal, if_neg hneg, Int.natAbs_natCast]

theorem decimal_int (n : Int) : (decimal (int n)).length ≤ 11 := by
  have h1 := @Int.le_bmod n (2 ^ 32) (by decide)
  have h2 := @Int.bmod_lt n (2 ^ 32) (by decide)
  have hlen : (Nat.toDigits 10 (int n).natAbs).length ≤ 10 := by
    refine (Nat.length_toDigits_le_iff (by decide) (by decide)).2 ?_
    unfold int
    omega
  unfold decimal
  split_ifs
  · rw [List.length_cons]
    omega
  · omega

theorem rewritten_length (method pathname : Text) :
    (rewritten_line method pathname).length = method.length + pathname.length + 13 := by
  simp only [rewritten_line, List.length_append, show " /".toList.length = 2 from rfl,
    show " HTTP/1.1\r\n".toList.length = 11 from rfl]
  omega

theorem log_entry_length {time_str uri : Text} (h : time_str.length ≤ 64) (s_addr : BitVec 32)
    (n : Int) : (format_log_entry time_str s_addr uri (int n)).length ≤ uri.length + 94 := by
  have ha := decimal_byte (((ntohl s_addr) >>> 24).setWidth 8)
  have hb := decimal_byte (((ntohl s_addr >>> 16) &&& 0xff).setWidth 8)
  have hc := decimal_byte (((ntohl s_addr >>> 8) &&& 0xff).setWidth 8)
  have hd := decimal_byte ((ntohl s_addr &&& 0xff).setWidth 8)
  have hsize := decimal_int n
  simp only [format_log_entry, List.length_append, List.length_singleton,
    show ": ".toList.length = 2 from rfl]
  omega

/-- 64 characters of time, 255.255.255.255, and the smallest int. -/
theorem longest_log_entry (uri : Text) :
    (format_log_entry (List.replicate 64 ' ') (BitVec.allOnes 32) uri (int (2 ^ 31))).length =
      uri.length + 94 := by
  have ha : (decimal ((ntohl (BitVec.allOnes 32) >>> 24).setWidth 8).toNat).length = 3 := by decide
  have hb : (decimal (((ntohl (BitVec.allOnes 32) >>> 16) &&& 0xff).setWidth 8).toNat).length = 3 :=
    by decide
  have hc : (decimal (((ntohl (BitVec.allOnes 32) >>> 8) &&& 0xff).setWidth 8).toNat).length = 3 :=
    by decide
  have hd : (decimal ((ntohl (BitVec.allOnes 32) &&& 0xff).setWidth 8).toNat).length = 3 := by decide
  have hsize : (decimal (int (2 ^ 31))).length = 11 := by decide
  simp only [format_log_entry, List.length_append, List.length_singleton, List.length_replicate,
    show ": ".toList.length = 2 from rfl, ha, hb, hc, hd, hsize]
  omega

theorem readline_loop_le (s : Text) (n : Nat) : (readline_loop s n).1.length ≤ n := by
  induction s generalizing n with
  | nil => exact Nat.zero_le _
  | cons c s ih =>
    cases n with
    | zero => exact Nat.le_refl 0
    | succ n =>
      unfold readline_loop
      split_ifs
      · simp
      · exact Nat.succ_le_succ (ih n)

theorem readline_w_short (fails : Bool) (s : Text) :
    (Rio_readlineb_w fails s).1.length < MAXLINE := by
  have hle : (rio_readlineb s MAXLINE).1.length ≤ MAXLINE - 1 := readline_loop_le s _
  simp only [Rio_readlineb_w]
  split_ifs
  · decide
  · exact lt_of_le_of_lt hle (by decide)

theorem word_length (cs : Text) : (word cs).1.length + (word cs).2.length ≤ cs.length := by
  have hdrop := (List.dropWhile_sublist isspace (l := cs)).length_le
  have hsum := congrArg List.length
    (List.takeWhile_append_dropWhile (p := fun c => !isspace c) (l := cs.dropWhile isspace))
  rw [List.length_append] at hsum
  unfold word
  simp only
  omega

/-! ## The parts of the line -/

/-- The method. -/
def firstWord (line : Text) : Text := (word (cstr line)).1

/-- The uri. -/
def secondWord (line : Text) : Text := (word (word (cstr line)).2).1

/-- The text behind the first slash of the address. -/
def behindSlash (uri : Text) : Text := ((uri.drop 7).dropWhile (· ≠ '/')).tail

theorem request_line_words {line method uri version : Text}
    (h : request_line line = some (method, uri, version)) :
    method = firstWord line ∧ uri = secondWord line := by
  unfold request_line at h
  simp only at h
  split_ifs at h
  simp only [Option.some.injEq, Prod.mk.injEq] at h
  exact ⟨h.1.symm, h.2.1.symm⟩

theorem secondWord_le (line : Text) : (secondWord line).length ≤ line.length := by
  have h1 := word_length (cstr line)
  have h2 := word_length (word (cstr line)).2
  have hc : (cstr line).length ≤ line.length := (List.takeWhile_sublist _).length_le
  unfold secondWord
  omega

theorem parse_uri_parts {uri hostname pathname port : Text}
    (h : parse_uri uri = some (hostname, pathname, port)) :
    hostname.length ≤ uri.length ∧ pathname = behindSlash uri ∧
      port.length ≤ max 2 uri.length := by
  have hdrop : (uri.drop 7).length ≤ uri.length := (List.drop_sublist 7 uri).length_le
  unfold parse_uri at h
  simp only at h
  split_ifs at h with hhttp hend hcolon
  · simp only [Option.some.injEq, Prod.mk.injEq] at h
    obtain ⟨rfl, rfl, rfl⟩ := h
    refine ⟨(List.takeWhile_sublist _).length_le.trans hdrop, rfl, ?_⟩
    refine le_trans ?_ (le_max_right _ _)
    exact (List.takeWhile_sublist _).length_le.trans ((List.tail_sublist _).length_le.trans
      ((List.dropWhile_sublist _).length_le.trans hdrop))
  · simp only [Option.some.injEq, Prod.mk.injEq] at h
    obtain ⟨rfl, rfl, rfl⟩ := h
    exact ⟨(List.takeWhile_sublist _).length_le.trans hdrop, rfl, le_max_left _ _⟩

theorem behindSlash_le (uri : Text) : (behindSlash uri).length ≤ uri.length :=
  (List.tail_sublist _).length_le.trans ((List.dropWhile_sublist _).length_le.trans
    (List.drop_sublist 7 uri).length_le)

/-! ## The law -/

/-- The 13 characters of the rewritten line and the 94 of the log entry have to be saved by the
parts of the line that are left out. -/
theorem every_string_fits_iff {fails : Bool} {s method uri version hostname pathname port : Text}
    (hline : request_line (Rio_readlineb_w fails s).1 = some (method, uri, version))
    (huri : parse_uri uri = some (hostname, pathname, port)) :
    AllFit method uri hostname pathname port ↔
      (firstWord (Rio_readlineb_w fails s).1).length +
          (behindSlash (secondWord (Rio_readlineb_w fails s).1)).length ≤ 8178 ∧
        (secondWord (Rio_readlineb_w fails s).1).length ≤ 8097 := by
  have hshort := readline_w_short fails s
  generalize (Rio_readlineb_w fails s).1 = line at hline hshort ⊢
  obtain ⟨rfl, rfl⟩ := request_line_words hline
  obtain ⟨hhost, rfl, hport⟩ := parse_uri_parts huri
  have hle := secondWord_le line
  have hpath := behindSlash_le (secondWord line)
  have hrequest := rewritten_length (firstWord line) (behindSlash (secondWord line))
  constructor
  · intro h
    have h1 := h.request
    have h2 := h.entry (List.replicate 64 ' ') (BitVec.allOnes 32) (2 ^ 31) (by simp)
    unfold Fits MAXLINE at h1 h2
    rw [longest_log_entry] at h2
    omega
  · rintro ⟨h1, h2⟩
    unfold MAXLINE at hshort
    refine ⟨?_, ?_, ?_, ?_, ?_⟩
    · unfold Fits MAXLINE
      omega
    · unfold Fits MAXLINE
      omega
    · unfold Fits MAXLINE
      omega
    · unfold Fits MAXLINE
      omega
    · intro time_str s_addr n htime
      have := @log_entry_length time_str (secondWord line) htime s_addr n
      unfold Fits MAXLINE
      omega

/-! ## Two lines -/

/-- A word without blanks, which `%s` reads. -/
def Plain (a : Text) : Prop := a ≠ [] ∧ ∀ c ∈ a, isspace c = false ∧ c ≠ '\x00'

theorem plain_letter {c : Char} (h1 : isspace c = false) (h2 : c ≠ '\x00') : Plain [c] :=
  ⟨by simp, by simpa using ⟨h1, h2⟩⟩

theorem word_plain {a t : Text} (ha : Plain a) (ht : StopsAt (fun c => !isspace c) t) :
    word (a ++ t) = (a, t) := by
  obtain ⟨hne, hall⟩ := ha
  have hpass : ∀ c ∈ a, (!isspace c) = true := fun c hc => by simp [(hall c hc).1]
  have hfront : (a ++ t).dropWhile isspace = a ++ t := by
    cases a with
    | nil => exact absurd rfl hne
    | cons c a => simp [(hall c (by simp)).1]
  unfold word
  simp only [hfront, takeWhile_stop hpass ht, dropWhile_stop hpass ht]

theorem word_space (t : Text) : word (' ' :: t) = word t := by
  simp [word, isspace]

theorem request_line_plain {method uri version : Text} (hm : Plain method) (hu : Plain uri)
    (hv : Plain version) :
    request_line (method ++ ' ' :: (uri ++ ' ' :: version)) = some (method, uri, version) := by
  have hstr : cstr (method ++ ' ' :: (uri ++ ' ' :: version)) =
      method ++ ' ' :: (uri ++ ' ' :: version) := by
    apply List.takeWhile_eq_self_iff.2
    intro c hc
    simp only [List.mem_append, List.mem_cons] at hc
    simp only [decide_eq_true_eq]
    rcases hc with h | rfl | h | rfl | h
    · exact (hm.2 c h).2
    · decide
    · exact (hu.2 c h).2
    · decide
    · exact (hv.2 c h).2
  have hlast : word version = (version, []) := by
    have := word_plain hv (t := []) (by intro c hc; cases hc)
    rwa [List.append_nil] at this
  have hspace : ∀ t, StopsAt (fun c => !isspace c) (' ' :: t) := fun t => stopsAt_cons rfl
  unfold request_line
  simp only [hstr, word_plain hm (hspace _), word_space, word_plain hu (hspace _), hlast,
    if_neg hv.1]

/-- A path on the host `h`. -/
def hostUri (pathname : Text) : Text :=
  ['h', 't', 't', 'p', ':', '/', '/', 'h', '/'] ++ pathname

theorem parse_hostUri (pathname : Text) :
    parse_uri (hostUri pathname) = some (['h'], pathname, ['8', '0']) := by
  simp [parse_uri, startsWith, cstr, hostUri]

theorem hostUri_plain (n : Nat) : Plain (hostUri (List.replicate n 'a')) := by
  refine ⟨by simp [hostUri], ?_⟩
  have hhost : ∀ c ∈ ['h', 't', 't', 'p', ':', '/', '/', 'h', '/'],
      isspace c = false ∧ c ≠ '\x00' := by simp [isspace]
  intro c hc
  unfold hostUri at hc
  rcases List.mem_append.1 hc with h | h
  · exact hhost c h
  · rw [List.eq_of_mem_replicate h]
    decide

/-- A line of 8191 characters whose path is as long as it can be: the terminator of the rewritten
line is one too many. -/
theorem the_rewritten_line_is_too_long :
    ¬ ∀ (fails : Bool) (s method uri version hostname pathname port : Text),
      request_line (Rio_readlineb_w fails s).1 = some (method, uri, version) →
      parse_uri uri = some (hostname, pathname, port) →
      AllFit method uri hostname pathname port := by
  intro hall
  have hplain := hostUri_plain 8178
  have hparse := parse_hostUri (List.replicate 8178 'a')
  have hlen : (hostUri (List.replicate 8178 'a')).length = 8187 := by
    rw [hostUri, List.length_append, List.length_replicate]
    rfl
  generalize hostUri (List.replicate 8178 'a') = uri at hplain hparse hlen
  have hpiece : Piece (['G'] ++ ' ' :: (uri ++ ' ' :: ['X'])) := by
    refine Or.inr ⟨?_, ?_⟩
    · have : '\n' ∉ uri := fun h => absurd (hplain.2 _ h).1 (by decide)
      simp [this]
    · simp [hlen, MAXLINE]
  have hread := hpiece.read []
  rw [List.append_nil, ← Rio_readlineb_w_eof] at hread
  have hfit := hall false _ ['G'] uri ['X'] ['h'] _ _ (by
    rw [hread]
    exact request_line_plain (plain_letter rfl (by decide)) hplain (plain_letter rfl (by decide))) hparse
  have hrequest := hfit.request
  unfold Fits MAXLINE at hrequest
  rw [rewritten_length, List.length_replicate] at hrequest
  simp at hrequest

/-- `GET http://h/p HTTP/1.1` -/
theorem a_short_line_fits :
    AllFit "GET".toList "http://h/p".toList ['h'] ['p'] ['8', '0'] ↔
      (firstWord (Rio_readlineb_w false getLine).1).length +
          (behindSlash (secondWord (Rio_readlineb_w false getLine).1)).length ≤ 8178 ∧
        (secondWord (Rio_readlineb_w false getLine).1).length ≤ 8097 := by
  have hline : request_line (Rio_readlineb_w false getLine).1 =
      some ("GET".toList, "http://h/p".toList, "HTTP/1.1".toList) := by decide +kernel
  exact every_string_fits_iff hline (by decide +kernel)

end ics_labs.proxy
