-- parseline of lab9 (tsh.c): the command line is cut into arguments in place, in a static array.
-- An access outside the line and its terminator, or outside argv, has no result.
import Mathlib.Data.List.TakeWhile
import IcsLabs.CText

open ics_labs.ctext

namespace ics_labs.tsh

/-- Max line size. -/
def MAXLINE : Nat := 1024

/-- Max args on a command line. -/
def MAXARGS : Nat := 128

/-- A pointer into the array, or NULL. -/
abbrev Argv := Vector (Option Nat) MAXARGS

/-- `while (*buf && (*buf == ' ')) buf++`, over the characters from `buf` on. -/
def skip_spaces : Text → Nat → Option Nat
  | [], _ => none
  | c :: cs, buf => if c ≠ '\x00' ∧ c = ' ' then skip_spaces cs (buf + 1) else some buf

/-- `strchr(buf, delim)`, over the characters from `buf` on. The inner `none` is NULL. -/
def strchr : Text → Char → Nat → Option (Option Nat)
  | [], _, _ => none
  | c :: cs, delim, buf =>
    if c = delim then some (some buf)
    else if c = '\x00' then some none
    else strchr cs delim (buf + 1)

/-- The start of the next token and its delimiter: a quote if it starts with one, else a space. -/
def next_delim (array : Text) (buf : Nat) : Option (Nat × Option Nat) := do
  let c ← array[buf]?
  if c = '\'' then
    let delim ← strchr (array.drop (buf + 1)) '\'' (buf + 1)
    return (buf + 1, delim)
  else
    let delim ← strchr (array.drop buf) ' ' buf
    return (buf, delim)

/-- `argv[i] = p` -/
def set_arg (argv : Argv) (i : Nat) (p : Option Nat) : Option Argv :=
  if h : i < MAXARGS then some (argv.set i p) else none

/-- The loop over the tokens. Each turn goes on behind a delimiter, so `fuel` is enough when it is
more than the length of the array. -/
def parse_args : Nat → Text → Argv → Nat → Nat → Option Nat → Option (Text × Argv × Nat)
  | 0, _, _, _, _, _ => none
  | _ + 1, array, argv, argc, _, none => some (array, argv, argc)
  | fuel + 1, array, argv, argc, buf, some delim => do
    let argv ← set_arg argv argc (some buf)
    let array := array.set delim '\x00'
    let buf ← skip_spaces (array.drop (delim + 1)) (delim + 1)
    let (buf, delim) ← next_delim array buf
    parse_args fuel array argv (argc + 1) buf delim

/-- What `parseline` returns and leaves in its array and in argv. -/
structure Parsed where
  bg : Bool
  array : Text
  argv : Argv

/-- Behind the loop: the NULL at the end of argv, and the request for a background job. -/
def end_args (array : Text) (argv : Argv) (argc : Nat) : Option Parsed := do
  let argv ← set_arg argv argc none
  if argc = 0 then return { bg := true, array, argv }
  else
    let p ← (argv[argc - 1]?).join
    let c ← array[p]?
    if c = '&' then
      let argv ← set_arg argv (argc - 1) none
      return { bg := true, array, argv }
    else return { bg := false, array, argv }

/-- `argv` holds anything before. The last character of the line becomes a space, whatever it is;
of an empty line that is the byte in front of the array. -/
def parseline (cmdline : Text) (argv : Argv) : Option Parsed := do
  if MAXLINE ≤ cmdline.length ∨ cmdline.length = 0 then none
  else
    let array := (cmdline ++ ['\x00']).set (cmdline.length - 1) ' '
    let buf ← skip_spaces array 0
    let (buf, delim) ← next_delim array buf
    let (array, argv, argc) ← parse_args (array.length + 1) array argv 0 buf delim
    end_args array argv argc

/-! ## The arguments of a line -/

/-- The text in front of the next `delim` and the text behind it. -/
def upTo (delim : Char) : Text → Option (Text × Text)
  | [] => none
  | c :: cs =>
    if c = delim then some ([], cs) else (upTo delim cs).map fun (a, u) => (c :: a, u)

theorem upTo_split {d : Char} {t a u : Text} (h : upTo d t = some (a, u)) : t = a ++ d :: u := by
  induction t generalizing a with
  | nil => simp [upTo] at h
  | cons c t ih =>
    unfold upTo at h
    split_ifs at h with hc
    · obtain ⟨rfl, rfl⟩ := by simpa using h
      rw [hc, List.nil_append]
    · obtain ⟨⟨a', u'⟩, h', heq⟩ := Option.map_eq_some_iff.1 h
      obtain ⟨rfl, rfl⟩ := by simpa using heq
      rw [ih h', List.cons_append]

theorem upTo_append {d : Char} {a : Text} (ha : d ∉ a) (u : Text) :
    upTo d (a ++ d :: u) = some (a, u) := by
  induction a with
  | nil => simp [upTo]
  | cons c a ih =>
    simp only [List.mem_cons, not_or] at ha
    simp [upTo, Ne.symm ha.1, ih ha.2]

/-- The next argument and the text behind its delimiter, a quote or a space. -/
def cut : Text → Option (Text × Text)
  | [] => none
  | c :: cs =>
    if c = ' ' then cut cs
    else if c = '\'' then upTo '\'' cs
    else upTo ' ' (c :: cs)

/-- What `cut` takes off stands in the text: blanks and perhaps a quote, the argument, the
delimiter. -/
theorem cut_split {t a u : Text} (h : cut t = some (a, u)) :
    ∃ mid delim, t = mid ++ (a ++ delim :: u) := by
  induction t with
  | nil => simp [cut] at h
  | cons c t ih =>
    unfold cut at h
    split_ifs at h with hc hq
    · obtain ⟨mid, delim, rfl⟩ := ih h
      exact ⟨c :: mid, delim, rfl⟩
    · exact ⟨[c], '\'', by rw [upTo_split h, List.singleton_append]⟩
    · exact ⟨[], ' ', by rw [upTo_split h, List.nil_append]⟩

theorem cut_shorter {t a u : Text} (h : cut t = some (a, u)) : u.length < t.length := by
  obtain ⟨mid, delim, rfl⟩ := cut_split h
  simp only [List.length_append, List.length_cons]
  omega

/-- The arguments of a text, in order. -/
def arguments (t : Text) : List Text :=
  match _h : cut t with
  | none => []
  | some (a, u) => a :: arguments u
termination_by t.length
decreasing_by exact cut_shorter (by assumption)

theorem arguments_none {t : Text} (h : cut t = none) : arguments t = [] := by
  rw [arguments]
  split
  · rfl
  · next h' => simp [h] at h'

theorem arguments_some {t a u : Text} (h : cut t = some (a, u)) :
    arguments t = a :: arguments u := by
  rw [arguments]
  split
  · next h' => simp [h] at h'
  · next h' =>
    obtain ⟨rfl, rfl⟩ := by simpa [h] using h'
    rfl

theorem arguments_space (t : Text) : arguments (' ' :: t) = arguments t := by
  have hcut : cut (' ' :: t) = cut t := by simp [cut]
  cases h : cut t with
  | none => rw [arguments_none h, arguments_none (hcut.trans h)]
  | some x => rw [arguments_some h, arguments_some (hcut.trans h)]

/-! ## One token -/

theorem strchr_upTo {t : Text} (ht : '\x00' ∉ t) {d : Char} (hd : d ≠ '\x00') (b : Text)
    (p : Nat) : strchr (t ++ '\x00' :: b) d p =
      some ((upTo d t).map fun x => p + x.1.length) := by
  induction t generalizing p with
  | nil => simp [strchr, upTo, hd.symm]
  | cons c t ih =>
    simp only [List.mem_cons, not_or] at ht
    by_cases hcd : c = d
    · simp [strchr, upTo, hcd]
    · simp only [List.cons_append, strchr, upTo, hcd, Ne.symm ht.1, if_false, ih ht.2,
        Option.map_map]
      congr 2
      funext x
      simp only [Function.comp_apply, List.length_cons]
      omega

/-- `buf` and `delim` stand at the next token of the text `t`, which begins behind `pre`. -/
def AtToken (pre t : Text) (buf : Nat) : Option Nat → Prop
  | none => cut t = none
  | some delim => ∃ mid a c u, cut t = some (a, u) ∧ t = mid ++ (a ++ c :: u) ∧
      buf = pre.length + mid.length ∧ delim = buf + a.length

theorem AtToken.space {pre t : Text} {buf : Nat} {delim : Option Nat}
    (h : AtToken (pre ++ [' ']) t buf delim) : AtToken pre (' ' :: t) buf delim := by
  cases delim with
  | none => simpa [AtToken, cut] using h
  | some delim =>
    obtain ⟨mid, a, c, u, hcut, rfl, rfl, rfl⟩ := h
    refine ⟨' ' :: mid, a, c, u, by simpa [cut] using hcut, rfl, ?_, rfl⟩
    simp only [List.length_append, List.length_cons, List.length_nil]
    omega

/-- The blanks are skipped and the delimiter is searched. -/
theorem next_token (pre t : Text) (ht : '\x00' ∉ t) :
    ∃ p buf delim, skip_spaces (t ++ ['\x00']) pre.length = some p ∧
      next_delim (pre ++ (t ++ ['\x00'])) p = some (buf, delim) ∧ AtToken pre t buf delim := by
  induction t generalizing pre with
  | nil =>
    refine ⟨pre.length, pre.length, none, by simp [skip_spaces], ?_, by simp [AtToken, cut]⟩
    simp [next_delim, strchr]
  | cons c t ih =>
    simp only [List.mem_cons, not_or] at ht
    by_cases hc : c = ' '
    · subst hc
      obtain ⟨p, buf, delim, hskip, hnext, hat⟩ := ih (pre ++ [' ']) ht.2
      refine ⟨p, buf, delim, ?_, by simpa using hnext, hat.space⟩
      simpa [skip_spaces] using hskip
    · refine ⟨pre.length, ?_⟩
      have hskip : skip_spaces (c :: t ++ ['\x00']) pre.length = some pre.length := by
        simp [skip_spaces, hc]
      by_cases hq : c = '\''
      · refine ⟨pre.length + 1, (upTo '\'' t).map fun x => pre.length + 1 + x.1.length,
          hskip, ?_, ?_⟩
        · have hquote := strchr_upTo ht.2 (show '\'' ≠ '\x00' by decide) [] (pre.length + 1)
          simp [next_delim, hquote, hq]
        · cases h : upTo '\'' t with
          | none => simp [AtToken, cut, hq, h]
          | some x =>
            refine ⟨[c], x.1, '\'', x.2, by simp [cut, hq, h], ?_, rfl, rfl⟩
            rw [upTo_split h, List.singleton_append]
      · have hct : '\x00' ∉ c :: t := by simpa [not_or] using ht
        refine ⟨pre.length, (upTo ' ' (c :: t)).map fun x => pre.length + x.1.length,
          hskip, ?_, ?_⟩
        · have hspace := strchr_upTo hct (show ' ' ≠ '\x00' by decide) [] pre.length
          rw [List.cons_append] at hspace
          simp [next_delim, hspace, hq]
        · cases h : upTo ' ' (c :: t) with
          | none => simp [AtToken, cut, hc, hq, h]
          | some x =>
            refine ⟨[], x.1, ' ', x.2, by simp [cut, hc, hq, h], ?_, rfl, rfl⟩
            exact upTo_split h

/-! ## The loop -/

/-- A string in the array begins at `p`. -/
def StringAt (array : Text) (p : Nat) (s : Text) : Prop :=
  ∃ x y, array = x ++ (s ++ '\x00' :: y) ∧ x.length = p

theorem StringAt.append {array : Text} {p : Nat} {s : Text} (h : StringAt array p s) (v : Text) :
    StringAt (array ++ v) p s := by
  obtain ⟨x, y, rfl, hp⟩ := h
  exact ⟨x, y ++ v, by simp, hp⟩

/-- The first entries of argv point to these strings. -/
def Holds (array : Text) (argv : Argv) (as : List Text) : Prop :=
  ∀ i (hi : i < as.length), ∃ p, argv[i]? = some (some p) ∧ StringAt array p as[i]

theorem Holds.append {array : Text} {argv : Argv} {as : List Text} (h : Holds array argv as)
    (v : Text) : Holds (array ++ v) argv as := by
  intro i hi
  obtain ⟨p, hp, hs⟩ := h i hi
  exact ⟨p, hp, hs.append v⟩

/-- An entry behind the strings is written. -/
theorem Holds.set {array : Text} {argv : Argv} {as : List Text} (h : Holds array argv as)
    (hlt : as.length < MAXARGS) (q : Option Nat) : Holds array (argv.set as.length q) as := by
  intro i hi
  obtain ⟨p, hp, hs⟩ := h i hi
  refine ⟨p, ?_, hs⟩
  rw [Vector.getElem?_set_ne hlt (by omega), hp]

/-- The next string is appended. -/
theorem Holds.push {array : Text} {argv : Argv} {as : List Text} (h : Holds array argv as)
    (hlt : as.length < MAXARGS) {p : Nat} {s : Text} (hs : StringAt array p s) :
    Holds array (argv.set as.length (some p)) (as ++ [s]) := by
  intro i hi
  rw [List.length_append, List.length_singleton] at hi
  by_cases hlast : i = as.length
  · subst hlast
    exact ⟨p, by simp [Vector.getElem?_set_self], by simpa using hs⟩
  · obtain ⟨p', hp', hs'⟩ := h.set hlt (some p) i (by omega)
    exact ⟨p', hp', by simpa [List.getElem_append_left (show i < as.length by omega)] using hs'⟩

/-- From a token on, the loop appends the arguments of the text that is left, if argv has room. -/
theorem parse_args_from {fuel : Nat} {pre t : Text} {argv : Argv} {done : List Text} {buf : Nat}
    {delim : Option Nat} (hfuel : t.length < fuel) (ht : '\x00' ∉ t)
    (hdone : done.length ≤ MAXARGS) (hold : Holds pre argv done) (hat : AtToken pre t buf delim) :
    if done.length + (arguments t).length ≤ MAXARGS then
      ∃ array' argv', parse_args fuel (pre ++ (t ++ ['\x00'])) argv done.length buf delim =
          some (array', argv', (done ++ arguments t).length) ∧
        Holds array' argv' (done ++ arguments t)
    else parse_args fuel (pre ++ (t ++ ['\x00'])) argv done.length buf delim = none := by
  induction fuel generalizing pre t argv done buf delim with
  | zero => omega
  | succ fuel ih =>
    cases delim with
    | none =>
      rw [arguments_none hat, List.append_nil, List.length_nil, Nat.add_zero, if_pos hdone]
      exact ⟨_, argv, rfl, hold.append _⟩
    | some delim =>
      obtain ⟨mid, a, c, u, hcut, rfl, rfl, rfl⟩ := hat
      rw [arguments_some hcut, List.length_cons]
      by_cases hroom : done.length < MAXARGS
      · obtain ⟨pre', hpre'⟩ : ∃ x, x = pre ++ (mid ++ (a ++ ['\x00'])) := ⟨_, rfl⟩
        have hlen : pre'.length = pre.length + mid.length + a.length + 1 := by
          rw [hpre']
          simp only [List.length_append, List.length_cons, List.length_nil]
          omega
        have hset : (pre ++ (mid ++ (a ++ c :: u) ++ ['\x00'])).set
            (pre.length + mid.length + a.length) '\x00' = pre' ++ (u ++ ['\x00']) := by
          rw [hpre', show pre ++ (mid ++ (a ++ c :: u) ++ ['\x00']) =
            (pre ++ (mid ++ a)) ++ c :: (u ++ ['\x00']) by simp]
          rw [List.set_append_right _ _ (by simp; omega)]
          simp [Nat.add_assoc]
        have hdrop : (pre' ++ (u ++ ['\x00'])).drop (pre.length + mid.length + a.length + 1) =
            u ++ ['\x00'] := List.drop_left' hlen
        have hu : '\x00' ∉ u := fun h => ht (by simp [h])
        have hs : StringAt pre' (pre.length + mid.length) a :=
          ⟨pre ++ mid, [], by simp [hpre'], by simp⟩
        have hold' : Holds pre' argv done := hpre' ▸ hold.append _
        obtain ⟨p, buf', delim', hskip, hnext, hat'⟩ := next_token pre' u hu
        have step := ih (by simp at hfuel; omega) hu (by simp; omega) (hold'.push hroom hs) hat'
        have hrun : parse_args (fuel + 1) (pre ++ (mid ++ (a ++ c :: u) ++ ['\x00'])) argv
            done.length (pre.length + mid.length) (some (pre.length + mid.length + a.length)) =
            parse_args fuel (pre' ++ (u ++ ['\x00']))
              (argv.set done.length (some (pre.length + mid.length))) (done ++ [a]).length
              buf' delim' := by
          rw [hlen] at hskip
          simp only [parse_args, set_arg, hroom, dif_pos, hset, hdrop, hskip, hnext,
            List.length_append, List.length_singleton, Option.bind_eq_bind, Option.bind_some]
        rw [hrun]
        simpa [Nat.add_assoc, Nat.add_comm 1] using step
      · rw [if_neg (by omega)]
        simp [parse_args, set_arg, hroom]

/-! ## The whole line -/

/-- argv is these strings and a NULL behind them. -/
def ArgvIs (r : Parsed) (as : List Text) : Prop :=
  Holds r.array r.argv as ∧ r.argv[as.length]? = some none

/-- An empty line, and a line whose last argument begins with an ampersand. -/
def background (as : List Text) : Bool :=
  match as.getLast? with
  | none => true
  | some a => a.head? = some '&'

theorem StringAt.first {array : Text} {p : Nat} {s : Text} (h : StringAt array p s) :
    array[p]? = some (s.head?.getD '\x00') := by
  obtain ⟨x, y, rfl, rfl⟩ := h
  cases s <;> simp

theorem Holds.init {array : Text} {argv : Argv} {as : List Text} {a : Text}
    (h : Holds array argv (as ++ [a])) : Holds array argv as := by
  intro i hi
  obtain ⟨p, hp, hs⟩ := h i (by simp; omega)
  exact ⟨p, hp, by simpa [List.getElem_append_left hi] using hs⟩

theorem Holds.last {array : Text} {argv : Argv} {as : List Text} {a : Text}
    (h : Holds array argv (as ++ [a])) :
    ∃ p, argv[as.length]? = some (some p) ∧ StringAt array p a := by
  obtain ⟨p, hp, hs⟩ := h as.length (by simp)
  exact ⟨p, hp, by simpa using hs⟩

/-- The line that the loop sees: the last character is a space. -/
theorem array_of {cmdline : Text} (hne : cmdline ≠ []) :
    (cmdline ++ ['\x00']).set (cmdline.length - 1) ' ' =
      [] ++ (cmdline.dropLast ++ [' '] ++ ['\x00']) := by
  obtain ⟨l, c, rfl⟩ := (List.eq_nil_or_concat cmdline).resolve_left hne
  simp

theorem set_arg_of {argv : Argv} {i : Nat} (h : i < MAXARGS) (p : Option Nat) :
    set_arg argv i p = some (argv.set i p) := dif_pos h

theorem end_args_of {array : Text} {argv : Argv} {as : List Text} (h : Holds array argv as) :
    if as.length < MAXARGS then
      ∃ r, end_args array argv as.length = some r ∧ r.bg = background as ∧
        ArgvIs r (if background as then as.dropLast else as)
    else end_args array argv as.length = none := by
  by_cases hlt : as.length < MAXARGS
  · rw [if_pos hlt]
    have hset := h.set hlt none
    have hnull : (argv.set as.length none)[as.length]? = some none := by
      simp [Vector.getElem?_set_self]
    rcases List.eq_nil_or_concat' as with rfl | ⟨bs, a, rfl⟩
    · exact ⟨⟨true, array, argv.set 0 none⟩, by rw [end_args, set_arg_of hlt]; rfl,
        rfl, hset, hnull⟩
    · obtain ⟨p, hp, hs⟩ := hset.last
      have hbs : bs.length < MAXARGS := by
        simp only [List.length_append, List.length_singleton] at hlt
        omega
      have hback : background (bs ++ [a]) = decide (a.head? = some '&') := by simp [background]
      have hsub : (bs ++ [a]).length - 1 = bs.length := by simp
      rw [hback]
      by_cases hamp : a.head? = some '&'
      · have hfirst : array[p]? = some '&' := by simpa [hamp] using hs.first
        refine ⟨⟨true, array, (argv.set (bs ++ [a]).length none).set bs.length none⟩, ?_, ?_, ?_⟩
        · simp only [end_args, set_arg_of hlt, hsub, Option.bind_eq_bind, Option.bind_some, hp,
            Option.join_some, hfirst, set_arg_of hbs]
          simp
        · simp [hamp]
        · simp only [hamp, decide_true, if_true, List.dropLast_concat]
          exact ⟨hset.init.set hbs none, by simp [Vector.getElem?_set_self]⟩
      · have hfirst := hs.first
        have hne : a.head?.getD '\x00' ≠ '&' := by
          cases ha : a.head? with
          | none => decide
          | some c =>
            rw [ha] at hamp
            simpa using hamp
        refine ⟨⟨false, array, argv.set (bs ++ [a]).length none⟩, ?_, ?_, ?_⟩
        · simp only [end_args, set_arg_of hlt, hsub, Option.bind_eq_bind, Option.bind_some, hp,
            Option.join_some, hfirst, hne]
          simp
        · simp [hamp]
        · simp only [hamp, decide_false]
          exact ⟨hset, hnull⟩
  · rw [if_neg hlt]
    simp [end_args, set_arg, hlt]

theorem parseline_arguments {cmdline : Text} (hn : '\x00' ∉ cmdline) (hne : cmdline ≠ [])
    (hlen : cmdline.length < MAXLINE) (argv : Argv) {as : List Text}
    (has : arguments (cmdline.dropLast ++ [' ']) = as) :
    if as.length < MAXARGS then
      ∃ r, parseline cmdline argv = some r ∧ r.bg = background as ∧
        ArgvIs r (if background as then as.dropLast else as)
    else parseline cmdline argv = none := by
  have ht : '\x00' ∉ cmdline.dropLast ++ [' '] := by
    simp only [List.mem_append, List.mem_singleton, not_or]
    exact ⟨fun h => hn (List.dropLast_subset _ h), by decide⟩
  have hnone : Holds [] argv [] := by
    intro i hi
    cases hi
  have hguard : ¬(MAXLINE ≤ cmdline.length ∨ cmdline.length = 0) := by
    have := List.length_pos_iff.2 hne
    omega
  obtain ⟨p, buf, delim, hskip, hnext, hat⟩ := next_token [] _ ht
  have hloop := parse_args_from (show (cmdline.dropLast ++ [' ']).length <
    (cmdline.dropLast ++ [' '] ++ ['\x00']).length + 1 by simp) ht (Nat.zero_le _) hnone hat
  rw [has] at hloop
  simp only [List.nil_append, List.length_nil, Nat.zero_add] at hskip hnext hloop
  have hrun : parseline cmdline argv =
      (parse_args ((cmdline.dropLast ++ [' '] ++ ['\x00']).length + 1)
        (cmdline.dropLast ++ [' '] ++ ['\x00']) argv 0 buf delim).bind
        fun x => end_args x.1 x.2.1 x.2.2 := by
    unfold parseline
    rw [if_neg hguard, array_of hne]
    simp only [List.nil_append, Option.bind_eq_bind, hskip, hnext, Option.bind_some]
  rw [hrun]
  by_cases hle : as.length ≤ MAXARGS
  · rw [if_pos hle] at hloop
    obtain ⟨array', argv', hparse, hold⟩ := hloop
    rw [hparse]
    exact end_args_of hold
  · rw [if_neg hle] at hloop
    rw [if_neg (by omega), hloop]
    rfl

/-! ## What a user writes -/

/-- An argument as it stands on the line: a bare word, or any text in single quotes. -/
inductive Written : Text → Text → Prop
  | word {a : Text} : a ≠ [] → a.head? ≠ some '\'' → (∀ c ∈ a, c ∉ [' ', '\n', '\x00']) →
      Written a a
  | quoted {a : Text} : (∀ c ∈ a, c ∉ ['\'', '\n', '\x00']) → Written a ('\'' :: (a ++ ['\'']))

/-- Arguments with spaces between them. -/
inductive Joined : List Text → Text → Prop
  | one {a w : Text} : Written a w → Joined [a] w
  | more {a w t : Text} {as : List Text} (n : Nat) : Written a w → Joined as t →
      Joined (a :: as) (w ++ (List.replicate (n + 1) ' ' ++ t))

/-- A line: spaces, the arguments, spaces, the newline. -/
inductive Line : List Text → Text → Prop
  | blank (n : Nat) : Line [] (List.replicate n ' ' ++ ['\n'])
  | args {as : List Text} {t : Text} (n m : Nat) : Joined as t →
      Line as (List.replicate n ' ' ++ (t ++ (List.replicate m ' ' ++ ['\n'])))

theorem arguments_spaces (n : Nat) (t : Text) :
    arguments (List.replicate n ' ' ++ t) = arguments t := by
  induction n with
  | zero => rfl
  | succ n ih => rw [List.replicate_succ, List.cons_append, arguments_space, ih]

theorem arguments_written {a w : Text} (h : Written a w) (t : Text) :
    arguments (w ++ ' ' :: t) = a :: arguments t := by
  cases h with
  | word hne hq ha =>
    cases a with
    | nil => exact absurd rfl hne
    | cons c cs =>
      have hspace : ' ' ∉ c :: cs := fun h => ha ' ' h (by simp)
      have hc : c ≠ ' ' := fun h => hspace (by simp [h])
      have hcut : cut (c :: cs ++ ' ' :: t) = some (c :: cs, t) := by
        have := upTo_append hspace t
        simp only [List.head?_cons, ne_eq, Option.some.injEq] at hq
        simpa [cut, hc, hq] using this
      exact arguments_some hcut
  | quoted ha =>
    have hquote : '\'' ∉ a := fun h => ha '\'' h (by simp)
    have hcut : cut ('\'' :: (a ++ ['\'']) ++ ' ' :: t) = some (a, ' ' :: t) := by
      have := upTo_append hquote (' ' :: t)
      simpa [cut] using this
    rw [arguments_some hcut, arguments_space]

theorem arguments_joined {as : List Text} {w : Text} (h : Joined as w) (t : Text) :
    arguments (w ++ ' ' :: t) = as ++ arguments t := by
  induction h with
  | one hw => exact arguments_written hw t
  | more n hw _ ih =>
    rw [List.replicate_succ, List.append_assoc, List.cons_append, List.cons_append,
      arguments_written hw, List.append_assoc, arguments_spaces, ih, List.cons_append]

/-- A row of spaces up to the one that stands for the newline. -/
theorem arguments_end (n : Nat) : arguments (List.replicate n ' ' ++ [' ']) = [] := by
  rw [arguments_spaces, arguments_space, arguments_none rfl]

theorem arguments_line {as : List Text} {line : Text} (h : Line as line) :
    arguments (line.dropLast ++ [' ']) = as := by
  cases h with
  | blank n => rw [List.dropLast_concat, arguments_end]
  | @args _ t n m ht =>
    have hlast : (List.replicate n ' ' ++ (t ++ (List.replicate m ' ' ++ ['\n']))).dropLast ++ [' '] =
        List.replicate n ' ' ++ (t ++ (List.replicate m ' ' ++ [' '])) := by
      rw [← List.append_assoc, ← List.append_assoc, List.dropLast_concat]
      simp
    rw [hlast, arguments_spaces]
    cases m with
    | zero => simpa [arguments_none (t := []) rfl] using arguments_joined ht []
    | succ m =>
      rw [List.replicate_succ, List.cons_append, arguments_joined ht, arguments_end,
        List.append_nil]

theorem line_no_nul {as : List Text} {line : Text} (h : Line as line) : '\x00' ∉ line := by
  have hwritten : ∀ {a w : Text}, Written a w → '\x00' ∉ w := by
    intro a w hw
    cases hw with
    | word _ _ ha => exact fun h => ha _ h (by simp)
    | quoted ha =>
      have : '\x00' ∉ a := fun h => ha _ h (by simp)
      simpa using this
  have hjoined : ∀ {as : List Text} {w : Text}, Joined as w → '\x00' ∉ w := by
    intro as w hw
    induction hw with
    | one hw => exact hwritten hw
    | more n hw _ ih => simp [List.mem_replicate, hwritten hw, ih]
  cases h with
  | blank n => simp [List.mem_replicate]
  | args n m ht => simp [List.mem_replicate, hjoined ht]

theorem line_ne_nil {as : List Text} {line : Text} (h : Line as line) : line ≠ [] := by
  cases h <;> simp

/-! ## The laws -/

/-- What a user writes comes back as argv: the last argument is taken off if it begins with an
ampersand. -/
theorem a_line_gives_its_arguments {as : List Text} {line : Text} (hline : Line as line)
    (hargs : as.length < MAXARGS) (hlen : line.length < MAXLINE) (argv : Argv) :
    ∃ r, parseline line argv = some r ∧ r.bg = background as ∧
      ArgvIs r (if background as then as.dropLast else as) := by
  have hparse := parseline_arguments (line_no_nul hline) (line_ne_nil hline) hlen argv (arguments_line hline)
  rwa [if_pos hargs] at hparse

/-- ` cat  '' &` -/
theorem a_background_line_gives_its_arguments :
    ∃ r, parseline [' ', 'c', 'a', 't', ' ', ' ', '\'', '\'', ' ', '&', '\n']
        (Vector.replicate MAXARGS none) = some r ∧ r.bg = true ∧ ArgvIs r [['c', 'a', 't'], []] :=
  @a_line_gives_its_arguments [['c', 'a', 't'], [], ['&']] _
    (Line.args 1 0 (Joined.more 1 (Written.word (by decide) (by decide) (by simp))
      (Joined.more 0 (Written.quoted (by simp))
        (Joined.one (Written.word (by decide) (by decide) (by simp))))))
    (by decide) (by decide) (Vector.replicate MAXARGS none)

/-- The string at the front of the bytes that `fgets` leaves in its buffer. -/
def c_str (line : Text) : Text := line.takeWhile (· ≠ '\x00')

/-- argv is too short for more than 127 arguments, and in front of an empty line is no character
to replace. -/
theorem the_line_stays_inside_iff {line : Text} (hlen : line.length < MAXLINE) (argv : Argv) :
    (∃ r, parseline (c_str line) argv = some r) ↔
      c_str line ≠ [] ∧ (arguments ((c_str line).dropLast ++ [' '])).length < MAXARGS := by
  have hn : '\x00' ∉ c_str line := fun h => by simpa using List.mem_takeWhile_imp h
  have hlen' : (c_str line).length < MAXLINE :=
    lt_of_le_of_lt (List.takeWhile_sublist _).length_le hlen
  by_cases hne : c_str line = []
  · simp [hne, parseline]
  · have hparse := parseline_arguments hn hne hlen' argv rfl
    by_cases hlt : (arguments ((c_str line).dropLast ++ [' '])).length < MAXARGS
    · rw [if_pos hlt] at hparse
      obtain ⟨r, hr, -⟩ := hparse
      exact ⟨fun _ => ⟨hne, hlt⟩, fun _ => ⟨r, hr⟩⟩
    · rw [if_neg hlt] at hparse
      simp [hparse, hlt]

theorem quoted_line : Line ["grep".toList, "-n".toList, "a b".toList, "f".toList, ['&']]
    "grep -n 'a b' f &\n".toList :=
  Line.args 0 0 (Joined.more 0 (Written.word (by decide) (by decide) (by simp))
    (Joined.more 0 (Written.word (by decide) (by decide) (by simp))
      (Joined.more 0 (Written.quoted (by simp))
        (Joined.more 0 (Written.word (by decide) (by decide) (by simp))
          (Joined.one (Written.word (by decide) (by decide) (by simp)))))))

/-- Behind the 0 is what the buffer held before. -/
theorem a_quoted_command_stays_inside :
    ∃ r, parseline (c_str "grep -n 'a b' f &\n\x00old\n".toList)
      (Vector.replicate MAXARGS none) = some r := by
  have hstr : c_str "grep -n 'a b' f &\n\x00old\n".toList = "grep -n 'a b' f &\n".toList := rfl
  apply (the_line_stays_inside_iff (by decide) _).mpr
  rw [hstr, arguments_line quoted_line]
  decide

theorem c_str_line {as : List Text} {line : Text} (hline : Line as line) : c_str line = line := by
  apply List.takeWhile_eq_self_iff.2
  intro c hc
  simp only [decide_eq_true_eq]
  rintro rfl
  exact line_no_nul hline hc

theorem line_overruns {as : List Text} {line : Text} (hline : Line as line)
    (hargs : ¬as.length < MAXARGS) (hlen : line.length < MAXLINE) (argv : Argv) :
    parseline line argv = none := by
  have hparse := parseline_arguments (line_no_nul hline) (line_ne_nil hline) hlen argv
    (arguments_line hline)
  rwa [if_neg hargs] at hparse

theorem joined_words (n : Nat) :
    Joined (List.replicate (n + 1) ['a']) ('a' :: (List.replicate n [' ', 'a']).flatten) := by
  have ha : Written ['a'] ['a'] := Written.word (by decide) (by decide) (by simp)
  induction n with
  | zero => exact Joined.one ha
  | succ n ih => exact Joined.more 0 ha ih

theorem joined_words_length (n : Nat) :
    ('a' :: (List.replicate n [' ', 'a']).flatten).length = 2 * n + 1 := by
  simp [List.length_flatten, Nat.mul_comm]

/-- The line of 128 words. -/
theorem argv_is_overrun :
    ¬ ∀ (line : Text) (argv : Argv), line ≠ [] → line.length < MAXLINE →
      ∃ r, parseline (c_str line) argv = some r := by
  intro hall
  have hline := Line.args 0 0 (joined_words 127)
  generalize hl : List.replicate 0 ' ' ++ ('a' :: (List.replicate 127 [' ', 'a']).flatten ++
    (List.replicate 0 ' ' ++ ['\n'])) = line at hline
  have hlen : line.length = 256 := by
    rw [← hl, List.length_append, List.length_append, joined_words_length]
    rfl
  have hshort : line.length < MAXLINE := by
    rw [hlen]
    decide
  have hmany : ¬(List.replicate (127 + 1) ['a']).length < MAXARGS := by
    rw [List.length_replicate]
    decide
  have hsome := hall line (Vector.replicate MAXARGS none) (line_ne_nil hline) hshort
  rw [c_str_line hline, line_overruns hline hmany hshort] at hsome
  simp at hsome

end ics_labs.tsh
