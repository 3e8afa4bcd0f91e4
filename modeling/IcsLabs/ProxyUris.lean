-- The addresses that lab10 (proxy.c) takes apart: `parse_uri` looks for the end of the host, for
-- the digits of the port and for the first slash, each from the start of the host on.
import IcsLabs.Proxy

open ics_labs.ctext

namespace ics_labs.proxy

/-- An address with the parts that may be absent. The path stands behind its slash. -/
structure Url where
  host : Text
  port : Option Text
  path : Option Text
  host_ne : host ≠ []
  host_plain : ∀ c ∈ host, c ∉ " :/\r\n".toList
  port_digits : ∀ ds ∈ port, ∀ c ∈ ds, c.isDigit = true

namespace Url

variable (u : Url)

def portText : Text := u.port.elim [] fun ds => ':' :: ds

def pathText : Text := u.path.elim [] fun p => '/' :: p

def text : Text := "http://".toList ++ (u.host ++ (u.portText ++ u.pathText))

/-- The port that is asked when none is given is that of http. -/
def portOr80 : Text := u.port.getD "80".toList

/-! ## The three scans -/

theorem host_no_slash : '/' ∉ u.host := fun h => u.host_plain '/' h (by simp)

theorem portText_no_slash : '/' ∉ u.portText := by
  cases hp : u.port with
  | none => simp [portText, hp]
  | some ds =>
    have hslash : '/' ∉ ds := fun h => absurd (u.port_digits ds hp '/' h) (by decide)
    simp [portText, hp, hslash]

/-- What stands behind the host starts with a character that ends the host. -/
theorem behind_host : StopsAt (fun c => !decide (c ∈ " :/\r\n".toList)) (u.portText ++ u.pathText) := by
  cases hp : u.port with
  | some ds => simpa [portText, hp] using stopsAt_cons (by simp)
  | none =>
    cases hq : u.path with
    | some p => simpa [portText, pathText, hp, hq] using stopsAt_cons (by simp)
    | none => simp [portText, pathText, hp, hq, StopsAt]

theorem behind_port : StopsAt Char.isDigit u.pathText := by
  cases hq : u.path with
  | some p => simpa [pathText, hq] using stopsAt_cons (by decide)
  | none => simp [pathText, hq, StopsAt]

theorem host_passes : ∀ c ∈ u.host, (!decide (c ∈ " :/\r\n".toList)) = true := fun c hc => by
  rw [Bool.not_eq_true', decide_eq_false_iff_not]
  exact u.host_plain c hc

/-- The first slash behind `http://` is that of the path: there is none in the host and in the
port. -/
theorem first_slash : ((u.host ++ (u.portText ++ u.pathText)).dropWhile (· ≠ '/')).tail =
    u.path.getD [] := by
  have hpass : ∀ c ∈ u.host ++ u.portText, decide (c ≠ '/') = true := by
    intro c hc
    rw [decide_eq_true_iff]
    rintro rfl
    rcases List.mem_append.mp hc with h | h
    · exact u.host_no_slash h
    · exact u.portText_no_slash h
  rw [← List.append_assoc]
  cases hq : u.path with
  | some p =>
    rw [show u.pathText = '/' :: p by simp [pathText, hq], dropWhile_stop hpass (stopsAt_cons (by simp))]
    rfl
  | none =>
    rw [show u.pathText = [] by simp [pathText, hq], dropWhile_stop hpass (by simp [StopsAt])]
    rfl

/-- The digits behind a colon, or `80`. -/
theorem port_scan : (if (u.portText ++ u.pathText).head? = some ':'
    then (u.portText ++ u.pathText).tail.takeWhile Char.isDigit else "80".toList) = u.portOr80 := by
  cases hp : u.port with
  | some ds =>
    rw [show u.portText = ':' :: ds by simp [portText, hp], if_pos (by simp)]
    simpa [portOr80, hp] using takeWhile_stop (u.port_digits ds hp) u.behind_port
  | none =>
    have hnil : u.portText = [] := by simp [portText, hp]
    have hhead : u.pathText.head? ≠ some ':' := by
      cases hq : u.path <;> simp [pathText, hq]
    rw [hnil, List.nil_append, if_neg hhead]
    simp [portOr80, hp]

/-! ## The function -/

theorem starts_with_scheme (t : Text) :
    startsWith "http://".toList ("http://".toList ++ t) = true := by
  simp [startsWith, cstr]

theorem drop_scheme (t : Text) : ("http://".toList ++ t).drop 7 = t := by
  simp

/-- The scan for the end of the host finds none at the end of the text: the `\0` in its list of
characters is the end of that list. -/
theorem parse_uri_text : parse_uri u.text =
    if u.portText ++ u.pathText = [] then none
    else some (u.host, u.path.getD [], u.portOr80) := by
  unfold text parse_uri
  rw [starts_with_scheme, if_neg (by simp), drop_scheme]
  simp only [takeWhile_stop u.host_passes u.behind_host, dropWhile_stop u.host_passes u.behind_host,
    u.first_slash, u.port_scan]

/-! ## The law -/

/-- An address is taken apart into its host, its port and its path if and only if something
follows its host. -/
theorem an_address_is_taken_apart_iff_something_follows_its_host :
    parse_uri u.text = some (u.host, u.path.getD [], u.port.getD "80".toList) ↔
      u.port.isSome ∨ u.path.isSome := by
  have hnil : u.portText ++ u.pathText = [] ↔ u.port = none ∧ u.path = none := by
    cases hp : u.port <;> cases hq : u.path <;> simp [portText, pathText, hp, hq]
  rw [u.parse_uri_text]
  split
  · rename_i h
    simp [hnil.mp h]
  · rename_i h
    simp only [hnil, not_and_or, ← ne_eq, ← Option.isSome_iff_ne_none] at h
    simp [h, portOr80]

example : parse_uri "http://h:81/a:b/c".toList = some (['h'], "a:b/c".toList, "81".toList) := by
  decide

end Url

/-- The shortest address has neither a port nor a path, and it is refused. -/
theorem a_host_alone_is_refused :
    ¬∀ u : Url, parse_uri u.text = some (u.host, u.path.getD [], u.port.getD "80".toList) := by
  intro h
  have hbare := h { host := ['h'], port := none, path := none, host_ne := by simp
                    host_plain := by simp, port_digits := by simp }
  revert hbare
  decide

end ics_labs.proxy
