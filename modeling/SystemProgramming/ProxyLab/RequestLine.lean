import Mathlib.Data.Bool.AllAny
import SystemProgramming.ProxyLab.HeaderLines
import SystemProgramming.ProxyLab.Process

/-!
# The request line (`parse_request` and `forward_request`)

Three scans take a request line apart: the second word of the line, the host and the path of that,
the host name and the port of the host.

* `Uri` : the URIs `http://hostname[:port]path`; `Uri.print` prints one.
* `scanUri_print`, `scanHost_host` : the scans undo the printing.
* `uri_recovered` : what the proxy makes of a request line with such a URI.
* `scanRequestLine_host_length` : how long a host a line can hold.
-/

namespace SystemProgramming.ProxyLab

open Segments
open SystemProgramming.CString (cString literal strAt strAt_zero)
open Scanning (isspace scanString scanString_append scanString_self length_scanString_le
  scanString_rest_nil)

/-! ### URIs -/

/-- A character that is part of a word. -/
def Visible (c : UInt8) : Prop := c ≠ 0 ∧ isspace c = false

instance : DecidablePred Visible := fun _ => inferInstanceAs (Decidable (_ ∧ _))

/-- A URI `http://hostname[:port]path`. -/
structure Uri where
  hostname : List UInt8
  port : Option (List UInt8)
  path : List UInt8
  hostname_ne : hostname ≠ []
  hostname_chars : ∀ c ∈ hostname, Visible c ∧ c ≠ 47 ∧ c ≠ 58
  port_ne : ∀ p ∈ port, p ≠ []
  port_digits : ∀ p ∈ port, ∀ c ∈ p, 48 ≤ c ∧ c ≤ 57
  path_slash : path = [] ∨ path.head? = some 47
  path_chars : ∀ c ∈ path, Visible c

namespace Uri

/-- `hostname[:port]`. -/
def host (u : Uri) : List UInt8 := u.hostname ++ u.port.elim [] (58 :: ·)

/-- The URI as a client writes it. -/
def print (u : Uri) : List UInt8 := literal "http://" ++ (u.host ++ u.path)

/-- The request for the URI, before any header. -/
def request (u : Uri) : HttpRequest where
  uri := u.print
  path := if u.path = [] then literal "/" else u.path
  host := u.host
  hostname := u.hostname
  port := u.port.getD (literal "80")
  extraHdrs := []

theorem digit_visible {c : UInt8} (h : 48 ≤ c ∧ c ≤ 57) : Visible c ∧ c ≠ 47 := by
  obtain ⟨hlo, hhi⟩ := h
  rw [UInt8.le_iff_toNat_le] at hlo hhi
  have h48 : (48 : UInt8).toNat = 48 := rfl
  have h57 : (57 : UInt8).toNat = 57 := rfl
  refine ⟨⟨fun h0 => ?_, ?_⟩, fun h47 => ?_⟩
  · rw [h0, h48] at hlo
    exact absurd hlo (by decide)
  · have h13 : ¬ c ≤ 13 := by
      rw [UInt8.le_iff_toNat_le]
      have : (13 : UInt8).toNat = 13 := rfl
      omega
    have h32 : c ≠ 32 := by
      intro h
      rw [h, h48] at hlo
      exact absurd hlo (by decide)
    simp [isspace, h13, h32]
  · rw [h47, h48] at hlo
    exact absurd hlo (by decide)

variable (u : Uri)

theorem port_visible {p : List UInt8} (hp : u.port = some p) {c : UInt8} (hc : c ∈ p) :
    Visible c ∧ c ≠ 47 := digit_visible (u.port_digits p hp c hc)

theorem host_chars {c : UInt8} (hc : c ∈ u.host) : Visible c ∧ c ≠ 47 := by
  rcases List.mem_append.mp hc with hc | hc
  · obtain ⟨hvis, h47, -⟩ := u.hostname_chars c hc
    exact ⟨hvis, h47⟩
  · cases hp : u.port with
    | none =>
      rw [hp] at hc
      cases hc
    | some p =>
      rw [hp] at hc
      rcases List.mem_cons.mp hc with rfl | hc
      · decide
      · exact u.port_visible hp hc

theorem host_ne : u.host ≠ [] := by
  rw [host]
  exact List.append_ne_nil_of_left_ne_nil u.hostname_ne _

theorem print_visible {c : UInt8} (hc : c ∈ u.print) : Visible c := by
  rcases List.mem_append.mp hc with hc | hc
  · have hall : ∀ c ∈ literal "http://", Visible c := List.all_iff_forall_prop.mp (by decide)
    exact hall c hc
  · rcases List.mem_append.mp hc with hc | hc
    · exact (u.host_chars hc).1
    · exact u.path_chars c hc

theorem print_ne : u.print ≠ [] := List.append_ne_nil_of_left_ne_nil (by decide) _

end Uri

/-! ### The scans -/

/-- **The scan of the URI** undoes its printing. -/
theorem scanUri_print (u : Uri) : scanUri u.print = (u.host, u.path) := by
  have hhost : ∀ c ∈ u.host, decide (c ≠ 47) = true := fun c hc => by
    simpa using (u.host_chars hc).2
  have hprefix : u.print.dropPrefix? (literal "http://") = some (u.host ++ u.path) :=
    List.dropPrefix?_append_of_beq _ (beq_self_eq_true _)
  have htake : (u.host ++ u.path).takeWhile (· ≠ 47) = u.host := by
    rcases u.path_slash with hpath | hpath
    · rw [hpath, List.append_nil, List.takeWhile_eq_self_iff.mpr hhost]
    · obtain ⟨rest, hrest⟩ := List.head?_eq_some_iff.mp hpath
      rw [hrest]
      exact takeWhile_append_cons hhost (by decide)
  have hdrop : (u.host ++ u.path).dropWhile (· ≠ 47) = u.path := by
    rcases u.path_slash with hpath | hpath
    · rw [hpath, List.append_nil, List.dropWhile_eq_nil_iff.mpr hhost]
    · obtain ⟨rest, hrest⟩ := List.head?_eq_some_iff.mp hpath
      rw [hrest]
      exact dropWhile_append_cons hhost (by decide)
  rw [scanUri, hprefix]
  simp only [htake, hdrop, u.host_ne, if_false, scanString_self fun c hc => (u.path_chars c hc).2]

/-- **The scan of the host** finds the host name and the port. -/
theorem scanHost_host (u : Uri) : scanHost u.host = (u.hostname, u.port.getD []) := by
  have hname : ∀ c ∈ u.hostname, decide (c ≠ 58) = true := fun c hc => by
    simpa using (u.hostname_chars c hc).2.2
  cases hp : u.port with
  | none =>
    have hhost : u.host = u.hostname := by
      rw [Uri.host, hp]
      exact List.append_nil _
    simp only [scanHost, hhost, List.takeWhile_eq_self_iff.mpr hname,
      List.dropWhile_eq_nil_iff.mpr hname, u.hostname_ne, if_false]
    rfl
  | some p =>
    have hhost : u.host = u.hostname ++ 58 :: p := by
      rw [Uri.host, hp]
      rfl
    have htake : (u.hostname ++ 58 :: p).takeWhile (· ≠ 58) = u.hostname :=
      takeWhile_append_cons hname (by decide)
    have hdrop : (u.hostname ++ 58 :: p).dropWhile (· ≠ 58) = 58 :: p :=
      dropWhile_append_cons hname (by decide)
    have hport : (scanString p).1 = p := scanString_self fun c hc => (u.port_visible hp hc).1.2
    simp only [scanHost, hhost, htake, hdrop, u.hostname_ne, if_false, List.tail_cons, hport]
    rfl

/-- **The request line.**  A method, a URI and anything behind a blank. -/
theorem scanRequestLine_print (u : Uri) {method : List UInt8} (version : List UInt8)
    (hne : method ≠ []) (hmethod : ∀ c ∈ method, Visible c) :
    scanRequestLine (method ++ 32 :: (u.print ++ 32 :: version)) = u.request := by
  have hnul : ∀ s : List UInt8, (∀ c ∈ s, Visible c) → ∀ c ∈ s, decide (c ≠ 0) = true :=
    fun s hs c hc => by simpa using (hs c hc).1
  have hstr : strAt (method ++ 32 :: (u.print ++ 32 :: version)) 0 =
      method ++ 32 :: (u.print ++ 32 :: version.takeWhile (· ≠ 0)) := by
    rw [strAt_zero, cString, List.takeWhile_append_of_pos (hnul _ hmethod),
      List.takeWhile_cons_of_pos (by decide),
      List.takeWhile_append_of_pos (hnul _ fun c hc => u.print_visible hc),
      List.takeWhile_cons_of_pos (by decide)]
  have hspace : ∀ s : List UInt8, ∀ d ∈ (32 :: s).head?, isspace d = true := by
    intro s d h
    cases h
    rfl
  have hfirst := scanString_append (List.forall_mem_nil _) hne (fun c hc => (hmethod c hc).2)
    (hspace (u.print ++ 32 :: version.takeWhile (· ≠ 0)))
  have hblank : ∀ c ∈ ([32] : List UInt8), isspace c = true := List.forall_mem_singleton.mpr rfl
  have hsecond := scanString_append hblank u.print_ne (fun c hc => (u.print_visible hc).2)
    (hspace (version.takeWhile (· ≠ 0)))
  rw [List.nil_append] at hfirst
  rw [List.singleton_append] at hsecond
  simp only [scanRequestLine, hstr, hfirst, hsecond, scanUri_print, scanHost_host]
  cases hp : u.port with
  | none => simp [Uri.request, hp]
  | some p => simp [Uri.request, hp, u.port_ne p hp]

/-- What the proxy sends first for a URI: the GET line and the Host line. -/
def Uri.ownLines (u : Uri) : List (List UInt8) :=
  [literal "GET " ++ u.request.path ++ literal " HTTP/1.0\r\n",
    literal "Host: " ++ u.host ++ literal "\r\n"]

/-- **The URI is recovered.**  From a request line with the URI `u`, `parse_request` stores the host
name, the port or `80`, and the path or `/`; the host and the path of `u` are the URI without its
scheme.  Whatever headers follow, the request a thread obtains alone differs from that in the headers
only, so that the origin it names and the GET and Host lines are those of `u`. -/
theorem uri_recovered {ι : Type*} [DecidableEq ι] (input : ι → List UInt8) (t : ι) (u : Uri)
    (method version rest : List UInt8) (hne : method ≠ []) (hmethod : ∀ c ∈ method, Visible c)
    (hversion : (10 : UInt8) ∉ version)
    (hlen : (method ++ 32 :: (u.print ++ 32 :: version)).length + 1 < maxLine)
    (hinput : input t = (method ++ 32 :: (u.print ++ 32 :: version)) ++ 10 :: rest) :
    scanRequestLine (requestLine (input t)) = u.request ∧
      (u.request.hostname = u.hostname ∧ u.request.port = u.port.getD (literal "80") ∧
        u.request.path = if u.path = [] then literal "/" else u.path) ∧
      literal "http://" ++ (u.request.host ++ u.path) = u.print ∧
      ∀ req, ParsesAlone input t req → { req with extraHdrs := [] } = u.request ∧
        (requestLines req).take 2 = u.ownLines := by
  have hvisible : ∀ {s : List UInt8}, (∀ c ∈ s, Visible c) → (10 : UInt8) ∉ s := by
    intro s hs hin
    exact absurd (hs 10 hin) (by decide)
  have hnewline : (10 : UInt8) ∉ method ++ 32 :: (u.print ++ 32 :: version) := by
    have hprint := hvisible fun c hc => u.print_visible hc
    simp [hvisible hmethod, hprint, hversion]
  have hline : requestLine (input t) = method ++ 32 :: (u.print ++ 32 :: (version ++ [10])) := by
    rw [requestLine, hinput, readLine_newline rest hnewline (by omega)]
    simp
  have hscan : scanRequestLine (requestLine (input t)) = u.request := by
    rw [hline]
    exact scanRequestLine_print u (version ++ [10]) hne hmethod
  refine ⟨hscan, ⟨rfl, rfl, rfl⟩, rfl, fun req hreq => ?_⟩
  obtain ⟨-, rfl⟩ := parsesAlone_iff.mp hreq
  rw [parsedRequest, hscan]
  exact ⟨rfl, rfl⟩

/-- `http://a.org:8080/x:y//http://b/`. -/
def nestedUri : Uri where
  hostname := literal "a.org"
  port := some (literal "8080")
  path := literal "/x:y//http://b/"
  hostname_ne := by decide
  hostname_chars := List.all_iff_forall_prop.mp (by decide)
  port_ne := by decide
  port_digits p hp := by
    obtain rfl := Option.some.inj hp
    exact List.all_iff_forall_prop.mp (by decide)
  path_slash := by decide
  path_chars := List.all_iff_forall_prop.mp (by decide)

theorem uri_recovered_nested : ∃ input, ParsesAlone (fun _ : Unit => input) () nestedUri.request ∧
    scanRequestLine (requestLine input) = nestedUri.request := by
  have hparse : ParsesAlone (fun _ : Unit => literal
      "GET http://a.org:8080/x:y//http://b/ HTTP/1.1\r\n\r\n") () nestedUri.request := by
    refine parsesAlone_iff.mpr ⟨?_, ?_⟩
    · have hlines : headerLines (literal "GET http://a.org:8080/x:y//http://b/ HTTP/1.1\r\n\r\n") =
          [] := by decide +kernel
      rw [hlines]
      exact nofun
    · decide +kernel
  obtain ⟨hscan, -⟩ := uri_recovered (fun _ : Unit => literal
    "GET http://a.org:8080/x:y//http://b/ HTTP/1.1\r\n\r\n") () nestedUri (literal "GET")
    (literal "HTTP/1.1\r") (literal "\r\n") (by decide) (List.all_iff_forall_prop.mp (by decide))
    (by decide) (by decide) (by decide)
  exact ⟨_, hparse, hscan⟩

/-! ### The length of the host -/

/-- The URI is shorter than its line, and the host than the URI. -/
theorem scanRequestLine_host_length (line : List UInt8) :
    (scanRequestLine line).host = [] ∨ (scanRequestLine line).host.length + 8 ≤ line.length := by
  have hstr : (strAt line 0).length ≤ line.length := length_takeWhile_le _ _
  have huri : (scanRequestLine line).uri = [] ∨
      (scanRequestLine line).uri.length + 1 ≤ (strAt line 0).length := by
    show (scanString (scanString (strAt line 0)).2).1 = [] ∨
      (scanString (scanString (strAt line 0)).2).1.length + 1 ≤ _
    have h₁ := length_scanString_le (strAt line 0)
    have h₂ := length_scanString_le (scanString (strAt line 0)).2
    by_cases hfirst : (scanString (strAt line 0)).1 = []
    · rw [scanString_rest_nil hfirst]
      exact Or.inl rfl
    · have hpos := List.length_pos_iff.mpr hfirst
      exact Or.inr (by omega)
  have hhost : (scanRequestLine line).host = [] ∨
      (scanRequestLine line).host.length + 7 ≤ (scanRequestLine line).uri.length := by
    show (scanUri (scanRequestLine line).uri).1 = [] ∨
      (scanUri (scanRequestLine line).uri).1.length + 7 ≤ _
    rw [scanUri]
    cases hdrop : (scanRequestLine line).uri.dropPrefix? (literal "http://") with
    | none => exact Or.inl rfl
    | some rest =>
      obtain ⟨scheme, huri', hscheme⟩ := List.dropPrefix?_eq_some_iff.mp hdrop
      have h7 : scheme.length = 7 := by
        rw [eq_of_beq hscheme]
        rfl
      have hlen := congrArg List.length huri'
      rw [List.length_append] at hlen
      dsimp only
      split
      · exact Or.inl rfl
      · right
        have := length_takeWhile_le (fun c => decide (c ≠ (47 : UInt8))) rest
        dsimp only
        omega
  rcases hhost with hhost | hhost
  · exact Or.inl hhost
  · rcases huri with huri | huri
    · rw [huri, List.length_nil] at hhost
      omega
    · exact Or.inr (by omega)

end SystemProgramming.ProxyLab
