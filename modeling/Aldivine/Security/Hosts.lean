import Aldivine.Foundation.Addresses

namespace Aldivine.Security.Hosts

open Foundation.Addresses

inductive SsrfError
  | invalidUrl (url : String)
  | disallowedScheme (url : String)
  | blockedHost (host : String)
deriving DecidableEq

def isBlockedIp : IpAddr → Bool
  | .v4 a b _ _ =>
    a.val == 127 || a.val == 10 || (a.val == 172 && (16 ≤ b.val && b.val ≤ 31)) ||
      (a.val == 192 && b.val == 168) || (a.val == 169 && b.val == 254) || a.val == 0
  | .v6 segments => segments.map Fin.val == [0, 0, 0, 0, 0, 0, 0, 1]

def stripPrefix (start text : List Char) : Option (List Char) :=
  if start <+: text then some (text.drop start.length) else none

/-- The end of the host for `validate_url`. -/
def stops : List Char := ['/', '?', '#', ':']

def hostPart (afterScheme : List Char) : List Char :=
  afterScheme.takeWhile (fun c ↦ !stops.contains c)

def lower (text : List Char) : List Char := text.map Char.toLower

def checkHost (host : List Char) : Except SsrfError Unit :=
  if lower host = "localhost".toList ∨ ".local".toList <:+ lower host ∨
      ".internal".toList <:+ lower host then
    .error (.blockedHost (String.ofList (lower host)))
  else
    match parseIpAddr (lower host) with
    | some ip => if isBlockedIp ip then .error (.blockedHost ip.display) else .ok ()
    | none => .ok ()

def http : List Char := "http://".toList

def https : List Char := "https://".toList

def validateUrl (urlStr : String) : Except SsrfError Unit :=
  if ¬http <+: urlStr.toList ∧ ¬https <+: urlStr.toList then .error (.disallowedScheme urlStr)
  else
    match (stripPrefix https urlStr.toList).or (stripPrefix http urlStr.toList) with
    | none => .error (.invalidUrl urlStr)
    | some afterScheme => checkHost (hostPart afterScheme)

def LocalAddress (a b : Fin 256) : Prop :=
  a.val = 127 ∨ a.val = 10 ∨ (a.val = 172 ∧ 16 ≤ b.val ∧ b.val ≤ 31) ∨
    (a.val = 192 ∧ b.val = 168) ∨ (a.val = 169 ∧ b.val = 254) ∨ a.val = 0

/-- A text for the loopback address of version 6, or for a local one of version 4 mapped to it. -/
def LocalV6 (text : List Char) : Prop :=
  ∃ segments, readIpv6 text = some (segments, []) ∧
    (segments.map Fin.val = [0, 0, 0, 0, 0, 0, 0, 1] ∨
      ∃ a b c d, LocalAddress a b ∧
        segments.map Fin.val = [0, 0, 0, 0, 0, 65535, (group a b).val, (group c d).val])

inductive Host
  | ipv4 (a b c d : Fin 256) (h : LocalAddress a b)
  | bracketed (text : List Char) (h : LocalV6 text)
  | localhost (name : List Char) (dot : Bool) (h : lower name = "localhost".toList)

def Host.text : Host → List Char
  | .ipv4 a b c d _ => dotted a b c d
  | .bracketed text _ => '[' :: (text ++ [']'])
  | .localhost name dot _ => if dot then name ++ ['.'] else name

inductive Scheme
  | http
  | https

def Scheme.text : Scheme → List Char
  | .http => Hosts.http
  | .https => Hosts.https

structure Url where
  scheme : Scheme
  userinfo : Option (List Char)
  host : Host
  port : Option (List Char)
  tail : List Char
  userinfo_clean : ∀ user ∈ userinfo, ∀ c ∈ user, c ∉ ['/', '?', '#']
  tail_start : ∀ c ∈ tail.head?, c ∈ ['/', '?', '#']

namespace Url

def afterHost (u : Url) : List Char := (u.port.elim [] (':' :: ·)) ++ u.tail

def afterScheme (u : Url) : List Char :=
  u.userinfo.elim [] (· ++ ['@']) ++ (u.host.text ++ u.afterHost)

def text (u : Url) : String := String.ofList (u.scheme.text ++ u.afterScheme)

end Url

/-- Names of the machine itself or its network, as far as the filter knows them. -/
def Local (name : List Char) : Prop :=
  lower name = "localhost".toList ∨ ".local".toList <:+ lower name ∨
    ".internal".toList <:+ lower name ∨ ∃ a b c d, LocalAddress a b ∧ lower name = dotted a b c d

/-- The host stands where the filter looks and as it knows it, or what stands there is local. -/
def Url.Caught (u : Url) : Prop :=
  match u.userinfo with
  | none =>
    match u.host with
    | .ipv4 _ _ _ _ _ => True
    | .bracketed _ _ => False
    | .localhost _ dot _ => dot = false
  | some user => ':' ∈ user ∧ Local (user.takeWhile (· != ':'))

variable {part text rest : List Char} {a b c d : Fin 256} {u : Url}

section Checks

theorem isBlockedIp_v4 : isBlockedIp (.v4 a b c d) = true ↔ LocalAddress a b := by
  simp only [isBlockedIp, LocalAddress, Bool.or_eq_true, Bool.and_eq_true, beq_iff_eq,
    decide_eq_true_eq, or_assoc]

theorem checkHost_error_iff (h : ':' ∉ lower part) :
    (∃ e, checkHost part = .error e) ↔ Local part := by
  have hlocal : Local part ↔ (lower part = "localhost".toList ∨ ".local".toList <:+ lower part ∨
      ".internal".toList <:+ lower part) ∨
        ∃ a b c d, LocalAddress a b ∧ lower part = dotted a b c d := by
    rw [Local, or_assoc, or_assoc]
  rw [hlocal, checkHost]
  split_ifs with hname
  · exact iff_of_true ⟨_, rfl⟩ (.inl hname)
  · rw [or_iff_right hname]
    constructor
    · intro herror
      obtain ⟨e, he⟩ := herror
      split at he
      · rename_i ip hip
        obtain ⟨a, b, c, d, htext, rfl⟩ := parseIpAddr_eq_some h hip
        split_ifs at he with hblocked
        exact ⟨a, b, c, d, isBlockedIp_v4.mp hblocked, htext⟩
      · cases he
    · intro haddress
      obtain ⟨a, b, c, d, haddress, htext⟩ := haddress
      rw [htext, parseIpAddr_dotted]
      exact ⟨_, if_pos (isBlockedIp_v4.mpr haddress)⟩

theorem of_toLower {P : Char → Char → Prop} (hself : ∀ c, P c c)
    (hascii : ∀ n < 128, P (Char.ofNat n) (Char.ofNat n).toLower) (c : Char) : P c c.toLower := by
  rcases Nat.lt_or_ge c.toNat 128 with hlt | hge
  · have hchar := hascii c.toNat hlt
    rwa [Char.ofNat_toNat] at hchar
  · have hsame : c.toLower = c := by
      refine dif_neg (fun hrange ↦ ?_)
      have hle : c.toNat ≤ 90 := hrange.2
      omega
    rw [hsame]
    exact hself c

theorem spelled_toLower_ne {c : Char} (h : Spelled c) : c.toLower ≠ 'l' := by
  refine of_toLower (P := fun c x ↦ Spelled c → x ≠ 'l') (fun c hc heq ↦ ?_) (by decide) c h
  rw [heq] at hc
  exact absurd hc (by decide)

theorem toLower_mem_stops {c : Char} (h : c.toLower ∈ stops) : c ∈ stops :=
  of_toLower (P := fun c x ↦ x ∈ stops → c ∈ stops) (fun _ ↦ id) (by decide) c h

theorem not_spelled {x : Char} (hmark : x = '@' ∨ x = '[') : ¬Spelled x := by
  rcases hmark with rfl | rfl
  · decide
  · decide

/-- With a character that stands in no name or address, and without an `l` at its end. -/
theorem not_local {x : Char} (hx : x ∈ part) (hmark : x = '@' ∨ x = '[')
    (hlast : ∀ c ∈ part.getLast?, c.toLower ≠ 'l') : ¬Local part := by
  have hlower : x ∈ lower part := by
    have hmem : x.toLower ∈ lower part := List.mem_map_of_mem hx
    rcases hmark with rfl | rfl
    · exact hmem
    · exact hmem
  have hsuffix : ∀ start : List Char, ¬start ++ ['l'] <:+ lower part := by
    intro start h
    obtain ⟨front, hfront⟩ := h
    have hgetLast : (lower part).getLast? = some 'l' := by
      rw [← hfront, ← List.append_assoc, List.getLast?_concat]
    rw [lower, List.getLast?_map, Option.map_eq_some_iff] at hgetLast
    obtain ⟨c, hc, hl⟩ := hgetLast
    exact hlast c hc hl
  intro h
  obtain hname | hname | hname | ⟨a, b, c, d, -, hname⟩ := h
  · rw [hname] at hlower
    rcases hmark with rfl | rfl
    · exact absurd hlower (by decide)
    · exact absurd hlower (by decide)
  · exact hsuffix ".loca".toList hname
  · exact hsuffix ".interna".toList hname
  · rw [hname] at hlower
    exact not_spelled hmark (spelled_dotted x hlower)

end Checks

section Parts

theorem hostPart_append (h : ∀ c ∈ text, c ∉ stops) (rest : List Char) :
    hostPart (text ++ rest) = text ++ hostPart rest :=
  List.takeWhile_append_of_pos (fun c hc ↦ by simpa using h c hc)

theorem hostPart_stop {c : Char} (h : c ∈ stops) (rest : List Char) : hostPart (c :: rest) = [] :=
  List.takeWhile_cons_of_neg (by simpa using h)

theorem mem_hostPart {c : Char} (h : c ∈ hostPart text) : c ∈ text ∧ c ∉ stops := by
  have hclean := List.all_eq_true.mp (List.all_takeWhile (p := fun c ↦ !stops.contains c)) c h
  exact ⟨(List.takeWhile_sublist _).mem h, by simpa using hclean⟩

theorem colon_not_mem_lower_hostPart (text : List Char) : ':' ∉ lower (hostPart text) := by
  intro h
  obtain ⟨c, hc, hcolon⟩ := List.mem_map.mp h
  exact (mem_hostPart hc).2 (toLower_mem_stops (hcolon ▸ by decide))

theorem stripPrefix_append (start rest : List Char) :
    stripPrefix start (start ++ rest) = some rest := by
  rw [stripPrefix, if_pos (List.prefix_append start rest), List.drop_left]

theorem not_https (rest : List Char) : ¬https <+: http ++ rest := by
  intro h
  obtain ⟨more, hmore⟩ := h
  have hfifth : some 's' = some ':' := congrArg (fun l ↦ l[4]?) hmore
  cases hfifth

theorem validateUrl_text (u : Url) : validateUrl u.text = checkHost (hostPart u.afterScheme) := by
  rw [validateUrl, Url.text, String.toList_ofList]
  cases u.scheme with
  | http =>
    rw [Scheme.text, stripPrefix_append, stripPrefix, if_neg (not_https _), Option.none_or]
    exact if_neg (fun h ↦ h.1 (List.prefix_append _ _))
  | https =>
    rw [Scheme.text, stripPrefix_append, Option.some_or]
    exact if_neg (fun h ↦ h.2 (List.prefix_append _ _))

theorem hostPart_afterHost (u : Url) : hostPart u.afterHost = [] := by
  rw [Url.afterHost]
  cases u.port with
  | none =>
    have hstart := u.tail_start
    cases htail : u.tail with
    | nil => rfl
    | cons c tail =>
      rw [htail] at hstart
      exact hostPart_stop (List.mem_append_left [':'] (hstart c rfl)) tail
  | some port => exact hostPart_stop (by decide) _

theorem mem_stops {c : Char} : c ∈ stops ↔ c = '/' ∨ c = '?' ∨ c = '#' ∨ c = ':' := by
  simp [stops]

theorem not_mem_stops_of_dotted : ∀ x ∈ dotted a b c d, x ∉ stops := by
  intro x hx hstop
  have hdotted : x.isDigit = true ∨ x = '.' := mem_dotted hx
  rcases mem_stops.mp hstop with rfl | rfl | rfl | rfl <;> exact absurd hdotted (by decide)

theorem lower_dotted : lower (dotted a b c d) = dotted a b c d := by
  refine (List.map_congr_left (fun x hx ↦ ?_)).trans (List.map_id _)
  exact of_toLower (P := fun c x ↦ (c.isDigit = true ∨ c = '.') → x = c) (fun _ _ ↦ rfl) (by decide)
    x (mem_dotted hx)

theorem not_mem_stops_of_localhost (h : lower text = "localhost".toList) :
    ∀ c ∈ text, c ∉ stops := by
  intro c hc hstop
  have hlower : c.toLower ∈ "localhost".toList := h ▸ List.mem_map_of_mem hc
  rcases mem_stops.mp hstop with rfl | rfl | rfl | rfl <;> exact absurd hlower (by decide)

theorem hostPart_colon (front rest : List Char) :
    hostPart (front ++ ':' :: rest) = hostPart front := by
  induction front with
  | nil => exact hostPart_stop (by decide) rest
  | cons c front ih =>
    rw [List.cons_append, hostPart, hostPart, List.takeWhile_cons, List.takeWhile_cons]
    split_ifs
    · exact congrArg (c :: ·) ih
    · rfl

/-- In brackets the filter sees no more than a part of the address. -/
theorem hostPart_bracketed (h : LocalV6 text) (rest : List Char) :
    ∃ front, hostPart ('[' :: (text ++ rest)) = '[' :: front ∧ ∀ c ∈ front, Spelled c := by
  obtain ⟨segments, hread, -⟩ := h
  have hcolon : ':' ∈ text := by
    by_contra hnone
    rw [readIpv6_eq_none hnone] at hread
    cases hread
  obtain ⟨front, back, rfl⟩ := List.append_of_mem hcolon
  refine ⟨hostPart front, ?_, fun c hc ↦ ?_⟩
  · rw [List.append_assoc, List.cons_append, ← List.cons_append, hostPart_colon]
    exact List.takeWhile_cons_of_pos (by decide)
  · exact (spells_readIpv6 hread).all c (List.mem_append_left _ (mem_hostPart hc).1)

theorem hostPart_ipv4 (u : Url) : hostPart (dotted a b c d ++ u.afterHost) = dotted a b c d := by
  rw [hostPart_append not_mem_stops_of_dotted, hostPart_afterHost, List.append_nil]

theorem hostPart_localhost {name : List Char} (h : lower name = "localhost".toList) (dot : Bool)
    (u : Url) : hostPart ((if dot then name ++ ['.'] else name) ++ u.afterHost) =
      if dot then name ++ ['.'] else name := by
  have hname := not_mem_stops_of_localhost h
  cases dot with
  | true =>
    have hall : ∀ c ∈ name ++ ['.'], c ∉ stops :=
      List.forall_mem_append.mpr ⟨hname, List.forall_mem_singleton.mpr (by decide)⟩
    refine (hostPart_append hall _).trans ?_
    rw [hostPart_afterHost, List.append_nil]
    rfl
  | false =>
    refine (hostPart_append hname _).trans ?_
    rw [hostPart_afterHost, List.append_nil]
    rfl

theorem hostPart_host (u : Url) : hostPart (u.host.text ++ u.afterHost) ≠ [] ∧
    ∀ c ∈ (hostPart (u.host.text ++ u.afterHost)).getLast?, c.toLower ≠ 'l' := by
  cases u.host with
  | ipv4 a b c d h =>
    rw [Host.text, hostPart_ipv4]
    refine ⟨by simp [dotted], fun x hx ↦ ?_⟩
    exact spelled_toLower_ne (spelled_dotted x (List.mem_of_getLast? hx))
  | bracketed text h =>
    obtain ⟨front, hfront, hspelled⟩ := hostPart_bracketed h (']' :: u.afterHost)
    rw [Host.text, List.cons_append, List.append_assoc, List.singleton_append, hfront]
    refine ⟨List.cons_ne_nil _ _, fun x hx ↦ ?_⟩
    rcases List.mem_cons.mp (List.mem_of_getLast? hx) with rfl | hx
    · decide
    · exact spelled_toLower_ne (hspelled x hx)
  | localhost name dot h =>
    rw [Host.text, hostPart_localhost h]
    cases dot with
    | true => simp
    | false =>
      have hlast : name.getLast?.map Char.toLower = some 't' := by
        rw [← List.getLast?_map, ← lower, h]
        rfl
      refine ⟨fun hnil ↦ ?_, fun c hc ↦ ?_⟩
      · rw [show name = [] from hnil] at hlast
        cases hlast
      · rw [show name.getLast? = some c from hc, Option.map_some] at hlast
        rw [Option.some.inj hlast]
        decide

end Parts

section Results

/-- Behind userinfo, the filter does not know the host. -/
theorem not_local_behind (u : Url) (user : List Char) :
    ¬Local (user ++ '@' :: hostPart (u.host.text ++ u.afterHost)) := by
  obtain ⟨hne, hlast⟩ := hostPart_host u
  refine not_local (List.mem_append_right _ List.mem_cons_self) (.inl rfl) ?_
  rw [List.append_cons, List.getLast?_append]
  rw [List.getLast?_eq_some_getLast hne] at hlast ⊢
  exact hlast

theorem local_host_iff (u : Url) : Local (hostPart (u.host.text ++ u.afterHost)) ↔
    match u.host with
    | .ipv4 _ _ _ _ _ => True
    | .bracketed _ _ => False
    | .localhost _ dot _ => dot = false := by
  have hlast := (hostPart_host u).2
  cases hhost : u.host with
  | ipv4 a b c d h =>
    rw [Host.text, hostPart_ipv4]
    exact iff_of_true (.inr (.inr (.inr ⟨a, b, c, d, h, lower_dotted⟩))) trivial
  | bracketed text h =>
    obtain ⟨front, hfront, hspelled⟩ := hostPart_bracketed h (']' :: u.afterHost)
    rw [hhost] at hlast
    rw [Host.text, List.cons_append, List.append_assoc, List.singleton_append, hfront] at hlast ⊢
    exact iff_of_false (not_local List.mem_cons_self (.inr rfl) hlast) id
  | localhost name dot h =>
    rw [Host.text, hostPart_localhost h]
    cases dot with
    | true =>
      refine iff_of_false (fun hlocal ↦ ?_) Bool.noConfusion
      have hlower : lower (name ++ ['.']) = "localhost.".toList := by
        rw [lower, List.map_append, ← lower, h]
        rfl
      obtain hname | hname | hname | ⟨a, b, c, d, -, hname⟩ := hlocal
      · exact absurd (hlower.symm.trans hname) (by decide)
      · exact absurd (hlower ▸ hname) (by decide)
      · exact absurd (hlower ▸ hname) (by decide)
      · have hspelled := @spelled_dotted a b c d
        rw [← hname] at hspelled
        have hl : 'l' ∈ lower (name ++ ['.']) := hlower ▸ by decide
        exact absurd (hspelled 'l' hl) (by decide)
    | false => exact iff_of_true (.inl h) rfl

theorem not_mem_stops_of_clean (hclean : ∀ c ∈ text, c ∉ ['/', '?', '#']) (hcolon : ':' ∉ text) :
    ∀ c ∈ text, c ∉ stops := by
  intro c hc hstop
  rcases List.mem_append.mp (show c ∈ ['/', '?', '#'] ++ [':'] from hstop) with hstop | hstop
  · exact hclean c hc hstop
  · exact hcolon (List.mem_singleton.mp hstop ▸ hc)

theorem hostPart_user {user : List Char} (hclean : ∀ c ∈ user, c ∉ ['/', '?', '#'])
    (hcolon : ':' ∈ user) (rest : List Char) :
    hostPart (user ++ rest) = user.takeWhile (· != ':') := by
  obtain ⟨front, back, rfl, hfront⟩ := List.eq_append_cons_of_mem hcolon
  have hfree := not_mem_stops_of_clean (fun c hc ↦ hclean c (List.mem_append_left _ hc)) hfront
  have hall : ∀ c ∈ front, (c != ':') = true := fun c hc ↦ by
    rw [bne_iff_ne]
    rintro rfl
    exact hfront hc
  have hself := hostPart_append hfree []
  rw [List.append_assoc, List.cons_append, hostPart_colon, List.takeWhile_append_of_pos hall,
    List.takeWhile_cons_of_neg (by simp), List.append_nil]
  simpa [hostPart] using hself

/-- An error is returned if and only if the filter finds a host that it knows where it looks. -/
theorem validateUrl_error_iff (u : Url) : (∃ e, validateUrl u.text = .error e) ↔ u.Caught := by
  rw [validateUrl_text, checkHost_error_iff (colon_not_mem_lower_hostPart _), Url.afterScheme,
    Url.Caught]
  have hclean := u.userinfo_clean
  cases huser : u.userinfo with
  | none => exact local_host_iff u
  | some user =>
    rw [huser] at hclean
    dsimp only [Option.elim_some]
    rw [List.append_assoc, List.singleton_append]
    by_cases hcolon : ':' ∈ user
    · rw [hostPart_user (hclean user rfl) hcolon]
      exact (and_iff_right hcolon).symm
    · have hfree : ∀ c ∈ user ++ ['@'], c ∉ stops :=
        List.forall_mem_append.mpr ⟨not_mem_stops_of_clean (hclean user rfl) hcolon,
          List.forall_mem_singleton.mpr (by decide)⟩
      rw [List.append_cons, hostPart_append hfree, ← List.append_cons]
      exact iff_of_false (not_local_behind u user) (fun h ↦ hcolon h.1)

def behindUser : Url where
  scheme := .http
  userinfo := some "user".toList
  host := .ipv4 ⟨127, by decide⟩ ⟨0, by decide⟩ ⟨0, by decide⟩ ⟨1, by decide⟩ (.inl rfl)
  port := none
  tail := "/".toList
  userinfo_clean := by simp
  tail_start := by simp

/-- A loopback address behind userinfo. -/
theorem behindUser_passes : behindUser.text = "http://user@127.0.0.1/" ∧
    validateUrl behindUser.text = .ok () := by
  decide +kernel

end Results

end Aldivine.Security.Hosts
