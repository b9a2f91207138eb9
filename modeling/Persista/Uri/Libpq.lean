import Persista.Lib.Delimited
import Persista.Lib.Dict
import Persista.Lib.Percent
import Mathlib.Data.List.TakeWhile

/-!
# Connection URIs, as libpq reads them

`postgresql://[user[:password]@][host][:port][,...][/dbname][?name=value[&...]]`. libpq first cuts a
URI into raw pieces, then reads the escapes of each piece and stores it; a piece that is empty is
not stored. It works on bytes and on C strings: the URI ends at the first null byte, and an escape
that stands for one is an error. A `+` is a `+`.

The user part ends at the first `@`, if that comes before the first `/`. A host that starts with `[`
ends at the next `]`, and otherwise a host ends where a `:`, `/`, `?` or `,` stands. The hosts of a
list are stored as one text with commas in it, and so are the ports, whether they are written or
not. A parameter of the query is stored over what was stored before. Spaces are kept, as before
version 17.

`split` cuts, `store` reads and stores. Nothing is lost in cutting: `split` is the inverse of
writing the pieces one after the other.

## Main results

* `Libpq.split_eq_some_iff` — cutting is the inverse of writing, on pieces that are cut
-/

namespace Libpq

open Delimited

/-- Bytes. -/
abbrev Bytes := List UInt8

/-! ### Delimiters -/

/-- `%`. -/
abbrev percent : UInt8 := 37

/-- `&`. -/
abbrev ampersand : UInt8 := 38

/-- `,`. -/
abbrev comma : UInt8 := 44

/-- `/`. -/
abbrev slash : UInt8 := 47

/-- `:`. -/
abbrev colon : UInt8 := 58

/-- `=`. -/
abbrev equals : UInt8 := 61

/-- `?`. -/
abbrev question : UInt8 := 63

/-- `@`. -/
abbrev atSign : UInt8 := 64

/-- `[`. -/
abbrev opening : UInt8 := 91

/-- `]`. -/
abbrev closing : UInt8 := 93

/-- A byte of a user name. -/
def isUserByte (b : UInt8) : Bool := b != colon && b != atSign

/-- A byte of a host without brackets. -/
def isHostByte (b : UInt8) : Bool := b != colon && b != slash && b != question && b != comma

/-- A byte of a port. -/
def isPortByte (b : UInt8) : Bool := b != slash && b != question && b != comma

/-! ### Pieces -/

/-- `user[:password]@`. -/
structure Userinfo where
  user : Bytes
  password : Option Bytes

/-- `host[:port]`. -/
structure HostPort where
  bracketed : Bool
  host : Bytes
  port : Option Bytes

/-- The raw pieces of a URI. -/
structure Pieces where
  userinfo : Option Userinfo
  hosts : List HostPort
  dbname : Option Bytes
  params : Option Bytes

/-- Write something with a delimiter before it. -/
def opened (b : UInt8) : Option Bytes → Bytes
  | none => []
  | some s => b :: s

/-- Texts with a separator between them. -/
def joined (sep : UInt8) : List Bytes → Bytes
  | [] => []
  | [s] => s
  | s :: t :: l => s ++ sep :: joined sep (t :: l)

theorem joined_cons_cons (sep : UInt8) (s t : Bytes) (l : List Bytes) :
    joined sep (s :: t :: l) = s ++ sep :: joined sep (t :: l) := rfl

/-- Write a user part. -/
def Userinfo.render (u : Userinfo) : Bytes := u.user ++ opened colon u.password ++ [atSign]

/-- Write a host. -/
def HostPort.render (h : HostPort) : Bytes :=
  (if h.bracketed then opening :: h.host ++ [closing] else h.host) ++ opened colon h.port

/-- Write the pieces before the query. -/
def Pieces.front (p : Pieces) : Bytes :=
  (p.userinfo.map Userinfo.render).getD [] ++ joined comma (p.hosts.map HostPort.render) ++
    opened slash p.dbname

/-- Write all pieces. -/
def Pieces.render (p : Pieces) : Bytes := p.front ++ opened question p.params

/-! ### Cutting -/

/-- The bytes up to the first that does not satisfy `p`, and the others. -/
def cut (p : UInt8 → Bool) (s : Bytes) : Bytes × Bytes := (s.takeWhile p, s.dropWhile p)

/-- The user part and what follows it. -/
def splitUserinfo (s : Bytes) : Option Userinfo × Bytes :=
  match cut (fun b => b != atSign && b != slash) s with
  | (_, []) => (none, s)
  | (head, b :: rest) =>
    if b = atSign then
      match cut isUserByte head with
      | (user, []) => (some ⟨user, none⟩, rest)
      | (user, _ :: password) => (some ⟨user, some password⟩, rest)
    else (none, s)

/-- The port, if there is one, and what follows it. -/
def splitPort : Bytes → Option Bytes × Bytes
  | [] => (none, [])
  | b :: s =>
    if b = colon then (some (cut isPortByte s).1, (cut isPortByte s).2) else (none, b :: s)

/-- A host with its port, and what follows it. -/
def splitHost (s : Bytes) : Option (HostPort × Bytes) :=
  if s.head? = some opening then
    match cut (· != closing) s.tail with
    | (_, []) => none
    | (host, _ :: rest) =>
      if host = [] ∨ rest.head?.any isHostByte then none
      else some (⟨true, host, (splitPort rest).1⟩, (splitPort rest).2)
  else
    some (⟨false, (cut isHostByte s).1, (splitPort (cut isHostByte s).2).1⟩,
      (splitPort (cut isHostByte s).2).2)

/-- The hosts and what follows them, `fuel` of them at most. -/
def splitHosts : ℕ → Bytes → Option (List HostPort × Bytes)
  | 0, _ => none
  | fuel + 1, s =>
    match splitHost s with
    | none => none
    | some (h, []) => some ([h], [])
    | some (h, b :: rest) =>
      if b = comma then (splitHosts fuel rest).map fun r => (h :: r.1, r.2)
      else some ([h], b :: rest)

/-- The database and the query, of what follows the hosts. -/
def splitPath : Bytes → Option Bytes × Option Bytes
  | [] => (none, none)
  | b :: s =>
    if b = slash then
      match cut (· != question) s with
      | (dbname, []) => (some dbname, none)
      | (dbname, _ :: params) => (some dbname, some params)
    else (none, some s)

/-- The pieces of what follows `postgresql://`. -/
def split (s : Bytes) : Option Pieces :=
  let (userinfo, rest) := splitUserinfo s
  (splitHosts (rest.length + 1) rest).map fun (hosts, rest) =>
    ⟨userinfo, hosts, (splitPath rest).1, (splitPath rest).2⟩

/-! ### Reading and storing -/

/-- Read the escapes of a piece. -/
def uriDecode : Bytes → Option Bytes
  | [] => some []
  | b :: bs =>
    if b = percent then
      match bs with
      | h :: l :: rest =>
        match Percent.hexValue h, Percent.hexValue l with
        | some x, some y =>
          if 16 * x + y = 0 then none
          else (uriDecode rest).map (UInt8.ofNat (16 * x + y) :: ·)
        | _, _ => none
      | _ => none
    else (uriDecode bs).map (b :: ·)

/-- The keywords of connection parameters, `K` those that have no place of their own in a URI. -/
inductive Keyword (K : Type)
  | user
  | password
  | host
  | port
  | dbname
  | other (k : K)
  deriving DecidableEq

/-- The table of options: the names of the other keywords, and the search for a name. -/
structure OptionTable (K : Type) where
  name : K → List Char
  find : Bytes → Option K
  find_eq_some : ∀ b k, find b = some k ↔ b = Utf8.encode (name k)
  /-- Names are words of letters and underscores. -/
  word : ∀ k, name k ≠ [] ∧ (name k).all fun c => c.isAlpha || c == '_'
  /-- They are not the names of the keywords that have a place, nor the old names of `sslmode`. -/
  apart : ∀ k, name k ∉
    ["user", "password", "host", "port", "dbname", "ssl", "requiressl"].map String.toList
  /-- The keyword `sslmode`. -/
  sslmode : K

/-- The keywords that have a place of their own in a URI. -/
def places {K : Type} : List (Keyword K) := [.user, .password, .host, .port, .dbname]

/-- What is stored under each keyword. -/
abbrev Options (K : Type) := Keyword K → Option Bytes

variable {K : Type} [DecidableEq K] (table : OptionTable K)

/-- The bytes of a word. -/
def word (s : String) : Bytes := Utf8.encode s.toList

/-- The keyword of a name. -/
def keywordOf (name : Bytes) : Option (Keyword K) :=
  if name = word "user" then some .user
  else if name = word "password" then some .password
  else if name = word "host" then some .host
  else if name = word "port" then some .port
  else if name = word "dbname" then some .dbname
  else (table.find name).map .other

/-- The raw text that is stored under a keyword before the query is read. -/
def Pieces.raw (p : Pieces) : Keyword K → Bytes
  | .user => (p.userinfo.map Userinfo.user).getD []
  | .password => (p.userinfo.bind Userinfo.password).getD []
  | .host => joined comma (p.hosts.map HostPort.host)
  | .port => joined comma (p.hosts.map fun h => h.port.getD [])
  | .dbname => p.dbname.getD []
  | .other _ => []

/-- Store a piece that is not empty. -/
def storePiece (p : Pieces) (o : Options K) (k : Keyword K) : Option (Options K) :=
  if p.raw k = [] then some o
  else (uriDecode (p.raw k)).map fun v => Function.update o k (some v)

/-- The parameters of a query: a `&` ends one. -/
def segments : Bytes → List Bytes
  | [] => []
  | b :: s =>
    if b = ampersand then [] :: segments s
    else
      match segments s with
      | [] => [[b]]
      | t :: l => (b :: t) :: l

/-- What `requiressl` sets `sslmode` to. -/
def requireSsl (value : Bytes) : Bytes :=
  if value.head? = some 49 then word "require" else word "prefer"

/-- Store a parameter. -/
def storeParam (o : Options K) (segment : Bytes) : Option (Options K) :=
  match cut (· != equals) segment with
  | (_, []) => none
  | (name, _ :: value) =>
    if equals ∈ value then none
    else do
      let name ← uriDecode name
      let value ← uriDecode value
      if name = word "ssl" ∧ value = word "true" then
        return Function.update o (.other table.sslmode) (some (word "require"))
      if name = word "requiressl" then
        return Function.update o (.other table.sslmode) (some (requireSsl value))
      let k ← keywordOf table name
      return Function.update o k (some value)

/-- Read the pieces and store them, the query last. -/
def store (p : Pieces) : Option (Options K) := do
  let o ← places.foldlM (storePiece p) fun _ => none
  (segments (p.params.getD [])).foldlM (storeParam table) o

/-- What follows the prefix of a URI. -/
def afterPrefix (s : Bytes) : Option Bytes :=
  if (word "postgresql://").isPrefixOf s then some (s.drop (word "postgresql://").length)
  else if (word "postgres://").isPrefixOf s then some (s.drop (word "postgres://").length)
  else none

/-- The connection parameters of a URI, `none` when it is refused. -/
def parse (uri : Bytes) : Option (Options K) := do
  let s ← afterPrefix (uri.takeWhile (· != 0))
  let p ← split s
  store table p

/-! ### Cutting is the inverse of writing -/

theorem cut_eq_iff {p : UInt8 → Bool} {s a r : Bytes} :
    cut p s = (a, r) ↔ s = a ++ r ∧ (∀ b ∈ a, p b) ∧ Breaks (p ·) r := by
  rw [cut, Prod.mk.injEq]
  constructor
  · rintro ⟨rfl, rfl⟩
    refine ⟨List.takeWhile_append_dropWhile.symm, fun b hb => List.mem_takeWhile_imp hb, ?_⟩
    intro b hb
    have hne := List.head?_dropWhile_not p s
    rw [Option.mem_def.mp hb] at hne
    simpa using hne
  · rintro ⟨rfl, ha, hr⟩
    rw [List.takeWhile_append_of_pos ha, List.dropWhile_append_of_pos ha]
    rcases r with _ | ⟨b, r⟩
    · simp
    · have hb := hr b rfl
      simp [hb]

/-- A user part as it is cut, `rest` following it. -/
def CutUserinfo (rest : Bytes) : Option Userinfo → Prop
  | none => ∀ a r, rest = a ++ atSign :: r → slash ∈ a
  | some u => (∀ b ∈ u.user, b ≠ colon ∧ b ≠ atSign ∧ b ≠ slash) ∧
      ∀ password, u.password = some password → ∀ b ∈ password, b ≠ atSign ∧ b ≠ slash

/-- A host as it is cut. -/
structure HostPort.Cut (h : HostPort) : Prop where
  bracketed : h.bracketed = true → h.host ≠ [] ∧ closing ∉ h.host
  plain : h.bracketed = false → (∀ b ∈ h.host, isHostByte b) ∧ h.host.head? ≠ some opening
  port : ∀ port, h.port = some port → ∀ b ∈ port, isPortByte b

/-- Pieces as they are cut. -/
structure Pieces.Cut (p : Pieces) : Prop where
  userinfo : CutUserinfo (joined comma (p.hosts.map HostPort.render) ++ opened slash p.dbname ++
    opened question p.params) p.userinfo
  hosts_ne : p.hosts ≠ []
  hosts : ∀ h ∈ p.hosts, h.Cut
  dbname : ∀ dbname, p.dbname = some dbname → question ∉ dbname

theorem splitUserinfo_some {rest : Bytes} {u : Userinfo} (h : CutUserinfo rest (some u)) :
    splitUserinfo (u.render ++ rest) = (some u, rest) := by
  obtain ⟨user, password⟩ := u
  obtain ⟨huser, hpassword⟩ := h
  have hcut : cut (fun b => b != atSign && b != slash) (Userinfo.render ⟨user, password⟩ ++ rest) =
      (user ++ opened colon password, atSign :: rest) := by
    refine cut_eq_iff.mpr ⟨by simp [Userinfo.render], fun b hb => ?_, by simp [Breaks]⟩
    rcases List.mem_append.mp hb with hb | hb
    · simp [(huser b hb).2]
    · cases password with
      | none => cases hb
      | some password =>
        rcases List.mem_cons.mp hb with rfl | hb
        · decide
        · simp [hpassword password rfl b hb]
  have hname : ∀ b ∈ user, isUserByte b := fun b hb => by simp [isUserByte, huser b hb]
  rw [splitUserinfo, hcut]
  cases password with
  | none =>
    have hcut' : cut isUserByte (user ++ opened colon none) = (user, []) :=
      cut_eq_iff.mpr ⟨rfl, hname, by simp [Breaks]⟩
    simp only [hcut', if_true]
  | some password =>
    have hcut' : cut isUserByte (user ++ opened colon (some password)) =
        (user, colon :: password) :=
      cut_eq_iff.mpr ⟨rfl, hname, by simp [Breaks, isUserByte]⟩
    simp only [hcut', if_true]

theorem splitUserinfo_none {rest : Bytes} (h : CutUserinfo rest none) :
    splitUserinfo rest = (none, rest) := by
  rw [splitUserinfo]
  split
  · rfl
  · next head b tail hcut =>
    obtain ⟨hs, hhead, -⟩ := cut_eq_iff.mp hcut
    refine if_neg ?_
    rintro rfl
    have hslash := hhead slash (h head tail hs)
    simp at hslash

/-- There is no userinfo when a slash comes before every `@`. -/
theorem cutUserinfo_none_of_slash {head : Bytes} (h : atSign ∉ head) (tail : Bytes) :
    CutUserinfo (head ++ slash :: tail) none := by
  intro a r hr
  rcases List.append_eq_append_iff.mp hr with ⟨t, rfl, ht⟩ | ⟨t, rfl, ht⟩
  · cases t with
    | nil => cases ht
    | cons c t =>
      obtain ⟨rfl, -⟩ := List.cons.inj ht
      simp
  · cases t with
    | nil => cases ht
    | cons c t =>
      obtain ⟨rfl, -⟩ := List.cons.inj ht
      exact absurd (by simp) h

theorem splitUserinfo_eq_iff {s rest : Bytes} {u : Option Userinfo} :
    splitUserinfo s = (u, rest) ↔
      s = (u.map Userinfo.render).getD [] ++ rest ∧ CutUserinfo rest u := by
  constructor
  · intro h
    rw [splitUserinfo] at h
    split at h
    · next head hcut =>
      obtain ⟨rfl, rfl⟩ := Prod.mk.inj h
      obtain ⟨hs, hhead, -⟩ := cut_eq_iff.mp hcut
      refine ⟨rfl, fun a r hr => ?_⟩
      rw [List.append_nil] at hs
      have hat := hhead atSign (by rw [← hs, hr]; simp)
      simp at hat
    · next head b tail hcut =>
      obtain ⟨hs, hhead, hbreak⟩ := cut_eq_iff.mp hcut
      split at h
      · next hb =>
        subst hb
        have hclean : ∀ c ∈ head, c ≠ atSign ∧ c ≠ slash := fun c hc => by simpa using hhead c hc
        split at h
        · next user hcut' =>
          obtain ⟨rfl, rfl⟩ := Prod.mk.inj h
          obtain ⟨hhead', huser, -⟩ := cut_eq_iff.mp hcut'
          rw [List.append_nil] at hhead'
          subst hhead'
          refine ⟨by simpa [Userinfo.render, opened] using hs, fun c hc => ?_, nofun⟩
          have hc' := huser c hc
          simp only [isUserByte, Bool.and_eq_true, bne_iff_ne] at hc'
          exact ⟨hc'.1, hclean c hc⟩
        · next user c password hcut' =>
          obtain ⟨rfl, rfl⟩ := Prod.mk.inj h
          obtain ⟨hhead', huser, hbreak'⟩ := cut_eq_iff.mp hcut'
          have hc : c = colon := by
            have hno := hbreak' c rfl
            have hat := (hclean c (by rw [hhead']; simp)).1
            simp only [isUserByte, Bool.and_eq_true, bne_iff_ne, not_and_or, not_not] at hno
            exact hno.resolve_right hat
          subst hhead' hc
          refine ⟨by simpa [Userinfo.render, opened] using hs, fun d hd => ?_,
            fun pw hpw d hd => ?_⟩
          · have hd' := huser d hd
            simp only [isUserByte, Bool.and_eq_true, bne_iff_ne] at hd'
            exact ⟨hd'.1, hclean d (List.mem_append_left _ hd)⟩
          · obtain rfl := Option.some.inj hpw
            exact hclean d (List.mem_append_right _ (List.mem_cons_of_mem _ hd))
      · next hb =>
        obtain ⟨rfl, rfl⟩ := Prod.mk.inj h
        have hslash : b = slash := by
          have hno := hbreak b rfl
          simp only [Bool.and_eq_true, bne_iff_ne, not_and_or, not_not] at hno
          exact hno.resolve_left hb
        subst hslash
        refine ⟨rfl, ?_⟩
        rw [hs]
        refine cutUserinfo_none_of_slash (fun hmem => ?_) tail
        have hat := hhead atSign hmem
        simp at hat
  · rintro ⟨rfl, h⟩
    cases u with
    | none => exact splitUserinfo_none h
    | some u => exact splitUserinfo_some h

theorem splitPort_eq_iff {s rest : Bytes} {port : Option Bytes} (hs : Breaks (isHostByte ·) s) :
    splitPort s = (port, rest) ↔
      s = opened colon port ++ rest ∧ (∀ p, port = some p → ∀ b ∈ p, isPortByte b) ∧
        Breaks (isPortByte ·) rest := by
  constructor
  · intro h
    rcases s with _ | ⟨b, s⟩
    · obtain ⟨rfl, rfl⟩ := Prod.mk.inj h
      exact ⟨rfl, nofun, nofun⟩
    · rw [splitPort] at h
      split at h
      · next hb =>
        rcases hp : cut isPortByte s with ⟨p, r⟩
        rw [hp] at h
        obtain ⟨rfl, rfl⟩ := Prod.mk.inj h
        obtain ⟨hcut, hport, hbreak⟩ := cut_eq_iff.mp hp
        refine ⟨by rw [opened, List.cons_append, ← hcut, hb], fun p hp => ?_, hbreak⟩
        obtain rfl := Option.some.inj hp
        exact hport
      · next hb =>
        obtain ⟨rfl, rfl⟩ := Prod.mk.inj h
        refine ⟨rfl, nofun, fun c hc => ?_⟩
        have hhost := hs c hc
        obtain rfl := Option.some.inj hc
        simpa [isHostByte, isPortByte, hb] using hhost
  · rintro ⟨rfl, hport, hbreak⟩
    cases port with
    | none =>
      rcases rest with _ | ⟨b, rest⟩
      · rfl
      · refine if_neg ?_
        rintro rfl
        exact hbreak colon rfl (by decide)
    | some p =>
      have hcut : cut isPortByte (p ++ rest) = (p, rest) :=
        cut_eq_iff.mpr ⟨rfl, hport p rfl, hbreak⟩
      rw [opened, List.cons_append, splitPort, if_pos rfl, hcut]

/-- What follows the host of a host and port starts with no host byte. -/
theorem breaks_opened_colon {port : Option Bytes} {rest : Bytes} (h : Breaks (isPortByte ·) rest) :
    Breaks (isHostByte ·) (opened colon port ++ rest) := by
  cases port with
  | none =>
    intro b hb hhost
    refine h b hb ?_
    simp only [isHostByte, Bool.and_eq_true] at hhost
    simp [isPortByte, hhost]
  | some p => simp [Breaks, opened, isHostByte]

/-- A host and its port are read up to what ends them. -/
theorem splitHost_render {rest : Bytes} {h : HostPort} (hcut : h.Cut)
    (hbreak : Breaks (isPortByte ·) rest) : splitHost (h.render ++ rest) = some (h, rest) := by
  obtain ⟨bracketed, host, port⟩ := h
  have hport : splitPort (opened colon port ++ rest) = (port, rest) :=
    (splitPort_eq_iff (breaks_opened_colon hbreak)).mpr ⟨rfl, hcut.port, hbreak⟩
  cases bracketed with
  | true =>
    obtain ⟨hne, hclosing⟩ := hcut.bracketed rfl
    have htail : cut (· != closing) (host ++ closing :: (opened colon port ++ rest)) =
        (host, closing :: (opened colon port ++ rest)) :=
      cut_eq_iff.mpr ⟨rfl, fun b hb => bne_iff_ne.mpr fun heq => hclosing (heq ▸ hb),
        by simp [Breaks]⟩
    have hrender : HostPort.render ⟨true, host, port⟩ ++ rest =
        opening :: (host ++ closing :: (opened colon port ++ rest)) := by simp [HostPort.render]
    have hgood : ¬ (host = [] ∨ (opened colon port ++ rest).head?.any isHostByte = true) := by
      rw [not_or]
      refine ⟨hne, fun hany => ?_⟩
      obtain ⟨b, hb, hhb⟩ := (Option.any_eq_true _ _).mp hany
      exact breaks_opened_colon hbreak b hb hhb
    rw [hrender, splitHost, if_pos List.head?_cons, List.tail_cons, htail]
    simp only [hgood, if_false, hport]
  | false =>
    obtain ⟨hhost, hopening⟩ := hcut.plain rfl
    have hcut' : cut isHostByte (host ++ (opened colon port ++ rest)) =
        (host, opened colon port ++ rest) :=
      cut_eq_iff.mpr ⟨rfl, hhost, breaks_opened_colon hbreak⟩
    have hrender : HostPort.render ⟨false, host, port⟩ ++ rest =
        host ++ (opened colon port ++ rest) := by simp [HostPort.render]
    have hhead : (host ++ (opened colon port ++ rest)).head? ≠ some opening := by
      rcases host with _ | ⟨b, host⟩
      · intro heq
        exact breaks_opened_colon hbreak opening heq (by decide)
      · exact hopening
    rw [hrender, splitHost, if_neg hhead, hcut', hport]

theorem splitHost_eq_some_iff {s rest : Bytes} {h : HostPort} :
    splitHost s = some (h, rest) ↔
      s = h.render ++ rest ∧ h.Cut ∧ Breaks (isPortByte ·) rest := by
  constructor
  · intro hsplit
    rw [splitHost] at hsplit
    split at hsplit
    · next hhead =>
      split at hsplit
      · cases hsplit
      · next host c r hcut =>
        split at hsplit
        · cases hsplit
        · next hok =>
          rw [not_or] at hok
          rcases hp : splitPort r with ⟨port, r'⟩
          rw [hp] at hsplit
          obtain ⟨rfl, rfl⟩ := Prod.mk.inj (Option.some.inj hsplit)
          obtain ⟨htail, hhost, hclose⟩ := cut_eq_iff.mp hcut
          have hc : c = closing := by simpa using hclose c rfl
          subst hc
          have hs : s = opening :: (host ++ closing :: r) := by
            rw [← htail]
            exact List.eq_cons_of_mem_head? hhead
          have hr : Breaks (isHostByte ·) r := by
            intro b hb hhost'
            refine hok.2 ?_
            rw [Option.mem_def.mp hb]
            exact hhost'
          obtain ⟨rfl, hport, hbreak⟩ := (splitPort_eq_iff hr).mp hp
          refine ⟨?_, ⟨fun _ => ⟨hok.1, fun hmem => ?_⟩, nofun, hport⟩, hbreak⟩
          · rw [hs]
            simp [HostPort.render]
          · simpa using hhost closing hmem
    · next hhead =>
      rcases hcut : cut isHostByte s with ⟨host, r⟩
      rw [hcut] at hsplit
      rcases hp : splitPort r with ⟨port, r'⟩
      rw [hp] at hsplit
      obtain ⟨rfl, rfl⟩ := Prod.mk.inj (Option.some.inj hsplit)
      obtain ⟨rfl, hhost, hstop⟩ := cut_eq_iff.mp hcut
      obtain ⟨rfl, hport, hbreak⟩ := (splitPort_eq_iff hstop).mp hp
      refine ⟨by simp [HostPort.render], ⟨nofun, fun _ => ⟨hhost, fun hopen => hhead ?_⟩, hport⟩,
        hbreak⟩
      rw [List.head?_append, show host.head? = some opening from hopen]
      rfl
  · rintro ⟨rfl, hcut, hbreak⟩
    exact splitHost_render hcut hbreak

/-- What follows the hosts: a path, a query, or nothing. -/
def Ends (rest : Bytes) : Prop := ∀ b ∈ rest.head?, b = slash ∨ b = question

theorem Ends.breaks {rest : Bytes} (h : Ends rest) : Breaks (isPortByte ·) rest := by
  intro b hb
  rcases h b hb with rfl | rfl
  · decide
  · decide

theorem splitHosts_eq_some_iff {fuel : ℕ} {s rest : Bytes} {hs : List HostPort} :
    splitHosts fuel s = some (hs, rest) ↔
      s = joined comma (hs.map HostPort.render) ++ rest ∧ hs ≠ [] ∧ (∀ h ∈ hs, h.Cut) ∧
        Ends rest ∧ hs.length ≤ fuel := by
  induction fuel generalizing s hs with
  | zero =>
    constructor
    · intro h
      cases h
    · rintro ⟨-, hne, -, -, hlen⟩
      exact absurd (List.length_eq_zero_iff.mp (Nat.le_zero.mp hlen)) hne
  | succ fuel ih =>
    rw [splitHosts]
    constructor
    · intro hsplit
      split at hsplit
      · cases hsplit
      · next h hh =>
        obtain ⟨rfl, rfl⟩ := Prod.mk.inj (Option.some.inj hsplit)
        obtain ⟨hs, hcut, -⟩ := splitHost_eq_some_iff.mp hh
        exact ⟨hs, by simp, by simpa using hcut, nofun, by simp⟩
      · next h b r hh =>
        obtain ⟨hs', hcut, hbreak⟩ := splitHost_eq_some_iff.mp hh
        split at hsplit
        · next hb =>
          obtain ⟨⟨l, r'⟩, hl, heq⟩ := Option.map_eq_some_iff.mp hsplit
          obtain ⟨rfl, rfl⟩ := Prod.mk.inj heq
          obtain ⟨rfl, hne, hcuts, hends, hlen⟩ := ih.mp hl
          obtain ⟨h', l, rfl⟩ := List.exists_cons_of_ne_nil hne
          refine ⟨?_, by simp, List.forall_mem_cons.mpr ⟨hcut, hcuts⟩, hends, by simpa using hlen⟩
          rw [hs', hb]
          simp [joined]
        · next hb =>
          obtain ⟨rfl, rfl⟩ := Prod.mk.inj (Option.some.inj hsplit)
          refine ⟨hs', by simp, by simpa using hcut, fun c hc => ?_, by simp⟩
          have hno := hbreak c hc
          obtain rfl := Option.some.inj hc
          simpa [isPortByte, hb, or_iff_not_imp_left] using hno
    · rintro ⟨rfl, hne, hcuts, hends, hlen⟩
      obtain ⟨h, l, rfl⟩ := List.exists_cons_of_ne_nil hne
      rw [List.forall_mem_cons] at hcuts
      cases l with
      | nil =>
        have hh : splitHost (joined comma ([h].map HostPort.render) ++ rest) = some (h, rest) :=
          splitHost_eq_some_iff.mpr ⟨rfl, hcuts.1, hends.breaks⟩
        rw [hh]
        rcases rest with _ | ⟨b, rest⟩
        · rfl
        · refine if_neg ?_
          rintro rfl
          rcases hends comma rfl with h | h <;> cases h
      | cons h' l =>
        have hh : splitHost (joined comma ((h :: h' :: l).map HostPort.render) ++ rest) =
            some (h, comma :: (joined comma ((h' :: l).map HostPort.render) ++ rest)) :=
          splitHost_eq_some_iff.mpr ⟨by simp [joined], hcuts.1, by simp [Breaks, isPortByte]⟩
        have hl := ih.mpr ⟨rfl, List.cons_ne_nil h' l, hcuts.2, hends, by simpa using hlen⟩
        rw [hh]
        simp only [if_true, hl, Option.map_some]

/-- The fuel is enough: a host takes a byte, except the first. -/
theorem length_le_of_joined (hs : List HostPort) :
    hs.length ≤ (joined comma (hs.map HostPort.render)).length + 1 := by
  induction hs with
  | nil => simp
  | cons h l ih =>
    cases l with
    | nil => simp
    | cons h' l =>
      simp only [List.map_cons, joined, List.length_append, List.length_cons] at ih ⊢
      omega

theorem ends_opened (dbname params : Option Bytes) :
    Ends (opened slash dbname ++ opened question params) := by
  cases dbname with
  | some d => simp [Ends, opened]
  | none => cases params <;> simp [Ends, opened]

theorem splitPath_opened {dbname params : Option Bytes} (h : ∀ d, dbname = some d → question ∉ d) :
    splitPath (opened slash dbname ++ opened question params) = (dbname, params) := by
  cases dbname with
  | none => cases params <;> rfl
  | some d =>
    have hcut : cut (· != question) (d ++ opened question params) =
        (d, opened question params) := by
      refine cut_eq_iff.mpr ⟨rfl, fun b hb => bne_iff_ne.mpr fun heq => h d rfl (heq ▸ hb), ?_⟩
      cases params <;> simp [Breaks, opened]
    rw [opened, List.cons_append, splitPath, if_pos rfl, hcut]
    cases params <;> rfl

theorem splitPath_spec {rest : Bytes} {dbname params : Option Bytes} (h : Ends rest)
    (hsplit : splitPath rest = (dbname, params)) :
    rest = opened slash dbname ++ opened question params ∧
      ∀ d, dbname = some d → question ∉ d := by
  rcases rest with _ | ⟨b, s⟩
  · obtain ⟨rfl, rfl⟩ := Prod.mk.inj hsplit
    exact ⟨rfl, nofun⟩
  · rw [splitPath] at hsplit
    split at hsplit
    · next hb =>
      have hclean : ∀ d r, cut (· != question) s = (d, r) → question ∉ d := by
        intro d r hcut hmem
        simpa using (cut_eq_iff.mp hcut).2.1 question hmem
      split at hsplit
      · next d hcut =>
        obtain ⟨rfl, rfl⟩ := Prod.mk.inj hsplit
        refine ⟨?_, fun d' hd => Option.some.inj hd ▸ hclean _ _ hcut⟩
        rw [(cut_eq_iff.mp hcut).1, hb]
        simp [opened]
      · next d c params' hcut =>
        obtain ⟨rfl, rfl⟩ := Prod.mk.inj hsplit
        refine ⟨?_, fun d' hd => Option.some.inj hd ▸ hclean _ _ hcut⟩
        obtain ⟨hs, -, hbreak⟩ := cut_eq_iff.mp hcut
        have hc : c = question := by simpa using hbreak c rfl
        rw [hs, hb, hc]
        simp [opened]
    · next hb =>
      obtain ⟨rfl, rfl⟩ := Prod.mk.inj hsplit
      rw [(h b rfl).resolve_left hb]
      exact ⟨rfl, nofun⟩

/-- **Cutting is the inverse of writing.** -/
theorem split_eq_some_iff {s : Bytes} {p : Pieces} : split s = some p ↔ p.Cut ∧ p.render = s := by
  obtain ⟨userinfo, hosts, dbname, params⟩ := p
  have hrender : Pieces.render ⟨userinfo, hosts, dbname, params⟩ =
      (userinfo.map Userinfo.render).getD [] ++ (joined comma (hosts.map HostPort.render) ++
        (opened slash dbname ++ opened question params)) := by
    simp [Pieces.render, Pieces.front]
  rw [hrender]
  constructor
  · intro hsplit
    rw [split] at hsplit
    rcases hu : splitUserinfo s with ⟨u, rest⟩
    rw [hu] at hsplit
    obtain ⟨⟨hs, rest'⟩, hhosts, heq⟩ := Option.map_eq_some_iff.mp hsplit
    obtain ⟨rfl, rfl, hd, hp⟩ := Pieces.mk.inj heq
    obtain ⟨rfl, hcut⟩ := splitUserinfo_eq_iff.mp hu
    obtain ⟨rfl, hne, hcuts, hends, -⟩ := splitHosts_eq_some_iff.mp hhosts
    obtain ⟨rfl, hdb⟩ := splitPath_spec hends (Prod.ext hd hp)
    refine ⟨⟨?_, hne, hcuts, hdb⟩, rfl⟩
    rw [List.append_assoc]
    exact hcut
  · rintro ⟨⟨hcut, hne, hcuts, hdb⟩, rfl⟩
    rw [List.append_assoc] at hcut
    have hlen : hosts.length ≤ (joined comma (hosts.map HostPort.render) ++
        (opened slash dbname ++ opened question params)).length + 1 := by
      have h := length_le_of_joined hosts
      rw [List.length_append]
      omega
    rw [split, splitUserinfo_eq_iff.mpr ⟨rfl, hcut⟩]
    simp only [splitHosts_eq_some_iff.mpr ⟨rfl, hne, hcuts, ends_opened dbname params, hlen⟩,
      Option.map_some, splitPath_opened hdb]

end Libpq
