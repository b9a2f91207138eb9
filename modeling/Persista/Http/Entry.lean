import Persista.Lib.Base64
import Persista.Lib.Dict
import Mathlib.Data.String.Basic

/-!
# Cache entries of the HTTP clients

`http/httpx/client.py`: `_response_to_entry` and `_entry_to_response`. An entry holds the status,
the headers as a `dict` and the content in base64. The content of a response is decoded, the body
that `httpx.Response` is given is not: it decodes the content once more, as the `Content-Encoding`
among the headers says. A `dict` has one value a name, and `httpx.Response` adds the headers it
misses.

What `httpx` does is a parameter. Header names are in lower case, as `httpx` compares them.

## Main results

* `Http.entryToResponse_eq_iff` — when an entry gives back the response it was made from
-/

namespace Persista

namespace Http

/-- The headers of a message, in their order: `headers.multi_items()`. -/
abbrev Headers := List (String × String)

/-- The names of the headers. -/
def Headers.names (headers : Headers) : List String := headers.map Prod.fst

/-- `headers[name]`: the values of a name, joined. -/
def Headers.getItem (headers : Headers) (name : String) : String :=
  ", ".intercalate ((headers.filter fun h => h.1 = name).map Prod.snd)

/-- `dict(headers)`. -/
def Headers.toDict (headers : Headers) : Dict String String :=
  Dict.ofList (headers.map fun h => (h.1, headers.getItem h.1))

/-- The codings that were applied to the body. -/
def Headers.contentEncoding (headers : Headers) : Option String :=
  if "content-encoding" ∈ headers.names then some (headers.getItem "content-encoding") else none

/-- What the clients use of `httpx`. -/
structure Httpx where
  /-- The content of a body with these codings; `none` when decoding raises. -/
  decode : Option String → List UInt8 → Option (List UInt8)
  /-- `Headers` has an encoding for the name and the value. -/
  encodable : String × String → Bool
  /-- The headers that go with a body; `Response` adds those that are missing. -/
  defaultHeaders : List UInt8 → Headers
  /-- A body without codings is the content. -/
  decode_none : ∀ body, decode none body = some body

/-- A response that has been read. -/
structure Response where
  statusCode : ℕ
  headers : Headers
  content : List UInt8

/-- A response that arrives: its `content` is the body decoded; `none` when decoding raises. -/
def Httpx.receive (httpx : Httpx) (statusCode : ℕ) (headers : Headers) (body : List UInt8) :
    Option Response :=
  (httpx.decode headers.contentEncoding body).map (⟨statusCode, headers, ·⟩)

/-- `response.is_success`. -/
def Response.isSuccess (r : Response) : Bool := decide (200 ≤ r.statusCode ∧ r.statusCode ≤ 299)

/-- A cache entry. -/
structure Entry where
  statusCode : ℕ
  headers : Dict String String
  content : List Char

/-- `_response_to_entry`. -/
def responseToEntry (r : Response) : Entry where
  statusCode := r.statusCode
  headers := r.headers.toDict
  content := Base64.encode r.content

/-- `_prepare_headers`: each of the headers is added when its name is missing. -/
def Headers.prepare (headers defaults : Headers) : Headers :=
  defaults.foldl (fun headers h => if h.1 ∈ headers.names then headers else headers ++ [h]) headers

/-- `httpx.Response(status_code=..., headers=..., content=...)`, whose content is given as the body
that arrives; `none` when it raises. -/
def Httpx.response (httpx : Httpx) (statusCode : ℕ) (headers : Dict String String)
    (body : List UInt8) : Option Response :=
  if headers.entries.all httpx.encodable then
    httpx.receive statusCode (Headers.prepare headers.entries (httpx.defaultHeaders body)) body
  else none

/-- `_entry_to_response`; `none` when it raises. -/
def entryToResponse (httpx : Httpx) (entry : Entry) : Option Response := do
  let body ← Base64.decode entry.content
  httpx.response entry.statusCode entry.headers body

/-! ### Headers -/

variable {httpx : Httpx} {headers : Headers} {r : Response}

/-- A name that is not repeated has one value. -/
theorem getItem_of_mem (h : headers.names.Nodup) {p : String × String} (hp : p ∈ headers) :
    headers.getItem p.1 = p.2 := by
  have hfilter : headers.filter (fun q => q.1 = p.1) = [p] := by
    induction headers with
    | nil => cases hp
    | cons q headers ih =>
      rw [Headers.names, List.map_cons, List.nodup_cons] at h
      rcases List.mem_cons.mp hp with rfl | hp
      · have hrest : headers.filter (fun q => q.1 = p.1) = [] := by
          refine List.filter_eq_nil_iff.mpr fun q hq hqp => h.1 ?_
          exact of_decide_eq_true hqp ▸ List.mem_map_of_mem hq
        simp [hrest]
      · have hne : q.1 ≠ p.1 := fun hqp => h.1 (hqp ▸ List.mem_map_of_mem hp)
        simp [hne, ih h.2 hp]
  simp [Headers.getItem, hfilter]

/-- The `dict` of headers without repeated names is the headers. -/
theorem entries_toDict (h : headers.names.Nodup) : headers.toDict.entries = headers := by
  have hitem : ∀ p ∈ headers, (p.1, headers.getItem p.1) = p := fun p hp => by
    rw [getItem_of_mem h hp]
  have hmap : headers.map (fun p => (p.1, headers.getItem p.1)) = headers := by
    conv_rhs => rw [← List.map_id headers]
    exact List.map_congr_left hitem
  rw [Headers.toDict, hmap]
  exact Dict.entries_ofList h

/-- `Response` leaves the headers as they are when none of its own is missing. -/
theorem prepare_eq_iff {defaults : Headers} :
    headers.prepare defaults = headers ↔ ∀ d ∈ defaults, d.1 ∈ headers.names := by
  have hlen : ∀ (defaults headers : Headers),
      headers.length ≤ (headers.prepare defaults).length := by
    intro defaults
    induction defaults with
    | nil => exact fun headers => le_rfl
    | cons d defaults ih =>
      intro headers
      by_cases hd : d.1 ∈ headers.names
      · simpa [Headers.prepare, hd] using ih headers
      · have := ih (headers ++ [d])
        simp only [Headers.prepare, List.foldl_cons, if_neg hd, List.length_append] at this ⊢
        exact (Nat.le_add_right _ _).trans this
  induction defaults with
  | nil => simp [Headers.prepare]
  | cons d defaults ih =>
    by_cases hd : d.1 ∈ headers.names
    · have hcons : headers.prepare (d :: defaults) = headers.prepare defaults := by
        simp [Headers.prepare, hd]
      simp [hcons, ih, hd]
    · have hcons : headers.prepare (d :: defaults) = Headers.prepare (headers ++ [d]) defaults := by
        simp [Headers.prepare, hd]
      refine iff_of_false (fun heq => ?_) fun h => hd (h d List.mem_cons_self)
      have hlong := hlen defaults (headers ++ [d])
      rw [← hcons, heq, List.length_append, List.length_singleton] at hlong
      omega

/-- `Response` repeats no name. -/
theorem nodup_prepare {defaults : Headers} (h : headers.names.Nodup) :
    (headers.prepare defaults).names.Nodup := by
  induction defaults generalizing headers with
  | nil => exact h
  | cons d defaults ih =>
    by_cases hd : d.1 ∈ headers.names
    · simpa [Headers.prepare, hd] using ih h
    · have hnd : Headers.names (headers ++ [d]) |>.Nodup := by
        rw [Headers.names, List.map_append, List.map_singleton, List.nodup_append]
        refine ⟨h, List.nodup_singleton _, ?_⟩
        rintro a ha b hb rfl
        exact hd (List.mem_singleton.mp hb ▸ ha)
      simpa [Headers.prepare, hd] using ih hnd

/-- What the client needs of a response: no name is repeated, `Headers` has an encoding for each
header, none of the headers that go with the content is missing, and the codings of the body leave
the content as it is. -/
structure Reconstructible (httpx : Httpx) (r : Response) : Prop where
  nodup : r.headers.names.Nodup
  encodable : ∀ h ∈ r.headers, httpx.encodable h
  defaults : ∀ d ∈ httpx.defaultHeaders r.content, d.1 ∈ r.headers.names
  decoded : httpx.decode r.headers.contentEncoding r.content = some r.content

/-- A body without codings is decoded to itself, also the second time. -/
theorem decoded_of_no_coding (h : "content-encoding" ∉ r.headers.names) :
    httpx.decode r.headers.contentEncoding r.content = some r.content := by
  rw [Headers.contentEncoding, if_neg h, httpx.decode_none]

/-- **When an entry gives back its response.** -/
theorem entryToResponse_eq_iff (httpx : Httpx) (r : Response) :
    entryToResponse httpx (responseToEntry r) = some r ↔ Reconstructible httpx r := by
  have hentry : entryToResponse httpx (responseToEntry r) =
      httpx.response r.statusCode r.headers.toDict r.content := by
    rw [entryToResponse, responseToEntry, Base64.decode_encode]
    rfl
  rw [hentry]
  constructor
  · intro h
    rw [Httpx.response] at h
    by_cases hguard : r.headers.toDict.entries.all httpx.encodable
    · rw [if_pos hguard, Httpx.receive, Option.map_eq_some_iff] at h
      obtain ⟨content, hdecode, heq⟩ := h
      have hheaders := congrArg Response.headers heq
      have hcontent : content = r.content := congrArg Response.content heq
      dsimp only at hheaders
      rw [hheaders, hcontent] at hdecode
      have hnd : r.headers.names.Nodup := hheaders ▸ nodup_prepare r.headers.toDict.nodup
      rw [entries_toDict hnd] at hheaders hguard
      exact ⟨hnd, List.all_eq_true.mp hguard, prepare_eq_iff.mp hheaders, hdecode⟩
    · rw [if_neg hguard] at h
      cases h
  · intro h
    have hprepare := prepare_eq_iff.mpr h.defaults
    have hguard : r.headers.all httpx.encodable := List.all_eq_true.mpr h.encodable
    rw [Httpx.response, entries_toDict h.nodup, if_pos hguard, hprepare, Httpx.receive, h.decoded]
    rfl

/-- The gzip stream of `hi`. -/
def gzipOfHi : List UInt8 :=
  [31, 139, 8, 0, 0, 0, 0, 0, 2, 3, 203, 200, 4, 0, 172, 42, 147, 216, 2, 0, 0, 0]

/-- An `httpx` that reads one gzip stream. The header of a body that is not empty is its
length. -/
def gzipOnly : Httpx where
  decode coding body :=
    if coding = some "gzip" then
      if body = [] then some [] else if body = gzipOfHi then some [104, 105] else none
    else some body
  encodable _ := true
  defaultHeaders body :=
    if body = [] then [] else [("content-length", toString body.length)]
  decode_none _ := rfl

/-- A compressed response: its content is `hi`. -/
def compressed : Response where
  statusCode := 200
  headers := [("content-encoding", "gzip"), ("content-length", "22")]
  content := [104, 105]

/-- **The entry of a compressed response raises.** -/
theorem entryToResponse_compressed :
    gzipOnly.receive 200 compressed.headers gzipOfHi = some compressed ∧
      compressed.isSuccess ∧ entryToResponse gzipOnly (responseToEntry compressed) = none :=
  ⟨rfl, rfl, rfl⟩

end Http

end Persista
