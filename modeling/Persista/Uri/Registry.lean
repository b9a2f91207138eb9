import Persista.Uri.PathUri

/-!
# `register_scheme` and `store_from_uri`

`store/registry.py`: a dictionary of store classes by URI scheme, which is written at run time, and
the dispatcher that reads it.

The dispatcher asks the dictionary for what `urlsplit` reads as the scheme of a URI. That is in
lower case and starts with a letter, or there is none. A class that is registered under any other
name is never dispatched to.

## Main results

* `Registry.exists_scheme_iff` — which names can be read from a URI
* `Registry.registry_law` — what a registration changes
-/

namespace Persista

open Urllib

/-- What the dispatcher asks of a store class: `from_uri(uri, read_only=...)` and `open()`. -/
structure UriClass (S E : Type) where
  fromUri : List Char → Bool → Except E S
  «open» : S → Except E S

/-- `_SCHEMES`. -/
abbrev Registry (S E : Type) := Dict (List Char) (UriClass S E)

namespace Registry

variable {S E : Type} (checks : NetlocChecks)

/-- What `store_from_uri` raises. -/
inductive DispatchError (E : Type)
  | uri (e : UriError)
  | store (e : E)

/-- `register_scheme(scheme, store_cls)`. -/
def registerScheme (schemes : Registry S E) (scheme : List Char) (storeCls : UriClass S E) :
    Registry S E := schemes.set scheme storeCls

/-- `store_from_uri(uri, read_only)`: the store, open. -/
def storeFromUri (schemes : Registry S E) (uri : List Char) (readOnly : Bool) :
    Except (DispatchError E) S :=
  match urlsplit checks uri with
  | none => .error (.uri (.netloc uri))
  | some parsed =>
    match schemes.get? parsed.scheme with
    | none => .error (.uri (.notRegistered parsed.scheme uri))
    | some storeCls => (storeCls.fromUri uri readOnly >>= storeCls.open).mapError .store

/-- Some registrations, one after the other. -/
def registerAll (schemes : Registry S E) (registrations : List (List Char × UriClass S E)) :
    Registry S E :=
  registrations.foldl (fun schemes r => registerScheme schemes r.1 r.2) schemes

/-- `_SCHEMES` as it is at first. -/
def builtin (storeCls : StoreClass → UriClass S E) : Registry S E :=
  .ofList (schemes.map fun p => (p.1, storeCls p.2))

/-! ### Which schemes are read -/

/-- A name that `urlsplit` reads: none, or one in lower case that is written as it is. -/
def Readable (scheme : List Char) : Prop :=
  scheme = [] ∨ (scheme.head?.any Char.isAlpha ∧ scheme.all isSchemeChar ∧
    scheme.map Char.toLower = scheme)

instance (scheme : List Char) : Decidable (Readable scheme) := by
  unfold Readable
  infer_instance

theorem lt_of_isSchemeChar {c : Char} (h : isSchemeChar c) : c.toNat < 128 := by
  simp only [isSchemeChar, Char.isAlphanum, Bool.or_eq_true, beq_iff_eq] at h
  rcases h with (((hc | hc) | rfl) | rfl) | rfl
  · have hcode := toNat_of_isAlpha hc
    omega
  · obtain ⟨-, hle⟩ := Bool.and_eq_true_iff.mp hc
    have hcode := UInt32.le_iff_toNat_le.mp (of_decide_eq_true hle)
    have hnine : '9'.val.toNat = 57 := rfl
    have hval : c.toNat = c.val.toNat := rfl
    omega
  all_goals decide

/-- A character of a scheme, in lower case. -/
theorem lower_of_isSchemeChar {c : Char} (h : isSchemeChar c) :
    isSchemeChar c.toLower ∧ c.toLower.toLower = c.toLower ∧
      (c.isAlpha → c.toLower.isAlpha) := by
  have hall : ∀ n < 128, isSchemeChar (Char.ofNat n) →
      isSchemeChar (Char.ofNat n).toLower ∧
        (Char.ofNat n).toLower.toLower = (Char.ofNat n).toLower ∧
        ((Char.ofNat n).isAlpha → (Char.ofNat n).toLower.isAlpha) := by decide
  have hc := hall c.toNat (lt_of_isSchemeChar h)
  rw [Char.ofNat_toNat] at hc
  exact hc h

theorem readable_splitScheme (url : List Char) : Readable (splitScheme url).1 := by
  rw [splitScheme]
  split
  · next h =>
    simp only [Bool.and_eq_true] at h
    obtain ⟨⟨halpha, -⟩, hchars⟩ := h
    have hchar : ∀ c ∈ url.takeWhile (· != ':'), isSchemeChar c := List.all_eq_true.mp hchars
    refine .inr ⟨?_, ?_, ?_⟩
    · -- the first character of the URL is a letter, so it is in the scheme
      cases url with
      | nil => cases halpha
      | cons c url =>
        have hc : c.isAlpha := halpha
        have hne : (c != ':') = true := by
          rw [bne_iff_ne]
          rintro rfl
          exact absurd hc (by decide)
        have htake : (c :: url).takeWhile (· != ':') = c :: url.takeWhile (· != ':') :=
          List.takeWhile_cons_of_pos hne
        rw [htake] at hchar ⊢
        exact (lower_of_isSchemeChar (hchar c List.mem_cons_self)).2.2 hc
    · rw [List.all_map, List.all_eq_true]
      exact fun c hc => (lower_of_isSchemeChar (hchar c hc)).1
    · rw [List.map_map]
      exact List.map_congr_left fun c hc => (lower_of_isSchemeChar (hchar c hc)).2.1
  · exact .inl rfl

/-- A URI with nothing but a scheme. -/
theorem urlsplit_scheme {scheme : List Char} (h : Readable scheme) :
    ∃ uri, urlsplit checks uri = some ⟨scheme, [], [], [], []⟩ := by
  rcases h with rfl | ⟨halpha, hchars, hlower⟩
  · exact ⟨[], by simp [urlsplit, splitScheme, splitNetloc, acceptsNetloc, Urllib.splitAt]⟩
  · refine ⟨scheme ++ [':'], ?_⟩
    have hstrip : (scheme ++ [':']).dropWhile isControlOrSpace = scheme ++ [':'] := by
      cases scheme with
      | nil => cases halpha
      | cons c cs => exact List.dropWhile_cons_of_neg (not_isControlOrSpace_of_isAlpha halpha)
    have hkept : (scheme ++ [':']).filter (fun c => !isRemoved c) = scheme ++ [':'] := by
      refine List.filter_eq_self.mpr fun c hc => ?_
      have hcode : ∀ n < 128, isSchemeChar (Char.ofNat n) → (!isRemoved (Char.ofNat n)) = true := by
        decide
      rcases List.mem_append.mp hc with hc | hc
      · have hchar := List.all_eq_true.mp hchars c hc
        have hkept := hcode c.toNat (lt_of_isSchemeChar hchar)
        rw [Char.ofNat_toNat] at hkept
        exact hkept hchar
      · rw [List.eq_of_mem_singleton hc]
        rfl
    have hsplit := splitScheme_append halpha hchars []
    simp [urlsplit, hstrip, hkept, hsplit, hlower, splitNetloc, acceptsNetloc, Urllib.splitAt]

/-- **Which names can be read from a URI.** -/
theorem exists_scheme_iff (scheme : List Char) :
    (∃ uri parsed, urlsplit checks uri = some parsed ∧ parsed.scheme = scheme) ↔
      Readable scheme := by
  constructor
  · rintro ⟨uri, parsed, hsplit, rfl⟩
    rw [urlsplit] at hsplit
    dsimp only at hsplit
    split at hsplit
    · rw [← Option.some.inj hsplit]
      exact readable_splitScheme _
    · cases hsplit
  · intro h
    obtain ⟨uri, hsplit⟩ := urlsplit_scheme checks h
    exact ⟨uri, _, hsplit, rfl⟩

/-! ### Registrations -/

variable {schemes schemes' : Registry S E} {registrations : List (List Char × UriClass S E)}
  {scheme : List Char}

theorem get?_registerAll_congr (h : schemes.get? scheme = schemes'.get? scheme) :
    (registerAll schemes registrations).get? scheme =
      (registerAll schemes' registrations).get? scheme := by
  induction registrations generalizing schemes schemes' with
  | nil => exact h
  | cons r registrations ih =>
    refine ih ?_
    show (schemes.set r.1 r.2).get? scheme = (schemes'.set r.1 r.2).get? scheme
    rw [Dict.get?_set, Dict.get?_set, h]

theorem get?_registerAll_of_ne (h : ∀ r ∈ registrations, r.1 ≠ scheme) :
    (registerAll schemes registrations).get? scheme = schemes.get? scheme := by
  induction registrations generalizing schemes with
  | nil => rfl
  | cons r registrations ih =>
    rw [List.forall_mem_cons] at h
    refine (ih h.2).trans ?_
    show (schemes.set r.1 r.2).get? scheme = schemes.get? scheme
    rw [Dict.get?_set, if_neg (Ne.symm h.1)]

theorem registerAll_append (schemes : Registry S E)
    (before after : List (List Char × UriClass S E)) :
    registerAll schemes (before ++ after) = registerAll (registerAll schemes before) after :=
  List.foldl_append

/-- **What a registration changes**, when it is the last one of its name: the URIs whose scheme is
that name go to the class, and all others where they went without it. There are such URIs exactly
when the name is empty, or starts with a letter, has nothing but letters, digits, `+`, `-` and `.`
in it, and is in lower case; under any other name the registration changes nothing. -/
theorem registry_law (schemes : Registry S E) (before after : List (List Char × UriClass S E))
    (scheme : List Char) (storeCls : UriClass S E) (hlast : ∀ r ∈ after, r.1 ≠ scheme) :
    (∀ uri parsed readOnly, urlsplit checks uri = some parsed →
      storeFromUri checks (registerAll schemes (before ++ (scheme, storeCls) :: after)) uri
          readOnly =
        if parsed.scheme = scheme then
          (storeCls.fromUri uri readOnly >>= storeCls.open).mapError .store
        else storeFromUri checks (registerAll schemes (before ++ after)) uri readOnly) ∧
      ((∃ uri parsed, urlsplit checks uri = some parsed ∧ parsed.scheme = scheme) ↔
        Readable scheme) ∧
      (¬ Readable scheme → ∀ uri readOnly,
        storeFromUri checks (registerAll schemes (before ++ (scheme, storeCls) :: after)) uri
            readOnly =
          storeFromUri checks (registerAll schemes (before ++ after)) uri readOnly) := by
  have hsplit : registerAll schemes (before ++ (scheme, storeCls) :: after) =
      registerAll (registerScheme (registerAll schemes before) scheme storeCls) after := by
    rw [registerAll_append]
    rfl
  have hread : ∀ uri parsed readOnly, urlsplit checks uri = some parsed →
      storeFromUri checks (registerAll schemes (before ++ (scheme, storeCls) :: after)) uri
          readOnly =
        if parsed.scheme = scheme then
          (storeCls.fromUri uri readOnly >>= storeCls.open).mapError .store
        else storeFromUri checks (registerAll schemes (before ++ after)) uri readOnly := by
    intro uri parsed readOnly hparsed
    rw [hsplit, registerAll_append, storeFromUri, storeFromUri, hparsed]
    by_cases h : parsed.scheme = scheme
    · have hget : (registerAll (registerScheme (registerAll schemes before) scheme storeCls)
          after).get? scheme = some storeCls := by
        refine (get?_registerAll_of_ne hlast).trans ?_
        rw [registerScheme, Dict.get?_set, if_pos rfl]
      simp only [h, if_true, hget]
    · have hget : (registerAll (registerScheme (registerAll schemes before) scheme storeCls)
          after).get? parsed.scheme =
            (registerAll (registerAll schemes before) after).get? parsed.scheme := by
        refine get?_registerAll_congr ?_
        rw [registerScheme, Dict.get?_set, if_neg h]
      simp only [if_neg h, hget]
  refine ⟨hread, exists_scheme_iff checks scheme, fun hreadable uri readOnly => ?_⟩
  cases hparsed : urlsplit checks uri with
  | none => simp only [storeFromUri, hparsed]
  | some parsed =>
    rw [hread uri parsed readOnly hparsed, if_neg]
    rintro rfl
    exact hreadable ((exists_scheme_iff checks _).mp ⟨uri, parsed, hparsed, rfl⟩)

/-- A class whose stores are their URIs. -/
def named : UriClass (List Char) Unit := ⟨fun uri _ => .ok uri, .ok⟩

/-- A class that is registered as `S3` is not found. -/
theorem registry_law_upper_case :
    storeFromUri ⟨fun _ => true, fun _ => true⟩
        (registerAll (builtin fun _ => named) [("S3".toList, named)]) "S3://bucket".toList false =
      .error (.uri (.notRegistered "s3".toList "S3://bucket".toList)) :=
  ((registry_law ⟨fun _ => true, fun _ => true⟩ (builtin fun _ => named) [] [] "S3".toList named
    (fun _ h => absurd h List.not_mem_nil)).2.2 (by decide) _ false).trans rfl

end Registry

end Persista
