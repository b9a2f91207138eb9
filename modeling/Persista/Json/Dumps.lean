import Persista.Json.Value
import Persista.Lib.Delimited
import Mathlib.Tactic.IntervalCases

/-!
# `json.dumps`

The text of a reading, as `json.dumps` writes it with its default separators and `ensure_ascii`. The
text determines the reading (`render_injective`), so two values have the same text exactly when they
have the same reading: whatever is confused is confused by the reading, and nothing by the text.

## Main results

* `reads_render` — in front of a comma, a colon or a closing bracket, a text says what it is and
  where it ends
* `dumps_eq_iff` — two values have the same text if and only if they have the same reading
-/

namespace Persista

namespace Json

open Delimited

/-! ### Strings -/

/-- A digit of `\uXXXX`. -/
def hexDigit (n : ℕ) : Char :=
  if n < 10 then Char.ofNat (48 + n) else Char.ofNat (87 + n)

/-- `\uXXXX`. -/
def hexEscape (u : CodeUnit) : List Char :=
  ['\\', 'u', hexDigit (u.val / 4096), hexDigit (u.val / 256 % 16), hexDigit (u.val / 16 % 16),
    hexDigit (u.val % 16)]

/-- The escapes of one letter. -/
def shortEscape (u : CodeUnit) : Option Char :=
  match u.val with
  | 8 => some 'b'
  | 9 => some 't'
  | 10 => some 'n'
  | 12 => some 'f'
  | 13 => some 'r'
  | 34 => some '"'
  | 92 => some '\\'
  | _ => none

/-- A code unit between quotes: `py_encode_basestring_ascii`. -/
def escape (u : CodeUnit) : List Char :=
  match shortEscape u with
  | some c => ['\\', c]
  | none => if 32 ≤ u.val ∧ u.val ≤ 126 then [Char.ofNat u.val] else hexEscape u

/-- A string, after its opening quote. -/
def quoted : List CodeUnit → List Char := terminated escape '"'

/-! ### Values -/

/-- A string with its quotes. -/
def string (s : List CodeUnit) : List Char := '"' :: quoted s

/-- A member of an object. -/
def member (key : List CodeUnit) (value : List Char) : List Char :=
  string key ++ (": ".toList ++ value)

mutual

/-- The text of a reading. -/
def render : Reading → List Char
  | .atom a => a.text
  | .str s => string s
  | .arr [] => ['[', ']']
  | .arr (v :: vs) => '[' :: (render v ++ renderMore vs)
  | .obj [] => ['{', '}']
  | .obj ((k, v) :: ms) => '{' :: (member k (render v) ++ renderMoreMembers ms)

/-- The items of an array after the first. -/
def renderMore : List Reading → List Char
  | [] => [']']
  | v :: vs => ", ".toList ++ render v ++ renderMore vs

/-- The members of an object after the first. -/
def renderMoreMembers : List (List CodeUnit × Reading) → List Char
  | [] => ['}']
  | (k, v) :: ms => ", ".toList ++ member k (render v) ++ renderMoreMembers ms

end

/-- `json.dumps(value, sort_keys=sortKeys)`; `none` when it raises `TypeError`. -/
def dumps (sortKeys : Bool) (value : PyVal) : Option String :=
  (reading sortKeys value).map fun r => String.ofList (render r)

/-! ### Reading a string -/

/-- The value of a hexadecimal digit. -/
def hexVal (c : Char) : ℕ := if c.toNat < 58 then c.toNat - 48 else c.toNat - 87

theorem hexVal_hexDigit : ∀ n < 16, hexVal (hexDigit n) = n := by decide

/-- What a letter after a backslash stands for. -/
def unshort : Char → CodeUnit
  | 'b' => unit 8
  | 't' => unit 9
  | 'n' => unit 10
  | 'f' => unit 12
  | 'r' => unit 13
  | c => unit c.toNat

/-- Read one escaped code unit. -/
def unescape : List Char → Option (CodeUnit × List Char)
  | '\\' :: 'u' :: a :: b :: c :: d :: r =>
    some (unit (((hexVal a * 16 + hexVal b) * 16 + hexVal c) * 16 + hexVal d), r)
  | '\\' :: c :: r => some (unshort c, r)
  | c :: r => some (unit c.toNat, r)
  | [] => none

theorem shortEscape_eq_some {u : CodeUnit} {c : Char} (h : shortEscape u = some c) :
    unshort c = u ∧ c ≠ 'u' := by
  rw [shortEscape] at h
  split at h
  all_goals first
    | cases h; refine ⟨Fin.ext ?_, by decide⟩; simp only [*]; rfl
    | cases h

theorem unescape_hexEscape (u : CodeUnit) (r : List Char) :
    unescape (hexEscape u ++ r) = some (u, r) := by
  have hu := u.isLt
  simp only [hexEscape, List.cons_append, List.nil_append, unescape]
  rw [hexVal_hexDigit _ (by omega), hexVal_hexDigit _ (by omega), hexVal_hexDigit _ (by omega),
    hexVal_hexDigit _ (by omega)]
  congr 2
  refine Fin.ext ?_
  simp only [unit, Fin.val_ofNat]
  omega

theorem unescape_short {c : Char} (hc : c ≠ 'u') (r : List Char) :
    unescape ('\\' :: c :: r) = some (unshort c, r) := by
  rw [unescape.eq_def]
  split
  · next heq => exact absurd (List.cons.inj (List.cons.inj heq).2).1 hc
  · next heq =>
    obtain ⟨rfl, rfl⟩ := List.cons.inj (List.cons.inj heq).2
    rfl
  · next hne heq =>
    obtain ⟨rfl, rfl⟩ := List.cons.inj heq
    exact absurd rfl (hne c r rfl)
  · next heq => cases heq

theorem unescape_plain {c : Char} (hc : c ≠ '\\') (r : List Char) :
    unescape (c :: r) = some (unit c.toNat, r) := by
  rw [unescape.eq_def]
  split
  · next heq => exact absurd (List.cons.inj heq).1 hc
  · next heq => exact absurd (List.cons.inj heq).1 hc
  · next heq =>
    obtain ⟨rfl, rfl⟩ := List.cons.inj heq
    rfl
  · next heq => cases heq

theorem toNat_ofNat_ascii : ∀ n < 127, (Char.ofNat n).toNat = n := by decide

/-- A printable character other than the quote and the backslash. -/
theorem plain_of_shortEscape_eq_none {u : CodeUnit} (h : shortEscape u = none)
    (hu : 32 ≤ u.val ∧ u.val ≤ 126) :
    Char.ofNat u.val ≠ '"' ∧ Char.ofNat u.val ≠ '\\' ∧ (Char.ofNat u.val).toNat = u.val := by
  have hval := toNat_ofNat_ascii u.val (by omega)
  have hne : u.val ≠ 34 ∧ u.val ≠ 92 := by
    rw [shortEscape] at h
    split at h <;> first | exact ⟨by assumption, by assumption⟩ | cases h
  refine ⟨fun hc => hne.1 ?_, fun hc => hne.2 ?_, hval⟩
  · rw [← hval, hc]
    rfl
  · rw [← hval, hc]
    rfl

theorem unescape_escape (u : CodeUnit) (r : List Char) :
    unescape (escape u ++ r) = some (u, r) := by
  rw [escape]
  cases h : shortEscape u with
  | some c =>
    obtain ⟨hval, hc⟩ := shortEscape_eq_some h
    rw [← hval]
    exact unescape_short hc r
  | none =>
    dsimp only
    split
    · next hu =>
      obtain ⟨-, hc, hval⟩ := plain_of_shortEscape_eq_none h hu
      refine (unescape_plain hc r).trans ?_
      rw [hval, unit, Fin.ofNat_val_eq_self]
    · exact unescape_hexEscape u r

theorem neverStarts_escape : NeverStarts escape '"' := by
  intro u
  rw [escape]
  cases h : shortEscape u with
  | some c => exact ⟨_, _, rfl, by decide⟩
  | none =>
    dsimp only
    split
    · next hu => exact ⟨_, _, rfl, (plain_of_shortEscape_eq_none h hu).1⟩
    · exact ⟨_, _, rfl, by decide⟩

/-- **Strings.** A string ends at its closing quote. -/
theorem reads_string (s : List CodeUnit) : Reads string (fun _ => True) s :=
  (Reads.terminated (of_decode unescape unescape_escape) neverStarts_escape s).opened '"'

/-! ### Reading an atom -/

/-- The characters of an atom. -/
def isAtomChar (c : Char) : Bool := c.isDigit || c ∈ "+-.eNaInfityrusl".toList

theorem mem_intText {n : ℤ} {c : Char} (h : c ∈ intText n) : c.isDigit ∨ c = '-' := by
  rw [intText] at h
  split at h
  · rcases List.mem_cons.mp h with rfl | h
    · exact .inr rfl
    · exact .inl (Nat.isDigit_of_mem_toDigits (by decide) (by decide) h)
  · exact .inl (Nat.isDigit_of_mem_toDigits (by decide) (by decide) h)

theorem isAtomChar_intText {n : ℤ} : (intText n).all isAtomChar := by
  refine List.all_eq_true.mpr fun c hc => ?_
  rcases mem_intText hc with h | rfl
  · simp [isAtomChar, h]
  · decide

theorem isAtomChar_floatText {x : PyFloat} : x.text.all isAtomChar := by
  have hspecial : ["NaN".toList, "Infinity".toList, "-Infinity".toList].all
      fun text => text.all isAtomChar := by decide
  have hchars : "0123456789+-.e".toList.all isAtomChar := by decide
  rcases x.isFloat with h | ⟨h, -⟩
  · exact List.all_eq_true.mp hspecial _ h
  · refine List.all_eq_true.mpr fun c hc => List.all_eq_true.mp hchars c ?_
    exact List.contains_iff_mem.mp (List.all_eq_true.mp h c hc)

theorem isAtomChar_text (a : Atom) : ∀ c ∈ a.text, isAtomChar c := by
  refine List.all_eq_true.mp ?_
  cases a with
  | null => decide
  | bool b => cases b <;> decide
  | int n => exact isAtomChar_intText
  | float x => exact isAtomChar_floatText

theorem toDigits_injective {m n : ℕ} (h : Nat.toDigits 10 m = Nat.toDigits 10 n) : m = n := by
  rw [← Nat.ofDigitChars_ten_toDigits (n := m), h, Nat.ofDigitChars_ten_toDigits]

theorem minus_not_mem_toDigits (n : ℕ) : '-' ∉ Nat.toDigits 10 n := fun h => by
  have hd := Nat.isDigit_of_mem_toDigits (by decide) (by decide) h
  exact absurd hd (by decide)

theorem intText_injective : Function.Injective intText := by
  intro m n h
  rw [intText, intText] at h
  split at h <;> split at h
  · have := toDigits_injective (List.cons.inj h).2
    omega
  · exact absurd (h ▸ List.mem_cons_self : '-' ∈ Nat.toDigits 10 n.natAbs)
      (minus_not_mem_toDigits _)
  · exact absurd (h ▸ List.mem_cons_self : '-' ∈ Nat.toDigits 10 m.natAbs)
      (minus_not_mem_toDigits _)
  · have := toDigits_injective h
    omega

/-- The character occurs in no integer. -/
def notInInt (c : Char) : Bool := !c.isDigit && c != '-'

/-- A text with such a character is not an integer. -/
theorem intText_ne {n : ℤ} {text : List Char} (h : text.any notInInt) : intText n ≠ text := by
  rintro rfl
  obtain ⟨c, hc, hne⟩ := List.any_eq_true.mp h
  rcases mem_intText hc with hd | rfl
  · simp [notInInt, hd] at hne
  · simp [notInInt] at hne

/-- A float is not an integer: it has a point, an exponent or letters. -/
theorem intText_ne_float {n : ℤ} (x : PyFloat) : intText n ≠ x.text := by
  have hspecial : ["NaN".toList, "Infinity".toList, "-Infinity".toList].all
      fun text => text.any notInInt := by decide
  refine intText_ne ?_
  rcases x.isFloat with h | ⟨-, h | h⟩
  · exact List.all_eq_true.mp hspecial _ h
  · exact List.any_eq_true.mpr ⟨'.', h, by decide⟩
  · exact List.any_eq_true.mpr ⟨'e', h, by decide⟩

theorem ne_float {text : List Char} (h : ¬ IsFloatText text) (x : PyFloat) : text ≠ x.text :=
  fun heq => h (heq ▸ x.isFloat)

theorem text_injective : Function.Injective Atom.text := by
  have hnull : ∀ n, intText n ≠ Atom.null.text := fun n => intText_ne (by decide)
  have hbool : ∀ b n, intText n ≠ (Atom.bool b).text := fun b n =>
    intText_ne (by cases b <;> decide)
  have hnullFloat : ∀ x : PyFloat, Atom.null.text ≠ x.text := ne_float (by decide)
  have hboolFloat : ∀ b (x : PyFloat), (Atom.bool b).text ≠ x.text := fun b =>
    ne_float (by cases b <;> decide)
  intro a b h
  cases a with
  | null =>
    cases b with
    | null => rfl
    | bool b => cases b <;> cases h
    | int n => exact absurd h.symm (hnull n)
    | float x => exact absurd h (hnullFloat x)
  | bool a =>
    cases b with
    | null => cases a <;> cases h
    | bool b => cases a <;> cases b <;> first | rfl | cases h
    | int n => exact absurd h.symm (hbool a n)
    | float x => exact absurd h (hboolFloat a x)
  | int m =>
    cases b with
    | null => exact absurd h (hnull m)
    | bool b => exact absurd h (hbool b m)
    | int n => exact congrArg Atom.int (intText_injective h)
    | float x => exact absurd h (intText_ne_float x)
  | float x =>
    cases b with
    | null => exact absurd h.symm (hnullFloat x)
    | bool b => exact absurd h.symm (hboolFloat b x)
    | int n => exact absurd h.symm (intText_ne_float x)
    | float y => exact congrArg Atom.float (PyFloat.ext h)

theorem text_ne_nil (a : Atom) : a.text ≠ [] := by
  have hint : ∀ n, intText n ≠ [] := fun n => by
    rw [intText]
    split
    · exact List.cons_ne_nil _ _
    · exact Nat.toDigits_ne_nil
  cases a with
  | null => decide
  | bool b => cases b <;> decide
  | int n => exact hint n
  | float x =>
    intro h
    have := x.isFloat
    rw [show x.text = [] from h] at this
    exact absurd this (by decide)

/-! ### Reading a value -/

/-- What a text that starts with the character is: an atom, a string, an array, an object. -/
def kindOf (c : Char) : Option ℕ :=
  if c = '"' then some 1 else if c = '[' then some 2 else if c = '{' then some 3
  else if isAtomChar c then some 0 else none

/-- What a reading is. -/
def kind : Reading → ℕ
  | .atom _ => 0
  | .str _ => 1
  | .arr _ => 2
  | .obj _ => 3

/-- The first character says what a text is. -/
theorem render_start (v : Reading) : ∃ c l, render v = c :: l ∧ kindOf c = some (kind v) := by
  cases v with
  | atom a =>
    obtain ⟨c, l, hc⟩ := List.exists_cons_of_ne_nil (text_ne_nil a)
    have hatom : isAtomChar c := isAtomChar_text a c (by simp [hc])
    refine ⟨c, l, by rw [render, hc], ?_⟩
    have hne : ∀ d, isAtomChar d = false → c ≠ d := fun d hd heq => by simp [heq, hd] at hatom
    simp [kindOf, hatom, hne '"' (by decide), hne '[' (by decide), hne '{' (by decide), kind]
  | str s => exact ⟨'"', quoted s, by rw [render, string], (by decide : kindOf '"' = some 1)⟩
  | arr items =>
    have hopen : kindOf '[' = some 2 := by decide
    cases items with
    | nil => exact ⟨'[', [']'], by rw [render], hopen⟩
    | cons v vs => exact ⟨'[', _, by rw [render], hopen⟩
  | obj members =>
    have hopen : kindOf '{' = some 3 := by decide
    cases members with
    | nil => exact ⟨'{', ['}'], by rw [render], hopen⟩
    | cons m ms => exact ⟨'{', _, by rw [render], hopen⟩

theorem kind_eq_of_append {v v' : Reading} {r r' : List Char}
    (h : render v ++ r = render v' ++ r') : kind v = kind v' := by
  obtain ⟨c, l, hc, hk⟩ := render_start v
  obtain ⟨c', l', hc', hk'⟩ := render_start v'
  rw [hc, hc'] at h
  rw [(List.cons.inj h).1, hk'] at hk
  exact (Option.some.inj hk).symm

theorem renderMore_eq (vs : List Reading) :
    renderMore vs = moreItems render ", ".toList ']' vs := by
  induction vs with
  | nil => rw [renderMore, moreItems]
  | cons v vs ih => rw [renderMore, moreItems, ih]

theorem render_arr (vs : List Reading) :
    render (.arr vs) = '[' :: items render ", ".toList ']' vs := by
  cases vs with
  | nil => rw [render]; rfl
  | cons v vs => rw [render, items, renderMore_eq]

theorem renderMoreMembers_eq (ms : List (List CodeUnit × Reading)) :
    renderMoreMembers ms = moreItems (pair string ": ".toList render) ", ".toList '}' ms := by
  induction ms with
  | nil => rw [renderMoreMembers, moreItems]
  | cons m ms ih => rw [renderMoreMembers, moreItems, ih]; rfl

theorem render_obj (ms : List (List CodeUnit × Reading)) :
    render (.obj ms) = '{' :: items (pair string ": ".toList render) ", ".toList '}' ms := by
  cases ms with
  | nil => rw [render]; rfl
  | cons m ms => rw [render, items, renderMoreMembers_eq]; rfl

/-- What may follow a value. -/
abbrev Follows : List Char → Prop := Breaks fun c => isAtomChar c

theorem follows_cons {c : Char} (h : isAtomChar c = false) (r : List Char) : Follows (c :: r) := by
  intro d hd
  obtain rfl := Option.some.inj hd
  simp [h]

/-- No value starts with a character that starts no kind of value. -/
theorem neverStarts_render {c : Char} (hc : kindOf c = none) : NeverStarts render c := fun v => by
  obtain ⟨d, l, hd, hk⟩ := render_start v
  refine ⟨d, l, hd, fun heq => ?_⟩
  rw [heq, hc] at hk
  cases hk

theorem neverStarts_member : NeverStarts (pair string ": ".toList render) '}' := fun m =>
  ⟨'"', _, rfl, by decide⟩

theorem separates_comma {c : Char} (hc : ',' ≠ c) : Separates ", ".toList c :=
  ⟨',', [' '], by decide, hc⟩

mutual

/-- **Values.** A text says what it is and where it ends. -/
theorem reads_render : ∀ v : Reading, Reads render Follows v
  | .atom a => by
    intro v' r r' hr hr' heq
    have hk := kind_eq_of_append heq
    cases v' with
    | atom b =>
      rw [render, render] at heq
      obtain ⟨rfl, hrest⟩ := of_chars isAtomChar_text text_injective a b r r' hr hr' heq
      exact ⟨rfl, hrest⟩
    | _ => cases hk
  | .str s => by
    intro v' r r' hr hr' heq
    have hk := kind_eq_of_append heq
    cases v' with
    | str s' =>
      rw [render, render] at heq
      obtain ⟨rfl, hrest⟩ := reads_string s s' r r' trivial trivial heq
      exact ⟨rfl, hrest⟩
    | _ => cases hk
  | .arr vs => by
    intro v' r r' hr hr' heq
    have hk := kind_eq_of_append heq
    cases v' with
    | arr vs' =>
      rw [render_arr, render_arr] at heq
      have hitems : Reads (items render ", ".toList ']') (fun _ => True) vs :=
        Reads.items (reads_items vs) (fun r => follows_cons (by decide) _)
          (follows_cons (by decide)) (separates_comma (by decide)) (neverStarts_render (by decide))
      obtain ⟨rfl, hrest⟩ := (hitems.opened '[') vs' r r' trivial trivial heq
      exact ⟨rfl, hrest⟩
    | _ => cases hk
  | .obj ms => by
    intro v' r r' hr hr' heq
    have hk := kind_eq_of_append heq
    cases v' with
    | obj ms' =>
      rw [render_obj, render_obj] at heq
      have hmembers : Reads (items (pair string ": ".toList render) ", ".toList '}')
          (fun _ => True) ms :=
        Reads.items (fun m hm => Reads.pair reads_string (reads_members ms m hm))
          (fun r => follows_cons (by decide) _) (follows_cons (by decide))
          (separates_comma (by decide)) neverStarts_member
      obtain ⟨rfl, hrest⟩ := (hmembers.opened '{') ms' r r' trivial trivial heq
      exact ⟨rfl, hrest⟩
    | _ => cases hk

theorem reads_items : ∀ vs : List Reading, ∀ v ∈ vs, Reads render Follows v
  | [], _, h => by cases h
  | w :: ws, v, h => by
    rcases List.mem_cons.mp h with heq | h
    · rw [heq]
      exact reads_render w
    · exact reads_items ws v h

theorem reads_members :
    ∀ ms : List (List CodeUnit × Reading), ∀ m ∈ ms, Reads render Follows m.2
  | [], _, h => by cases h
  | (k, w) :: ms, m, h => by
    rcases List.mem_cons.mp h with heq | h
    · rw [heq]
      exact reads_render w
    · exact reads_members ms m h

end

/-- **A text has one reading.** -/
theorem render_injective : Function.Injective render :=
  injective reads_render fun c hc => by cases hc

/-- Two values have the same text if and only if they have the same reading. -/
theorem dumps_eq_iff {sortKeys : Bool} {v w : PyVal} :
    dumps sortKeys v = dumps sortKeys w ↔ reading sortKeys v = reading sortKeys w := by
  refine ⟨fun h => ?_, fun h => by rw [dumps, h, dumps]⟩
  exact Option.map_injective (fun _ _ heq => render_injective (String.ofList_injective heq)) h

end Json

end Persista
