import Mathlib.Data.List.Basic
import Mathlib.Tactic.Common

/-!
# Encodings that say where they end

`enc a` is a text over some alphabet. It `Reads` when, in front of any continuation that satisfies
`F`, both the value and the place where it ends are determined by the text. A fixed-width or a
self-delimiting code reads in front of anything; a number does in front of anything that is not a
digit.

The condition on the continuation is what makes the rules below compose: a list of items needs its
items to read in front of its separator and of its closing character only.

## Main results

* `Delimited.injective` — different values have different texts
* `Delimited.of_chars` — tokens, cut where their characters end
* `Reads.terminated` — a string of self-delimiting characters and its closing quote
* `Reads.items` — items between separators, and a closing character
-/

namespace Delimited

variable {α β χ : Type*}

/-- In front of continuations that satisfy `F`, a text that starts with `enc a` starts with the text
of no other value, and `enc a` ends at one place only. -/
def Reads (enc : α → List χ) (F : List χ → Prop) (a : α) : Prop :=
  ∀ a' r r', F r → F r' → enc a ++ r = enc a' ++ r' → a = a' ∧ r = r'

variable {enc : α → List χ} {F : List χ → Prop} {stop : χ} {sep : List χ}

theorem Reads.mono {F' : List χ → Prop} {a : α} (h : Reads enc F a) (hF : ∀ r, F' r → F r) :
    Reads enc F' a :=
  fun a' r r' hr hr' heq => h a' r r' (hF r hr) (hF r' hr') heq

/-- Values whose texts read are told apart by them. -/
theorem injective (h : ∀ a, Reads enc F a) (hnil : F []) : Function.Injective enc :=
  fun a a' heq => (h a a' [] [] hnil hnil (by rw [heq])).1

/-- A code that can be decoded step by step reads in front of anything. -/
theorem of_decode (dec : List χ → Option (α × List χ))
    (h : ∀ a r, dec (enc a ++ r) = some (a, r)) (a : α) : Reads enc (fun _ => True) a := by
  intro a' r r' _ _ heq
  have hdec := h a r
  rw [heq, h a' r'] at hdec
  obtain ⟨rfl, rfl⟩ := Prod.mk.inj (Option.some.inj hdec)
  exact ⟨rfl, rfl⟩

/-- An opening character changes nothing. -/
theorem Reads.opened {a : α} (h : Reads enc F a) (c : χ) : Reads (fun a => c :: enc a) F a :=
  fun a' r r' hr hr' heq => h a' r r' hr hr' (List.cons.inj heq).2

/-! ### Tokens -/

/-- The continuation does not go on with a character that satisfies `p`. -/
def Breaks (p : χ → Prop) (r : List χ) : Prop := ∀ c ∈ r.head?, ¬ p c

/-- A text of characters that satisfy `p` ends where they end. -/
theorem append_inj_of_breaks {p : χ → Prop} {l l' r r' : List χ} (hl : ∀ c ∈ l, p c)
    (hl' : ∀ c ∈ l', p c) (hr : Breaks p r) (hr' : Breaks p r') (heq : l ++ r = l' ++ r') :
    l = l' ∧ r = r' := by
  induction l generalizing l' with
  | nil =>
    cases l' with
    | nil => exact ⟨rfl, heq⟩
    | cons c l' =>
      rw [List.nil_append, List.cons_append] at heq
      exact absurd (hl' c (by simp)) (hr c (by simp [heq]))
  | cons c l ih =>
    cases l' with
    | nil =>
      rw [List.nil_append, List.cons_append] at heq
      exact absurd (hl c (by simp)) (hr' c (by simp [← heq]))
    | cons c' l' =>
      obtain ⟨rfl, htail⟩ := List.cons.inj heq
      obtain ⟨rfl, hrest⟩ := ih (fun c hc => hl c (by simp [hc])) (fun c hc => hl' c (by simp [hc]))
        htail
      exact ⟨rfl, hrest⟩

/-- **Tokens.** -/
theorem of_chars {p : χ → Prop} (hp : ∀ a, ∀ c ∈ enc a, p c) (hinj : Function.Injective enc)
    (a : α) :
    Reads enc (Breaks p) a := by
  intro a' r r' hr hr' heq
  obtain ⟨hl, hrest⟩ := append_inj_of_breaks (hp a) (hp a') hr hr' heq
  exact ⟨hinj hl, hrest⟩

/-! ### Strings -/

/-- The texts of the characters one after the other, and the closing one. -/
def terminated (enc : α → List χ) (stop : χ) (l : List α) : List χ := l.flatMap enc ++ [stop]

theorem terminated_cons (a : α) (l : List α) :
    terminated enc stop (a :: l) = enc a ++ terminated enc stop l := by
  simp [terminated]

/-- No value starts with the closing character. -/
def NeverStarts (enc : α → List χ) (stop : χ) : Prop := ∀ a, ∃ c l, enc a = c :: l ∧ c ≠ stop

theorem NeverStarts.ne (h : NeverStarts enc stop) {a : α} {r l : List χ} :
    stop :: r ≠ enc a ++ l := by
  obtain ⟨c, l', hc, hne⟩ := h a
  rw [hc]
  exact fun heq => hne (List.cons.inj heq).1.symm

/-- **Strings.** -/
theorem Reads.terminated (h : ∀ a, Reads enc (fun _ => True) a) (hstop : NeverStarts enc stop)
    (l : List α) : Reads (terminated enc stop) (fun _ => True) l := by
  intro l' r r' _ _ heq
  induction l generalizing l' with
  | nil =>
    cases l' with
    | nil => exact ⟨rfl, List.tail_eq_of_cons_eq heq⟩
    | cons a' l' =>
      rw [terminated_cons, List.append_assoc] at heq
      exact absurd heq hstop.ne
  | cons a l ih =>
    cases l' with
    | nil =>
      rw [terminated_cons, List.append_assoc] at heq
      exact absurd heq.symm hstop.ne
    | cons a' l' =>
      rw [terminated_cons, terminated_cons, List.append_assoc, List.append_assoc] at heq
      obtain ⟨rfl, hrest⟩ := h a a' _ _ trivial trivial heq
      obtain ⟨rfl, hr⟩ := ih l' hrest
      exact ⟨rfl, hr⟩

/-! ### Items -/

/-- The items after the first: a separator in front of each, and the closing character. -/
def moreItems (enc : α → List χ) (sep : List χ) (stop : χ) : List α → List χ
  | [] => [stop]
  | a :: l => sep ++ enc a ++ moreItems enc sep stop l

/-- The items with separators between them, and the closing character. -/
def items (enc : α → List χ) (sep : List χ) (stop : χ) : List α → List χ
  | [] => [stop]
  | a :: l => enc a ++ moreItems enc sep stop l

/-- The separator starts with another character than the closing one. -/
def Separates (sep : List χ) (stop : χ) : Prop := ∃ c l, sep = c :: l ∧ c ≠ stop

theorem Separates.ne (h : Separates sep stop) {r l : List χ} : stop :: r ≠ sep ++ l := by
  obtain ⟨c, l', rfl, hne⟩ := h
  exact fun heq => hne (List.cons.inj heq).1.symm

/-- What follows an item is a separator or the closing character. -/
theorem follows_moreItems (hsep : ∀ r, F (sep ++ r)) (hF : ∀ r, F (stop :: r)) (l : List α)
    (r : List χ) : F (moreItems enc sep stop l ++ r) := by
  cases l with
  | nil => exact hF r
  | cons a l =>
    rw [moreItems, List.append_assoc, List.append_assoc]
    exact hsep _

theorem Reads.moreItems {l : List α} (h : ∀ a ∈ l, Reads enc F a) (hsep : ∀ r, F (sep ++ r))
    (hF : ∀ r, F (stop :: r)) (hs : Separates sep stop) :
    Reads (moreItems enc sep stop) (fun _ => True) l := by
  intro l' r r' _ _ heq
  induction l generalizing l' with
  | nil =>
    cases l' with
    | nil => exact ⟨rfl, List.tail_eq_of_cons_eq heq⟩
    | cons a' l' =>
      rw [Delimited.moreItems, Delimited.moreItems, List.append_assoc, List.append_assoc] at heq
      exact absurd heq hs.ne
  | cons a l ih =>
    cases l' with
    | nil =>
      rw [Delimited.moreItems, Delimited.moreItems, List.append_assoc, List.append_assoc] at heq
      exact absurd heq.symm hs.ne
    | cons a' l' =>
      simp only [Delimited.moreItems, List.append_assoc, List.append_cancel_left_eq] at heq
      obtain ⟨rfl, hrest⟩ := h a (by simp) a' _ _ (follows_moreItems hsep hF l r)
        (follows_moreItems hsep hF l' r') heq
      obtain ⟨rfl, hr⟩ := ih (fun b hb => h b (by simp [hb])) l' hrest
      exact ⟨rfl, hr⟩

/-- **Items.** -/
theorem Reads.items {l : List α} (h : ∀ a ∈ l, Reads enc F a) (hsep : ∀ r, F (sep ++ r))
    (hF : ∀ r, F (stop :: r)) (hs : Separates sep stop) (hstop : NeverStarts enc stop) :
    Reads (items enc sep stop) (fun _ => True) l := by
  intro l' r r' _ _ heq
  cases l with
  | nil =>
    cases l' with
    | nil => exact ⟨rfl, List.tail_eq_of_cons_eq heq⟩
    | cons a' l' =>
      rw [Delimited.items, Delimited.items, List.append_assoc] at heq
      exact absurd heq hstop.ne
  | cons a l =>
    cases l' with
    | nil =>
      rw [Delimited.items, Delimited.items, List.append_assoc] at heq
      exact absurd heq.symm hstop.ne
    | cons a' l' =>
      simp only [Delimited.items, List.append_assoc] at heq
      obtain ⟨rfl, hrest⟩ := h a (by simp) a' _ _ (follows_moreItems hsep hF l r)
        (follows_moreItems hsep hF l' r') heq
      have hmore : Reads (Delimited.moreItems enc sep stop) (fun _ => True) l :=
        Reads.moreItems (fun b hb => h b (by simp [hb])) hsep hF hs
      obtain ⟨rfl, hr⟩ := hmore l' r r' trivial trivial hrest
      exact ⟨rfl, hr⟩

/-! ### Pairs -/

/-- A first component, a separator and a second component. -/
def pair (enc : α → List χ) (sep : List χ) (enc' : β → List χ) (p : α × β) : List χ :=
  enc p.1 ++ (sep ++ enc' p.2)

/-- **Pairs**, when the first component reads in front of anything. -/
theorem Reads.pair {enc' : β → List χ} {p : α × β} (h : ∀ a, Reads enc (fun _ => True) a)
    (h' : Reads enc' F p.2) : Reads (pair enc sep enc') F p := by
  intro p' r r' hr hr' heq
  obtain ⟨a, b⟩ := p
  obtain ⟨a', b'⟩ := p'
  simp only [Delimited.pair, List.append_assoc] at heq
  obtain ⟨rfl, hrest⟩ := h a a' _ _ trivial trivial heq
  obtain ⟨rfl, hr⟩ := h' b' r r' hr hr' (List.append_cancel_left hrest)
  exact ⟨rfl, hr⟩

end Delimited
