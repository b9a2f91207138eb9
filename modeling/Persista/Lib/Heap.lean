import Persista.Lib.Dict

/-!
# A heap of mutable objects

Objects live at addresses, hold their fields in a dictionary, and refer to each other by address.
A value is an atom or a reference. Two references to one object see each other's writes, and an
object may refer back to one that refers to it.

What a value reads like is its `tree`: what stands at the end of each path of fields. A tree
mentions no address, so it is what a client can tell about a value without writing to it.

## The frame

`h.Agree h' v` says that the two heaps hold the same objects wherever `v` reaches. Then `v` reads
the same in both (`Agree.tree`) and reaches the same (`Agree.reach_iff`). A heap agrees with its
extensions (`Extends.agree`) and with the result of a write to an object that `v` does not reach
(`agree_setFields`).

## Ownership

`h.Separated C held handed` separates two parties. One owns the addresses `C`, which is closed under
following references; the other holds the values `held` and has let go of references to those in
`handed`. A held value that was not handed out reaches nothing the owner of `C` can reach, and two
different held values reach nothing in common, so that handing out one of them does not expose
another. Each way of changing the heap has its rule: `Separated.alloc`, `Separated.copyOut`,
`Separated.copyIn`, `Separated.handOut`, `Separated.setFields`.

## Main results

* `tree_deepcopy`, `le_of_reach_deepcopy` — a deep copy reads like the original and reaches new
  objects only
* `Separated.setFields` — a write by the owner is not seen through any held value, unless it goes
  into one that was handed out
-/

namespace Heap

/-- A value: an atom, or a reference to the object at an address. -/
inductive Val (A : Type*)
  | atom (a : A)
  | ref (r : ℕ)
  deriving DecidableEq

/-- A mutable object: its class and its fields. -/
structure Obj (C F A : Type*) where
  cls : C
  fields : Dict F (Val A)

end Heap

/-- The objects, by address. -/
structure Heap (C F A : Type*) where
  objs : List (Heap.Obj C F A)

namespace Heap

/-- What stands at the end of a path: an atom, or an object of some class with some fields. -/
inductive Node (C F A : Type*)
  | atom (a : A)
  | obj (cls : C) (fields : List F)
  deriving DecidableEq

/-- What stands at the end of each path of fields, where the path leads anywhere. -/
abbrev Tree (C F A : Type*) := List F → Option (Node C F A)

variable {C F A : Type*}

/-- The number of objects: the next address. -/
def size (h : Heap C F A) : ℕ := h.objs.length

/-- The object at a value. -/
def obj? (h : Heap C F A) : Val A → Option (Obj C F A)
  | .atom _ => none
  | .ref r => h.objs[r]?

/-- The fields of a value; an atom has none. -/
def fields (h : Heap C F A) (v : Val A) : Dict F (Val A) := (h.obj? v).elim ∅ Obj.fields

/-- The object at `a` refers to the object at `b`. -/
def Edge (h : Heap C F A) (a b : ℕ) : Prop := .ref b ∈ (h.fields (.ref a)).values

/-- The addresses a value leads to. -/
inductive Reach (h : Heap C F A) (v : Val A) : ℕ → Prop
  | here {r : ℕ} (hv : v = .ref r) : Reach h v r
  | step {a b : ℕ} (ha : Reach h v a) (hab : h.Edge a b) : Reach h v b

/-- A value that refers to an object, if it refers to anything. -/
def Valid (h : Heap C F A) (v : Val A) : Prop := ∀ r, v = .ref r → r < h.size

/-- No object refers to an address without one. -/
def WellFormed (h : Heap C F A) : Prop := ∀ a b, h.Edge a b → b < h.size

/-! ### Reading -/

section Reading

variable [DecidableEq F]

/-- What a value reads like at a path. -/
def look (h : Heap C F A) : List F → Val A → Option (Node C F A)
  | [], .atom a => some (.atom a)
  | [], .ref r => (h.obj? (.ref r)).map fun o => .obj o.cls o.fields.keys
  | f :: path, v => ((h.fields v).get? f).bind (h.look path)

/-- What a value reads like. -/
def tree (h : Heap C F A) (v : Val A) : Tree C F A := fun path => h.look path v

/-- The value at the end of a path. -/
def follow (h : Heap C F A) : List F → Val A → Option (Val A)
  | [], v => some v
  | f :: path, v => ((h.fields v).get? f).bind (h.follow path)

end Reading

/-- What a field leads to, its object leads to. -/
theorem Reach.of_field {h : Heap C F A} {v w : Val A} {a : ℕ} (hw : w ∈ (h.fields v).values)
    (ha : h.Reach w a) : h.Reach v a := by
  induction ha with
  | here hv =>
    subst hv
    cases v with
    | atom x => cases hw
    | ref r => exact (Reach.here rfl).step hw
  | step _ hab ih => exact ih.step hab

theorem Reach.lt {h : Heap C F A} (hwf : h.WellFormed) {v : Val A} (hv : h.Valid v) {a : ℕ}
    (ha : h.Reach v a) : a < h.size := by
  cases ha with
  | here hr => exact hv a hr
  | step _ hab => exact hwf _ a hab

theorem WellFormed.valid_field {h : Heap C F A} (hwf : h.WellFormed) {v w : Val A}
    (hw : w ∈ (h.fields v).values) : h.Valid w := by
  intro r hr
  subst hr
  cases v with
  | atom x => cases hw
  | ref s => exact hwf s r hw

/-! ### Heaps that agree -/

/-- The two heaps hold the same objects wherever the value leads. -/
def Agree (h h' : Heap C F A) (v : Val A) : Prop := ∀ a, h.Reach v a → h'.objs[a]? = h.objs[a]?

/-- `h'` is `h` with more objects. -/
def Extends (h h' : Heap C F A) : Prop := ∃ new, h'.objs = h.objs ++ new

variable {h h' : Heap C F A} {v : Val A}

theorem Agree.fields (hv : h.Agree h' v) : h'.fields v = h.fields v := by
  cases v with
  | atom x => rfl
  | ref r => exact congrArg (Option.elim · ∅ Obj.fields) (hv r (.here rfl))

theorem Agree.field (hv : h.Agree h' v) {w : Val A} (hw : w ∈ (h.fields v).values) :
    h.Agree h' w := fun a ha => hv a (ha.of_field hw)

theorem Agree.edge_iff (hv : h.Agree h' v) {a b : ℕ} (ha : h.Reach v a) :
    h'.Edge a b ↔ h.Edge a b := by
  have hobj : h'.obj? (.ref a) = h.obj? (.ref a) := hv a ha
  rw [Edge, Edge, Heap.fields, Heap.fields, hobj]

/-- The value leads to the same objects. -/
theorem Agree.reach_iff (hv : h.Agree h' v) {a : ℕ} : h'.Reach v a ↔ h.Reach v a := by
  constructor
  · intro ha
    induction ha with
    | here hr => exact .here hr
    | step _ hab ih => exact ih.step ((hv.edge_iff ih).mp hab)
  · intro ha
    induction ha with
    | here hr => exact .here hr
    | step ha hab ih => exact ih.step ((hv.edge_iff ha).mpr hab)

/-- **The value reads the same.** -/
theorem Agree.tree [DecidableEq F] (hv : h.Agree h' v) : h'.tree v = h.tree v := by
  funext path
  induction path generalizing v with
  | nil =>
    cases v with
    | atom x => rfl
    | ref r => exact congrArg (Option.map _) (hv r (.here rfl))
  | cons f path ih =>
    change ((h'.fields v).get? f).bind (h'.look path) = ((h.fields v).get? f).bind (h.look path)
    rw [hv.fields]
    cases hf : (h.fields v).get? f with
    | none => rfl
    | some w => exact ih (hv.field (Dict.mem_values_of_get? hf))

theorem Extends.refl (h : Heap C F A) : h.Extends h := ⟨[], (List.append_nil _).symm⟩

theorem Extends.trans {h'' : Heap C F A} (h₁ : h.Extends h') (h₂ : h'.Extends h'') :
    h.Extends h'' := by
  obtain ⟨l₁, hl₁⟩ := h₁
  obtain ⟨l₂, hl₂⟩ := h₂
  exact ⟨l₁ ++ l₂, by rw [hl₂, hl₁, List.append_assoc]⟩

theorem Extends.size_le (hx : h.Extends h') : h.size ≤ h'.size := by
  obtain ⟨l, hl⟩ := hx
  rw [size, size, hl, List.length_append]
  omega

theorem Extends.valid (hx : h.Extends h') (hv : h.Valid v) : h'.Valid v := by
  intro r hr
  have hlt := hv r hr
  have hle := hx.size_le
  omega

theorem Extends.getElem? (hx : h.Extends h') {a : ℕ} (ha : a < h.size) :
    h'.objs[a]? = h.objs[a]? := by
  obtain ⟨l, hl⟩ := hx
  rw [hl]
  exact List.getElem?_append_left ha

theorem Extends.edge_iff (hx : h.Extends h') {a b : ℕ} (ha : a < h.size) :
    h'.Edge a b ↔ h.Edge a b := by
  have hobj : h'.obj? (.ref a) = h.obj? (.ref a) := hx.getElem? ha
  rw [Edge, Edge, Heap.fields, Heap.fields, hobj]

/-- A heap agrees with its extensions. -/
theorem Extends.agree (hx : h.Extends h') (hwf : h.WellFormed) (hv : h.Valid v) : h.Agree h' v :=
  fun _ ha => hx.getElem? (ha.lt hwf hv)

theorem Extends.tree [DecidableEq F] (hx : h.Extends h') (hwf : h.WellFormed) (hv : h.Valid v) :
    h'.tree v = h.tree v :=
  (hx.agree hwf hv).tree

/-! ### Writing to one object -/

/-- The object at `a` gets new fields. -/
def setFields (h : Heap C F A) (a : ℕ) (fields : Dict F (Val A)) : Heap C F A :=
  ⟨h.objs.modify a fun o => { o with fields := fields }⟩

theorem size_setFields (h : Heap C F A) (a : ℕ) (fields : Dict F (Val A)) :
    (h.setFields a fields).size = h.size :=
  List.length_modify ..

theorem getElem?_setFields_of_ne (h : Heap C F A) {a b : ℕ} (fields : Dict F (Val A))
    (hne : a ≠ b) : (h.setFields a fields).objs[b]? = h.objs[b]? := by
  rw [setFields, List.getElem?_modify]
  simp only [if_neg hne, id_map']

/-- A heap agrees with the result of a write to an object that is out of reach. -/
theorem agree_setFields {a : ℕ} (fields : Dict F (Val A)) (ha : ¬ h.Reach v a) :
    h.Agree (h.setFields a fields) v := by
  intro b hb
  refine h.getElem?_setFields_of_ne fields ?_
  rintro rfl
  exact ha hb

/-- The references of the heap after a write are old ones, or those written. -/
theorem edge_setFields {a b c : ℕ} {fields : Dict F (Val A)}
    (hbc : (h.setFields a fields).Edge b c) :
    h.Edge b c ∨ (b = a ∧ .ref c ∈ fields.values) := by
  by_cases hab : a = b
  · subst hab
    rw [Edge, Heap.fields, obj?, setFields, List.getElem?_modify] at hbc
    simp only [if_true] at hbc
    cases ho : h.objs[a]? with
    | none => rw [ho] at hbc; cases hbc
    | some o => rw [ho] at hbc; exact .inr ⟨rfl, hbc⟩
  · have hobj : (h.setFields a fields).obj? (.ref b) = h.obj? (.ref b) :=
      h.getElem?_setFields_of_ne fields hab
    rw [Edge, Heap.fields, hobj] at hbc
    exact .inl hbc

/-! ### A new object -/

/-- Put a new object on the heap. -/
def alloc (h : Heap C F A) (o : Obj C F A) : Heap C F A × Val A :=
  (⟨h.objs ++ [o]⟩, .ref h.size)

theorem extends_alloc (h : Heap C F A) (o : Obj C F A) : h.Extends (h.alloc o).1 := ⟨[o], rfl⟩

theorem size_alloc (h : Heap C F A) (o : Obj C F A) : (h.alloc o).1.size = h.size + 1 := by
  simp [alloc, size]

theorem fields_alloc (h : Heap C F A) (o : Obj C F A) :
    (h.alloc o).1.fields (.ref h.size) = o.fields := by
  simp [Heap.fields, obj?, alloc, size]

/-- The references of the heap with a new object are old ones, or those of the object. -/
theorem edge_alloc {o : Obj C F A} {a b : ℕ} (hab : (h.alloc o).1.Edge a b) :
    (a < h.size ∧ h.Edge a b) ∨ (a = h.size ∧ .ref b ∈ o.fields.values) := by
  rcases Nat.lt_trichotomy a h.size with hlt | rfl | hgt
  · exact .inl ⟨hlt, ((h.extends_alloc o).edge_iff hlt).mp hab⟩
  · rw [Edge, fields_alloc] at hab
    exact .inr ⟨rfl, hab⟩
  · have hnone : (h.alloc o).1.objs[a]? = none := by
      rw [List.getElem?_eq_none_iff]
      have hsize := h.size_alloc o
      rw [size] at hsize
      omega
    rw [Edge, Heap.fields, obj?, hnone] at hab
    cases hab

theorem wellFormed_alloc (hwf : h.WellFormed) {o : Obj C F A}
    (ho : ∀ w ∈ o.fields.values, h.Valid w) : (h.alloc o).1.WellFormed := by
  intro a b hab
  rw [size_alloc]
  rcases edge_alloc hab with ⟨-, hold⟩ | ⟨-, hnew⟩
  · have := hwf a b hold
    omega
  · have := ho _ hnew b rfl
    omega

/-! ### Deep copies -/

/-- The same value in a copy that starts at address `n`. -/
def Val.shift (n : ℕ) : Val A → Val A
  | .atom a => .atom a
  | .ref r => .ref (n + r)

/-- The same object in a copy that starts at address `n`. -/
def Obj.shift (n : ℕ) (o : Obj C F A) : Obj C F A :=
  { o with fields := o.fields.mapValues (Val.shift n) }

/-- `copy.deepcopy(v)`: the objects below `v` are copied, each once, so that the copies refer to
each other as the originals do. The objects that `v` does not reach are copied along with them;
nothing that can be reached refers to those copies. -/
def deepcopy (h : Heap C F A) (v : Val A) : Heap C F A × Val A :=
  (⟨h.objs ++ h.objs.map (Obj.shift h.size)⟩, v.shift h.size)

theorem extends_deepcopy (h : Heap C F A) (v : Val A) : h.Extends (h.deepcopy v).1 := ⟨_, rfl⟩

theorem size_deepcopy (h : Heap C F A) (v : Val A) : (h.deepcopy v).1.size = h.size + h.size := by
  simp [deepcopy, size]

theorem obj?_shift (h : Heap C F A) (v w : Val A) :
    (h.deepcopy v).1.obj? (w.shift h.size) = (h.obj? w).map (Obj.shift h.size) := by
  cases w with
  | atom x => rfl
  | ref r =>
    simp only [Val.shift, obj?, deepcopy, size]
    rw [List.getElem?_append_right (Nat.le_add_right _ _), Nat.add_sub_cancel_left,
      List.getElem?_map]

theorem fields_shift (h : Heap C F A) (v w : Val A) :
    (h.deepcopy v).1.fields (w.shift h.size) = (h.fields w).mapValues (Val.shift h.size) := by
  rw [Heap.fields, obj?_shift, Heap.fields]
  cases h.obj? w <;> rfl

/-- **A copy reads like the original.** -/
theorem tree_deepcopy [DecidableEq F] (h : Heap C F A) (v : Val A) :
    (h.deepcopy v).1.tree (h.deepcopy v).2 = h.tree v := by
  have aux : ∀ (path : List F) (w : Val A),
      (h.deepcopy v).1.look path (w.shift h.size) = h.look path w := by
    intro path
    induction path with
    | nil =>
      intro w
      cases w with
      | atom x => rfl
      | ref r =>
        change ((h.deepcopy v).1.obj? (Val.shift h.size (.ref r))).map _ = (h.obj? (.ref r)).map _
        rw [obj?_shift, Option.map_map]
        congr 1
        funext o
        change Node.obj o.cls (o.fields.mapValues _).keys = Node.obj o.cls o.fields.keys
        rw [Dict.keys_mapValues]
    | cons f path ih =>
      intro w
      change (((h.deepcopy v).1.fields (w.shift h.size)).get? f).bind _ =
        ((h.fields w).get? f).bind _
      rw [fields_shift, Dict.get?_mapValues]
      cases (h.fields w).get? f with
      | none => rfl
      | some u => exact ih u
  funext path
  exact aux path v

/-- The references of the heap with a copy are old ones, or the copies of old ones. -/
theorem edge_deepcopy {a b : ℕ} (hab : (h.deepcopy v).1.Edge a b) :
    (a < h.size ∧ h.Edge a b) ∨ ∃ c d, a = h.size + c ∧ b = h.size + d ∧ h.Edge c d := by
  by_cases hlt : a < h.size
  · exact .inl ⟨hlt, ((h.extends_deepcopy v).edge_iff hlt).mp hab⟩
  · obtain ⟨c, rfl⟩ := Nat.exists_eq_add_of_le (Nat.le_of_not_lt hlt)
    have hshift : (Val.ref (h.size + c) : Val A) = Val.shift h.size (.ref c) := rfl
    rw [Edge, hshift, fields_shift, Dict.values_mapValues, List.mem_map] at hab
    obtain ⟨w, hw, hwb⟩ := hab
    cases w with
    | atom x => cases hwb
    | ref d => exact .inr ⟨c, d, rfl, (Val.ref.inj hwb).symm, hw⟩

theorem wellFormed_deepcopy (hwf : h.WellFormed) (v : Val A) : (h.deepcopy v).1.WellFormed := by
  intro a b hab
  rw [size_deepcopy]
  rcases edge_deepcopy hab with ⟨-, hold⟩ | ⟨c, d, -, rfl, hcd⟩
  · have := hwf a b hold
    omega
  · have := hwf c d hcd
    omega

theorem valid_deepcopy (hv : h.Valid v) : (h.deepcopy v).1.Valid (h.deepcopy v).2 := by
  intro r hr
  rw [size_deepcopy]
  cases v with
  | atom x => cases hr
  | ref s =>
    have hs := hv s rfl
    have : r = h.size + s := (Val.ref.inj hr).symm
    omega

/-- References from new objects stay among the new objects. -/
theorem le_of_edge_deepcopy {a b : ℕ} (hab : (h.deepcopy v).1.Edge a b) (ha : h.size ≤ a) :
    h.size ≤ b := by
  rcases edge_deepcopy hab with ⟨hlt, -⟩ | ⟨c, d, -, rfl, -⟩
  · omega
  · omega

/-- **A copy leads to new objects only.** -/
theorem le_of_reach_deepcopy {a : ℕ} (ha : (h.deepcopy v).1.Reach (h.deepcopy v).2 a) :
    h.size ≤ a := by
  induction ha with
  | here hr =>
    cases v with
    | atom x => cases hr
    | ref s =>
      have := Val.ref.inj hr
      omega
  | step _ hab ih => exact le_of_edge_deepcopy hab ih

/-! ### Ownership -/

/-- A value of someone who owns the addresses `C`. -/
def Owned (C : Set ℕ) (v : Val A) : Prop := ∀ r, v = .ref r → r ∈ C

/-- One party owns the addresses `C`, the other holds values and has handed out some of them. -/
structure Separated (h : Heap C F A) (own : Set ℕ) (held handed : List (Val A)) : Prop where
  /-- No reference leads nowhere. -/
  wellFormed : h.WellFormed
  /-- The addresses owned have objects. -/
  own_lt : ∀ a ∈ own, a < h.size
  /-- Whoever owns an object owns what it refers to. -/
  closed : ∀ a ∈ own, ∀ b, h.Edge a b → b ∈ own
  /-- The values held are there. -/
  held_valid : ∀ v ∈ held, h.Valid v
  /-- What was not handed out is out of reach. -/
  apart : ∀ v ∈ held, v ∉ handed → ∀ a ∈ own, ¬ h.Reach v a
  /-- Different values held have nothing in common. -/
  disjoint : ∀ v ∈ held, ∀ w ∈ held, ∀ a, h.Reach v a → h.Reach w a → v = w

variable {own own' : Set ℕ} {held held' handed : List (Val A)}

theorem Owned.mono (hv : Owned own v) (hsub : own ⊆ own') : Owned own' v :=
  fun r hr => hsub (hv r hr)

namespace Separated

theorem valid (hs : h.Separated own held handed) (hv : Owned own v) : h.Valid v :=
  fun r hr => hs.own_lt r (hv r hr)

/-- Whoever owns an object owns the values of its fields. -/
theorem owned_field (hs : h.Separated own held handed) (hv : Owned own v) {w : Val A}
    (hw : w ∈ (h.fields v).values) : Owned own w := by
  intro r hr
  subst hr
  cases v with
  | atom x => cases hw
  | ref s => exact hs.closed s (hv s rfl) r hw

theorem owned_follow [DecidableEq F] (hs : h.Separated own held handed) {path : List F}
    (hv : Owned own v) {w : Val A} (hw : h.follow path v = some w) : Owned own w := by
  induction path generalizing v with
  | nil =>
    cases hw
    exact hv
  | cons f path ih =>
    obtain ⟨u, hu, hw⟩ := Option.bind_eq_some_iff.mp hw
    exact ih (hs.owned_field hv (Dict.mem_values_of_get? hu)) hw

/-- Letting go of held values. -/
theorem mono_held (hs : h.Separated own held handed) (hsub : held' ⊆ held) :
    h.Separated own held' handed where
  wellFormed := hs.wellFormed
  own_lt := hs.own_lt
  closed := hs.closed
  held_valid v hv := hs.held_valid v (hsub hv)
  apart v hv := hs.apart v (hsub hv)
  disjoint v hv w hw := hs.disjoint v (hsub hv) w (hsub hw)

/-- Handing out held values: their receiver owns what they lead to. -/
theorem handOut (hs : h.Separated own held handed) {rs : List (Val A)} (hrs : rs ⊆ held) :
    h.Separated (own ∪ {a | ∃ r ∈ rs, h.Reach r a}) held (handed ++ rs) where
  wellFormed := hs.wellFormed
  own_lt a ha := by
    rcases ha with ha | ⟨r, hr, ha⟩
    · exact hs.own_lt a ha
    · exact ha.lt hs.wellFormed (hs.held_valid r (hrs hr))
  closed a ha b hab := by
    rcases ha with ha | ⟨r, hr, ha⟩
    · exact .inl (hs.closed a ha b hab)
    · exact .inr ⟨r, hr, ha.step hab⟩
  held_valid := hs.held_valid
  apart v hv hnot a ha hva := by
    rw [List.mem_append, not_or] at hnot
    rcases ha with ha | ⟨r, hr, ha⟩
    · exact hs.apart v hv hnot.1 a ha hva
    · have hvr : v = r := hs.disjoint v hv r (hrs hr) a hva ha
      exact hnot.2 (hvr ▸ hr)
  disjoint := hs.disjoint

/-- The heap grows, and the owner may own some of the new objects. -/
theorem extend (hs : h.Separated own held handed) (hx : h.Extends h') (hwf : h'.WellFormed)
    (hown : ∀ a ∈ own', a ∈ own ∨ (h.size ≤ a ∧ a < h'.size))
    (hclosed : ∀ a ∈ own', ∀ b, h'.Edge a b → b ∈ own') :
    h'.Separated own' held handed where
  wellFormed := hwf
  own_lt a ha := by
    rcases hown a ha with hold | ⟨-, hnew⟩
    · have := hs.own_lt a hold
      have := hx.size_le
      omega
    · exact hnew
  closed := hclosed
  held_valid v hv := hx.valid (hs.held_valid v hv)
  apart v hv hnot a ha hva := by
    have hagree := hx.agree hs.wellFormed (hs.held_valid v hv)
    have hva := hagree.reach_iff.mp hva
    rcases hown a ha with hold | ⟨hge, -⟩
    · exact hs.apart v hv hnot a hold hva
    · have := hva.lt hs.wellFormed (hs.held_valid v hv)
      omega
  disjoint v hv w hw a hva hwa := by
    have hv' := hx.agree hs.wellFormed (hs.held_valid v hv)
    have hw' := hx.agree hs.wellFormed (hs.held_valid w hw)
    exact hs.disjoint v hv w hw a (hv'.reach_iff.mp hva) (hw'.reach_iff.mp hwa)

/-- The owner's objects refer to no new object. -/
theorem closed_extends (hs : h.Separated own held handed) (hx : h.Extends h') {a b : ℕ}
    (ha : a ∈ own) (hab : h'.Edge a b) : b ∈ own :=
  hs.closed a ha b ((hx.edge_iff (hs.own_lt a ha)).mp hab)

/-- A new object that nobody owns yet. -/
theorem allocTemp (hs : h.Separated own held handed) {o : Obj C F A}
    (ho : ∀ w ∈ o.fields.values, h.Valid w) : (h.alloc o).1.Separated own held handed :=
  hs.extend (h.extends_alloc o) (wellFormed_alloc hs.wellFormed ho) (fun _ ha => .inl ha)
    fun _ ha _ hab => hs.closed_extends (h.extends_alloc o) ha hab

/-- A new object of the owner, made of values the owner has. -/
theorem alloc (hs : h.Separated own held handed) {o : Obj C F A}
    (ho : ∀ w ∈ o.fields.values, Owned own w) :
    (h.alloc o).1.Separated (own ∪ {h.size}) held handed := by
  refine hs.extend (h.extends_alloc o)
    (wellFormed_alloc hs.wellFormed fun w hw => hs.valid (ho w hw)) ?_ ?_
  · intro a ha
    rcases ha with ha | rfl
    · exact .inl ha
    · rw [size_alloc]
      exact .inr ⟨Nat.le_refl _, Nat.lt_succ_self _⟩
  · intro a ha b hab
    rcases ha with ha | rfl
    · exact .inl (hs.closed_extends (h.extends_alloc o) ha hab)
    · rw [Edge, fields_alloc] at hab
      exact .inl (ho _ hab b rfl)

/-- A copy for the owner, of whatever there is. -/
theorem copyOut (hs : h.Separated own held handed) (v : Val A) :
    (h.deepcopy v).1.Separated (own ∪ {a | h.size ≤ a ∧ a < (h.deepcopy v).1.size}) held
      handed := by
  have hwf := wellFormed_deepcopy hs.wellFormed v
  refine hs.extend (h.extends_deepcopy v) hwf (fun a ha => ha) ?_
  intro a ha b hab
  rcases ha with ha | ⟨hge, -⟩
  · exact .inl (hs.closed_extends (h.extends_deepcopy v) ha hab)
  · exact .inr ⟨le_of_edge_deepcopy hab hge, hwf a b hab⟩

theorem owned_copyOut (hv : h.Valid v) (own : Set ℕ) :
    Owned (own ∪ {a | h.size ≤ a ∧ a < (h.deepcopy v).1.size}) (h.deepcopy v).2 :=
  fun r hr => .inr ⟨le_of_reach_deepcopy (.here hr), valid_deepcopy hv r hr⟩

/-- A copy to be held. -/
theorem copyIn (hs : h.Separated own held handed) (hv : h.Valid v) :
    (h.deepcopy v).1.Separated own ((h.deepcopy v).2 :: held) handed := by
  have hx := h.extends_deepcopy v
  have hs' : (h.deepcopy v).1.Separated own held handed :=
    hs.extend hx (wellFormed_deepcopy hs.wellFormed v) (fun _ ha => .inl ha)
      fun _ ha _ hab => hs.closed_extends hx ha hab
  -- an old value leads to old objects, the copy to new ones
  have hnew : ∀ w ∈ held, ∀ a, (h.deepcopy v).1.Reach w a →
      ¬ (h.deepcopy v).1.Reach (h.deepcopy v).2 a := by
    intro w hw a hwa hca
    have hagree := hx.agree hs.wellFormed (hs.held_valid w hw)
    have hlt := (hagree.reach_iff.mp hwa).lt hs.wellFormed (hs.held_valid w hw)
    have hge := le_of_reach_deepcopy hca
    omega
  refine ⟨hs'.wellFormed, hs'.own_lt, hs'.closed, ?_, ?_, ?_⟩
  · intro w hw
    rcases List.mem_cons.mp hw with rfl | hw
    · exact valid_deepcopy hv
    · exact hs'.held_valid w hw
  · intro w hw hnot a ha hwa
    rcases List.mem_cons.mp hw with rfl | hw
    · have hlt := hs.own_lt a ha
      have hge := le_of_reach_deepcopy hwa
      omega
    · exact hs'.apart w hw hnot a ha hwa
  · intro w hw u hu a hwa hua
    rcases List.mem_cons.mp hw with rfl | hw
    · rcases List.mem_cons.mp hu with rfl | hu
      · rfl
      · exact absurd hwa (hnew u hu a hua)
    · rcases List.mem_cons.mp hu with rfl | hu
      · exact absurd hua (hnew w hw a hwa)
      · exact hs'.disjoint w hw u hu a hwa hua

/-- **A write by the owner.** No held value that was handed out leads to the object written; then
none does, and all of them read as before. -/
theorem setFields (hs : h.Separated own held handed) {a : ℕ} (ha : a ∈ own)
    (hsafe : ∀ v ∈ held, v ∈ handed → ¬ h.Reach v a) {fields : Dict F (Val A)}
    (hfields : ∀ w ∈ fields.values, Owned own w) :
    (h.setFields a fields).Separated own held handed ∧
      ∀ v ∈ held, h.Agree (h.setFields a fields) v := by
  have hout : ∀ v ∈ held, ¬ h.Reach v a := by
    intro v hv hva
    by_cases hhanded : v ∈ handed
    · exact hsafe v hv hhanded hva
    · exact hs.apart v hv hhanded a ha hva
  have hagree : ∀ v ∈ held, h.Agree (h.setFields a fields) v :=
    fun v hv => agree_setFields fields (hout v hv)
  have hsize := h.size_setFields a fields
  refine ⟨⟨?_, ?_, ?_, ?_, ?_, ?_⟩, hagree⟩
  · intro b c hbc
    rw [hsize]
    rcases edge_setFields hbc with hold | ⟨-, hnew⟩
    · exact hs.wellFormed b c hold
    · exact hs.own_lt c (hfields _ hnew c rfl)
  · intro b hb
    rw [hsize]
    exact hs.own_lt b hb
  · intro b hb c hbc
    rcases edge_setFields hbc with hold | ⟨-, hnew⟩
    · exact hs.closed b hb c hold
    · exact hfields _ hnew c rfl
  · intro v hv r hr
    rw [hsize]
    exact hs.held_valid v hv r hr
  · intro v hv hnot b hb hvb
    exact hs.apart v hv hnot b hb ((hagree v hv).reach_iff.mp hvb)
  · intro v hv w hw b hvb hwb
    exact hs.disjoint v hv w hw b ((hagree v hv).reach_iff.mp hvb)
      ((hagree w hw).reach_iff.mp hwb)

end Separated

end Heap
