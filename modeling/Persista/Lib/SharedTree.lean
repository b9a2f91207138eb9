import Mathlib.Data.Set.Function
import Mathlib.Data.List.Nodup
import Mathlib.Data.List.Infix

/-!
# Trees with shared parts

The nodes of a tree may have identities. Two nodes with one identity are one object, which stands at
two places, and a writer that keeps a memo of what it has written puts a reference at the second of
these places. A label says whether a node enters the memo before its children or after them.

What is written says nothing about the identities but where they are the same: two trees are written
alike if and only if they are the same up to a renaming of their identities (`save_eq_iff`). That
one identity is one object is `InHeap`, for a heap that says which.

## Main results

* `save_map` — renaming the identities of a tree does not change what is written
* `map_eq_of_save_eq` — what is written alike is the same, along any renaming of the memo
* `save_eq_iff`
-/

/-- A tree whose nodes may have identities. -/
inductive SharedTree (ι α : Type*)
  | node (id : Option ι) (label : α) (children : List (SharedTree ι α))

namespace SharedTree

variable {ι α : Type*}

/-- What is written: nodes, and references into the memo. -/
inductive Written (α : Type*)
  | ref (k : ℕ)
  | node (memoized : Bool) (label : α) (children : List (Written α))

/-! ### Renaming -/

mutual

/-- Rename the identities. -/
def map (f : ι → ι) : SharedTree ι α → SharedTree ι α
  | .node id label children => .node (id.map f) label (mapList f children)

/-- Rename the identities of the children of a node. -/
def mapList (f : ι → ι) : List (SharedTree ι α) → List (SharedTree ι α)
  | [] => []
  | c :: cs => c.map f :: mapList f cs

end

mutual

/-- The identities of a tree. -/
def ids : SharedTree ι α → List ι
  | .node id _ children => id.toList ++ idsList children

/-- The identities of the children of a node. -/
def idsList : List (SharedTree ι α) → List ι
  | [] => []
  | c :: cs => c.ids ++ idsList cs

end

mutual

theorem ids_map (f : ι → ι) : ∀ t : SharedTree ι α, (t.map f).ids = t.ids.map f
  | .node id label children => by
    rw [map, ids, ids, idsList_mapList f children, List.map_append]
    cases id <;> rfl

theorem idsList_mapList (f : ι → ι) : ∀ cs : List (SharedTree ι α),
    idsList (mapList f cs) = (idsList cs).map f
  | [] => by rw [mapList, idsList]; rfl
  | c :: cs => by
    rw [mapList, idsList, idsList, ids_map f c, idsList_mapList f cs, List.map_append]

end

mutual

theorem map_map (f g : ι → ι) : ∀ t : SharedTree ι α, (t.map f).map g = t.map (g ∘ f)
  | .node id label children => by
    rw [map, map, map, mapList_mapList f g children, Option.map_map]

theorem mapList_mapList (f g : ι → ι) : ∀ cs : List (SharedTree ι α),
    mapList g (mapList f cs) = mapList (g ∘ f) cs
  | [] => by rw [mapList, mapList, mapList]
  | c :: cs => by rw [mapList, mapList, mapList, map_map f g c, mapList_mapList f g cs]

end

/-! ### Objects -/

mutual

/-- Every identity is that of one object. -/
def InHeap (heap : ι → SharedTree ι α) : SharedTree ι α → Prop
  | .node id label children =>
    (∀ i, id = some i → heap i = .node id label children) ∧ InHeapList heap children

/-- The same, of the children of a node. -/
def InHeapList (heap : ι → SharedTree ι α) : List (SharedTree ι α) → Prop
  | [] => True
  | c :: cs => c.InHeap heap ∧ InHeapList heap cs

end

variable {heap heap' : ι → SharedTree ι α}

mutual

/-- The objects in a tree are no larger than the tree. -/
theorem sizeOf_le_of_mem_ids : ∀ t : SharedTree ι α, t.InHeap heap →
    ∀ i ∈ t.ids, sizeOf (heap i) ≤ sizeOf t
  | .node id label children, h, i, hi => by
    rw [InHeap] at h
    rw [ids, List.mem_append, Option.mem_toList] at hi
    rcases hi with hi | hi
    · rw [h.1 i hi]
    · have hle := sizeOf_le_of_mem_idsList children h.2 i hi
      rw [node.sizeOf_spec]
      omega

theorem sizeOf_le_of_mem_idsList : ∀ cs : List (SharedTree ι α), InHeapList heap cs →
    ∀ i ∈ idsList cs, sizeOf (heap i) ≤ sizeOf cs
  | [], _, i, hi => by rw [idsList] at hi; cases hi
  | c :: cs, h, i, hi => by
    rw [InHeapList] at h
    rw [idsList, List.mem_append] at hi
    rw [List.cons.sizeOf_spec]
    rcases hi with hi | hi
    · have hle := sizeOf_le_of_mem_ids c h.1 i hi
      omega
    · have hle := sizeOf_le_of_mem_idsList cs h.2 i hi
      omega

end

mutual

theorem InHeap.congr : ∀ {t : SharedTree ι α}, (∀ i ∈ t.ids, heap i = heap' i) → t.InHeap heap →
    t.InHeap heap'
  | .node id label children, hids, h => by
    rw [InHeap] at h ⊢
    rw [ids] at hids
    refine ⟨?_, InHeapList.congr (fun i hi => hids i (List.mem_append_right _ hi)) h.2⟩
    intro i hi
    rw [← hids i (List.mem_append_left _ (Option.mem_toList.mpr hi)), h.1 i hi]

theorem InHeapList.congr : ∀ {cs : List (SharedTree ι α)}, (∀ i ∈ idsList cs, heap i = heap' i) →
    InHeapList heap cs → InHeapList heap' cs
  | [], _, _ => by rw [InHeapList]; trivial
  | c :: cs, hids, h => by
    rw [InHeapList] at h ⊢
    rw [idsList] at hids
    exact ⟨InHeap.congr (fun i hi => hids i (List.mem_append_left _ hi)) h.1,
      InHeapList.congr (fun i hi => hids i (List.mem_append_right _ hi)) h.2⟩

end

/-! ### Writing -/

variable [DecidableEq ι] (early : α → Bool)

/-- What a node adds to the memo before its children are written. -/
def before (id : Option ι) (label : α) : List ι := if early label then id.toList else []

/-- What a node adds to the memo after its children have been written. -/
def after (id : Option ι) (label : α) : List ι := if early label then [] else id.toList

mutual

/-- Write a tree; the memo is what has been written before, oldest first. -/
def save : SharedTree ι α → List ι → Written α × List ι
  | .node id label children, memo =>
    match id.bind fun i => memo.idxOf? i with
    | some k => (.ref k, memo)
    | none =>
      let r := saveList children (memo ++ before early id label)
      (.node id.isSome label r.1, r.2 ++ after early id label)

/-- Write the children of a node. -/
def saveList : List (SharedTree ι α) → List ι → List (Written α) × List ι
  | [], memo => ([], memo)
  | c :: cs, memo =>
    let r := save c memo
    let rs := saveList cs r.2
    (r.1 :: rs.1, rs.2)

end

variable {early} {id : Option ι} {label : α} {children cs : List (SharedTree ι α)}
  {memo : List ι} {i : ι} {k : ℕ}

omit [DecidableEq ι] in
theorem mem_before (h : i ∈ before early id label) : id = some i := by
  rw [before] at h
  split at h
  · exact Option.mem_toList.mp h
  · cases h

omit [DecidableEq ι] in
theorem mem_after (h : i ∈ after early id label) : id = some i := by
  rw [after] at h
  split at h
  · cases h
  · exact Option.mem_toList.mp h

variable (early id label) in
omit [DecidableEq ι] in
theorem before_append_after : before early id label ++ after early id label = id.toList := by
  rw [before, after]
  split <;> simp

variable (early id label) in
omit [DecidableEq ι] in
theorem length_before_add_after :
    (before early id label).length + (after early id label).length = id.isSome.toNat := by
  rw [← List.length_append, before_append_after]
  cases id <;> rfl

variable (early label) in
omit [DecidableEq ι] in
theorem length_before_congr {id' : Option ι} (h : id.isSome = id'.isSome) :
    (before early id label).length = (before early id' label).length := by
  have hlen : id.toList.length = id'.toList.length := by
    cases id <;> cases id' <;> first | rfl | cases h
  rw [before, before]
  split
  · exact hlen
  · rfl

theorem save_ref (h : (id.bind fun i => memo.idxOf? i) = some k) :
    save early (.node id label children) memo = (.ref k, memo) := by
  rw [save, h]

theorem save_new (h : (id.bind fun i => memo.idxOf? i) = none) :
    save early (.node id label children) memo =
      (.node id.isSome label (saveList early children (memo ++ before early id label)).1,
        (saveList early children (memo ++ before early id label)).2 ++ after early id label) := by
  rw [save, h]

/-- A node is a reference to its own place in the memo, or is not in the memo. -/
theorem lookup_cases (id : Option ι) (memo : List ι) :
    (∃ i k, id = some i ∧ memo[k]? = some i ∧ (id.bind fun i => memo.idxOf? i) = some k) ∨
      (∀ i, id = some i → i ∉ memo) ∧ (id.bind fun i => memo.idxOf? i) = none := by
  cases id with
  | none => exact .inr ⟨by simp, rfl⟩
  | some i =>
    rw [Option.bind_some]
    cases h : memo.idxOf? i with
    | none =>
      refine .inr ⟨?_, rfl⟩
      rintro j ⟨⟩
      exact List.idxOf?_eq_none_iff.mp h
    | some k =>
      obtain ⟨hlt, heq, -⟩ := List.idxOf?_eq_some_iff.mp h
      exact .inl ⟨i, k, rfl, by rw [List.getElem?_eq_getElem hlt, heq], rfl⟩

/-! ### The memo -/

mutual

/-- The memo grows at its end. -/
theorem grows_save : ∀ (t : SharedTree ι α) (memo : List ι), memo <+: (save early t memo).2
  | .node id label children, memo => by
    rcases lookup_cases id memo with ⟨i, k, -, -, h⟩ | ⟨-, h⟩
    · rw [save_ref h]
    · rw [save_new h]
      have hchildren := grows_saveList children (memo ++ before early id label)
      exact ((List.prefix_append _ _).trans hchildren).trans (List.prefix_append _ _)

theorem grows_saveList : ∀ (cs : List (SharedTree ι α)) (memo : List ι),
    memo <+: (saveList early cs memo).2
  | [], memo => by rw [saveList]
  | c :: cs, memo => by
    rw [saveList]
    exact (grows_save c memo).trans (grows_saveList cs _)

end

mutual

/-- What is new in the memo is an identity of the tree. -/
theorem mem_snd_save : ∀ (t : SharedTree ι α) (memo : List ι),
    ∀ i ∈ (save early t memo).2, i ∈ memo ∨ i ∈ t.ids
  | .node id label children, memo, i, hi => by
    rcases lookup_cases id memo with ⟨_, k, -, -, h⟩ | ⟨-, h⟩
    · rw [save_ref h] at hi
      exact .inl hi
    · have hid : id = some i → i ∈ (node id label children).ids := by
        rintro rfl
        simp [ids]
      rw [save_new h] at hi
      rcases List.mem_append.mp hi with hi | hi
      · rcases mem_snd_saveList children _ i hi with hi | hi
        · rcases List.mem_append.mp hi with hi | hi
          · exact .inl hi
          · exact .inr (hid (mem_before hi))
        · right
          rw [ids]
          exact List.mem_append_right _ hi
      · exact .inr (hid (mem_after hi))

theorem mem_snd_saveList : ∀ (cs : List (SharedTree ι α)) (memo : List ι),
    ∀ i ∈ (saveList early cs memo).2, i ∈ memo ∨ i ∈ idsList cs
  | [], memo, i, hi => by
    rw [saveList] at hi
    exact .inl hi
  | c :: cs, memo, i, hi => by
    rw [saveList] at hi
    rw [idsList, List.mem_append]
    rcases mem_snd_saveList cs _ i hi with hi | hi
    · rcases mem_snd_save c memo i hi with hi | hi
      · exact .inl hi
      · exact .inr (.inl hi)
    · exact .inr (.inr hi)

end

mutual

/-- Nothing is in the memo twice: a node is none of its own descendants. -/
theorem nodup_save : ∀ (t : SharedTree ι α) (memo : List ι), t.InHeap heap → memo.Nodup →
    (save early t memo).2.Nodup
  | .node id label children, memo, h, hmemo => by
    rcases lookup_cases id memo with ⟨_, k, -, -, hk⟩ | ⟨hnew, hk⟩
    · rw [save_ref hk]
      exact hmemo
    · rw [InHeap] at h
      have hdesc : ∀ i, id = some i → i ∉ idsList children := by
        rintro i rfl hi
        have hle := sizeOf_le_of_mem_idsList children h.2 i hi
        rw [h.1 i rfl, node.sizeOf_spec] at hle
        omega
      have hone : ∀ l : List ι, (∀ i ∈ l, id = some i) → l.length ≤ 1 → l.Nodup := by
        intro l _ hl
        match l, hl with
        | [], _ => exact List.nodup_nil
        | [i], _ => exact List.nodup_singleton i
      have hlen := length_before_add_after early id label
      have hbool : id.isSome.toNat ≤ 1 := Bool.toNat_le _
      rw [save_new hk]
      refine List.Nodup.append ?_ (hone _ (fun i hi => mem_after hi) (by omega)) ?_
      · refine nodup_saveList children _ h.2 ?_
        refine hmemo.append (hone _ (fun i hi => mem_before hi) (by omega)) ?_
        intro i hi hbefore
        exact hnew i (mem_before hbefore) hi
      · intro i hi hafter
        rcases mem_snd_saveList children _ i hi with hi | hi
        · rcases List.mem_append.mp hi with hi | hi
          · exact hnew i (mem_after hafter) hi
          · -- a label is early or it is not
            rw [before] at hi
            rw [after] at hafter
            split at hi <;> simp_all
        · exact hdesc i (mem_after hafter) hi

theorem nodup_saveList : ∀ (cs : List (SharedTree ι α)) (memo : List ι), InHeapList heap cs →
    memo.Nodup → (saveList early cs memo).2.Nodup
  | [], memo, _, hmemo => by
    rw [saveList]
    exact hmemo
  | c :: cs, memo, h, hmemo => by
    rw [InHeapList] at h
    rw [saveList]
    exact nodup_saveList cs _ h.2 (nodup_save c memo h.1 hmemo)

end

mutual

/-- How many nodes have entered the memo. -/
def Written.memoized : Written α → ℕ
  | .ref _ => 0
  | .node memoized _ children => memoized.toNat + Written.memoizedList children

/-- How many of the children of a node have. -/
def Written.memoizedList : List (Written α) → ℕ
  | [] => 0
  | c :: cs => c.memoized + memoizedList cs

end

mutual

theorem length_save : ∀ (t : SharedTree ι α) (memo : List ι),
    (save early t memo).2.length = memo.length + (save early t memo).1.memoized
  | .node id label children, memo => by
    rcases lookup_cases id memo with ⟨_, k, -, -, h⟩ | ⟨-, h⟩
    · rw [save_ref h, Written.memoized]
      rfl
    · have hlen := length_before_add_after early id label
      have hchildren := length_saveList children (memo ++ before early id label)
      rw [save_new h, Written.memoized, List.length_append, hchildren, List.length_append]
      omega

theorem length_saveList : ∀ (cs : List (SharedTree ι α)) (memo : List ι),
    (saveList early cs memo).2.length =
      memo.length + Written.memoizedList (saveList early cs memo).1
  | [], memo => by
    rw [saveList, Written.memoizedList]
    rfl
  | c :: cs, memo => by
    have hc := length_save c memo
    have hcs := length_saveList cs (save early c memo).2
    rw [saveList, Written.memoizedList, hcs, hc]
    omega

end

/-! ### Renamed trees are written alike -/

section Rename

variable {f : ι → ι} {S : Set ι}

theorem idxOf?_map (hf : Set.InjOn f S) (hmemo : ∀ j ∈ memo, j ∈ S) (hi : i ∈ S) :
    (memo.map f).idxOf? (f i) = memo.idxOf? i := by
  induction memo with
  | nil => rfl
  | cons j memo ih =>
    have hj : f j = f i ↔ j = i := hf.eq_iff (hmemo j (by simp)) hi
    rw [List.map_cons, List.idxOf?_cons, List.idxOf?_cons, ih fun m hm => hmemo m (by simp [hm])]
    simp [hj]

omit [DecidableEq ι] in
theorem map_before (f : ι → ι) (id : Option ι) (label : α) :
    before early (id.map f) label = (before early id label).map f := by
  rw [before, before]
  split <;> cases id <;> rfl

omit [DecidableEq ι] in
theorem map_after (f : ι → ι) (id : Option ι) (label : α) :
    after early (id.map f) label = (after early id label).map f := by
  rw [after, after]
  split <;> cases id <;> rfl

mutual

/-- **Renaming the identities** of a tree does not change what is written. -/
theorem save_map (hf : Set.InjOn f S) : ∀ (t : SharedTree ι α) (memo : List ι),
    (∀ i ∈ t.ids, i ∈ S) → (∀ i ∈ memo, i ∈ S) →
    save early (t.map f) (memo.map f) =
      ((save early t memo).1, (save early t memo).2.map f)
  | .node id label children, memo, ht, hmemo => by
    have hid : ∀ i, id = some i → i ∈ S := by
      rintro i rfl
      exact ht i (by simp [ids])
    have hlookup : ((id.map f).bind fun i => (memo.map f).idxOf? i) =
        id.bind fun i => memo.idxOf? i := by
      cases id with
      | none => rfl
      | some i => exact idxOf?_map hf hmemo (hid i rfl)
    rw [map]
    rcases lookup_cases id memo with ⟨_, k, -, -, h⟩ | ⟨-, h⟩
    · rw [save_ref h, save_ref (hlookup.trans h)]
    · rw [save_new h, save_new (hlookup.trans h), map_before, map_after, ← List.map_append,
        saveList_map hf children _ ?_ ?_]
      · cases id <;> simp
      · intro i hi
        exact ht i (by rw [ids]; exact List.mem_append_right _ hi)
      · intro i hi
        rcases List.mem_append.mp hi with hi | hi
        · exact hmemo i hi
        · exact hid i (mem_before hi)

theorem saveList_map (hf : Set.InjOn f S) : ∀ (cs : List (SharedTree ι α)) (memo : List ι),
    (∀ i ∈ idsList cs, i ∈ S) → (∀ i ∈ memo, i ∈ S) →
    saveList early (mapList f cs) (memo.map f) =
      ((saveList early cs memo).1, (saveList early cs memo).2.map f)
  | [], memo, _, _ => by rw [mapList, saveList, saveList]
  | c :: cs, memo, hcs, hmemo => by
    have hc : ∀ i ∈ c.ids, i ∈ S := fun i hi => hcs i (by simp [idsList, hi])
    have hrest : ∀ i ∈ idsList cs, i ∈ S := fun i hi => hcs i (by simp [idsList, hi])
    have hafter : ∀ i ∈ (save early c memo).2, i ∈ S := by
      intro i hi
      rcases mem_snd_save c memo i hi with hi | hi
      · exact hmemo i hi
      · exact hc i hi
    rw [mapList, saveList, save_map hf c memo hc hmemo, saveList, saveList_map hf cs _ hrest hafter]

end

end Rename

/-! ### What is written alike -/

section Alike

variable {f : ι → ι} {final : List ι}

/-- The object of an identity is the renamed one of the renamed identity. -/
def Matched (heap heap' : ι → SharedTree ι α) (f : ι → ι) (i : ι) : Prop :=
  (heap i).map f = heap' (f i)

omit [DecidableEq ι] in
/-- Two memos of one length, on the way to two memos one of which is the other one renamed. -/
theorem eq_map_of_grows {memo' : List ι} (h : memo <+: final) (h' : memo' <+: final.map f)
    (hlen : memo.length = memo'.length) : memo' = memo.map f := by
  rw [List.prefix_iff_eq_take] at h h'
  rw [h', ← hlen, ← List.map_take, ← h]

variable (early label) in
omit [DecidableEq ι] in
/-- The identities of two new nodes that are written alike. -/
theorem id_eq_map {id' : Option ι} {memo memo' out out' : List ι} (hmemo : memo' = memo.map f)
    (hbefore : memo' ++ before early id' label = (memo ++ before early id label).map f)
    (hout : out' = out.map f)
    (hafter : out' ++ after early id' label = (out ++ after early id label).map f) :
    id' = id.map f := by
  rw [List.map_append, hmemo, List.append_cancel_left_eq] at hbefore
  rw [List.map_append, hout, List.append_cancel_left_eq] at hafter
  have hlist : id'.toList = id.toList.map f := by
    rw [← before_append_after early id' label, hbefore, hafter,
      ← List.map_append, before_append_after]
  cases id <;> cases id' <;> simp_all

mutual

/-- **What is written alike is the same** up to the renaming of the memo. A node that is in the memo
already matches, unless it is still being written, and then it is larger than the tree. -/
theorem map_eq_of_save_eq : ∀ (t t' : SharedTree ι α) (memo memo' : List ι),
    t.InHeap heap → t'.InHeap heap' → memo.length = memo'.length →
    (save early t memo).1 = (save early t' memo').1 →
    (save early t memo).2 <+: final → (save early t' memo').2 <+: final.map f →
    (∀ i ∈ memo, Matched heap heap' f i ∨ sizeOf t < sizeOf (heap i)) →
    t.map f = t' ∧ ∀ i ∈ (save early t memo).2, i ∈ memo ∨ Matched heap heap' f i
  | .node id label children, .node id' label' children', memo, memo', h, h', hlen, hw, hfin, hfin',
      hold => by
    rw [InHeap] at h h'
    have hmemo : memo' = memo.map f :=
      eq_map_of_grows ((grows_save _ memo).trans hfin) ((grows_save _ memo').trans hfin') hlen
    rcases lookup_cases id memo with ⟨i, k, hi, hget, hk⟩ | ⟨-, hk⟩ <;>
      rcases lookup_cases id' memo' with ⟨i', k', hi', hget', hk'⟩ | ⟨-, hk'⟩
    · -- two references to one place
      rw [save_ref hk, save_ref hk'] at hw
      obtain rfl : k = k' := Written.ref.inj hw
      rw [hmemo, List.getElem?_map, hget] at hget'
      obtain rfl : f i = i' := Option.some.inj hget'
      rw [save_ref hk]
      refine ⟨?_, fun j hj => .inl hj⟩
      rcases hold i (List.mem_of_getElem? hget) with hmatched | hlt
      · rw [Matched, h.1 i hi, h'.1 _ hi'] at hmatched
        exact hmatched
      · rw [h.1 i hi] at hlt
        exact absurd hlt (lt_irrefl _)
    · rw [save_ref hk, save_new hk'] at hw
      cases hw
    · rw [save_new hk, save_ref hk'] at hw
      cases hw
    · rw [save_new hk, save_new hk'] at hw
      obtain ⟨hsome, rfl, hchildren⟩ := Written.node.inj hw
      rw [save_new hk] at hfin
      rw [save_new hk'] at hfin'
      have hout := (List.prefix_append _ _).trans hfin
      have hout' := (List.prefix_append _ _).trans hfin'
      have hlenBefore : (memo ++ before early id label).length =
          (memo' ++ before early id' label).length := by
        rw [List.length_append, List.length_append, hlen, length_before_congr early label hsome]
      have hlenOut : (saveList early children (memo ++ before early id label)).2.length =
          (saveList early children' (memo' ++ before early id' label)).2.length := by
        rw [length_saveList, length_saveList, hlenBefore, hchildren]
      have hlenAfter := length_before_add_after early id label
      have hlenAfter' := length_before_add_after early id' label
      have hlenEq := length_before_congr early label hsome
      have hid : id' = id.map f := by
        refine id_eq_map early label hmemo
          (eq_map_of_grows ((grows_saveList _ _).trans hout) ((grows_saveList _ _).trans hout')
            hlenBefore)
          (eq_map_of_grows hout hout' hlenOut) (eq_map_of_grows hfin hfin' ?_)
        rw [List.length_append, List.length_append, hlenOut]
        rw [hsome] at hlenAfter
        omega
      have hsize : sizeOf children < sizeOf (node id label children) := by
        rw [node.sizeOf_spec]
        omega
      obtain ⟨hmap, hnew⟩ := mapList_eq_of_saveList_eq children children' _ _ h.2 h'.2 hlenBefore
        hchildren hout hout' (by
          intro j hj
          rcases List.mem_append.mp hj with hj | hj
          · exact (hold j hj).imp_right hsize.trans
          · rw [h.1 j (mem_before hj)]
            exact .inr hsize)
      have heq : (node id label children).map f = node id' label children' := by
        rw [map, hid, hmap]
      -- the node itself
      have hself : ∀ j, id = some j → Matched heap heap' f j := by
        rintro j rfl
        rw [Matched, h.1 j rfl, h'.1 (f j) hid]
        exact heq
      refine ⟨heq, ?_⟩
      rw [save_new hk]
      intro j hj
      rcases List.mem_append.mp hj with hj | hj
      · rcases hnew j hj with hj | hmatched
        · exact (List.mem_append.mp hj).imp_right fun hj => hself j (mem_before hj)
        · exact .inr hmatched
      · exact .inr (hself j (mem_after hj))

theorem mapList_eq_of_saveList_eq : ∀ (cs cs' : List (SharedTree ι α)) (memo memo' : List ι),
    InHeapList heap cs → InHeapList heap' cs' → memo.length = memo'.length →
    (saveList early cs memo).1 = (saveList early cs' memo').1 →
    (saveList early cs memo).2 <+: final → (saveList early cs' memo').2 <+: final.map f →
    (∀ i ∈ memo, Matched heap heap' f i ∨ sizeOf cs < sizeOf (heap i)) →
    mapList f cs = cs' ∧ ∀ i ∈ (saveList early cs memo).2, i ∈ memo ∨ Matched heap heap' f i
  | [], [], memo, _, _, _, _, _, _, _, _ => by
    rw [mapList, saveList]
    exact ⟨rfl, fun i hi => .inl hi⟩
  | [], c' :: cs', _, _, _, _, _, hw, _, _, _ => by
    rw [saveList, saveList] at hw
    cases hw
  | c :: cs, [], _, _, _, _, _, hw, _, _, _ => by
    rw [saveList, saveList] at hw
    cases hw
  | c :: cs, c' :: cs', memo, memo', h, h', hlen, hw, hfin, hfin', hold => by
    rw [InHeapList] at h h'
    rw [saveList, saveList] at hw
    rw [saveList] at hfin hfin'
    obtain ⟨hc, hcs⟩ := List.cons.inj hw
    have hlenOut : (save early c memo).2.length = (save early c' memo').2.length := by
      rw [length_save, length_save, hlen, hc]
    obtain ⟨hmap, hnew⟩ := map_eq_of_save_eq c c' memo memo' h.1 h'.1 hlen hc
      ((grows_saveList _ _).trans hfin) ((grows_saveList _ _).trans hfin') (by
        intro j hj
        refine (hold j hj).imp_right fun hlt => ?_
        rw [List.cons.sizeOf_spec] at hlt
        omega)
    obtain ⟨hmaps, hnews⟩ := mapList_eq_of_saveList_eq cs cs' _ _ h.2 h'.2 hlenOut hcs hfin hfin'
      (by
        intro j hj
        rcases hnew j hj with hj | hmatched
        · refine (hold j hj).imp_right fun hlt => ?_
          rw [List.cons.sizeOf_spec] at hlt
          omega
        · exact .inl hmatched)
    rw [mapList, hmap, hmaps, saveList]
    refine ⟨rfl, ?_⟩
    intro j hj
    rcases hnews j hj with hj | hmatched
    · exact hnew j hj
    · exact .inr hmatched

end

/-- Two memos of one length are the same up to a renaming. -/
theorem exists_map_eq {memo memo' : List ι} (hnodup : memo.Nodup)
    (hlen : memo.length = memo'.length) : ∃ f : ι → ι, memo.map f = memo' := by
  refine ⟨fun i => memo'[memo.idxOf i]?.getD i, List.ext_getElem (by simpa using hlen) ?_⟩
  intro n h h'
  rw [List.getElem_map, hnodup.idxOf_getElem, List.getElem?_eq_getElem h', Option.getD_some]

theorem exists_map_of_save_eq {t t' : SharedTree ι α} (ht : t.InHeap heap) (ht' : t'.InHeap heap')
    (hw : (save early t []).1 = (save early t' []).1) : ∃ f : ι → ι, t.map f = t' := by
  have hlen : (save early t []).2.length = (save early t' []).2.length := by
    rw [length_save, length_save, hw]
  obtain ⟨f, hf⟩ := exists_map_eq (nodup_save t [] ht List.nodup_nil) hlen
  refine ⟨f, (map_eq_of_save_eq (f := f) t t' [] [] ht ht' rfl hw List.prefix_rfl ?_ ?_).1⟩
  · rw [hf]
  · intro i hi
    cases hi

/-- **Two trees are written alike** if and only if they are the same up to a renaming of their
identities. -/
theorem save_eq_iff {t t' : SharedTree ι α} (ht : t.InHeap heap) (ht' : t'.InHeap heap') :
    (save early t []).1 = (save early t' []).1 ↔
      ∃ f : ι → ι, Set.InjOn f {i | i ∈ t.ids} ∧ t.map f = t' := by
  constructor
  · intro hw
    obtain ⟨f, hf⟩ := exists_map_of_save_eq ht ht' hw
    obtain ⟨g, hg⟩ := exists_map_of_save_eq ht' ht hw.symm
    -- there and back again
    have hback : t.ids.map (g ∘ f) = t.ids := by
      rw [← ids_map, ← map_map, hf, hg]
    have hfix : ∀ i ∈ t.ids, g (f i) = i :=
      List.map_inj_left.mp (hback.trans (List.map_id t.ids).symm)
    refine ⟨f, ?_, hf⟩
    intro i hi j hj hij
    rw [← hfix i hi, hij, hfix j hj]
  · rintro ⟨f, hinj, rfl⟩
    have hmap : save early (t.map f) ([].map f) = _ :=
      save_map hinj t [] (fun i hi => hi) (by simp)
    rw [List.map_nil] at hmap
    rw [hmap]

end Alike

end SharedTree
