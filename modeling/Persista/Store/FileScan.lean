import Persista.Lib.Scan
import Persista.Store.FileKeys

/-!
# The scans of a file store

`store/file.py`. There is no index of the keys, so `iter_batches`, `values`, `filter` and `clear`
list the directory, and then take its files one by one: `_iter_files` asks whether the file is still
there, and only then it is loaded or removed. The lock is not held. The other calls of the store, on
whichever thread, save and remove single files meanwhile.

`unlink(missing_ok=True)` does not mind that a file is gone, but `_load` does: `iter_batches` raises
when a file is deleted just after it was found. Nothing else makes it raise.

## Main results

* `FileDirectory.file_scan_law` — what `iter_batches` yields, whatever the other calls do
* `FileDirectory.file_clear_law` — what `clear` leaves, whatever the other calls do
-/

namespace Persista

namespace FileDirectory

open Interleaving Scan

variable {V R Y : Type} (store : FileDirectory V R)

/-- The steps of the other calls: `set` and `set_many` save files, `delete`, `delete_many` and
`clear` remove them. -/
inductive FileOp (V : Type)
  | save (key : StoreKey) (value : V)
  | unlink (key : StoreKey)

/-- One step of another call. -/
def change (files : Files R) : FileOp V → Option (Files R)
  | .save key value => some (files.set (store.keyToPath key) (store.format.valueToRow value))
  | .unlink key => some (store.delete files key)

/-- `file_path.is_file() and file_path.name.endswith(self.extension)`. -/
def isValueFile (files : Files R) (p : Path) : Bool :=
  (files.get? p).isSome && store.cls.extension.isSuffixOf p.name

/-- `_iter_files`, with what is done to each file. -/
def scanner (visit : Files R → Path → Option (Files R × Y)) : Scanner (Files R) Path Y :=
  ⟨store.iterdir, store.isValueFile, visit⟩

/-- `_load`; `none` when there is no file. -/
def load (files : Files R) (p : Path) : Option (Files R × V) :=
  (files.get? p).map fun row => (files, store.format.rowToValue row)

/-- `unlink(missing_ok=True)`. -/
def remove (files : Files R) (p : Path) : Option (Files R × Unit) := some (files.erase p, ())

/-- One turn of `iter_batches`, up to `batchify`, or of another call. -/
def scan : Progress (Files R) Path V → Turn (FileOp V) → Option (Progress (Files R) Path V) :=
  step store.change (store.scanner store.load)

/-- One turn of `clear`, or of another call. -/
def sweep :
    Progress (Files R) Path Unit → Turn (FileOp V) → Option (Progress (Files R) Path Unit) :=
  step store.change (store.scanner remove)

/-- The keys and the values that were yielded. -/
def scanned (it : Progress (Files R) Path V) : List (StoreKey × V) :=
  it.visited.map fun item => (store.pathToKey item.1, item.2)

/-- The keys that were yielded. -/
def yielded (it : Progress (Files R) Path V) : List StoreKey := (store.scanned it).map Prod.fst

/-! ### The laws -/

/-- What is promised of every `iter_batches` on a directory. -/
structure ScanLaw (files : Files R) : Prop where
  /-- No key is yielded twice. -/
  distinct : ∀ it, Reaches store.scan anyTurn (start files) it → (store.yielded it).Nodup
  /-- A key comes with the value that it has when its file is loaded. -/
  current : ∀ it it', Reaches store.scan anyTurn (start files) it →
    store.scan it .next = some it' →
    store.scanned it' = store.scanned it ∨ ∃ key value,
      store.scanned it' = store.scanned it ++ [(key, value)] ∧
        store.contents it.store key = some value
  /-- A key that is held until it is yielded is yielded once. -/
  complete : ∀ it it' key, Reaches store.scan anyTurn (start files) it → it.stage = .created →
    Reaches store.scan
      (fun it _ => key ∉ store.yielded it → (store.contents it.store key).isSome) it it' →
    it'.Done → (store.yielded it').count key = 1
  /-- `_load` raises when a file was removed just after it was found. -/
  raises : ∀ it key todo, it.stage = .visiting (store.keyToPath key) todo →
    store.contents it.store key = none → store.scan it .next = some { it with stage := .failed }
  /-- It does not raise otherwise. -/
  unfailing : ∀ it it', Reaches store.scan anyTurn (start files) it → it.stage = .created →
    Reaches store.scan (fun it turn => ∀ key todo, it.stage = .visiting (store.keyToPath key) todo →
      turn ≠ .op (.unlink key)) it it' → it'.stage ≠ .failed
  /-- The scan comes to an end. -/
  ends : ∀ it, ∃ n it', play store.scan it (List.replicate n .next) = some it' ∧
    (it'.Done ∨ it'.stage = .failed)
  /-- However `batchify` cuts the items, no batch loses one when it is made a dictionary. -/
  batches : ∀ it (cut : List (List (StoreKey × V))), Reaches store.scan anyTurn (start files) it →
    cut.flatten = store.scanned it →
    (cut.map fun batch => (Dict.ofList batch).entries).flatten = store.scanned it

/-- What is promised of every `clear` on a directory, where the files elsewhere are those of
`outside`. -/
structure SweepLaw (outside files : Files R) : Prop where
  /-- `clear` does not raise, and is over after some turns. -/
  ends : ∀ it, Reaches store.sweep anyTurn (start files) it → it.stage ≠ .failed ∧
    ∃ n it', play store.sweep it (List.replicate n .next) = some it' ∧ it'.Done
  /-- A key that nobody writes meanwhile is gone. -/
  gone : ∀ it it' key, Reaches store.sweep anyTurn (start files) it → it.stage = .created →
    Reaches store.sweep (fun _ turn => ∀ value, turn ≠ .op (.save key value)) it it' → it'.Done →
    store.contents it'.store key = none
  /-- A key that was not listed, or is written after its file was taken, stays. -/
  spares : ∀ it it' key, Reaches store.sweep anyTurn (start files) it → it.stage ≠ .created →
    store.keyToPath key ∉ it.stage.ahead → (store.contents it.store key).isSome →
    Reaches store.sweep (fun _ turn => turn ≠ .op (.unlink key)) it it' →
    (store.contents it'.store key).isSome
  /-- Other directories are not touched. -/
  frame : ∀ it p, Reaches store.sweep anyTurn (start files) it → p.parent ≠ store.path →
    it.store.get? p = outside.get? p

/-! ### One step of another call -/

variable {store} {outside files files' : Files R}

theorem owned_change (h : store.Owned outside files) {op : FileOp V}
    (hs : store.change files op = some files') : store.Owned outside files' := by
  cases op with
  | save key value => exact Option.some.inj hs ▸ owned_saveItems h [(key, value)]
  | unlink key => exact Option.some.inj hs ▸ owned_erase h (parent_keyToPath key)

/-- A file that is saved is there. -/
theorem isSome_get?_save {p : Path} (h : (files.get? p).isSome) (key : StoreKey) (value : V) :
    ((files.set (store.keyToPath key) (store.format.valueToRow value)).get? p).isSome := by
  rw [Dict.get?_set]
  split_ifs with hp
  · rfl
  · exact h

theorem isSome_contents (files : Files R) (key : StoreKey) :
    (store.contents files key).isSome = (files.get? (store.keyToPath key)).isSome :=
  Option.isSome_map

/-- A key that nobody writes, and that is not held, is not held afterwards. -/
theorem contents_change_eq_none {op : FileOp V} {key : StoreKey}
    (h : store.contents files key = none) (hop : ∀ value, op ≠ .save key value)
    (hs : store.change files op = some files') : store.contents files' key = none := by
  rw [contents, get, Option.map_eq_none_iff] at h ⊢
  cases op with
  | save key' value =>
    obtain rfl := Option.some.inj hs
    have hne : store.keyToPath key ≠ store.keyToPath key' := fun heq =>
      hop value (keyToPath_injective heq ▸ rfl)
    rw [Dict.get?_set, if_neg hne, h]
  | unlink key' =>
    obtain rfl := Option.some.inj hs
    rw [delete, Dict.get?_erase, h, ite_self]

/-- A key that nobody removes, and that is held, is held afterwards. -/
theorem isSome_contents_change {op : FileOp V} {key : StoreKey}
    (h : (store.contents files key).isSome) (hop : op ≠ .unlink key)
    (hs : store.change files op = some files') : (store.contents files' key).isSome := by
  rw [isSome_contents] at h ⊢
  cases op with
  | save key' value =>
    obtain rfl := Option.some.inj hs
    exact isSome_get?_save h key' value
  | unlink key' =>
    obtain rfl := Option.some.inj hs
    have hne : store.keyToPath key ≠ store.keyToPath key' := fun heq =>
      hop (keyToPath_injective heq ▸ rfl)
    rwa [delete, Dict.get?_erase, if_neg hne]

/-! ### A scanner that can be trusted -/

/-- The file of a key. -/
def IsKeyFile (store : FileDirectory V R) (p : Path) : Prop := ∃ key, p = store.keyToPath key

theorem isValueFile_keyToPath (files : Files R) (key : StoreKey) :
    store.isValueFile files (store.keyToPath key) = (store.contents files key).isSome := by
  have hsuffix : store.cls.extension.isSuffixOf (store.keyToPath key).name = true := by
    rw [keyToPath, keyToPath_eq, Path.name_append, List.isSuffixOf_iff_suffix]
    exact (fileName_safe key.text).2.2.2.2
  rw [isValueFile, hsuffix, Bool.and_true, isSome_contents]

/-- The directory lists the files of the keys that are held. -/
theorem right_scanner {visit : Files R → Path → Option (Files R × Y)}
    (hvisits : ∀ files p, (files.get? p).isSome → (visit files p).isSome)
    (hgood : ∀ files key files' y, store.Owned outside files →
      visit files (store.keyToPath key) = some (files', y) → store.Owned outside files') :
    (store.scanner visit).Right store.IsKeyFile (store.Owned outside) where
  nodup files _ := (store.iterdir_perm files).nodup_iff.mpr (files.nodup.filter _)
  own files h p hp := by
    obtain ⟨hfile, hparent⟩ := List.mem_filter.mp ((store.iterdir_perm files).mem_iff.mp hp)
    exact h.own p hfile (of_decide_eq_true hparent)
  mem_list files p _ hp hpresent := by
    obtain ⟨key, rfl⟩ := hp
    refine (store.iterdir_perm files).mem_iff.mpr (List.mem_filter.mpr ⟨?_, ?_⟩)
    · exact Dict.isSome_get?_iff.mp (Bool.and_eq_true_iff.mp hpresent).1
    · exact decide_eq_true (parent_keyToPath key)
  visits files p _ hpresent := hvisits files p (Bool.and_eq_true_iff.mp hpresent).1
  good files p files' y h hp hvisit := by
    obtain ⟨key, rfl⟩ := hp
    exact hgood files key files' y h hvisit

theorem right_load : (store.scanner store.load).Right store.IsKeyFile (store.Owned outside) :=
  right_scanner (fun _ _ hfile => Option.isSome_map.trans hfile) fun _ _ _ _ h hvisit => by
    obtain ⟨row, -, hrow⟩ := Option.map_eq_some_iff.mp hvisit
    exact (Prod.mk.inj hrow).1 ▸ h

theorem right_remove :
    (store.scanner (remove (R := R))).Right store.IsKeyFile (store.Owned outside) :=
  right_scanner (fun _ _ _ => rfl) fun _ key _ _ h hvisit =>
    (Prod.mk.inj (Option.some.inj hvisit)).1 ▸ owned_erase h (parent_keyToPath key)

/-! ### `iter_batches` -/

section Scan

variable {it it' : Progress (Files R) Path V} {key : StoreKey}

theorem yielded_eq (it : Progress (Files R) Path V) :
    store.yielded it = (it.visited.map Prod.fst).map store.pathToKey := by
  rw [yielded, scanned, List.map_map, List.map_map]
  rfl

theorem mem_yielded_iff (h : ∀ p ∈ it.visited.map Prod.fst, store.IsKeyFile p) :
    key ∈ store.yielded it ↔ store.keyToPath key ∈ it.visited.map Prod.fst := by
  rw [yielded_eq, List.mem_map]
  constructor
  · rintro ⟨p, hp, rfl⟩
    obtain ⟨key, rfl⟩ := h p hp
    rwa [pathToKey_keyToPath]
  · intro hp
    exact ⟨_, hp, pathToKey_keyToPath key⟩

theorem nodup_yielded (h : ∀ p ∈ it.visited.map Prod.fst, store.IsKeyFile p)
    (hnodup : (it.visited.map Prod.fst).Nodup) : (store.yielded it).Nodup := by
  rw [yielded_eq]
  refine hnodup.map_on fun p hp q hq heq => ?_
  obtain ⟨key, rfl⟩ := h p hp
  obtain ⟨key', rfl⟩ := h q hq
  rw [pathToKey_keyToPath, pathToKey_keyToPath] at heq
  rw [heq]

/-- A dictionary of some of the items has them all. -/
theorem entries_batches {items : List (StoreKey × V)} (hnodup : (items.map Prod.fst).Nodup)
    {cut : List (List (StoreKey × V))} (hcut : cut.flatten = items) :
    (cut.map fun batch => (Dict.ofList batch).entries).flatten = items := by
  have hbatch : ∀ batch ∈ cut, (Dict.ofList batch).entries = batch := fun batch hmem => by
    refine Dict.entries_ofList (hnodup.sublist ?_)
    rw [← hcut]
    exact (List.sublist_flatten_of_mem hmem).map Prod.fst
  rw [List.map_congr_left hbatch, List.map_id', hcut]

/-- **`iter_batches` among other calls.** Whatever the other calls save and remove, no key is
yielded twice, each comes with a value of its time, and a key that stays is yielded. `_load` raises
only when a file is removed just after it was found. -/
theorem file_scan_law (store : FileDirectory V R) {outside files : Files R}
    (h : store.Owned outside files) : store.ScanLaw files := by
  have hlaw : Law store.change (store.scanner store.load) store.IsKeyFile files :=
    law (fun _ _ _ howned hs => owned_change howned hs) right_load h
  have hown (it : Progress (Files R) Path V)
      (hr : Reaches store.scan anyTurn (start files) it) :
      ∀ p ∈ it.visited.map Prod.fst, store.IsKeyFile p := hlaw.own it hr
  have hdistinct (it : Progress (Files R) Path V)
      (hr : Reaches store.scan anyTurn (start files) it) : (store.yielded it).Nodup :=
    nodup_yielded (hown it hr) (hlaw.distinct it hr)
  refine ⟨hdistinct, fun it it' hr hs => ?_, fun it it' key hr hc hheld hdone => ?_,
    fun it key todo hstage hnone => ?_, fun it it' hr hc hsafe => ?_, hlaw.ends,
    fun it cut hr => entries_batches (hdistinct it hr)⟩
  · rcases hlaw.current it it' hs with ⟨hsame, -⟩ | ⟨p, value, hvisited, hload⟩
    · exact .inl (by rw [scanned, hsame, scanned])
    · have hp : p ∈ it'.visited.map Prod.fst := by
        rw [hvisited, List.map_append]
        exact List.mem_append_right _ (List.mem_singleton_self p)
      obtain ⟨key, rfl⟩ := hown it' (hr.turn trivial hs) p hp
      obtain ⟨row, hrow, hvalue⟩ := Option.map_eq_some_iff.mp hload
      refine .inr ⟨key, value, ?_, ?_⟩
      · rw [scanned, hvisited, List.map_append, scanned, List.map_singleton, pathToKey_keyToPath]
      · rw [contents, get, hrow, Option.map_some, (Prod.mk.inj hvalue).2]
  · have hawaits : Reaches store.scan
        (Awaits (store.scanner store.load) (store.keyToPath key)) it it' := by
      refine hheld.mono_of_invariant (P := Reaches store.scan anyTurn (start files)) hr
        (fun _ _ _ hi hs => hi.turn trivial hs) fun it _ hi hG hnot => ?_
      have hkey : key ∉ store.yielded it := fun hmem =>
        hnot ((mem_yielded_iff (hown it hi)).mp hmem)
      exact (isValueFile_keyToPath it.store key).trans (hG hkey)
    have hend : Reaches store.scan anyTurn (start files) it' :=
      hawaits.invariant hr fun _ _ _ hi _ hs => hi.turn trivial hs
    have hmem : store.keyToPath key ∈ it'.visited.map Prod.fst :=
      hlaw.complete it it' _ ⟨key, rfl⟩ hr hc hawaits hdone
    exact List.count_eq_one_of_mem (hdistinct it' hend) ((mem_yielded_iff (hown it' hend)).mpr hmem)
  · have hload : store.load it.store (store.keyToPath key) = none := by
      rw [contents, get, Option.map_eq_none_iff] at hnone
      rw [load, hnone, Option.map_none]
    rw [scan, step, hstage]
    simp only [scanner, hload]
  · refine hlaw.unfailing it it' hr hc (hsafe.mono fun it turn hG => ?_)
    cases turn with
    | next => trivial
    | op op =>
      intro p todo files' hstage hs hpresent
      obtain ⟨hfile, hsuffix⟩ := Bool.and_eq_true_iff.mp hpresent
      refine Bool.and_eq_true_iff.mpr ⟨?_, hsuffix⟩
      cases op with
      | save key value =>
        obtain rfl := Option.some.inj hs
        exact isSome_get?_save hfile key value
      | unlink key =>
        obtain rfl := Option.some.inj hs
        have hne : p ≠ store.keyToPath key := fun heq => hG key todo (heq ▸ hstage) rfl
        rwa [delete, Dict.get?_erase, if_neg hne]

end Scan

/-! ### `clear` -/

section Sweep

variable {it it' : Progress (Files R) Path Unit} {turn : Turn (FileOp V)} {key : StoreKey}

/-- A key that nobody writes is gone, unless its file is still ahead. -/
def Going (store : FileDirectory V R) (key : StoreKey) (it : Progress (Files R) Path Unit) : Prop :=
  it.stage = .created ∨ store.contents it.store key = none ∨
    store.keyToPath key ∈ it.stage.ahead

/-- `unlink(missing_ok=True)` does not raise. -/
theorem not_failed_step (h : it.stage ≠ .failed) (hs : store.sweep it turn = some it') :
    it'.stage ≠ .failed := by
  cases does_of_step hs with
  | op _ => exact h
  | lists _ | finds _ _ | skips _ _ | visits _ _ => exact nofun
  | rests _ => exact h
  | fails _ hvisit => cases hvisit

theorem contents_erase_keyToPath (files : Files R) (key : StoreKey) :
    store.contents (files.erase (store.keyToPath key)) key = none := by
  rw [contents, get, Dict.get?_erase, if_pos rfl]
  rfl

theorem contents_erase_eq_none {files : Files R} (h : store.contents files key = none) (p : Path) :
    store.contents (files.erase p) key = none := by
  rw [contents, get, Option.map_eq_none_iff] at h ⊢
  rw [Dict.get?_erase, h, ite_self]

theorem Going.step (howned : store.Owned outside it.store) (h : store.Going key it)
    (hG : ∀ value, turn ≠ .op (.save key value)) (hs : store.sweep it turn = some it') :
    store.Going key it' := by
  cases does_of_step hs with
  | @op op files hexec =>
    rcases h with hcreated | hnone | hahead
    · exact .inl hcreated
    · refine .inr (.inl (contents_change_eq_none hnone (fun value hop => ?_) hexec))
      exact hG value (congrArg Turn.op hop)
    · exact .inr (.inr hahead)
  | lists _ =>
    cases hheld : store.contents it.store key with
    | none => exact .inr (.inl hheld)
    | some value =>
      have hright : (store.scanner (remove (R := R))).Right store.IsKeyFile (store.Owned outside) :=
        right_remove
      refine .inr (.inr (hright.mem_list _ _ howned ⟨key, rfl⟩ ?_))
      exact (isValueFile_keyToPath it.store key).trans (by rw [hheld]; rfl)
  | rests _ => exact h
  | finds hstage _ =>
    rcases h with hcreated | hnone | hahead
    · cases hstage.symm.trans hcreated
    · exact .inr (.inl hnone)
    · rw [hstage] at hahead
      exact .inr (.inr hahead)
  | @skips p todo hstage habsent =>
    rcases h with hcreated | hnone | hahead
    · cases hstage.symm.trans hcreated
    · exact .inr (.inl hnone)
    · rw [hstage] at hahead
      rcases List.mem_cons.mp hahead with rfl | htodo
      · have hnone : (store.contents it.store key).isSome = false :=
          (isValueFile_keyToPath it.store key).symm.trans (Bool.eq_false_iff.mpr habsent)
        exact .inr (.inl (Option.not_isSome_iff_eq_none.mp (Bool.eq_false_iff.mp hnone)))
      · exact .inr (.inr htodo)
  | fails _ hvisit => cases hvisit
  | @visits p todo files y hstage hvisit =>
    obtain ⟨rfl, -⟩ := Prod.mk.inj (Option.some.inj hvisit)
    rcases h with hcreated | hnone | hahead
    · cases hstage.symm.trans hcreated
    · exact .inr (.inl (contents_erase_eq_none hnone p))
    · rw [hstage] at hahead
      rcases List.mem_cons.mp hahead with rfl | htodo
      · exact .inr (.inl (contents_erase_keyToPath it.store key))
      · exact .inr (.inr htodo)

/-- A key whose file is not ahead, and that nobody removes, stays. -/
def Spared (store : FileDirectory V R) (key : StoreKey) (it : Progress (Files R) Path Unit) :
    Prop :=
  it.stage ≠ .created ∧ store.keyToPath key ∉ it.stage.ahead ∧
    (store.contents it.store key).isSome

theorem Spared.step (h : store.Spared key it) (hG : turn ≠ .op (.unlink key))
    (hs : store.sweep it turn = some it') : store.Spared key it' := by
  obtain ⟨hcreated, hahead, hheld⟩ := h
  cases does_of_step hs with
  | @op op files hexec =>
    refine ⟨hcreated, hahead, isSome_contents_change hheld (fun hop => ?_) hexec⟩
    exact hG (congrArg Turn.op hop)
  | lists hstage => exact absurd hstage hcreated
  | rests _ => exact ⟨hcreated, hahead, hheld⟩
  | finds hstage _ =>
    rw [hstage] at hahead
    exact ⟨nofun, hahead, hheld⟩
  | @skips p todo hstage _ =>
    rw [hstage] at hahead
    exact ⟨nofun, fun hmem => hahead (List.mem_cons_of_mem p hmem), hheld⟩
  | fails _ hvisit => cases hvisit
  | @visits p todo files y hstage hvisit =>
    obtain ⟨rfl, -⟩ := Prod.mk.inj (Option.some.inj hvisit)
    rw [hstage] at hahead
    have hne : store.keyToPath key ≠ p := fun heq => hahead (heq ▸ List.mem_cons_self)
    refine ⟨nofun, fun hmem => hahead (List.mem_cons_of_mem p hmem), ?_⟩
    rw [isSome_contents] at hheld ⊢
    rwa [Dict.get?_erase, if_neg hne]

/-- **`clear` among other calls.** It does not raise. A key that nobody writes meanwhile is gone
when it returns, it takes away only files that it listed, and other directories stay as they
were. -/
theorem file_clear_law (store : FileDirectory V R) {outside files : Files R}
    (h : store.Owned outside files) : store.SweepLaw outside files := by
  have hinv (it : Progress (Files R) Path Unit)
      (hr : Reaches store.sweep anyTurn (start files) it) :
      Inv store.IsKeyFile (store.Owned outside) it :=
    hr.invariant (inv_start h) fun _ _ _ hi _ hs =>
      hi.step (fun _ _ _ howned hs => owned_change howned hs) right_remove hs
  have hok (it : Progress (Files R) Path Unit)
      (hr : Reaches store.sweep anyTurn (start files) it) : it.stage ≠ .failed :=
    hr.invariant nofun fun _ _ _ hi _ hs => not_failed_step hi hs
  refine ⟨fun it hr => ⟨hok it hr, ?_⟩, fun it it' key hr hc hquiet hdone => ?_,
    fun it it' key _ hc hahead hheld hquiet => ?_, fun it p hr hp => (hinv it hr).good.frame p hp⟩
  · have hends : Ends store.change (store.scanner remove) it := ends it
    obtain ⟨n, it', hplay, hover⟩ := hends
    exact ⟨n, it', hplay, hover.resolve_right (hok it' (hr.play hplay))⟩
  · have hgoing : Reaches store.sweep anyTurn (start files) it' ∧ store.Going key it' :=
      hquiet.invariant (P := fun it => Reaches store.sweep anyTurn (start files) it ∧
        store.Going key it) ⟨hr, .inl hc⟩ fun it _ _ hi hG hs =>
          ⟨hi.1.turn trivial hs, hi.2.step (hinv it hi.1).good hG hs⟩
    rcases hgoing.2 with hcreated | hnone | hmem
    · cases hcreated.symm.trans hdone
    · exact hnone
    · rw [show it'.stage = .checking [] from hdone] at hmem
      exact absurd hmem List.not_mem_nil
  · have hspared : store.Spared key it' :=
      hquiet.invariant ⟨hc, hahead, hheld⟩ fun _ _ _ hi hG hs => hi.step hG hs
    exact hspared.2.2

end Sweep

/-! ### A directory with two files -/

/-- The directory of `jsonDirectory` with files for the keys `a` and `b`. -/
def twoFiles : Files (Dict String ℕ) :=
  jsonDirectory.saveItems ∅ [(⟨"a".toList⟩, ∅), (⟨"b".toList⟩, ∅)]

theorem owned_twoFiles : jsonDirectory.Owned ∅ twoFiles :=
  owned_saveItems ⟨fun _ hp => absurd hp List.not_mem_nil, fun _ _ => rfl⟩ _

/-- The first file is taken, somebody saves a value under `key`, and the second file is taken. -/
def savedBetween (key : StoreKey) : List (Turn (FileOp (Dict String ℕ))) :=
  [.next, .next, .next, .op (.save key (.ofList [("x", 1)])), .next, .next]

/-- A value that is saved before its file is loaded is the one that is yielded. -/
theorem file_scan_law_twoFiles :
    jsonDirectory.ScanLaw twoFiles ∧
      (play jsonDirectory.scan (start twoFiles) (savedBetween ⟨"b".toList⟩)).map
          jsonDirectory.scanned =
        some [(⟨"a".toList⟩, ∅), (⟨"b".toList⟩, .ofList [("x", 1)])] :=
  ⟨file_scan_law jsonDirectory owned_twoFiles, rfl⟩

/-- A value that is saved after its file was removed stays. -/
theorem file_clear_law_twoFiles :
    jsonDirectory.SweepLaw ∅ twoFiles ∧
      (play jsonDirectory.sweep (start twoFiles) (savedBetween ⟨"a".toList⟩)).map
          (fun it => (it.stage, jsonDirectory.get it.store ⟨"a".toList⟩,
            jsonDirectory.get it.store ⟨"b".toList⟩)) =
        some (.checking [], some (.ofList [("x", 1)]), none) :=
  ⟨file_clear_law jsonDirectory owned_twoFiles, rfl⟩

end FileDirectory

end Persista
