import Persista.Store.InMemory
import Persista.Store.Rows
import Persista.Uri.Urllib
import Mathlib.Data.List.Lex
import Mathlib.Data.Char

/-!
# Keys as file names

`store/file.py` keeps the value of a key in a file of its own, in one directory. The name of the
file is the key, quoted with no safe character, and the extension of the store. The keys of the
store are read back from the directory: every file whose name ends with the extension, the extension
cut off and the rest unquoted.

The files are a `Dict` from paths to contents, so that a name which is not a single component, or
one that two keys share, would show. `iterdir` lists a directory in any order.

## Main results

* `fileName_safe` — what no file name can be, whatever the key
* `pathToKey_keyToPath` — a file name reads back as its key
* `FileDirectory.refines` — a directory that only the store writes refines the contents of a store
* `file_keys_agree_with_map` — keys, count, contains and get after any run
-/

namespace Persista

open Urllib

/-! ### Paths -/

/-- A component of a path. -/
abbrev Name := List Char

/-- An absolute path, by its components. -/
abbrev Path := List Name

namespace Path

/-- The components of a text: `pathlib` drops the empty ones and `.`. -/
def components (text : List Char) : List Name :=
  (text.splitOn '/').filter fun name => decide (name ≠ [] ∧ name ≠ ['.'])

/-- `path / text`. An absolute text replaces the path. -/
def join (path : Path) (text : List Char) : Path :=
  if text.head? = some '/' then components text else path ++ components text

/-- `path.name`. -/
def name (path : Path) : Name := path.getLast?.getD []

/-- `path.parent`. -/
def parent (path : Path) : Path := path.dropLast

/-- A text that is one component is appended. -/
theorem join_of_component {path : Path} {text : Name} (hslash : '/' ∉ text) (hempty : text ≠ [])
    (hdot : text ≠ ['.']) : path.join text = path ++ [text] := by
  have hhead : text.head? ≠ some '/' := fun h => hslash (List.mem_of_mem_head? h)
  rw [join, if_neg hhead, components, List.splitOn_eq_singleton hslash]
  simp [hempty, hdot]

@[simp] theorem name_append (path : Path) (text : Name) : name (path ++ [text]) = text := by
  simp [name]

@[simp] theorem parent_append (path : Path) (text : Name) : parent (path ++ [text]) = path := by
  simp [parent]

end Path

/-! ### The key codec -/

/-- The file stores. -/
inductive FileStoreClass
  | json
  | pickle
  deriving DecidableEq, Repr

/-- `extension`. -/
def FileStoreClass.extension : FileStoreClass → List Char
  | .json => ".json".toList
  | .pickle => ".pkl".toList

variable (cls : FileStoreClass) (dir : Path)

/-- `f"{quote(key, safe='')}{self.extension}"`. -/
def fileName (key : List Char) : Name := quote [] key ++ cls.extension

/-- `_key_to_path`. -/
def keyToPath (key : List Char) : Path := dir.join (fileName cls key)

/-- `_path_to_key`. -/
def pathToKey (path : Path) : List Char :=
  unquote (path.name.take (path.name.length - cls.extension.length))

example : keyToPath .json [] "../a%/.json".toList = ["..%2Fa%25%2F.json.json".toList] := by decide

variable {cls dir}

theorem notMem_fileName {c : Char} (hc : isDelimiter c) (hext : c ∉ cls.extension)
    (key : List Char) : c ∉ fileName cls key := by
  intro hmem
  rcases List.mem_append.mp hmem with hmem | hmem
  · exact absurd (mem_of_mem_quote (by decide) hc hmem).1 List.not_mem_nil
  · exact hext hmem

theorem extension_length : 1 < cls.extension.length ∧ cls.extension.length < 6 ∧
    '/' ∉ cls.extension ∧ '\x00' ∉ cls.extension ∧ ¬ cls.extension <:+ ['.', '.'] := by
  cases cls
  all_goals decide

/-- What no file name can be. -/
theorem fileName_safe (key : List Char) :
    '/' ∉ fileName cls key ∧ '\x00' ∉ fileName cls key ∧ fileName cls key ≠ ['.'] ∧
      fileName cls key ≠ ['.', '.'] ∧ cls.extension <:+ fileName cls key := by
  obtain ⟨hlong, -, hslash, hnul, hdots⟩ := @extension_length cls
  have hsuffix : cls.extension <:+ fileName cls key := List.suffix_append _ _
  refine ⟨notMem_fileName (by decide) hslash key, notMem_fileName (by decide) hnul key, ?_, ?_,
    hsuffix⟩
  · intro heq
    have hle := hsuffix.length_le
    rw [heq, List.length_singleton] at hle
    omega
  · intro heq
    rw [heq] at hsuffix
    exact hdots hsuffix

theorem fileName_ne_nil (key : List Char) : fileName cls key ≠ [] := by
  intro heq
  have hle := (@fileName_safe cls key).2.2.2.2.length_le
  have hlong := (@extension_length cls).1
  rw [heq, List.length_nil] at hle
  omega

/-- The path of a key is in the directory. -/
theorem keyToPath_eq (key : List Char) : keyToPath cls dir key = dir ++ [fileName cls key] :=
  Path.join_of_component (fileName_safe key).1 (fileName_ne_nil key) (fileName_safe key).2.2.1

/-- **A file name reads back as its key.** -/
theorem pathToKey_keyToPath (key : List Char) : pathToKey cls (keyToPath cls dir key) = key := by
  rw [pathToKey, keyToPath_eq, Path.name_append, fileName, List.length_append,
    Nat.add_sub_cancel, List.take_left, unquote_quote (by decide)]

theorem keyToPath_injective : Function.Injective (keyToPath cls dir) :=
  Function.LeftInverse.injective pathToKey_keyToPath

/-! ### The directory -/

/-- A key: a text without lone surrogates, in the order of its code points. -/
structure StoreKey where
  text : List Char

@[ext] theorem StoreKey.ext {key key' : StoreKey} (h : key.text = key'.text) : key = key' := by
  cases key
  cases key'
  cases h
  rfl

instance : LinearOrder StoreKey := LinearOrder.lift' StoreKey.text fun _ _ => StoreKey.ext

/-- The files of a file system. -/
abbrev Files (R : Type) := Dict Path R

/-- A file store that is open. `iterdir` lists the files of a directory, in any order. -/
structure FileDirectory (V R : Type) where
  cls : FileStoreClass
  path : Path
  format : Layout V R
  iterdir : Files R → List Path
  iterdir_perm : ∀ files : Files R,
    (iterdir files).Perm (files.keys.filter fun p => decide (p.parent = path))

namespace FileDirectory

variable {V R : Type} (store : FileDirectory V R)

/-- `_key_to_path`. -/
def keyToPath (key : StoreKey) : Path := Persista.keyToPath store.cls store.path key.text

/-- `_path_to_key`. -/
def pathToKey (p : Path) : StoreKey := ⟨Persista.pathToKey store.cls p⟩

/-- `get`. -/
def get (files : Files R) (key : StoreKey) : Option V :=
  (files.get? (store.keyToPath key)).map store.format.rowToValue

/-- `contains`. -/
def contains (files : Files R) (key : StoreKey) : Bool :=
  (files.get? (store.keyToPath key)).isSome

/-- `contains_many`. -/
def containsMany (files : Files R) (keys : List StoreKey) : List Bool :=
  keys.map (store.contains files)

/-- `_iter_files`. -/
def iterFiles (files : Files R) : List Path :=
  (store.iterdir files).filter fun p => store.cls.extension.isSuffixOf p.name

/-- `keys`. -/
def keys (files : Files R) : List StoreKey := (store.iterFiles files).map store.pathToKey

/-- `count`. -/
def count (files : Files R) : ℕ := (store.iterFiles files).length

/-- `_set_many`: one file after the other. -/
def saveItems (files : Files R) (items : List (StoreKey × V)) : Files R :=
  items.foldl (fun files item =>
    files.set (store.keyToPath item.1) (store.format.valueToRow item.2)) files

/-- `set_many`. -/
def setMany [ShallowMerge V] (files : Files R) (items : Dict StoreKey V)
    (onConflict : OnConflict) : Except (StoreError StoreKey) (Files R) :=
  if items.entries = [] then .ok files
  else if onConflict = .overwrite then .ok (store.saveItems files items.entries)
  else do
    let toWrite ← resolveConflicts items onConflict (store.containsMany files) (store.get files)
    return store.saveItems files toWrite.entries

/-- `set`. -/
def set [ShallowMerge V] (files : Files R) (key : StoreKey) (value : V)
    (onConflict : OnConflict) : Except (StoreError StoreKey) (Files R) :=
  store.setMany files (Dict.ofList [(key, value)]) onConflict

/-- `delete`: `unlink(missing_ok=True)`. -/
def delete (files : Files R) (key : StoreKey) : Files R := files.erase (store.keyToPath key)

/-- `delete_many`: `delete` per key. -/
def deleteMany (files : Files R) (keys : List StoreKey) : Files R :=
  keys.foldl store.delete files

/-- `clear`. -/
def clear (files : Files R) : Files R := (store.iterFiles files).foldl Dict.erase files

/-- The write calls, dispatched. -/
def exec [ShallowMerge V] (files : Files R) :
    StoreOp StoreKey V → Except (StoreError StoreKey) (Files R)
  | .set key value onConflict => store.set files key value onConflict
  | .setMany items onConflict => store.setMany files items onConflict
  | .delete key => .ok (store.delete files key)
  | .deleteMany keys => .ok (store.deleteMany files keys)
  | .clear => .ok (store.clear files)

/-! ### What only the store writes -/

/-- What the store holds. -/
def contents (files : Files R) : Contents StoreKey V := store.get files

/-- Every file in the directory is the file of a key, and the files elsewhere are as they were. -/
structure Owned (outside files : Files R) : Prop where
  own : ∀ p ∈ files.keys, p.parent = store.path → ∃ key, p = store.keyToPath key
  frame : ∀ p, p.parent ≠ store.path → files.get? p = outside.get? p

variable {store} {outside files : Files R}

theorem pathToKey_keyToPath (key : StoreKey) : store.pathToKey (store.keyToPath key) = key :=
  StoreKey.ext (Persista.pathToKey_keyToPath key.text)

theorem keyToPath_injective : Function.Injective store.keyToPath :=
  Function.LeftInverse.injective pathToKey_keyToPath

theorem parent_keyToPath (key : StoreKey) : (store.keyToPath key).parent = store.path := by
  rw [keyToPath, keyToPath_eq, Path.parent_append]

theorem ne_keyToPath {p : Path} (h : p.parent ≠ store.path) (key : StoreKey) :
    p ≠ store.keyToPath key := by
  rintro rfl
  exact h (parent_keyToPath key)

theorem mem_iterFiles (h : store.Owned outside files) {p : Path} :
    p ∈ store.iterFiles files ↔ ∃ key, p = store.keyToPath key ∧ p ∈ files.keys := by
  rw [iterFiles, List.mem_filter, (store.iterdir_perm files).mem_iff, List.mem_filter,
    decide_eq_true_iff]
  constructor
  · rintro ⟨⟨hp, hparent⟩, -⟩
    obtain ⟨key, hkey⟩ := h.own p hp hparent
    exact ⟨key, hkey, hp⟩
  · rintro ⟨key, rfl, hp⟩
    refine ⟨⟨hp, parent_keyToPath key⟩, ?_⟩
    rw [keyToPath, keyToPath_eq, Path.name_append, List.isSuffixOf_iff_suffix]
    exact (fileName_safe key.text).2.2.2.2

theorem nodup_iterFiles (files : Files R) : (store.iterFiles files).Nodup :=
  (((store.iterdir_perm files).nodup_iff).mpr (files.nodup.filter _)).filter _

theorem mem_keys_iff (h : store.Owned outside files) {key : StoreKey} :
    key ∈ store.keys files ↔ (store.contents files key).isSome := by
  rw [keys, List.mem_map, contents, get, Option.isSome_map, Dict.isSome_get?_iff]
  constructor
  · rintro ⟨p, hp, rfl⟩
    obtain ⟨key, rfl, hmem⟩ := (mem_iterFiles h).mp hp
    rw [pathToKey_keyToPath]
    exact hmem
  · intro hmem
    exact ⟨store.keyToPath key, (mem_iterFiles h).mpr ⟨key, rfl, hmem⟩, pathToKey_keyToPath key⟩

theorem nodup_keys (h : store.Owned outside files) : (store.keys files).Nodup := by
  refine (nodup_iterFiles files).map_on fun p hp q hq heq => ?_
  obtain ⟨key, rfl, -⟩ := (mem_iterFiles h).mp hp
  obtain ⟨key', rfl, -⟩ := (mem_iterFiles h).mp hq
  rw [pathToKey_keyToPath, pathToKey_keyToPath] at heq
  rw [heq]

/-! ### Each call -/

theorem owned_saveItems (h : store.Owned outside files) (items : List (StoreKey × V)) :
    store.Owned outside (store.saveItems files items) := by
  induction items generalizing files with
  | nil => exact h
  | cons item items ih =>
    refine ih ⟨fun p hp hparent => ?_, fun p hparent => ?_⟩
    · rw [← Dict.isSome_get?_iff, Dict.get?_set] at hp
      split at hp
      · next heq => exact ⟨item.1, heq⟩
      · exact h.own p (Dict.isSome_get?_iff.mp hp) hparent
    · rw [Dict.get?_set, if_neg (ne_keyToPath hparent item.1), h.frame p hparent]

theorem owned_erase (h : store.Owned outside files) {p : Path} (hp : p.parent = store.path) :
    store.Owned outside (files.erase p) where
  own q hq hparent := by
    rw [← Dict.isSome_get?_iff, Dict.get?_erase] at hq
    split at hq
    · cases hq
    · exact h.own q (Dict.isSome_get?_iff.mp hq) hparent
  frame q hparent := by
    have hne : q ≠ p := by
      rintro rfl
      exact hparent hp
    rw [Dict.get?_erase, if_neg hne, h.frame q hparent]

theorem owned_foldl_erase (h : store.Owned outside files) {ps : List Path}
    (hps : ∀ p ∈ ps, p.parent = store.path) : store.Owned outside (ps.foldl Dict.erase files) := by
  induction ps generalizing files with
  | nil => exact h
  | cons p ps ih =>
    exact ih (owned_erase h (hps p List.mem_cons_self)) fun q hq =>
      hps q (List.mem_cons_of_mem _ hq)

theorem parent_of_mem_iterFiles (h : store.Owned outside files) :
    ∀ p ∈ store.iterFiles files, p.parent = store.path := by
  intro p hp
  obtain ⟨key, rfl, -⟩ := (mem_iterFiles h).mp hp
  exact parent_keyToPath key

theorem deleteMany_eq (files : Files R) (keys : List StoreKey) :
    store.deleteMany files keys = (keys.map store.keyToPath).foldl Dict.erase files := by
  rw [deleteMany, List.foldl_map]
  rfl

theorem contents_foldl_erase (files : Files R) (ps : List Path) (key : StoreKey) :
    store.contents (ps.foldl Dict.erase files) key =
      if store.keyToPath key ∈ ps then none else store.contents files key := by
  rw [contents, get, Dict.foldl_erase, Dict.get?_filterKeys]
  by_cases hp : store.keyToPath key ∈ ps
  · simp [hp]
  · simp [hp, contents, get]

theorem contents_deleteMany (files : Files R) (keys : List StoreKey) :
    store.contents (store.deleteMany files keys) = (store.contents files).delete keys := by
  funext key
  rw [deleteMany_eq, contents_foldl_erase, Contents.delete]
  simp only [List.mem_map_of_injective keyToPath_injective]

theorem contents_clear (h : store.Owned outside files) :
    store.contents (store.clear files) = fun _ => none := by
  funext key
  rw [clear, contents_foldl_erase]
  split
  · rfl
  · next hp =>
    have hno : store.keyToPath key ∉ files.keys := fun hmem =>
      hp ((mem_iterFiles h).mpr ⟨key, rfl, hmem⟩)
    rw [contents, get, Dict.get?_eq_none_iff.mpr hno]
    rfl

section Write

variable (hround : ∀ value, store.format.rowToValue (store.format.valueToRow value) = value)

include hround

theorem contents_saveItems (files : Files R) (items : List (StoreKey × V)) :
    store.contents (store.saveItems files items) = (store.contents files).write items := by
  induction items generalizing files with
  | nil => rfl
  | cons item items ih =>
    rw [Contents.write_cons, saveItems, List.foldl_cons, ← saveItems, ih]
    congr 1
    funext key
    rw [contents, get, Dict.get?_set]
    by_cases hkey : key = item.1
    · rw [hkey, if_pos rfl, Function.update_self]
      exact congrArg some (hround item.2)
    · rw [if_neg fun heq => hkey (keyToPath_injective heq), Function.update_of_ne hkey]
      rfl

variable [ShallowMerge V]

/-- `set_many` on the directory is `set_many` on what it holds. -/
theorem contents_setMany (files : Files R) (items : Dict StoreKey V) (onConflict : OnConflict) :
    (store.setMany files items onConflict).map store.contents =
      (store.contents files).setMany items onConflict := by
  have hcontains : store.containsMany files = (store.contents files).containsMany := by
    funext keys
    simp [containsMany, contains, Contents.containsMany, contents, get]
  rw [setMany, Contents.setMany]
  by_cases hitems : items.entries = []
  · obtain rfl : items = ∅ := Dict.ext hitems
    rw [if_pos hitems]
    cases onConflict with
    | overwrite => rfl
    | raise | skip | merge => rfl
  · rw [if_neg hitems]
    by_cases ho : onConflict = .overwrite
    · rw [if_pos ho, if_pos ho]
      exact congrArg Except.ok (contents_saveItems hround files items.entries)
    · rw [if_neg ho, if_neg ho, hcontains]
      change _ = (resolveConflicts items onConflict _ (store.get files) >>= _)
      cases resolveConflicts items onConflict (store.contents files).containsMany
        (store.get files) with
      | error e => rfl
      | ok toWrite =>
        exact congrArg Except.ok (contents_saveItems hround files toWrite.entries)

omit hround in
theorem owned_setMany (h : store.Owned outside files) {items : Dict StoreKey V}
    {onConflict : OnConflict} {files' : Files R}
    (hs : store.setMany files items onConflict = .ok files') : store.Owned outside files' := by
  rw [setMany] at hs
  split at hs
  · exact Except.ok.inj hs ▸ h
  · split at hs
    · exact Except.ok.inj hs ▸ owned_saveItems h _
    · cases hr : resolveConflicts items onConflict (store.containsMany files) (store.get files) with
      | error e =>
        rw [hr] at hs
        cases hs
      | ok toWrite =>
        rw [hr] at hs
        exact Except.ok.inj hs ▸ owned_saveItems h _

/-- **A directory that only the store writes refines the contents of a store.** -/
theorem refines (outside : Files R) :
    Refinement.Refines store.exec (Contents.exec (K := StoreKey) (V := V)) store.contents
      (store.Owned outside) where
  inv {files files' op} h hs := by
    cases op with
    | set key value onConflict =>
      have hset : store.setMany files (Dict.ofList [(key, value)]) onConflict = .ok files' := hs
      exact owned_setMany h hset
    | setMany items onConflict => exact owned_setMany h hs
    | delete key => exact Except.ok.inj hs ▸ owned_erase h (parent_keyToPath key)
    | deleteMany keys =>
      obtain rfl := Except.ok.inj hs
      rw [deleteMany_eq]
      refine owned_foldl_erase h fun p hp => ?_
      obtain ⟨key, -, rfl⟩ := List.mem_map.mp hp
      exact parent_keyToPath key
    | clear => exact Except.ok.inj hs ▸ owned_foldl_erase h (parent_of_mem_iterFiles h)
  comm {files op} h := by
    cases op with
    | set key value onConflict => 
      exact contents_setMany hround files (Dict.ofList [(key, value)]) onConflict
    | setMany items onConflict => exact contents_setMany hround files items onConflict
    | delete key => exact congrArg Except.ok (contents_deleteMany files [key])
    | deleteMany keys => exact congrArg Except.ok (contents_deleteMany files keys)
    | clear => exact congrArg Except.ok (contents_clear h)

end Write

/-- **Keys, count, contains and get agree with one finite map after any run.** The files outside
the directory are as they were. -/
theorem file_keys_agree_with_map [ShallowMerge V] (store : FileDirectory V R)
    (hround : ∀ value, store.format.rowToValue (store.format.valueToRow value) = value)
    (outside : Files R) (hfresh : ∀ p ∈ outside.keys, p.parent ≠ store.path)
    (ops : List (StoreOp StoreKey V)) :
    ((∀ key, store.pathToKey (store.keyToPath key) = key) ∧
      (∀ key key', (store.keyToPath key).name = (store.keyToPath key').name → key = key') ∧
      ∀ key, '/' ∉ (store.keyToPath key).name ∧ '\x00' ∉ (store.keyToPath key).name ∧
        (store.keyToPath key).name ≠ ['.'] ∧ (store.keyToPath key).name ≠ ['.', '.'] ∧
        store.cls.extension <:+ (store.keyToPath key).name) ∧
    ∃ files raised, Refinement.runOps store.exec outside ops = (files, raised) ∧
      ∃ m : Contents StoreKey V,
        Refinement.runOps Contents.exec (fun _ => none) ops = (m, raised) ∧
        (store.keys files).Nodup ∧ (∀ key, key ∈ store.keys files ↔ (m key).isSome) ∧
        store.count files = (store.keys files).length ∧
        (∀ key, store.contains files key = (m key).isSome) ∧
        (∀ key, store.get files key = m key) ∧
        ∀ p, p.parent ≠ store.path → files.get? p = outside.get? p := by
  refine ⟨⟨pathToKey_keyToPath, fun key key' heq => ?_, fun key => ?_⟩, ?_⟩
  · rw [keyToPath, keyToPath, keyToPath_eq, keyToPath_eq, Path.name_append,
      Path.name_append] at heq
    refine StoreKey.ext (@Persista.keyToPath_injective store.cls store.path _ _ ?_)
    rw [keyToPath_eq, keyToPath_eq, heq]
  · rw [keyToPath, keyToPath_eq, Path.name_append]
    exact fileName_safe key.text
  · have howned : store.Owned outside outside :=
      ⟨fun p hp hparent => absurd hparent (hfresh p hp), fun p _ => rfl⟩
    have hnone : store.contents outside = fun _ => none := by
      funext key
      have hno : store.keyToPath key ∉ outside.keys := fun hmem =>
        hfresh _ hmem (parent_keyToPath key)
      rw [contents, get, Dict.get?_eq_none_iff.mpr hno]
      rfl
    obtain ⟨hinv, hrun⟩ := (refines hround outside).run howned ops
    rw [hnone] at hrun
    exact ⟨_, _, rfl, _, hrun, nodup_keys hinv, fun key => mem_keys_iff hinv,
      (List.length_map _).symm, fun key => Option.isSome_map.symm, fun key => rfl, hinv.frame⟩

/-- A `JsonFileStore` at `/data` whose values are kept as they are. -/
def jsonDirectory : FileDirectory (Dict String ℕ) (Dict String ℕ) where
  cls := .json
  path := ["data".toList]
  format := ⟨id, id⟩
  iterdir files := files.keys.filter fun p => decide (p.parent = ["data".toList])
  iterdir_perm _ := List.Perm.refl _

theorem file_keys_agree_with_map_json :
    ∃ files raised, Refinement.runOps jsonDirectory.exec ∅
        [.set ⟨"../a".toList⟩ ∅ .overwrite, .set ⟨"../a".toList⟩ ∅ .raise, .clear,
          .set ⟨"%2E".toList⟩ ∅ .skip] = (files, raised) ∧
      ∃ m : Contents StoreKey (Dict String ℕ), Refinement.runOps Contents.exec (fun _ => none)
          [.set ⟨"../a".toList⟩ ∅ .overwrite, .set ⟨"../a".toList⟩ ∅ .raise, .clear,
            .set ⟨"%2E".toList⟩ ∅ .skip] = (m, raised) ∧
        (∀ key, key ∈ jsonDirectory.keys files ↔ (m key).isSome) ∧
        ∀ key, jsonDirectory.get files key = m key := by
  obtain ⟨-, files, raised, hrun, m, hm, -, hkeys, -, -, hget, -⟩ :=
    file_keys_agree_with_map jsonDirectory (fun _ => rfl) ∅ (fun p hp => absurd hp List.not_mem_nil)
      [.set ⟨"../a".toList⟩ ∅ .overwrite, .set ⟨"../a".toList⟩ ∅ .raise, .clear,
        .set ⟨"%2E".toList⟩ ∅ .skip]
  exact ⟨files, raised, hrun, m, hm, hkeys, hget⟩

end FileDirectory

end Persista
