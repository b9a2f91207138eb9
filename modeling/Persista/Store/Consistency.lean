import Persista.Json.Dumps
import Persista.Store.Sqlite
import Mathlib.Data.List.Lex
import Mathlib.Logic.Function.Basic

/-!
# `SQLiteStore` and `InMemoryStore` are interchangeable

Both stores refine the same contents, so any run of write calls raises the same errors on both and
leaves both with the same contents; every read is a function of the contents, up to the order of the
keys. What is assumed of JSON is that a value reads back from its text.

## Main results

* `sqlite_agrees_with_inMemory` — after any run of write calls the two stores agree, for every chunk
  size
-/

namespace Persista

open Refinement

variable {K V R : Type} [LinearOrder K] {layout : Layout V R} {maxSqlVariables : ℕ+}

/-- The two stores answer every read alike. -/
structure Agree (layout : Layout V R) (maxSqlVariables : ℕ+) (sql : BaseSQLiteStore K R)
    (mem : InMemoryStore K V) : Prop where
  get : ∀ key, sql.get layout key = mem.get key
  getMany : ∀ keys, sql.getMany layout maxSqlVariables keys = mem.getMany keys
  contains : ∀ key, sql.contains key = mem.contains key
  containsMany : ∀ keys, sql.containsMany maxSqlVariables keys = mem.containsMany keys
  count : sql.count = mem.count
  keys : ∃ sqlKeys memKeys, sql.keys = .ok sqlKeys ∧ mem.keys = .ok memKeys ∧
    ∀ key, key ∈ sqlKeys ↔ key ∈ memKeys

/-- Open stores with the same contents agree. -/
theorem agree_of_contents {sql : BaseSQLiteStore K R} {mem : InMemoryStore K V}
    (hsql : sql.Opened) (hmem : mem.Opened) (h : sql.lookup layout = mem.contents) :
    Agree layout maxSqlVariables sql mem := by
  have hkeys : ∀ key, key ∈ sql.table.keys ↔ key ∈ mem.data.keys := fun key => by
    have hk := congrArg Option.isSome (congrFun h key)
    rw [← Dict.isSome_get?_iff, ← Dict.isSome_get?_iff]
    simpa [BaseSQLiteStore.lookup, InMemoryStore.contents] using Bool.eq_iff_iff.mp hk
  refine ⟨fun key => ?_, fun keys => ?_, fun key => ?_, fun keys => ?_, ?_,
    sql.table.keys, mem.data.keys, ?_, ?_, hkeys⟩
  · rw [BaseSQLiteStore.get_of_opened hsql, InMemoryStore.get_of_opened hmem, h]
  · rw [BaseSQLiteStore.getMany_of_opened hsql, InMemoryStore.getMany_of_opened hmem, h]
  · rw [BaseSQLiteStore.contains_of_opened layout hsql,
      InMemoryStore.contains_of_opened hmem, h]
  · rw [BaseSQLiteStore.containsMany_of_opened layout hsql,
      InMemoryStore.containsMany_of_opened hmem, h]
  · have hlen : sql.table.length = mem.data.length := Dict.length_eq_of_mem_keys_iff hkeys
    simp [BaseSQLiteStore.count, InMemoryStore.count, BaseSQLiteStore.checkOpen_of_opened hsql,
      InMemoryStore.checkOpen_of_opened hmem, hlen]
  · simp [BaseSQLiteStore.keys, BaseSQLiteStore.checkOpen_of_opened hsql]
  · simp [InMemoryStore.keys, InMemoryStore.checkOpen_of_opened hmem]

/-- **`SQLiteStore` simulates `InMemoryStore`.** After any write calls on two empty stores, the
calls have raised the same errors and the stores agree, for every chunk size, when a value reads
back from its text. -/
theorem sqlite_agrees_with_inMemory {F J : Type} [DecidableEq F] (dumps : Dict F J → R)
    (loads : R → Dict F J) (hround : ∀ value, loads (dumps value) = value) (maxSqlVariables : ℕ+)
    (ops : List (StoreOp K (Dict F J))) :
    (runOps (BaseSQLiteStore.exec ⟨dumps, loads⟩ maxSqlVariables) .opened ops).2 =
        (runOps InMemoryStore.exec InMemoryStore.init.open ops).2 ∧
      Agree ⟨dumps, loads⟩ maxSqlVariables
        (runOps (BaseSQLiteStore.exec ⟨dumps, loads⟩ maxSqlVariables) .opened ops).1
        (runOps InMemoryStore.exec InMemoryStore.init.open ops).1 := by
  obtain ⟨hsql, hsqlRun⟩ :=
    (BaseSQLiteStore.refines (K := K) ⟨dumps, loads⟩ maxSqlVariables hround).run
      (s := .opened) rfl ops
  obtain ⟨hmem, hmemRun⟩ := (InMemoryStore.refines (K := K) (V := Dict F J)).run
    InMemoryStore.opened_open_init ops
  have hrun := hsqlRun.symm.trans hmemRun
  exact ⟨congrArg Prod.snd hrun, agree_of_contents hsql hmem (congrArg Prod.fst hrun)⟩

/-! ### The JSON layout -/

open Json

/-- The text of a JSON-normal `dict`: its keys are strings and its values readings already. -/
def jsonText (value : Dict (List CodeUnit) Reading) : String :=
  String.ofList (render (.obj value.entries))

/-- Such a `dict` can be read back from its text. -/
theorem jsonText_injective : Function.Injective jsonText := fun value value' h => by
  have hobj := render_injective (String.ofList_injective h)
  exact Dict.ext (Reading.obj.inj hobj)

/-- `{"n": n}`. -/
def numbered (n : ℤ) : Dict (List CodeUnit) Reading :=
  .ofList [(units (ofString "n"), .atom (.int n))]

/-- Calls with more keys than a chunk holds, a conflict, and a key in two chunks. -/
def chunkedOps : List (StoreOp PyStr (Dict (List CodeUnit) Reading)) :=
  [.setMany (.ofList [(ofString "a", numbered 1), (ofString "b", numbered 2),
      (ofString "c", numbered 3)]) .merge,
    .setMany (.ofList [(ofString "a", numbered 4), (ofString "d", numbered 5)]) .raise,
    .deleteMany [ofString "a", ofString "c", ofString "a"]]

theorem sqlite_agrees_with_inMemory_json :
    (runOps (BaseSQLiteStore.exec ⟨jsonText, Function.invFun jsonText⟩ 2) .opened chunkedOps).2 =
        (runOps InMemoryStore.exec InMemoryStore.init.open chunkedOps).2 ∧
      Agree ⟨jsonText, Function.invFun jsonText⟩ 2
        (runOps (BaseSQLiteStore.exec ⟨jsonText, Function.invFun jsonText⟩ 2) .opened chunkedOps).1
        (runOps InMemoryStore.exec InMemoryStore.init.open chunkedOps).1 :=
  sqlite_agrees_with_inMemory jsonText _ (Function.leftInverse_invFun jsonText_injective) 2 _

end Persista
