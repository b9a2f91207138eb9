import Persista.Store.Redis
import Mathlib.Data.Finset.Sort
import Mathlib.Data.String.Basic

/-!
# The two halves of a Redis store

The keys of a Redis store are held twice: as the members of a set under the reserved key, and as the
keys of the strings. Every writer and every deleter changes both in one MULTI block, `clear` first
reads the members and later deletes the keys it has read, and the commands of all clients
interleave.

`Redis.Consistent` says that the two halves agree. It is kept by every turn, because no block names
the reserved key as a data key (`SafeBlock`): a call that has it among its keys is rejected before
its first command, and what a call writes is among its keys.

## Main results

* `Redis.step_cases` — what one turn of a call does
* `Redis.Network.Inv.step` — every turn keeps the two halves together
* `Redis.set_tracks_keys` — what the reads of a store say in every state of every run
-/

namespace Persista

namespace Redis

variable {ι κ K V R : Type} [LinearOrder K]

/-! ### The reads -/

section Reads

variable (layout : Layout V R) (keysSet : K) (db : Keyspace K R)

/-- What Redis answers to a command for another type of value. -/
def wrongTypeMsg : String :=
  "WRONGTYPE Operation against a key holding the wrong kind of value"

/-- `GET key`. -/
def getCommand (key : K) : Except (StoreError K) (Option R) :=
  match db key with
  | none => .ok none
  | some (.string raw) => .ok (some raw)
  | some (.set _) => .error (.runtimeError wrongTypeMsg)

/-- The commands on a set answer WRONGTYPE when the key holds a string. -/
def setCommand {α : Type} (key : K) (answer : Finset K → α) : Except (StoreError K) α :=
  if (getString db key).isSome then .error (.runtimeError wrongTypeMsg)
  else .ok (answer (members db key))

/-- `_check_no_reserved_keys`. -/
def checkNoReservedKeys (keys : List K) : Except (StoreError K) Unit :=
  if keysSet ∈ keys then .error (.valueError reservedMsg) else .ok ()

/-- `get`. -/
def get (key : K) : Except (StoreError K) (Option V) := do
  checkNoReservedKeys keysSet [key]
  let value ← getCommand db key
  return value.map layout.rowToValue

/-- `get_many`: MGET answers nil for a key that holds no string. -/
def getMany (keys : List K) : Except (StoreError K) (List (Option V)) := do
  if keys = [] then
    return []
  checkNoReservedKeys keysSet keys
  return keys.map fun key => (getString db key).map layout.rowToValue

/-- `contains`: SISMEMBER. -/
def contains (key : K) : Except (StoreError K) Bool := do
  checkNoReservedKeys keysSet [key]
  setCommand db keysSet fun s => decide (key ∈ s)

/-- `contains_many`: SMISMEMBER. -/
def containsMany (keys : List K) : Except (StoreError K) (List Bool) := do
  if keys = [] then
    return []
  checkNoReservedKeys keysSet keys
  setCommand db keysSet fun s => keys.map fun key => decide (key ∈ s)

/-- `keys`: SMEMBERS, in some order. -/
def keys : Except (StoreError K) (List K) := setCommand db keysSet fun s => s.sort (· ≤ ·)

/-- `count`: SCARD. -/
def count : Except (StoreError K) ℕ := setCommand db keysSet Finset.card

end Reads

/-! ### The clients, and those that run `clear` -/

/-- Where a client is in `clear`: `delete_many(list(self.keys()))`. -/
inductive ClearPhase (K : Type)
  | start
  | deleting (keys : List K)
  | done (outcome : Except (StoreError K) Unit)

/-- A block of a client that is not among those of the system. -/
def System.disturb (s : System ι K V R) (block : List (Command K R)) : System ι K V R where
  db := execBlock s.db block
  client j := { s.client j with
    dirty := (s.client j).dirty || (s.client j).watching.any (blockModifies s.db block) }

/-- The database, the clients that run the calls of `Redis.Call` and those that run `clear`. -/
structure Network (ι κ K V R : Type) where
  system : System ι K V R
  clear : κ → ClearPhase K

namespace Network

variable [DecidableEq ι] [DecidableEq κ]

/-- The next command of a client that runs `clear`. -/
def clearStep (keysSet : K) (n : Network ι κ K V R) (j : κ) : Option (Network ι κ K V R) :=
  let enter (phase : ClearPhase K) : κ → ClearPhase K := Function.update n.clear j phase
  match n.clear j with
  | .start =>
    match keys keysSet n.system.db with
    | .ok keys => some { n with clear := enter (.deleting keys) }
    | .error e => some { n with clear := enter (.done (.error e)) }
  | .deleting keys =>
    if keys = [] then some { n with clear := enter (.done (.ok ())) }
    else if keysSet ∈ keys then
      some { n with clear := enter (.done (.error (.valueError reservedMsg))) }
    else some ⟨n.system.disturb (deleteBlock keysSet keys), enter (.done (.ok ()))⟩
  | .done _ => none

/-- The next command of a client. -/
def step [ShallowMerge V] (layout : Layout V R) (keysSet : K) (calls : ι → Call K V)
    (n : Network ι κ K V R) : ι ⊕ κ → Option (Network ι κ K V R)
  | .inl i => (Redis.step layout keysSet calls n.system i).map fun system => { n with system }
  | .inr j => n.clearStep keysSet j

/-- An empty database, all clients about to call. -/
def init : Network ι κ K V R := ⟨Redis.init fun _ => none, fun _ => .start⟩

end Network

/-! ### The blocks -/

/-- Only the reserved key holds a set. -/
def OnlyStrings (keysSet : K) (db : Keyspace K R) : Prop :=
  ∀ k, k ≠ keysSet → ∀ s, db k ≠ some (.set s)

/-- A command for members of a set is for the reserved one. -/
def Command.ForKeysSet (keysSet : K) : Command K R → Prop
  | .sadd key _ | .srem key _ => key = keysSet
  | .set _ _ | .del _ => True

variable {layout : Layout V R} {keysSet : K} {db : Keyspace K R}

theorem OnlyStrings.exec (h : OnlyStrings keysSet db) {c : Command K R}
    (hc : c.ForKeysSet keysSet) : OnlyStrings keysSet (c.exec db) := by
  intro k hk s
  cases c with
  | set key raw =>
    rcases eq_or_ne k key with rfl | hkey
    · simp [Command.exec]
    · rw [Command.exec, Function.update_of_ne hkey]
      exact h k hk s
  | del keys =>
    by_cases hkeys : k ∈ keys
    · simp [Command.exec, hkeys]
    · simpa [Command.exec, hkeys] using h k hk s
  | sadd key new | srem key old =>
    obtain rfl : key = keysSet := hc
    simp only [Command.exec]
    split
    · exact h k hk s
    · rw [Function.update_of_ne hk]
      exact h k hk s

theorem OnlyStrings.execBlock (h : OnlyStrings keysSet db) {block : List (Command K R)}
    (hblock : ∀ c ∈ block, c.ForKeysSet keysSet) :
    OnlyStrings keysSet (execBlock db block) := by
  induction block generalizing db with
  | nil => exact h
  | cons c block ih =>
    exact ih (h.exec (hblock c List.mem_cons_self)) fun c' hc' =>
      hblock c' (List.mem_cons_of_mem c hc')

/-- A MULTI block of a store that does not name the reserved key as a data key. -/
inductive SafeBlock (layout : Layout V R) (keysSet : K) : List (Command K R) → Prop
  | write (values : Dict K V) (h : keysSet ∉ values.keys) :
    SafeBlock layout keysSet (writeBlock layout keysSet values)
  | delete (keys : List K) (h : keysSet ∉ keys) :
    SafeBlock layout keysSet (deleteBlock keysSet keys)

theorem SafeBlock.consistent {block : List (Command K R)} (hb : SafeBlock layout keysSet block)
    (h : Consistent keysSet db) : Consistent keysSet (execBlock db block) := by
  cases hb with
  | write values hk => exact (consistent_writeBlock layout h hk).1
  | delete keys hk => exact (consistent_deleteBlock h hk).1

theorem SafeBlock.onlyStrings {block : List (Command K R)} (hb : SafeBlock layout keysSet block)
    (h : OnlyStrings keysSet db) : OnlyStrings keysSet (execBlock db block) := by
  refine h.execBlock fun c hc => ?_
  cases hb with
  | write values hk =>
    rcases List.mem_append.mp hc with hset | hadd
    · obtain ⟨row, -, rfl⟩ := List.mem_map.mp hset
      trivial
    · split at hadd
      · cases hadd
      · obtain rfl := List.mem_singleton.mp hadd
        rfl
  | delete keys hk =>
    rcases List.mem_cons.mp hc with rfl | hrem
    · trivial
    · obtain rfl := List.mem_singleton.mp hrem
      rfl

/-! ### One turn -/

/-- The call is given the reserved key. -/
def Call.UsesReserved (keysSet : K) : Call K V → Prop
  | .setMany items _ => keysSet ∈ items.keys
  | .delete key => key = keysSet
  | .deleteMany keys => keysSet ∈ keys

/-- A client whose call is given the reserved key is rejected, and one that resolves conflicts has
its items in hand. -/
structure ClientSafe (keysSet : K) (call : Call K V) (c : Client K V) : Prop where
  rejected : call.UsesReserved keysSet →
    c.phase = .start ∨ c.phase = .done (.error (.valueError reservedMsg))
  resolving : ∀ items onConflict conflicts todo toWrite, call = .setMany items onConflict →
    c.phase = .resolving conflicts todo toWrite →
      (∀ item ∈ todo, item.1 ∈ items.keys) ∧ ∀ k ∈ toWrite.keys, k ∈ items.keys

omit [LinearOrder K] in
theorem ClientSafe.done {call : Call K V} {o : Except (StoreError K) Unit}
    {watching : List K} {dirty : Bool}
    (h : call.UsesReserved keysSet → o = .error (.valueError reservedMsg)) :
    ClientSafe keysSet call ⟨.done o, watching, dirty⟩ where
  rejected hu := .inr (by rw [h hu])
  resolving _ _ _ _ _ _ hp := by cases hp

omit [LinearOrder K] in
/-- A client on its way whose call does not name the reserved key. -/
theorem ClientSafe.move {call : Call K V} {c : Client K V}
    (hu : ¬ call.UsesReserved keysSet)
    (hres : ∀ items onConflict conflicts todo toWrite, call = .setMany items onConflict →
      c.phase = .resolving conflicts todo toWrite →
        (∀ item ∈ todo, item.1 ∈ items.keys) ∧ ∀ k ∈ toWrite.keys, k ∈ items.keys) :
    ClientSafe keysSet call c where
  rejected h := absurd h hu
  resolving := hres

omit [LinearOrder K] in
/-- Marking a client dirty does not move it. -/
theorem ClientSafe.mark {call : Call K V} {c : Client K V} (h : ClientSafe keysSet call c)
    (dirty : Bool) : ClientSafe keysSet call { c with dirty } :=
  ⟨h.rejected, h.resolving⟩

/-- A turn that modifies nothing, or one that runs a safe block. -/
def TurnOf [DecidableEq ι] (layout : Layout V R) (keysSet : K) (call : Call K V)
    (s : System ι K V R) (i : ι) (s' : System ι K V R) : Prop :=
  (∃ c, s' = s.move i c ∧ ClientSafe keysSet call c) ∨
    (¬ call.UsesReserved keysSet ∧
      ∃ block, SafeBlock layout keysSet block ∧ s' = s.multi i block)

section Turns

variable [DecidableEq ι] [ShallowMerge V] {calls : ι → Call K V} {s s' : System ι K V R} {i : ι}

theorem step_cases_start {items : Dict K V} {onConflict : OnConflict}
    (hcall : calls i = .setMany items onConflict) (hp : (s.client i).phase = .start)
    (hs : Redis.step layout keysSet calls s i = some s') :
    TurnOf layout keysSet (.setMany items onConflict) s i s' := by
  simp only [Redis.step, hcall, hp] at hs
  split_ifs at hs with he hk ho <;> cases hs
  · refine .inl ⟨_, rfl, .done fun hu => ?_⟩
    obtain rfl : items = ∅ := Dict.ext he
    cases hu
  · exact .inl ⟨_, rfl, .done fun _ => rfl⟩
  · exact .inr ⟨hk, _, .write items hk, rfl⟩
  · exact .inl ⟨_, rfl, .move hk (by simp)⟩

theorem step_cases_resolving {items : Dict K V} {onConflict : OnConflict} {conflicts : List K}
    {todo : List (K × V)} {toWrite : Dict K V} (hcall : calls i = .setMany items onConflict)
    (hk : keysSet ∉ items.keys) (hp : (s.client i).phase = .resolving conflicts todo toWrite)
    (htodo : ∀ item ∈ todo, item.1 ∈ items.keys) (hwrite : ∀ k ∈ toWrite.keys, k ∈ items.keys)
    (hs : Redis.step layout keysSet calls s i = some s') :
    TurnOf layout keysSet (.setMany items onConflict) s i s' := by
  cases todo with
  | cons item todo =>
    simp only [Redis.step, hcall, hp] at hs
    cases hs
    refine .inl ⟨_, rfl, .move hk fun items' _ conflicts' todo' toWrite' hitems hphase => ?_⟩
    cases hitems
    cases hphase
    refine ⟨fun j hj => htodo j (List.mem_cons_of_mem item hj), fun k hmem => ?_⟩
    rcases mem_keys_resolveItem hmem with rfl | hmem
    · exact htodo item List.mem_cons_self
    · exact hwrite k hmem
  | nil =>
    simp only [Redis.step, hcall, hp] at hs
    split_ifs at hs <;> cases hs
    · exact .inl ⟨_, rfl, .move hk (by simp)⟩
    · exact .inr ⟨hk, _, .write toWrite fun hmem => hk (hwrite _ hmem), rfl⟩

theorem step_cases_setMany {items : Dict K V} {onConflict : OnConflict}
    (hcall : calls i = .setMany items onConflict)
    (h : ClientSafe keysSet (.setMany items onConflict) (s.client i))
    (hs : Redis.step layout keysSet calls s i = some s') :
    TurnOf layout keysSet (.setMany items onConflict) s i s' := by
  have hk : ∀ phase, (s.client i).phase = phase → phase ≠ .start →
      phase ≠ .done (.error (.valueError reservedMsg)) → keysSet ∉ items.keys := by
    rintro phase rfl hstart hdone hmem
    exact (h.rejected hmem).elim hstart hdone
  cases hp : (s.client i).phase with
  | start => exact step_cases_start hcall hp hs
  | watch =>
    simp only [Redis.step, hcall, hp] at hs
    cases hs
    exact .inl ⟨_, rfl, .move (hk _ hp (by simp) (by simp)) (by simp)⟩
  | watched =>
    have hkey := hk _ hp (by simp) (by simp)
    simp only [Redis.step, hcall, hp] at hs
    split_ifs at hs <;> cases hs
    · exact .inl ⟨_, rfl, .done fun hu => absurd hu hkey⟩
    · refine .inl ⟨_, rfl, .move hkey fun items' _ conflicts todo toWrite hitems hphase => ?_⟩
      cases hitems
      cases hphase
      exact ⟨fun item hitem => Dict.mem_keys_of_mem hitem, fun k hmem => by cases hmem⟩
  | resolving conflicts todo toWrite =>
    obtain ⟨htodo, hwrite⟩ := h.resolving _ _ _ _ _ rfl hp
    exact step_cases_resolving hcall (hk _ hp (by simp) (by simp)) hp htodo hwrite hs
  | done o =>
    simp only [Redis.step, hcall, hp] at hs
    cases hs

/-- **One turn of a call** modifies nothing or runs a safe block, and it modifies nothing when the
call is given the reserved key. -/
theorem step_cases (h : ClientSafe keysSet (calls i) (s.client i))
    (hs : Redis.step layout keysSet calls s i = some s') :
    TurnOf layout keysSet (calls i) s i s' := by
  cases hcall : calls i with
  | setMany items onConflict => exact step_cases_setMany hcall (hcall ▸ h) hs
  | delete key =>
    cases hp : (s.client i).phase <;> simp only [Redis.step, hcall, hp] at hs <;> try cases hs
    split_ifs at hs with hk <;> cases hs
    · exact .inl ⟨_, rfl, .done fun _ => rfl⟩
    · exact .inr ⟨hk, _, .delete [key] (by simpa using Ne.symm hk), rfl⟩
  | deleteMany keys =>
    cases hp : (s.client i).phase <;> simp only [Redis.step, hcall, hp] at hs <;> try cases hs
    split_ifs at hs with he hk <;> cases hs
    · refine .inl ⟨_, rfl, .done fun hu => ?_⟩
      subst he
      cases hu
    · exact .inl ⟨_, rfl, .done fun _ => rfl⟩
    · exact .inr ⟨hk, _, .delete keys hk, rfl⟩

end Turns

/-! ### Every run -/

namespace Network

open Interleaving

variable [DecidableEq ι] [DecidableEq κ] [ShallowMerge V] {calls : ι → Call K V}
  {n n' : Network ι κ K V R}

/-- What holds in every state of every run. -/
structure Inv (keysSet : K) (calls : ι → Call K V) (n : Network ι κ K V R) : Prop where
  consistent : Consistent keysSet n.system.db
  strings : OnlyStrings keysSet n.system.db
  client : ∀ i, ClientSafe keysSet (calls i) (n.system.client i)

omit [DecidableEq ι] [DecidableEq κ] [ShallowMerge V] in
theorem inv_init : Inv keysSet calls (init : Network ι κ K V R) where
  consistent := consistent_empty
  strings _ _ _ h := by cases h
  client _ := ⟨fun _ => .inl rfl, fun _ _ _ _ _ _ h => by cases h⟩

omit [DecidableEq κ] in
/-- A turn of a call. -/
theorem Inv.call (h : Inv keysSet calls n) {i : ι} {system : System ι K V R}
    (hs : Redis.step layout keysSet calls n.system i = some system) :
    Inv keysSet calls { n with system } := by
  rcases step_cases (h.client i) hs with ⟨c, rfl, hc⟩ | ⟨hu, block, hb, rfl⟩
  · refine ⟨h.consistent, h.strings, fun j => ?_⟩
    rcases eq_or_ne j i with rfl | hj
    · simpa [System.move] using hc
    · simpa [System.move, hj] using h.client j
  · refine ⟨hb.consistent h.consistent, hb.onlyStrings h.strings, fun j => ?_⟩
    rcases eq_or_ne j i with rfl | hj
    · simpa [System.multi] using ClientSafe.done (fun hu' => absurd hu' hu)
    · simpa [System.multi, hj] using (h.client j).mark _

omit [DecidableEq ι] [ShallowMerge V] in
/-- A turn of a `clear`. -/
theorem Inv.clear (h : Inv keysSet calls n) {j : κ} (hs : n.clearStep keysSet j = some n') :
    Inv keysSet calls n' := by
  cases hp : n.clear j with
  | start =>
    simp only [clearStep, hp] at hs
    split at hs <;> cases hs <;> exact ⟨h.consistent, h.strings, h.client⟩
  | deleting keys =>
    simp only [clearStep, hp] at hs
    split_ifs at hs with he hk <;> cases hs
    · exact ⟨h.consistent, h.strings, h.client⟩
    · exact ⟨h.consistent, h.strings, h.client⟩
    · have hb : SafeBlock (⟨id, id⟩ : Layout R R) keysSet (deleteBlock keysSet keys) :=
        .delete keys hk
      exact ⟨hb.consistent h.consistent, hb.onlyStrings h.strings,
        fun i => (h.client i).mark _⟩
  | done o =>
    simp only [clearStep, hp] at hs
    cases hs

theorem Inv.step (h : Inv keysSet calls n) {turn : ι ⊕ κ}
    (hs : n.step layout keysSet calls turn = some n') : Inv keysSet calls n' := by
  cases turn with
  | inl i =>
    obtain ⟨system, hsystem, rfl⟩ := Option.map_eq_some_iff.mp hs
    exact h.call hsystem
  | inr j => exact h.clear hs

theorem inv_of_reaches (h : Reaches (step layout keysSet calls) anyTurn init n) :
    Inv keysSet calls n :=
  h.invariant inv_init fun _ _ _ hi _ hs => hi.step hs

end Network

/-! ### What the reads say -/

/-- The two halves of the database agree, key by key. -/
theorem mem_members_iff (h : Consistent keysSet db) (hstr : OnlyStrings keysSet db) (k : K) :
    k ∈ members db keysSet ↔ k ≠ keysSet ∧ (db k).isSome := by
  rw [h.mem_iff, contents]
  by_cases hk : k = keysSet
  · simp [hk]
  · rw [if_neg hk, getString]
    cases hdb : db k with
    | none => simp
    | some o =>
      cases o with
      | string raw => simp [hk]
      | set s => exact absurd hdb (hstr k hk s)

/-- `contains` and `get` of a data key. -/
theorem contains_get (layout : Layout V R) (h : Consistent keysSet db)
    (hstr : OnlyStrings keysSet db) {k : K} (hk : k ≠ keysSet) :
    ∃ found value, contains keysSet db k = .ok found ∧ get layout keysSet db k = .ok value ∧
      (found ↔ value ≠ none) := by
  have hcheck : checkNoReservedKeys keysSet [k] = .ok () :=
    if_neg (by simpa using Ne.symm hk)
  have hset : setCommand db keysSet (fun s => decide (k ∈ s)) =
      .ok (decide (k ∈ members db keysSet)) := if_neg (by simp [h.keys])
  have hget : getCommand db k = .ok (getString db k) := by
    rw [getCommand, getString]
    cases hdb : db k with
    | none => rfl
    | some o =>
      cases o with
      | string raw => rfl
      | set s => exact absurd hdb (hstr k hk s)
  refine ⟨decide (k ∈ members db keysSet), (getString db k).map layout.rowToValue, ?_, ?_, ?_⟩
  · simp only [contains, hcheck, hset]
    rfl
  · simp only [get, hcheck, hget]
    rfl
  · rw [decide_eq_true_iff, h.mem_iff, contents, if_neg hk]
    cases getString db k <;> simp

/-- `keys` and `count`. -/
theorem keys_count (h : Consistent keysSet db) :
    ∃ listed, keys keysSet db = .ok listed ∧ listed.Nodup ∧ count keysSet db = .ok listed.length ∧
      ∀ k, k ∈ listed ↔ k ∈ members db keysSet := by
  have hset : ∀ {α : Type} (answer : Finset K → α),
      setCommand db keysSet answer = .ok (answer (members db keysSet)) :=
    fun answer => if_neg (by simp [h.keys])
  refine ⟨(members db keysSet).sort (· ≤ ·), hset _, Finset.sort_nodup .., ?_, fun k => ?_⟩
  · rw [count, hset, Finset.length_sort]
  · exact Finset.mem_sort _

/-- The reads reject the reserved key. -/
theorem reads_rejected (layout : Layout V R) (db : Keyspace K R) {keys : List K}
    (hk : keysSet ∈ keys) :
    get layout keysSet db keysSet = .error (.valueError reservedMsg) ∧
      contains keysSet db keysSet = .error (.valueError reservedMsg) ∧
      getMany layout keysSet db keys = .error (.valueError reservedMsg) ∧
      containsMany keysSet db keys = .error (.valueError reservedMsg) := by
  have hne : keys ≠ [] := List.ne_nil_of_mem hk
  have hone : checkNoReservedKeys keysSet [keysSet] = .error (.valueError reservedMsg) :=
    if_pos (List.mem_singleton.mpr rfl)
  have hmany : checkNoReservedKeys keysSet keys = .error (.valueError reservedMsg) := if_pos hk
  simp only [get, contains, getMany, containsMany, hone, hmany, if_neg hne]
  exact ⟨rfl, rfl, rfl, rfl⟩

/-- **The two halves of a Redis store.** In every state of every run that starts empty the members
of the reserved set are the data keys that exist and the reserved key holds no string; so `contains`
says whether `get` finds a value, `count` is the number of keys listed, and whatever is given the
reserved key is rejected and changes nothing. -/
theorem set_tracks_keys [DecidableEq ι] [DecidableEq κ] [ShallowMerge V] (layout : Layout V R)
    (keysSet : K) (calls : ι → Call K V) (n : Network ι κ K V R)
    (h : Interleaving.Reaches (Network.step layout keysSet calls) Interleaving.anyTurn
      Network.init n) :
    (∀ k, k ∈ members n.system.db keysSet ↔ k ≠ keysSet ∧ (n.system.db k).isSome) ∧
      (∀ raw, n.system.db keysSet ≠ some (.string raw)) ∧
      (∀ k, k ≠ keysSet → ∃ found value, contains keysSet n.system.db k = .ok found ∧
        get layout keysSet n.system.db k = .ok value ∧ (found ↔ value ≠ none)) ∧
      (∃ listed, keys keysSet n.system.db = .ok listed ∧ listed.Nodup ∧
        count keysSet n.system.db = .ok listed.length ∧
        ∀ k, k ∈ listed ↔ k ∈ members n.system.db keysSet) ∧
      (∀ keys, keysSet ∈ keys →
        get layout keysSet n.system.db keysSet = .error (.valueError reservedMsg) ∧
        contains keysSet n.system.db keysSet = .error (.valueError reservedMsg) ∧
        getMany layout keysSet n.system.db keys = .error (.valueError reservedMsg) ∧
        containsMany keysSet n.system.db keys = .error (.valueError reservedMsg)) ∧
      ∀ i, (calls i).UsesReserved keysSet →
        ((n.system.client i).phase = .start ∨
          (n.system.client i).phase = .done (.error (.valueError reservedMsg))) ∧
        ∀ n', n.step layout keysSet calls (.inl i) = some n' → n'.system.db = n.system.db := by
  have hinv := Network.inv_of_reaches h
  refine ⟨mem_members_iff hinv.consistent hinv.strings, fun raw hraw => ?_,
    fun k hk => contains_get layout hinv.consistent hinv.strings hk, keys_count hinv.consistent,
    fun keys hk => reads_rejected layout n.system.db hk, fun i hu => ?_⟩
  · have hkeys := hinv.consistent.keys
    rw [getString, hraw] at hkeys
    cases hkeys
  · refine ⟨(hinv.client i).rejected hu, fun n' hs => ?_⟩
    obtain ⟨system, hsystem, rfl⟩ := Option.map_eq_some_iff.mp hs
    rcases step_cases (hinv.client i) hsystem with ⟨c, rfl, -⟩ | ⟨hn, -⟩
    · rfl
    · exact absurd hu hn

/-! ### A run with a rejected call -/

/-- A `merge` of `"k"`, and a `delete` of the reserved key. -/
def mergeDelete : Bool → Call String (Dict String ℕ)
  | false => .setMany (.ofList [("k", .ofList [("a", 1)])]) .merge
  | true => .delete "__keys__"

/-- The end of the run: the `delete` is called between the commands of the `merge`. -/
def mergedDeleted : Option (Network Bool Unit String (Dict String ℕ) (Dict String ℕ)) :=
  Interleaving.play (Network.step ⟨id, id⟩ "__keys__" mergeDelete) Network.init
    [.inl false, .inl false, .inl true, .inl false, .inl false, .inl false]

theorem set_tracks_keys_rejected : ∃ n, mergedDeleted = some n ∧
    (n.system.db "k").isSome ∧ "k" ∈ members n.system.db "__keys__" ∧
      (n.system.client true).phase = .done (.error (.valueError reservedMsg)) := by
  obtain ⟨n, hn, hk⟩ := Option.map_eq_some_iff.mp
    (rfl : mergedDeleted.map (fun n => ((n.system.db "k").isSome,
      (n.system.client true).phase.outcome.isSome)) = some (true, true))
  obtain ⟨hexists, hdone⟩ := Prod.mk.inj hk
  obtain ⟨hmem, -, -, -, -, hcalls⟩ := set_tracks_keys ⟨id, id⟩ "__keys__" mergeDelete n
    (Interleaving.reaches_of_play hn)
  refine ⟨n, hn, hexists, (hmem "k").mpr ⟨by decide, hexists⟩, ?_⟩
  refine ((hcalls true rfl).1).resolve_left fun hstart => ?_
  rw [hstart] at hdone
  cases hdone

end Redis

end Persista
