import Persista.Store.RedisInvariant

/-!
# A Redis database with other programs in it

A Redis store does not prefix its keys: `get("a")` is `GET a`, and the store shares its database
with every other program that is given the same URL. Nothing in the store keeps them apart, so the
programs have to: here each of them has keys of its own, and those of the store include the reserved
one.

Then the others do not matter. To the clients of the store a run of the whole database is a run in
which they are alone, so what is proved of such runs holds beside other programs; and no call of the
store, `clear` included, changes a key of theirs. What makes it work is that the store never asks
which keys the database has: it lists the members of its own set.

## Main results

* `Redis.part_execBlock` — a block on the keys of the store commutes with the view of them
* `Redis.step_part` — a turn of the store is a turn on its part of the database
* `Redis.shared_database_law` — the runs of a shared database
-/

namespace Persista

namespace Redis

variable {ι κ K V R : Type} [LinearOrder K]

/-! ### The keys of the store -/

/-- The keys a command names. -/
def Command.keys : Command K R → List K
  | .set key _ | .sadd key _ | .srem key _ => [key]
  | .del keys => keys

/-- The keys a call is given. -/
def Call.keys : Call K V → List K
  | .setMany items _ => items.keys
  | .delete key => [key]
  | .deleteMany keys => keys

variable (own : K → Prop) [DecidablePred own]

/-- The part of the database under the keys of the store. -/
def part (db : Keyspace K R) : Keyspace K R := fun k => if own k then db k else none

/-- The clients of the store with its part of the database. -/
def System.part (s : System ι K V R) : System ι K V R := { s with db := Redis.part own s.db }

def Network.part (n : Network ι κ K V R) : Network ι κ K V R :=
  { n with system := n.system.part own }

/-- A turn of a client of the store, or a MULTI block of another program. -/
inductive SharedTurn (ι κ K R : Type)
  | store (turn : ι ⊕ κ)
  | others (block : List (Command K R))

/-- The next turn on the database. -/
def Network.sharedStep [DecidableEq ι] [DecidableEq κ] [ShallowMerge V] (layout : Layout V R)
    (keysSet : K) (calls : ι → Call K V) (n : Network ι κ K V R) :
    SharedTurn ι κ K R → Option (Network ι κ K V R)
  | .store turn => n.step layout keysSet calls turn
  | .others block => some { n with system := n.system.disturb block }

/-- The other programs leave the keys of the store alone. -/
def Apart (_ : Network ι κ K V R) : SharedTurn ι κ K R → Prop
  | .store _ => True
  | .others block => ∀ c ∈ block, ∀ k ∈ c.keys, ¬ own k

instance (n : Network ι κ K V R) (turn : SharedTurn ι κ K R) : Decidable (Apart own n turn) := by
  cases turn with
  | store turn => exact .isTrue trivial
  | others block => exact inferInstanceAs (Decidable (∀ c ∈ block, ∀ k ∈ c.keys, ¬ own k))

/-! ### Commands -/

variable {own} {db : Keyspace K R} {keysSet key k : K}

omit [LinearOrder K] in
theorem part_of_own (hk : own k) : part own db k = db k := if_pos hk

omit [LinearOrder K] in
theorem getString_part (hk : own k) : getString (part own db) k = getString db k := by
  rw [getString, getString, part_of_own hk]

omit [LinearOrder K] in
theorem members_part (hk : own k) : members (part own db) k = members db k := by
  rw [members, members, part_of_own hk]

theorem part_update (hk : own k) (object : Option (RedisObject K R)) :
    part own (Function.update db k object) = Function.update (part own db) k object := by
  funext j
  by_cases hj : j = k
  · subst hj
    rw [part_of_own hk, Function.update_self, Function.update_self]
  · rw [Function.update_of_ne hj, part, part, Function.update_of_ne hj]

theorem part_exec {c : Command K R} (hc : ∀ k ∈ c.keys, own k) :
    part own (c.exec db) = c.exec (part own db) := by
  cases c with
  | set key raw => exact part_update (hc key (List.mem_singleton_self key)) _
  | del keys =>
    funext j
    by_cases hj : j ∈ keys
    · simp [part, Command.exec, hj]
    · simp [part, Command.exec, hj]
  | sadd key new | srem key old =>
    have hkey : own key := hc key (List.mem_singleton_self key)
    simp only [Command.exec, getString_part hkey, members_part hkey]
    split
    · rfl
    · exact part_update hkey _

theorem modifies_part {c : Command K R} (hc : ∀ k ∈ c.keys, own k) (k : K) :
    c.modifies (part own db) k = c.modifies db k := by
  cases c with
  | set key raw => rfl
  | del keys =>
    by_cases hk : k ∈ keys
    · simp only [Command.modifies, part_of_own (hc k hk)]
    · simp [Command.modifies, hk]
  | sadd key new | srem key old =>
    simp only [Command.modifies, members_part (hc key (List.mem_singleton_self key))]

/-- **A block on the keys of the store**, seen by the store. -/
theorem part_execBlock (db : Keyspace K R) {block : List (Command K R)}
    (hb : ∀ c ∈ block, ∀ k ∈ c.keys, own k) :
    part own (execBlock db block) = execBlock (part own db) block ∧
      blockModifies (part own db) block = blockModifies db block := by
  induction block generalizing db with
  | nil => exact ⟨rfl, rfl⟩
  | cons c block ih =>
    have hc := hb c List.mem_cons_self
    obtain ⟨hexec, hmodifies⟩ := ih (c.exec db) fun c' hc' =>
      hb c' (List.mem_cons_of_mem c hc')
    rw [part_exec hc] at hexec hmodifies
    refine ⟨hexec, funext fun k => ?_⟩
    rw [blockModifies, blockModifies, modifies_part hc, hmodifies]

/-- A command modifies keys that it names. -/
theorem mem_keys_of_modifies {c : Command K R} (h : c.modifies db k = true) : k ∈ c.keys := by
  cases c with
  | set key raw => simpa [Command.modifies, Command.keys] using h
  | del keys => exact of_decide_eq_true (Bool.and_eq_true_iff.mp h).1
  | sadd key new | srem key old =>
    exact List.mem_singleton.mpr (of_decide_eq_true (Bool.and_eq_true_iff.mp h).1)

theorem blockModifies_of_not_mem {block : List (Command K R)}
    (h : ∀ c ∈ block, k ∉ c.keys) : blockModifies db block k = false := by
  induction block generalizing db with
  | nil => rfl
  | cons c block ih =>
    have hc : c.modifies db k = false := Bool.eq_false_iff.mpr fun hm =>
      h c List.mem_cons_self (mem_keys_of_modifies hm)
    rw [blockModifies, hc, ih fun c' hc' => h c' (List.mem_cons_of_mem c hc')]
    rfl

/-- **A block on other keys** changes nothing under `k`. -/
theorem execBlock_of_not_mem {block : List (Command K R)} (h : ∀ c ∈ block, k ∉ c.keys) :
    execBlock db block k = db k :=
  execBlock_of_not_modifies (blockModifies_of_not_mem h)

/-! ### The blocks of the store -/

omit [LinearOrder K] in
theorem keys_writeBlock (layout : Layout V R) {values : Dict K V} {c : Command K R}
    (hc : c ∈ writeBlock layout keysSet values) (hk : k ∈ c.keys) :
    k = keysSet ∨ k ∈ values.keys := by
  rw [writeBlock, List.mem_append] at hc
  rcases hc with hset | hadd
  · obtain ⟨row, hrow, rfl⟩ := List.mem_map.mp hset
    obtain rfl := List.mem_singleton.mp hk
    have hmem : row.1 ∈ (rows layout values).map Prod.fst := List.mem_map_of_mem hrow
    rw [← Dict.keys_mapValues values layout.valueToRow]
    exact .inr hmem
  · split at hadd
    · cases hadd
    · obtain rfl := List.mem_singleton.mp hadd
      exact .inl (List.mem_singleton.mp hk)

omit [LinearOrder K] in
theorem keys_deleteBlock {keys : List K} {c : Command K R}
    (hc : c ∈ deleteBlock keysSet keys) (hk : k ∈ c.keys) : k = keysSet ∨ k ∈ keys := by
  rcases List.mem_cons.mp hc with rfl | hrem
  · exact .inr hk
  · obtain rfl := List.mem_singleton.mp hrem
    exact .inl (List.mem_singleton.mp hk)

/-! ### A turn of the store -/

section Turns

variable [DecidableEq ι] [ShallowMerge V] {layout : Layout V R} {calls : ι → Call K V}
  {s s' : System ι K V R} {i : ι}

omit [ShallowMerge V] in
/-- A block of a client on the keys of the store. -/
theorem part_multi {block : List (Command K R)} (hb : ∀ c ∈ block, ∀ k ∈ c.keys, own k) :
    (s.multi i block).part own = (s.part own).multi i block := by
  obtain ⟨hexec, hmodifies⟩ := part_execBlock s.db hb
  rw [System.multi, System.multi, System.part, hexec]
  simp only [System.part, hmodifies]

/-- What a turn of the store does: it modifies nothing, or runs a block on the keys of the store;
and it is a turn on the part of the store. -/
structure OwnTurn (own : K → Prop) [DecidablePred own] (layout : Layout V R) (keysSet : K)
    (calls : ι → Call K V) (s : System ι K V R) (i : ι) (s' : System ι K V R) : Prop where
  cases : (∃ c, s' = s.move i c ∧ ∀ k ∈ c.watching, own k) ∨
    ∃ block, s' = s.multi i block ∧ ∀ c ∈ block, ∀ k ∈ c.keys, own k
  part : Redis.step layout keysSet calls (s.part own) i = some (s'.part own)

variable {items : Dict K V} {onConflict : OnConflict}

omit [DecidableEq ι] [ShallowMerge V] [DecidablePred own] [LinearOrder K] in
/-- What a call writes is under keys of the store. -/
theorem own_writeBlock (layout : Layout V R) (hkeys : own keysSet)
    (hitems : ∀ k ∈ items.keys, own k) {values : Dict K V}
    (hvalues : ∀ k ∈ values.keys, k ∈ items.keys) :
    ∀ c ∈ writeBlock layout keysSet values, ∀ k ∈ c.keys, own k := by
  intro c hc k hk
  rcases keys_writeBlock layout hc hk with rfl | hmem
  · exact hkeys
  · exact hitems k (hvalues k hmem)

theorem ownTurn_start (hkeys : own keysSet) (hcall : calls i = .setMany items onConflict)
    (hitems : ∀ k ∈ items.keys, own k) (hp : (s.client i).phase = .start)
    (hs : Redis.step layout keysSet calls s i = some s') :
    OwnTurn own layout keysSet calls s i s' := by
  have hp' : ((s.part own).client i).phase = .start := hp
  have hblock := own_writeBlock layout hkeys hitems fun _ h => h
  simp only [Redis.step, hcall, hp] at hs
  split_ifs at hs with he hk ho <;> cases hs
  · refine ⟨.inl ⟨_, rfl, by simp⟩, ?_⟩
    simp only [Redis.step, hcall, hp', if_pos he]
    rfl
  · refine ⟨.inl ⟨_, rfl, by simp⟩, ?_⟩
    simp only [Redis.step, hcall, hp', if_neg he, if_pos hk]
    rfl
  · refine ⟨.inr ⟨_, rfl, hblock⟩, ?_⟩
    simp only [Redis.step, hcall, hp', if_neg he, if_neg hk, if_pos ho]
    rw [part_multi hblock]
  · refine ⟨.inl ⟨_, rfl, by simp⟩, ?_⟩
    simp only [Redis.step, hcall, hp', if_neg he, if_neg hk, if_neg ho]
    rfl

theorem ownTurn_resolving (hkeys : own keysSet) (hcall : calls i = .setMany items onConflict)
    (hitems : ∀ k ∈ items.keys, own k) {conflicts : List K} {todo : List (K × V)}
    {toWrite : Dict K V} (hp : (s.client i).phase = .resolving conflicts todo toWrite)
    (htodo : ∀ item ∈ todo, item.1 ∈ items.keys) (hwrite : ∀ k ∈ toWrite.keys, k ∈ items.keys)
    (hwatch : ∀ k ∈ (s.client i).watching, own k)
    (hs : Redis.step layout keysSet calls s i = some s') :
    OwnTurn own layout keysSet calls s i s' := by
  have hp' : ((s.part own).client i).phase = .resolving conflicts todo toWrite := hp
  cases todo with
  | cons item todo =>
    simp only [Redis.step, hcall, hp] at hs
    cases hs
    refine ⟨.inl ⟨_, rfl, hwatch⟩, ?_⟩
    have hitem : own item.1 := hitems _ (htodo item List.mem_cons_self)
    have hresolve : resolveItem conflicts onConflict
          (fun k => (getString (s.part own).db k).map layout.rowToValue) toWrite item =
        resolveItem conflicts onConflict
          (fun k => (getString s.db k).map layout.rowToValue) toWrite item :=
      resolveItem_congr (congrArg _ (getString_part hitem))
    simp only [Redis.step, hcall, hp', hresolve]
    rfl
  | nil =>
    simp only [Redis.step, hcall, hp] at hs
    split_ifs at hs with hdirty <;> cases hs
    · have hdirty' : ((s.part own).client i).dirty = true := hdirty
      refine ⟨.inl ⟨_, rfl, by simp⟩, ?_⟩
      simp only [Redis.step, hcall, hp', if_pos hdirty']
      rfl
    · have hdirty' : ¬ ((s.part own).client i).dirty = true := hdirty
      have hblock := own_writeBlock layout hkeys hitems hwrite
      refine ⟨.inr ⟨_, rfl, hblock⟩, ?_⟩
      simp only [Redis.step, hcall, hp', if_neg hdirty']
      rw [part_multi hblock]

theorem ownTurn_setMany (hkeys : own keysSet) (hcall : calls i = .setMany items onConflict)
    (hitems : ∀ k ∈ items.keys, own k)
    (hsafe : ClientSafe keysSet (.setMany items onConflict) (s.client i))
    (hwatch : ∀ k ∈ (s.client i).watching, own k)
    (hs : Redis.step layout keysSet calls s i = some s') :
    OwnTurn own layout keysSet calls s i s' := by
  cases hp : (s.client i).phase with
  | start => exact ownTurn_start hkeys hcall hitems hp hs
  | watch =>
    have hp' : ((s.part own).client i).phase = .watch := hp
    simp only [Redis.step, hcall, hp] at hs
    cases hs
    refine ⟨.inl ⟨_, rfl, hitems⟩, ?_⟩
    simp only [Redis.step, hcall, hp']
    rfl
  | watched =>
    have hp' : ((s.part own).client i).phase = .watched := hp
    have hmembers : members (s.part own).db keysSet = members s.db keysSet := members_part hkeys
    simp only [Redis.step, hcall, hp] at hs
    split_ifs at hs with hraise <;> cases hs
    · refine ⟨.inl ⟨_, rfl, by simp⟩, ?_⟩
      simp only [Redis.step, hcall, hp', hmembers, if_pos hraise]
      rfl
    · refine ⟨.inl ⟨_, rfl, hwatch⟩, ?_⟩
      simp only [Redis.step, hcall, hp', hmembers, if_neg hraise]
      rfl
  | resolving conflicts todo toWrite =>
    obtain ⟨htodo, hwrite⟩ := hsafe.resolving _ _ _ _ _ rfl hp
    exact ownTurn_resolving hkeys hcall hitems hp htodo hwrite hwatch hs
  | done o =>
    simp only [Redis.step, hcall, hp] at hs
    cases hs

omit [DecidableEq ι] [ShallowMerge V] [DecidablePred own] [LinearOrder K] in
theorem own_deleteBlock (hkeys : own keysSet) {keys : List K} (hall : ∀ k ∈ keys, own k) :
    ∀ c ∈ deleteBlock (R := R) keysSet keys, ∀ k ∈ c.keys, own k := by
  intro c hc k hk
  rcases keys_deleteBlock hc hk with rfl | hmem
  · exact hkeys
  · exact hall k hmem

/-- **A turn of the store.** -/
theorem ownTurn (hkeys : own keysSet) (hcalls : ∀ k ∈ (calls i).keys, own k)
    (hsafe : ClientSafe keysSet (calls i) (s.client i))
    (hwatch : ∀ k ∈ (s.client i).watching, own k)
    (hs : Redis.step layout keysSet calls s i = some s') :
    OwnTurn own layout keysSet calls s i s' := by
  cases hcall : calls i with
  | setMany items onConflict =>
    rw [hcall] at hcalls hsafe
    exact ownTurn_setMany hkeys hcall hcalls hsafe hwatch hs
  | delete key =>
    rw [hcall] at hcalls
    have hblock := own_deleteBlock (R := R) hkeys hcalls
    cases hp : (s.client i).phase <;> simp only [Redis.step, hcall, hp] at hs <;> try cases hs
    have hp' : ((s.part own).client i).phase = .start := hp
    split_ifs at hs with hk <;> cases hs
    · refine ⟨.inl ⟨_, rfl, by simp⟩, ?_⟩
      simp only [Redis.step, hcall, hp', if_pos hk]
      rfl
    · refine ⟨.inr ⟨_, rfl, hblock⟩, ?_⟩
      simp only [Redis.step, hcall, hp', if_neg hk]
      exact congrArg some (part_multi hblock).symm
  | deleteMany keys =>
    rw [hcall] at hcalls
    have hblock := own_deleteBlock (R := R) hkeys hcalls
    cases hp : (s.client i).phase <;> simp only [Redis.step, hcall, hp] at hs <;> try cases hs
    have hp' : ((s.part own).client i).phase = .start := hp
    split_ifs at hs with he hk <;> cases hs
    · refine ⟨.inl ⟨_, rfl, by simp⟩, ?_⟩
      simp only [Redis.step, hcall, hp', if_pos he]
      rfl
    · refine ⟨.inl ⟨_, rfl, by simp⟩, ?_⟩
      simp only [Redis.step, hcall, hp', if_neg he, if_pos hk]
      rfl
    · refine ⟨.inr ⟨_, rfl, hblock⟩, ?_⟩
      simp only [Redis.step, hcall, hp', if_neg he, if_neg hk]
      exact congrArg some (part_multi hblock).symm

end Turns

/-! ### Runs beside other programs -/

namespace Network

open Interleaving

variable [DecidableEq ι] [DecidableEq κ] [ShallowMerge V] {layout : Layout V R}
  {calls : ι → Call K V} {n n' : Network ι κ K V R}

/-- The clients watch keys of the store and delete keys of the store, and its part of the database
is as the store keeps it. -/
structure Beside (own : K → Prop) [DecidablePred own] (keysSet : K) (calls : ι → Call K V)
    (n : Network ι κ K V R) : Prop where
  watching : ∀ i, ∀ k ∈ (n.system.client i).watching, own k
  deleting : ∀ j keys, n.clear j = .deleting keys → ∀ k ∈ keys, own k
  part : Inv keysSet calls (n.part own)

/-- The store sees a turn of its own, or nothing at all. -/
def Seen (own : K → Prop) [DecidablePred own] (layout : Layout V R) (keysSet : K)
    (calls : ι → Call K V) (n n' : Network ι κ K V R) : Prop :=
  n'.part own = n.part own ∨
    ∃ turn, (n.part own).step layout keysSet calls turn = some (n'.part own)

/-- No key of another program has changed. -/
def Spares (own : K → Prop) (n n' : Network ι κ K V R) : Prop :=
  ∀ k, ¬ own k → n'.system.db k = n.system.db k

omit [DecidableEq ι] [DecidableEq κ] [ShallowMerge V] [DecidablePred own] in
theorem execBlock_of_own {block : List (Command K R)}
    (hb : ∀ c ∈ block, ∀ k ∈ c.keys, own k) (hk : ¬ own k) : execBlock db block k = db k :=
  execBlock_of_not_mem fun c hc hmem => hk (hb c hc k hmem)

theorem Beside.call (h : Beside own keysSet calls n) (hkeys : own keysSet)
    (hcalls : ∀ i, ∀ k ∈ (calls i).keys, own k) {i : ι} {system : System ι K V R}
    (hs : Redis.step layout keysSet calls n.system i = some system) :
    Beside own keysSet calls { n with system } ∧ Seen own layout keysSet calls n { n with system } ∧
      Spares own n { n with system } := by
  have hsafe : ClientSafe keysSet (calls i) (n.system.client i) := h.part.client i
  obtain ⟨hcases, hpart⟩ := ownTurn hkeys (hcalls i) hsafe (h.watching i) hs
  have hseen : (n.part own).step layout keysSet calls (.inl i) =
      some (({ n with system } : Network ι κ K V R).part own) :=
    (congrArg (Option.map _) hpart).trans rfl
  have hinv := h.part.step hseen
  refine ⟨⟨fun j => ?_, h.deleting, hinv⟩, .inr ⟨_, hseen⟩, fun k hk => ?_⟩
  · rcases hcases with ⟨c, rfl, hc⟩ | ⟨block, rfl, -⟩
    · rcases eq_or_ne j i with rfl | hj
      · simpa [System.move] using hc
      · simpa [System.move, hj] using h.watching j
    · rcases eq_or_ne j i with rfl | hj
      · simp [System.multi]
      · simpa [System.multi, hj] using h.watching j
  · rcases hcases with ⟨c, rfl, -⟩ | ⟨block, rfl, hb⟩
    · rfl
    · exact execBlock_of_own hb hk

omit [DecidableEq ι] [ShallowMerge V] in
/-- A block that is not one of the calls', seen by the store. -/
theorem part_disturb (s : System ι K V R) {block : List (Command K R)}
    (hb : ∀ c ∈ block, ∀ k ∈ c.keys, own k) :
    (s.disturb block).part own = (s.part own).disturb block := by
  obtain ⟨hexec, hmodifies⟩ := part_execBlock s.db hb
  rw [System.disturb, System.disturb, System.part, hexec]
  simp only [System.part, hmodifies]

omit [DecidableEq ι] [DecidableEq κ] [ShallowMerge V] in
theorem keys_part (hkeys : own keysSet) (db : Keyspace K R) :
    keys keysSet (Redis.part own db) = keys keysSet db := by
  rw [keys, keys, setCommand, setCommand, getString_part hkeys, members_part hkeys]

omit [DecidableEq ι] [DecidableEq κ] [ShallowMerge V] in
/-- The keys the store lists are its own. -/
theorem Beside.own_of_keys (h : Beside own keysSet calls n) {listed : List K}
    (hlisted : keys keysSet (n.part own).system.db = .ok listed) : ∀ k ∈ listed, own k := by
  intro k hk
  obtain ⟨listed', hlisted', -, -, hmem⟩ := keys_count h.part.consistent
  obtain rfl := Except.ok.inj (hlisted.symm.trans hlisted')
  have hsome := (h.part.consistent.mem_iff k).mp ((hmem k).mp hk)
  by_contra hno
  have hnone : contents keysSet (Redis.part own n.system.db) k = none := by
    rw [contents, getString, Redis.part, if_neg hno]
    split <;> rfl
  change (contents keysSet (Redis.part own n.system.db) k).isSome = true at hsome
  rw [hnone] at hsome
  cases hsome

omit [DecidableEq ι] [ShallowMerge V] in
theorem Beside.deleting_update (h : Beside own keysSet calls n) {j : κ} {phase : ClearPhase K}
    (hphase : ∀ keys, phase = .deleting keys → ∀ k ∈ keys, own k) (j' : κ) (keys : List K)
    (hj : Function.update n.clear j phase j' = .deleting keys) : ∀ k ∈ keys, own k := by
  by_cases heq : j' = j
  · subst heq
    rw [Function.update_self] at hj
    exact hphase keys hj
  · rw [Function.update_of_ne heq] at hj
    exact h.deleting j' keys hj

omit [DecidableEq ι] [ShallowMerge V] in
/-- A turn of a `clear`, seen by the store. -/
theorem Beside.clearStep_part (h : Beside own keysSet calls n) (hkeys : own keysSet) {j : κ}
    (hs : n.clearStep keysSet j = some n') :
    (n.part own).clearStep keysSet j = some (n'.part own) ∧
      (∀ i, ∀ k ∈ (n'.system.client i).watching, own k) ∧
      (∀ j keys, n'.clear j = .deleting keys → ∀ k ∈ keys, own k) ∧ Spares own n n' := by
  cases hp : n.clear j with
  | start =>
    have hp' : (n.part own).clear j = .start := hp
    have hlisted : keys keysSet (n.part own).system.db = keys keysSet n.system.db :=
      keys_part hkeys _
    cases hread : keys keysSet n.system.db with
    | ok listed =>
      simp only [clearStep, hp, hread] at hs
      cases hs
      rw [hread] at hlisted
      refine ⟨?_, h.watching, h.deleting_update fun keys hphase => ?_, fun k _ => rfl⟩
      · simp only [clearStep, hp', hlisted]
        rfl
      · cases hphase
        exact h.own_of_keys hlisted
    | error e =>
      simp only [clearStep, hp, hread] at hs
      cases hs
      rw [hread] at hlisted
      refine ⟨?_, h.watching, h.deleting_update (by simp), fun k _ => rfl⟩
      simp only [clearStep, hp', hlisted]
      rfl
  | deleting keys =>
    have hp' : (n.part own).clear j = .deleting keys := hp
    have hblock := own_deleteBlock (R := R) hkeys (h.deleting j keys hp)
    simp only [clearStep, hp] at hs
    split_ifs at hs with he hk <;> cases hs
    · refine ⟨?_, h.watching, h.deleting_update (by simp), fun k _ => rfl⟩
      simp only [clearStep, hp', if_pos he]
      rfl
    · refine ⟨?_, h.watching, h.deleting_update (by simp), fun k _ => rfl⟩
      simp only [clearStep, hp', if_neg he, if_pos hk]
      rfl
    · refine ⟨?_, h.watching, h.deleting_update (by simp),
        fun k hno => execBlock_of_own hblock hno⟩
      simp only [clearStep, hp', if_neg he, if_neg hk]
      exact congrArg (fun system => some (Network.mk system (Function.update n.clear j
        (.done (.ok ()))))) (part_disturb n.system hblock).symm
  | done o =>
    simp only [clearStep, hp] at hs
    cases hs

omit [DecidableEq ι] [DecidableEq κ] [ShallowMerge V] in
/-- A block of another program. -/
theorem Beside.others (h : Beside own keysSet calls n) {block : List (Command K R)}
    (hb : ∀ c ∈ block, ∀ k ∈ c.keys, ¬ own k) :
    Beside own keysSet calls { n with system := n.system.disturb block } ∧
      ({ n with system := n.system.disturb block } : Network ι κ K V R).part own = n.part own := by
  have hdb : Redis.part own (execBlock n.system.db block) = Redis.part own n.system.db := by
    funext k
    by_cases hk : own k
    · rw [part_of_own hk, part_of_own hk]
      exact execBlock_of_not_mem fun c hc hmem => hb c hc k hmem hk
    · rw [Redis.part, Redis.part, if_neg hk, if_neg hk]
  have hclient : (n.system.disturb block).client = n.system.client := by
    funext i
    have hany : (n.system.client i).watching.any (blockModifies n.system.db block) = false := by
      refine List.any_eq_false.mpr fun k hk => ?_
      rw [blockModifies_of_not_mem fun c hc hmem => hb c hc k hmem (h.watching i k hk)]
      exact Bool.false_ne_true
    simp only [System.disturb, hany, Bool.or_false]
  have hpart : ({ n with system := n.system.disturb block } : Network ι κ K V R).part own =
      n.part own := by
    have hsystem : (n.system.disturb block).part own = n.system.part own := by
      rw [System.part, System.part, hclient]
      exact congrArg (System.mk · n.system.client) hdb
    exact congrArg (Network.mk · n.clear) hsystem
  refine ⟨⟨fun i k hk => h.watching i k ?_, h.deleting, hpart ▸ h.part⟩, hpart⟩
  rw [← hclient]
  exact hk

/-- **A turn on the database.** -/
theorem Beside.step (h : Beside own keysSet calls n) (hkeys : own keysSet)
    (hcalls : ∀ i, ∀ k ∈ (calls i).keys, own k) {turn : SharedTurn ι κ K R}
    (hG : Apart own n turn) (hs : n.sharedStep layout keysSet calls turn = some n') :
    Beside own keysSet calls n' ∧ Seen own layout keysSet calls n n' := by
  cases turn with
  | store turn =>
    cases turn with
    | inl i =>
      obtain ⟨system, hsystem, rfl⟩ := Option.map_eq_some_iff.mp hs
      obtain ⟨hbeside, hseen, -⟩ := h.call hkeys hcalls hsystem
      exact ⟨hbeside, hseen⟩
    | inr j =>
      obtain ⟨hpart, hwatching, hdeleting, -⟩ := h.clearStep_part hkeys hs
      have hstep : (n.part own).step layout keysSet calls (.inr j) = some (n'.part own) := hpart
      exact ⟨⟨hwatching, hdeleting, h.part.step hstep⟩, .inr ⟨_, hstep⟩⟩
  | others block =>
    cases hs
    obtain ⟨hbeside, hpart⟩ := h.others hG
    exact ⟨hbeside, .inl hpart⟩

theorem Beside.spares (h : Beside own keysSet calls n) (hkeys : own keysSet)
    (hcalls : ∀ i, ∀ k ∈ (calls i).keys, own k) {turn : ι ⊕ κ}
    (hs : n.step layout keysSet calls turn = some n') : Spares own n n' := by
  cases turn with
  | inl i =>
    obtain ⟨system, hsystem, rfl⟩ := Option.map_eq_some_iff.mp hs
    exact (h.call hkeys hcalls hsystem).2.2
  | inr j => exact (h.clearStep_part hkeys hs).2.2.2

end Network

/-! ### The reads -/

/-- The reads of the store, on keys of the store, answer the same. -/
structure SameReads (own : K → Prop) (layout : Layout V R) (keysSet : K) (db db' : Keyspace K R) :
    Prop where
  get : ∀ key, own key → get layout keysSet db key = get layout keysSet db' key
  getMany : ∀ keys, (∀ k ∈ keys, own k) →
    getMany layout keysSet db keys = getMany layout keysSet db' keys
  contains : ∀ key, contains keysSet db key = contains keysSet db' key
  containsMany : ∀ keys, containsMany keysSet db keys = containsMany keysSet db' keys
  keys : keys keysSet db = keys keysSet db'
  count : count keysSet db = count keysSet db'

theorem sameReads_part (layout : Layout V R) (hkeys : own keysSet) (db : Keyspace K R) :
    SameReads own layout keysSet (part own db) db := by
  have hset : ∀ {α : Type} (answer : Finset K → α),
      setCommand (part own db) keysSet answer = setCommand db keysSet answer := fun answer => by
    rw [setCommand, setCommand, getString_part hkeys, members_part hkeys]
  refine ⟨fun key hkey => ?_, fun keys hall => ?_, fun key => ?_, fun keys => ?_, hset _, hset _⟩
  · simp only [get, getCommand, part_of_own hkey]
  · have hvalues : (keys.map fun key => (getString (part own db) key).map layout.rowToValue) =
        keys.map fun key => (getString db key).map layout.rowToValue :=
      List.map_congr_left fun key hkey => congrArg _ (getString_part (hall key hkey))
    simp only [getMany, hvalues]
  · simp only [contains, hset]
  · simp only [containsMany, hset]

open Interleaving in
/-- **A shared database.** When the clients of a store are given keys of its own and the other
programs leave those alone, then in whatever order they take their turns: the clients see a run in
which they have the database to themselves, their reads answer what they would answer there, the
set holds the keys of the store that exist and no others, and no turn of the store changes a key of
another program. -/
theorem shared_database_law [DecidableEq ι] [DecidableEq κ] [ShallowMerge V] (layout : Layout V R)
    (keysSet : K) (hkeys : own keysSet) (calls : ι → Call K V)
    (hcalls : ∀ i, ∀ k ∈ (calls i).keys, own k) (db : Keyspace K R)
    (hfree : ∀ k, own k → db k = none) {n : Network ι κ K V R}
    (h : Reaches (Network.sharedStep layout keysSet calls) (Apart own)
      ⟨Redis.init db, fun _ => .start⟩ n) :
    Reaches (Network.step layout keysSet calls) anyTurn Network.init (n.part own) ∧
      SameReads own layout keysSet (part own n.system.db) n.system.db ∧
      (∀ k, k ∈ members n.system.db keysSet ↔ own k ∧ k ≠ keysSet ∧ (n.system.db k).isSome) ∧
      ∀ turn n', n.sharedStep layout keysSet calls (.store turn) = some n' →
        ∀ k, ¬ own k → n'.system.db k = n.system.db k := by
  have hempty : (⟨Redis.init db, fun _ => .start⟩ : Network ι κ K V R).part own =
      Network.init := by
    have hdb : part own db = fun _ => none := by
      funext k
      rw [part]
      split
      · next hk => exact hfree k hk
      · rfl
    exact congrArg (fun db => (⟨Redis.init db, fun _ => .start⟩ : Network ι κ K V R)) hdb
  have hstart : Network.Beside own keysSet calls
      (⟨Redis.init db, fun _ => .start⟩ : Network ι κ K V R) :=
    ⟨fun i k hk => absurd hk List.not_mem_nil, by simp, hempty ▸ Network.inv_init⟩
  obtain ⟨hbeside, hruns⟩ := h.project hstart fun _ _ _ hi hG hs => hi.step hkeys hcalls hG hs
  rw [hempty] at hruns
  refine ⟨hruns, sameReads_part layout hkeys n.system.db, fun k => ?_,
    fun turn n' hs => hbeside.spares hkeys hcalls hs⟩
  have hmem : k ∈ members (part own n.system.db) keysSet ↔
      k ≠ keysSet ∧ (part own n.system.db k).isSome :=
    mem_members_iff hbeside.part.consistent hbeside.part.strings k
  rw [members_part hkeys] at hmem
  rw [hmem]
  by_cases hk : own k
  · rw [part_of_own hk]
    exact (and_iff_right hk).symm
  · simp [part, hk]

/-! ### A store beside another program -/

/-- The store has the key `"k"`; all others belong to somebody else. -/
def ownsK (key : String) : Prop := key = "k" ∨ key = "__keys__"

instance : DecidablePred ownsK := fun _ => inferInstanceAs (Decidable (_ ∨ _))

/-- A `set_many` and a `delete`. -/
def setDelete : Bool → Call String (Dict String ℕ)
  | false => .setMany (.ofList [("k", .ofList [("a", 1)])]) .merge
  | true => .delete "k"

/-- Another program sets a key after the store has set its own, and before the store deletes it. -/
def deletedBeside : Option (Network Bool Unit String (Dict String ℕ) (Dict String ℕ)) :=
  Interleaving.play (Interleaving.guarded (Network.sharedStep ⟨id, id⟩ "__keys__" setDelete)
      (Apart ownsK)) ⟨Redis.init fun _ => none, fun _ => .start⟩
    (List.replicate 5 (.store (.inl false)) ++
      [.others [.set "session" ∅], .store (.inl true)])

theorem shared_database_law_delete : ∃ n, deletedBeside = some n ∧
    (n.system.db "k").isNone ∧ (n.system.db "session").isSome ∧
      "session" ∉ members n.system.db "__keys__" := by
  obtain ⟨n, hn, hk⟩ := Option.map_eq_some_iff.mp
    (rfl : deletedBeside.map (fun n => ((n.system.db "k").isNone,
      (n.system.db "session").isSome)) = some (true, true))
  obtain ⟨hgone, hthere⟩ := Prod.mk.inj hk
  have hcalls : ∀ i, ∀ k ∈ (setDelete i).keys, ownsK k := by
    rintro (- | -) k hk
    · exact .inl (List.mem_singleton.mp hk)
    · exact .inl (List.mem_singleton.mp hk)
  obtain ⟨-, -, hmem, -⟩ := shared_database_law ⟨id, id⟩ "__keys__"
    (Or.inr rfl : ownsK "__keys__") setDelete hcalls (fun _ => none) (fun _ _ => rfl)
    (Interleaving.reaches_of_play_guarded hn)
  refine ⟨n, hn, hgone, hthere, fun hlisted => ?_⟩
  exact absurd ((hmem "session").mp hlisted).1 (by decide)

end Redis

end Persista
