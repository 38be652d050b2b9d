import Mathlib.Data.List.Nodup
import Mathlib.Data.List.TakeWhile
import Mathlib.Logic.Function.Basic

/-!
# Read-only tables

The code of `lrotable.c` for tables of entries. `luaR_next` finds the entry after a key by looking
the key up, and copies names to a buffer first. `luaR_getcstr` has room for 32 characters and takes
31.

How `lua_Number` has the integers of `luaR_numkey` is a parameter.

## Main definitions

* `LuaREntry`, `luaRFindentry`, `luaRNext` : the entries and the functions.
* `luaRIterate` : an iteration from nil on.
* `Visits` : it visits every entry once, and each key is found.

## Main results

* `luaRNext_visits_iff` : the tables whose entries are visited.
-/

namespace ELuaBrain.Lua

/-! ### The code -/

/-- `LUA_MAX_ROTABLE_NAME`. -/
def luaMaxRotableName : ℕ := 32

/-- `luaR_key`; there is no zero in a string of C. -/
inductive LuaRKey where
  | string (strkey : { s : List UInt8 // 0 ∉ s })
  | number (numkey : Int32)
  deriving DecidableEq

/-- `TValue`, with what it has for strings and numbers. -/
inductive TValue (Number Other : Type*) where
  | nil
  | string (s : List UInt8)
  | number (n : Number)
  | other (v : Other)

/-- `luaR_entry`. The end of the table is the end of the list. -/
structure LuaREntry (Number Other : Type*) where
  key : LuaRKey
  value : TValue Number Other

section Functions

variable {Number Other : Type*} (toNumber : Int32 → Number) (ofNumber : Number → Int32)
  (table : List (LuaREntry Number Other))

/-- The key of an entry is the one that is looked for. -/
def LuaRKey.Matches (strkey : Option (List UInt8)) (numkey : Int32) : LuaRKey → Prop
  | .string s => strkey = some s.1
  | .number n => strkey = none ∧ n = numkey

instance LuaRKey.Matches.decidable (strkey : Option (List UInt8)) (numkey : Int32)
    (key : LuaRKey) : Decidable (key.Matches strkey numkey) := by
  cases key <;> unfold LuaRKey.Matches <;> infer_instance

/-- The loop of `luaR_auxfind`, with what goes to `*ppos`. -/
def luaRAuxfind (strkey : Option (List UInt8)) (numkey : Int32) :
    List (LuaREntry Number Other) → ℕ → Option (TValue Number Other × ℕ)
  | [], _ => none
  | e :: es, i =>
      if e.key.Matches strkey numkey then some (e.value, i)
      else luaRAuxfind strkey numkey es (i + 1)

/-- `luaR_findentry`. -/
def luaRFindentry (strkey : Option (List UInt8)) (numkey : Int32) :
    Option (TValue Number Other × ℕ) :=
  luaRAuxfind strkey numkey table 0

/-- `luaR_getcstr`, with the string in `dest`. -/
def luaRGetcstr (src : List UInt8) (maxsize : ℕ) : List UInt8 :=
  if src.length + 1 > maxsize then [] else src.takeWhile (· ≠ 0)

/-- The key of an entry as a value. -/
def LuaRKey.toTValue : LuaRKey → TValue Number Other
  | .string s => .string s.1
  | .number n => .number (toNumber n)

/-- `luaR_next_helper`, which must not read behind the end of the table. -/
def luaRNextHelper (pos : ℕ) : Option (TValue Number Other × TValue Number Other) :=
  match table[pos]? with
  | some e => some (e.key.toTValue toNumber, e.value)
  | none => if pos = table.length then some (.nil, .nil) else none

/-- `luaR_next`. If the key is not found, `keypos` has no value. -/
def luaRNext (key val : TValue Number Other) :
    Option (TValue Number Other × TValue Number Other) :=
  match key with
  | .nil => luaRNextHelper toNumber table 0
  | .string s => do
      let (_, keypos) ← luaRFindentry table (some (luaRGetcstr s luaMaxRotableName)) 0
      luaRNextHelper toNumber table (keypos + 1)
  | .number n => do
      let (_, keypos) ← luaRFindentry table none (ofNumber n)
      luaRNextHelper toNumber table (keypos + 1)
  | .other _ => some (key, val)

/-- What `luaR_next` returns after it was called `n` times before, from nil on. -/
def luaRIterate : ℕ → Option (TValue Number Other × TValue Number Other)
  | 0 => luaRNext toNumber ofNumber table .nil .nil
  | n + 1 => (luaRIterate n).bind fun r => luaRNext toNumber ofNumber table r.1 r.2

/-- `luaR_findentry` for the key of an entry. -/
def LuaRKey.find (key : LuaRKey) : Option (TValue Number Other × ℕ) :=
  match key with
  | .string s => luaRFindentry table (some s.1) 0
  | .number n => luaRFindentry table none n

/-- An iteration visits every entry once, in the order of the table, and ends with nil, and the key
of each entry finds its value. -/
structure Visits : Prop where
  entry : ∀ i (h : i < table.length), luaRIterate toNumber ofNumber table i =
    some (table[i].key.toTValue toNumber, table[i].value)
  last : luaRIterate toNumber ofNumber table table.length = some (.nil, .nil)
  find : ∀ i (h : i < table.length), table[i].key.find table = some (table[i].value, i)

end Functions

/-! ### Looking a key up -/

section Find

variable {Number Other : Type*} {toNumber : Int32 → Number} {ofNumber : Number → Int32}
  {table : List (LuaREntry Number Other)}

/-- What is looked for with the key of an entry. -/
def LuaRKey.name : LuaRKey → Option (List UInt8)
  | .string s => some s.1
  | .number _ => none

def LuaRKey.num : LuaRKey → Int32
  | .string _ => 0
  | .number n => n

theorem LuaRKey.matches_iff {k key : LuaRKey} : k.Matches key.name key.num ↔ k = key := by
  cases k with
  | string s =>
    cases key with
    | string s' => simp [Matches, name, Subtype.ext_iff, eq_comm]
    | number n => simp [Matches, name]
  | number n =>
    cases key with
    | string s' => simp [Matches, name]
    | number n' => simp [Matches, name, num]

theorem LuaRKey.find_eq (key : LuaRKey) :
    key.find table = luaRAuxfind key.name key.num table 0 := by
  cases key <;> rfl

/-- **The key of an entry** is found at its place. -/
theorem luaRAuxfind_key {l : List (LuaREntry Number Other)}
    (hnodup : (l.map LuaREntry.key).Nodup) (j : ℕ) (hj : j < l.length) (i : ℕ) :
    luaRAuxfind l[j].key.name l[j].key.num l i = some (l[j].value, i + j) := by
  induction l generalizing i j with
  | nil => exact absurd hj (Nat.not_lt_zero j)
  | cons e l ih =>
    obtain ⟨hnot, hnodup⟩ := List.nodup_cons.mp hnodup
    cases j with
    | zero => exact if_pos (LuaRKey.matches_iff.mpr rfl)
    | succ j =>
      have hj' : j < l.length := Nat.lt_of_succ_lt_succ hj
      have hne : ¬e.key.Matches l[j].key.name l[j].key.num := fun hmatch =>
        hnot (LuaRKey.matches_iff.mp hmatch ▸ List.mem_map_of_mem (List.getElem_mem hj'))
      rw [List.getElem_cons_succ, luaRAuxfind, if_neg hne, ih hnodup j hj', Nat.add_right_comm,
        Nat.add_assoc]

theorem LuaRKey.find_getElem (hnodup : (table.map LuaREntry.key).Nodup) (i : ℕ)
    (hi : i < table.length) : table[i].key.find table = some (table[i].value, i) := by
  rw [LuaRKey.find_eq, luaRAuxfind_key hnodup i hi, Nat.zero_add]

/-- What is found is in the table. -/
theorem luaRAuxfind_some {l : List (LuaREntry Number Other)} {strkey : Option (List UInt8)}
    {numkey : Int32} {i p : ℕ} {v : TValue Number Other}
    (h : luaRAuxfind strkey numkey l i = some (v, p)) :
    ∃ j, ∃ hj : j < l.length, p = i + j ∧ l[j].key.Matches strkey numkey := by
  induction l generalizing i with
  | nil => cases h
  | cons e l ih =>
    rw [luaRAuxfind] at h
    split_ifs at h with hmatch
    · obtain ⟨-, rfl⟩ := Prod.mk.inj (Option.some.inj h)
      exact ⟨0, Nat.zero_lt_succ _, rfl, hmatch⟩
    · obtain ⟨j, hj, hp, hmatch⟩ := ih h
      exact ⟨j + 1, Nat.succ_lt_succ hj, by omega, hmatch⟩

end Find

/-! ### Iterating -/

section Iterate

variable {Number Other : Type*} {toNumber : Int32 → Number} {ofNumber : Number → Int32}
  {table : List (LuaREntry Number Other)}

theorem luaRNextHelper_lt {i : ℕ} (hi : i < table.length) :
    luaRNextHelper toNumber table i = some (table[i].key.toTValue toNumber, table[i].value) := by
  rw [luaRNextHelper, List.getElem?_eq_getElem hi]

theorem luaRNextHelper_length :
    luaRNextHelper toNumber table table.length = some (.nil, .nil) := by
  rw [luaRNextHelper, List.getElem?_eq_none (Nat.le_refl _)]
  exact if_pos rfl

theorem luaRNextHelper_some (toNumber : Int32 → Number) {i : ℕ} (hi : i ≤ table.length) :
    ∃ r, luaRNextHelper toNumber table i = some r := by
  rcases Nat.lt_or_eq_of_le hi with hi | rfl
  · exact ⟨_, luaRNextHelper_lt hi⟩
  · exact ⟨_, luaRNextHelper_length⟩

theorem Visits.iterate (h : Visits toNumber ofNumber table) (i : ℕ) (hi : i ≤ table.length) :
    luaRIterate toNumber ofNumber table i = luaRNextHelper toNumber table i := by
  rcases Nat.lt_or_eq_of_le hi with hi | rfl
  · rw [h.entry i hi, luaRNextHelper_lt hi]
  · rw [h.last, luaRNextHelper_length]

theorem luaRGetcstr_of_le {s : List UInt8} (hs : 0 ∉ s) {maxsize : ℕ}
    (hlen : s.length + 1 ≤ maxsize) : luaRGetcstr s maxsize = s := by
  rw [luaRGetcstr, if_neg (Nat.not_lt.mpr hlen), List.takeWhile_eq_self_iff]
  exact fun c hc => decide_eq_true fun hzero => hs (hzero ▸ hc)

/-- The key is no name, or one that `luaR_getcstr` takes. -/
def LuaRKey.Short : LuaRKey → Prop
  | .string s => s.1.length + 1 ≤ luaMaxRotableName
  | .number _ => True

/-- **After the key of an entry** comes the next entry. -/
theorem luaRNext_key (hof : Function.LeftInverse ofNumber toNumber)
    (hnodup : (table.map LuaREntry.key).Nodup) {i : ℕ} (hi : i < table.length)
    (hshort : table[i].key.Short) (val : TValue Number Other) :
    luaRNext toNumber ofNumber table (table[i].key.toTValue toNumber) val =
      luaRNextHelper toNumber table (i + 1) := by
  have hfind := LuaRKey.find_getElem hnodup i hi
  generalize table[i].key = key at hshort hfind
  cases key with
  | string s =>
    rw [LuaRKey.find] at hfind
    rw [LuaRKey.toTValue, luaRNext, luaRGetcstr_of_le s.2 hshort, hfind]
    rfl
  | number n =>
    rw [LuaRKey.find] at hfind
    rw [LuaRKey.toTValue, luaRNext, hof, hfind]
    rfl

theorem LuaRKey.toTValue_injective (hof : Function.LeftInverse ofNumber toNumber) :
    Function.Injective (@toTValue _ Other toNumber) := by
  intro k k' h
  cases k with
  | string s =>
    cases k' with
    | string s' => exact congrArg _ (Subtype.ext (TValue.string.inj h))
    | number n => cases h
  | number n =>
    cases k' with
    | string s' => cases h
    | number n' => exact congrArg _ (hof.injective (TValue.number.inj h))

/-- Different places of the table look different. -/
theorem luaRNextHelper_inj (hof : Function.LeftInverse ofNumber toNumber)
    (hnodup : (table.map LuaREntry.key).Nodup) {i j : ℕ} (hi : i ≤ table.length)
    (hj : j ≤ table.length)
    (h : luaRNextHelper toNumber table i = luaRNextHelper toNumber table j) : i = j := by
  have hne (key : LuaRKey) (value : TValue Number Other) :
      some ((key.toTValue toNumber : TValue Number Other), value) ≠ some (.nil, .nil) := by
    cases key <;> nofun
  rcases Nat.lt_or_eq_of_le hi with hi | rfl
  · rcases Nat.lt_or_eq_of_le hj with hj | rfl
    · rw [luaRNextHelper_lt hi, luaRNextHelper_lt hj] at h
      have hkey := LuaRKey.toTValue_injective hof (Prod.mk.inj (Option.some.inj h)).1
      have hi' : i < (table.map LuaREntry.key).length := by rwa [List.length_map]
      have hj' : j < (table.map LuaREntry.key).length := by rwa [List.length_map]
      have heq : (table.map LuaREntry.key)[i] = (table.map LuaREntry.key)[j] := by
        rwa [List.getElem_map, List.getElem_map]
      exact hnodup.getElem_inj_iff.mp heq
    · rw [luaRNextHelper_lt hi, luaRNextHelper_length] at h
      exact absurd h (hne _ _)
  · rcases Nat.lt_or_eq_of_le hj with hj | rfl
    · rw [luaRNextHelper_lt hj, luaRNextHelper_length] at h
      exact absurd h.symm (hne _ _)
    · rfl

/-- An iteration over short names. -/
theorem luaRIterate_eq (hof : Function.LeftInverse ofNumber toNumber)
    (hnodup : (table.map LuaREntry.key).Nodup) (hshort : ∀ e ∈ table, e.key.Short) (i : ℕ)
    (hi : i ≤ table.length) :
    luaRIterate toNumber ofNumber table i = luaRNextHelper toNumber table i := by
  induction i with
  | zero => rfl
  | succ i ih =>
    rw [luaRIterate, ih (Nat.le_of_succ_le hi), luaRNextHelper_lt hi]
    exact luaRNext_key hof hnodup hi (hshort _ (List.getElem_mem hi)) _

/-- **Iterating.** The entries of a table with different keys are all visited, in order, if and only
if its names have less than 32 characters. -/
theorem luaRNext_visits_iff (hof : Function.LeftInverse ofNumber toNumber)
    (hnodup : (table.map LuaREntry.key).Nodup) :
    Visits toNumber ofNumber table ↔
      ∀ e ∈ table, ∀ s, e.key = .string s → s.1.length < luaMaxRotableName := by
  have hiff : (∀ e ∈ table, ∀ s, e.key = .string s → s.1.length < luaMaxRotableName) ↔
      ∀ e ∈ table, e.key.Short := by
    refine forall₂_congr fun e _ => ?_
    cases e.key with
    | string s => exact ⟨fun h => h s rfl, fun h s' hs' => LuaRKey.string.inj hs' ▸ h⟩
    | number n => exact ⟨fun _ => trivial, fun _ => nofun⟩
  rw [hiff]
  constructor
  · intro h e he
    obtain ⟨i, hi, rfl⟩ := List.mem_iff_getElem.mp he
    have hsucc := h.iterate (i + 1) (Nat.succ_le_of_lt hi)
    rw [luaRIterate, h.entry i hi] at hsucc
    by_contra hlong
    cases hkey : table[i].key with
    | number n => exact hlong (hkey ▸ trivial)
    | string s =>
      rw [hkey] at hlong hsucc
      -- The name that is looked for is empty, and no other key than the empty one is found.
      have hempty : luaRGetcstr s.1 luaMaxRotableName = [] := if_pos (Nat.not_le.mp hlong)
      have hnext : (luaRFindentry table (some []) 0).bind (fun r =>
          luaRNextHelper toNumber table (r.2 + 1)) = luaRNextHelper toNumber table (i + 1) := by
        rw [← hempty]
        exact hsucc
      obtain ⟨r, hr⟩ := luaRNextHelper_some toNumber (Nat.succ_le_of_lt hi)
      obtain ⟨⟨v, p⟩, hfind, hp⟩ := Option.bind_eq_some_iff.mp (hnext.trans hr)
      obtain ⟨j, hj, rfl, hmatch⟩ := luaRAuxfind_some hfind
      have hij : 0 + j + 1 = i + 1 := luaRNextHelper_inj hof hnodup (by omega)
        (Nat.succ_le_of_lt hi) (hp.trans hr.symm)
      obtain rfl : j = i := by omega
      rw [hkey] at hmatch
      have hnil : [] = s.1 := Option.some.inj hmatch
      exact hlong (by rw [LuaRKey.Short, ← hnil]; decide)
  · intro h
    have hiter := luaRIterate_eq hof hnodup h
    refine ⟨fun i hi => ?_, ?_, LuaRKey.find_getElem hnodup⟩
    · rw [hiter i hi.le, luaRNextHelper_lt hi]
    · rw [hiter _ (Nat.le_refl _), luaRNextHelper_length]

end Iterate

/-- A table with one name. -/
def namedTable (n : ℕ) : List (LuaREntry ℤ Unit) :=
  [⟨.string ⟨List.replicate n 97, fun h => by cases List.eq_of_mem_replicate h⟩, .other ()⟩]

theorem luaRNext_visits_short : Visits Int32.toInt Int32.ofInt (namedTable 31) := by
  have hnodup : ((namedTable 31).map LuaREntry.key).Nodup := List.nodup_singleton _
  refine (luaRNext_visits_iff Int32.ofInt_toInt hnodup).mpr fun e he s hs => ?_
  obtain rfl := List.mem_singleton.mp he
  cases hs
  decide

/-- A name of the maximal length is not found again. -/
theorem not_luaRNext_visits :
    ¬∀ table : List (LuaREntry ℤ Unit), (table.map LuaREntry.key).Nodup →
      (∀ e ∈ table, ∀ s, e.key = .string s → s.1.length ≤ luaMaxRotableName) →
      Visits Int32.toInt Int32.ofInt table := by
  intro h
  have hvisits := h (namedTable 32) (List.nodup_singleton _) fun e he s hs => by
    obtain rfl := List.mem_singleton.mp he
    cases hs
    decide
  have hnone : luaRIterate Int32.toInt Int32.ofInt (namedTable 32) 1 = none := rfl
  have hlast : luaRIterate Int32.toInt Int32.ofInt (namedTable 32) 1 = some (.nil, .nil) :=
    hvisits.last
  cases hnone.symm.trans hlast

end ELuaBrain.Lua
