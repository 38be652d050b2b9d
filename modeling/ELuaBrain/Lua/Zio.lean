import ELuaBrain.System.Bytes

/-!
# Buffered streams: `lzio.c`

A reader gives a stream in portions. In direct mode the whole stream is in memory as well, and what
is read can be used in place.

## Main definitions

* `ZIO`, `luaZRead` : a stream, and the bytes that are read from it.
* `ZIO.unread`, `ZIO.Mirrors` : the bytes still to be read, and that the memory has them too.
* `Load`, `Reads` : actions that read from a stream or fail, and that an action reads given bytes.

## Main results

* `luaZRead_of_unread` : the portions do not matter.
* `Reads.bind`, `Reads.many` : actions one after the other.
-/

namespace ELuaBrain.Lua

/-- A `ZIO`: the rest of the portion that was read last, the portions that the reader gives next,
the offset, and the memory at the address that the reader gives in direct mode. -/
structure ZIO where
  current : List UInt8
  further : List (List UInt8)
  i : ℕ
  base : Option Memory

/-- The loop of `luaZ_read`, if there are enough bytes. An empty portion ends the stream. -/
def readPortions : ℕ → List UInt8 → List (List UInt8) →
    Option (List UInt8 × List UInt8 × List (List UInt8))
  | n, current, [] =>
    if n ≤ current.length then some (current.take n, current.drop n, []) else none
  | n, current, portion :: further =>
    if n ≤ current.length then some (current.take n, current.drop n, portion :: further)
    else if portion = [] then none
    else (readPortions (n - current.length) portion further).map fun (bs, rest) =>
      (current ++ bs, rest)

/-- `luaZ_read`, if no bytes are missing. -/
def luaZRead (n : ℕ) (z : ZIO) : Option (List UInt8 × ZIO) :=
  (readPortions n z.current z.further).map fun (bs, current, further) =>
    (bs, { z with current, further, i := z.i + n })

/-- The bytes up to the first empty portion. -/
def portionBytes : List (List UInt8) → List UInt8
  | [] => []
  | portion :: further => if portion = [] then [] else portion ++ portionBytes further

namespace ZIO

variable {z z' : ZIO} {n : ℕ} {bs cs rest : List UInt8}

/-- The bytes that are still to be read. -/
def unread (z : ZIO) : List UInt8 := z.current ++ portionBytes z.further

/-- In direct mode the memory has the bytes that are still to be read. -/
def Mirrors (z : ZIO) : Prop := ∀ m, z.base = some m → m.slice z.i z.unread.length = z.unread

/-- The stream after `n` bytes were read and others are left. -/
structure After (z : ZIO) (n : ℕ) (rest : List UInt8) (z' : ZIO) : Prop where
  unread : z'.unread = rest
  offset : z'.i = z.i + n
  base : z'.base = z.base

theorem Mirrors.after (hm : z.Mirrors) (hunread : z.unread = bs ++ rest)
    (h : z.After bs.length rest z') : z'.Mirrors := by
  intro m hbase
  have hmem := hm m (h.base ▸ hbase)
  rw [hunread, List.length_append, Memory.slice_add] at hmem
  rw [h.unread, h.offset]
  exact (List.append_inj hmem Memory.length_slice).2

/-- In direct mode the bytes that are read are in memory at the offset. -/
theorem Mirrors.slice (hm : z.Mirrors) (hunread : z.unread = bs ++ rest) {m : Memory}
    (hbase : z.base = some m) : m.slice z.i bs.length = bs := by
  have hmem := hm m hbase
  rw [hunread, List.length_append, Memory.slice_add] at hmem
  exact (List.append_inj hmem Memory.length_slice).1

theorem readPortions_eq : ∀ (further : List (List UInt8)) (current bs rest : List UInt8),
    current ++ portionBytes further = bs ++ rest →
    ∃ current' further', readPortions bs.length current further = some (bs, current', further') ∧
      current' ++ portionBytes further' = rest
  | further, current, bs, rest, h => by
    rcases Nat.lt_or_ge current.length bs.length with hlt | hge
    · -- the portion is used up
      obtain ⟨cs, rfl, hcs⟩ : ∃ cs, bs = current ++ cs ∧ portionBytes further = cs ++ rest := by
        rcases List.append_eq_append_iff.mp h with h | ⟨cs, hcs, -⟩
        · exact h
        · rw [hcs, List.length_append] at hlt
          omega
      have hne : cs ≠ [] := fun heq => by
        rw [heq, List.append_nil] at hlt
        exact lt_irrefl _ hlt
      cases further with
      | nil =>
        rw [portionBytes] at hcs
        exact absurd (List.append_eq_nil_iff.mp hcs.symm).1 hne
      | cons portion further =>
        rw [portionBytes] at hcs
        split_ifs at hcs with hempty
        · exact absurd (List.append_eq_nil_iff.mp hcs.symm).1 hne
        · obtain ⟨current', further', hread, hrest⟩ := readPortions_eq further portion cs rest hcs
          refine ⟨current', further', ?_, hrest⟩
          rw [readPortions, if_neg (not_le.mpr hlt), if_neg hempty, List.length_append,
            Nat.add_sub_cancel_left, hread]
          rfl
    · have hbs : bs = current.take bs.length := by
        have htake := congrArg (List.take bs.length) h
        rwa [List.take_append_of_le_length hge, List.take_left', eq_comm] at htake
        rfl
      refine ⟨current.drop bs.length, further, ?_, ?_⟩
      · cases further <;> rw [readPortions, if_pos hge, ← hbs]
      · have hdrop := congrArg (List.drop bs.length) h
        rwa [List.drop_append_of_le_length hge, List.drop_left] at hdrop

/-- **Portions.** Bytes are read whatever the portions are. -/
theorem luaZRead_of_unread (h : z.unread = bs ++ rest) :
    ∃ z', luaZRead bs.length z = some (bs, z') ∧ z.After bs.length rest z' := by
  obtain ⟨current, further, hread, hrest⟩ := readPortions_eq z.further z.current bs rest h
  refine ⟨{ z with current, further, i := z.i + bs.length }, ?_, hrest, rfl, rfl⟩
  rw [luaZRead, hread]
  rfl

end ZIO

/-! ### Actions on a stream -/

/-- An action that reads from a stream or fails with a message. -/
abbrev Load := StateT ZIO (Except String)

/-- A loop that reads `n` values. -/
def loadMany {α : Type} (load : Load α) : ℕ → Load (List α)
  | 0 => pure []
  | n + 1 => do
    let x ← load
    let xs ← loadMany load n
    return x :: xs

/-- An action reads the bytes as a value, whatever follows them, with the memory at `base`. -/
def Reads {α : Type} (base : Option Memory) (act : Load α) (bs : List UInt8) (a : α) : Prop :=
  ∀ z rest, z.base = base → z.Mirrors → z.unread = bs ++ rest →
    ∃ z', act z = .ok (a, z') ∧ z.After bs.length rest z'

namespace Reads

variable {α β : Type} {base : Option Memory} {act : Load α} {bs cs : List UInt8} {a : α} {b : β}

theorem pure (a : α) : Reads base (pure a) [] a := fun z _ _ _ h => ⟨z, rfl, h, rfl, rfl⟩

theorem bind {f : α → Load β} (h : Reads base act bs a) (hf : Reads base (f a) cs b) :
    Reads base (act >>= f) (bs ++ cs) b := by
  intro z rest hbase hm hunread
  rw [List.append_assoc] at hunread
  obtain ⟨z', hact, hafter⟩ := h z (cs ++ rest) hbase hm hunread
  obtain ⟨z'', hact', hafter'⟩ :=
    hf z' rest (hafter.base.trans hbase) (hm.after hunread hafter) hafter.unread
  refine ⟨z'', ?_, hafter'.unread, ?_, hafter'.base.trans hafter.base⟩
  · change Except.bind (act z) (fun r => f r.1 r.2) = _
    rw [hact]
    exact hact'
  · rw [hafter'.offset, hafter.offset, List.length_append, Nat.add_assoc]

/-- The last action reads nothing. -/
theorem map {f : α → β} (h : Reads base act bs a) : Reads base (f <$> act) bs (f a) := by
  intro z rest hbase hm hunread
  obtain ⟨z', hact, hafter⟩ := h z rest hbase hm hunread
  refine ⟨z', ?_, hafter⟩
  change Except.map _ (act z) = _
  rw [hact]
  rfl

/-- A loop. -/
theorem many {γ : Type} {bytes : γ → List UInt8} {value : γ → α} {xs : List γ}
    (h : ∀ x ∈ xs, Reads base act (bytes x) (value x)) :
    Reads base (loadMany act xs.length) (xs.flatMap bytes) (xs.map value) := by
  induction xs with
  | nil => exact Reads.pure []
  | cons x xs ih =>
    obtain ⟨hx, hxs⟩ := List.forall_mem_cons.mp h
    rw [List.flatMap_cons, ← List.append_nil (xs.flatMap bytes)]
    exact hx.bind ((ih hxs).bind (Reads.pure _))

end Reads

end ELuaBrain.Lua
