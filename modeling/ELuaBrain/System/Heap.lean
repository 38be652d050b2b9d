import Mathlib.Data.List.Nodup
import Mathlib.Data.List.Perm.Basic
import Mathlib.Logic.Function.Basic
import Mathlib.Order.Basic
import ELuaBrain.System.Program

/-!
# A heap of byte blocks

The memory of a C program as a partial map from addresses to blocks of bytes, together with the
answers that the allocator gives to the requests of the run: it may refuse a request, it may move a
block that is resized, and the bytes that it adds are arbitrary. Reading or writing outside a
block, using a block that is not there and freeing it twice are faults.

`Heap.Owns h l` says that the blocks of `h` are exactly those of the list `l`. It is kept by
permuting `l`, so each operation has one rule, which acts on the head of the list.

## Main definitions

* `Answer`, `Heap` : the allocator's answers, and the heap.
* `Heap.malloc`, `Heap.realloc`, `Heap.free`, `Heap.string`, `Heap.load`, `Heap.store`,
  `Heap.memmove`.
* `Heap.Owns` : the blocks of a heap.
* `CString` : the bytes of a block start with a string and its terminator.

## Main results

* `Heap.Owns.malloc`, `Heap.Owns.realloc`, `Heap.Owns.free`, `Heap.Owns.store` : the rules of the
  operations.
-/

namespace ELuaBrain

variable {σ α : Type}

/-- The result of undefined behaviour. -/
def fault : Comp σ α := fun _ => none

/-- The allocator's answer to one request. -/
inductive Answer where
  | refuse
  /-- A block that is resized moves if `moves`; `junk` are the bytes found in new memory. -/
  | grant (moves : Bool) (junk : ℕ → UInt8)

/-- Whether a request is granted. -/
def Answer.granted : Answer → Bool
  | .refuse => false
  | .grant _ _ => true

theorem Answer.eq_grant {a : Answer} (h : a.granted = true) :
    ∃ moves junk, a = .grant moves junk := by
  cases a with
  | refuse => exact absurd h Bool.false_ne_true
  | grant moves junk => exact ⟨moves, junk, rfl⟩

theorem Answer.eq_refuse {a : Answer} (h : a.granted = false) : a = .refuse := by
  cases a with
  | refuse => rfl
  | grant moves junk => simp [Answer.granted] at h

/-- The address of a block. -/
abbrev Ptr := ℕ

/-- Blocks of bytes, and an allocator. -/
structure Heap where
  blocks : Ptr → Option (List UInt8) := fun _ => none
  /-- No address from here on has been used. -/
  next : Ptr := 0
  answers : ℕ → Answer
  /-- The number of requests made. -/
  calls : ℕ := 0

namespace Heap

/-- The heap after a request. -/
def called (h : Heap) : Heap := { h with calls := h.calls + 1 }

/-- The heap with another block, or none, at `p`. -/
def put (p : Ptr) (m : Option (List UInt8)) (h : Heap) : Heap :=
  { h with blocks := Function.update h.blocks p m }

/-- A request for memory that is not kept in `blocks`. -/
def request : Comp Heap Bool := fun h => some ((h.answers h.calls).granted, h.called)

/-- The bytes that the allocator adds. -/
def fresh (junk : ℕ → UInt8) (size : ℕ) : List UInt8 := (List.range size).map junk

/-- `malloc`. -/
def malloc (size : ℕ) : Comp Heap (Option Ptr) := fun h =>
  match h.answers h.calls with
  | .refuse => some (none, h.called)
  | .grant _ junk =>
      some (some h.next, { h.called.put h.next (some (fresh junk size)) with next := h.next + 1 })

/-- `realloc` of a block. -/
def realloc (p : Ptr) (size : ℕ) : Comp Heap (Option Ptr) := fun h =>
  match h.blocks p with
  | none => none
  | some m =>
      match h.answers h.calls with
      | .refuse => some (none, h.called)
      | .grant moves junk =>
          let m' := m.take size ++ fresh junk (size - m.length)
          if moves then
            some (some h.next,
              { (h.called.put p none).put h.next (some m') with next := h.next + 1 })
          else some (some p, h.called.put p (some m'))

/-- `free`. -/
def free (p : Ptr) : Comp Heap Unit := fun h =>
  match h.blocks p with
  | none => none
  | some _ => some ((), h.put p none)

/-- The string at `p + off`, up to its terminator. -/
def string (p : Ptr) (off : ℕ) : Comp Heap (List UInt8) := fun h =>
  match h.blocks p with
  | none => none
  | some m =>
      if 0 ∈ m.drop off then some ((m.drop off).takeWhile (· ≠ 0), h) else none

/-- The `n` bytes at `p + off`. -/
def load (p : Ptr) (off n : ℕ) : Comp Heap (List UInt8) := fun h =>
  match h.blocks p with
  | none => none
  | some m => if off + n ≤ m.length then some ((m.drop off).take n, h) else none

/-- The bytes `m` with `bs` written at `off`. -/
def overwrite (m : List UInt8) (off : ℕ) (bs : List UInt8) : List UInt8 :=
  m.take off ++ bs ++ m.drop (off + bs.length)

/-- Writing the bytes `bs` at `p + off`. -/
def store (p : Ptr) (off : ℕ) (bs : List UInt8) : Comp Heap Unit := fun h =>
  match h.blocks p with
  | none => none
  | some m =>
      if off + bs.length ≤ m.length then some ((), h.put p (some (overwrite m off bs))) else none

/-- `memmove( p + dst, p + src, n )` inside one block. -/
def memmove (p : Ptr) (dst src n : ℕ) : Comp Heap Unit := do
  let bs ← load p src n
  store p dst bs

/-! ### The blocks of a heap -/

/-- The blocks of `h` are those of the list `l`, without repetition. -/
structure Owns (h : Heap) (l : List (Ptr × List UInt8)) : Prop where
  nodup : (l.map Prod.fst).Nodup
  blocks_iff : ∀ p m, h.blocks p = some m ↔ (p, m) ∈ l
  lt_next : ∀ p m, (p, m) ∈ l → p < h.next

variable {h : Heap} {l l' : List (Ptr × List UInt8)} {p : Ptr} {m : List UInt8}

theorem Owns.perm (ho : h.Owns l) (hp : l.Perm l') : h.Owns l' where
  nodup := (hp.map Prod.fst).nodup_iff.mp ho.nodup
  blocks_iff p m := (ho.blocks_iff p m).trans hp.mem_iff
  lt_next p m hm := ho.lt_next p m (hp.mem_iff.mpr hm)

theorem Owns.blocks_eq (ho : h.Owns l) (hm : (p, m) ∈ l) : h.blocks p = some m :=
  (ho.blocks_iff p m).mpr hm

/-- The blocks do not depend on the number of requests. -/
theorem Owns.called (ho : h.Owns l) : h.called.Owns l := ⟨ho.nodup, ho.blocks_iff, ho.lt_next⟩

@[simp] theorem fresh_length (junk : ℕ → UInt8) (size : ℕ) : (fresh junk size).length = size := by
  simp [fresh]

/-- Another block at the address of the head. -/
theorem Owns.put_some (ho : h.Owns ((p, m) :: l)) (m' : List UInt8) :
    (h.put p (some m')).Owns ((p, m') :: l) := by
  have hp : ∀ q m₁, (q, m₁) ∈ l → q ≠ p := by
    rintro q m₁ hq rfl
    have hn := ho.nodup
    rw [List.map_cons, List.nodup_cons] at hn
    exact hn.1 (List.mem_map.mpr ⟨(q, m₁), hq, rfl⟩)
  refine ⟨ho.nodup, fun q m₁ => ?_, fun q m₁ hq => ?_⟩
  · by_cases hq : q = p
    · subst hq
      simp only [put, Function.update_self, Option.some.injEq, List.mem_cons, Prod.mk.injEq,
        true_and]
      refine ⟨fun h₁ => .inl h₁.symm, ?_⟩
      rintro (h₁ | h₁)
      · exact h₁.symm
      · exact absurd rfl (hp q m₁ h₁)
    · simp only [put, Function.update_of_ne hq, ho.blocks_iff, List.mem_cons, Prod.mk.injEq, hq,
        false_and, false_or]
  · obtain h₁ | h₁ := List.mem_cons.mp hq
    · obtain ⟨rfl, rfl⟩ := Prod.mk.inj h₁
      exact ho.lt_next q m List.mem_cons_self
    · exact ho.lt_next q m₁ (List.mem_cons_of_mem _ h₁)

/-- The head is freed. -/
theorem Owns.put_none (ho : h.Owns ((p, m) :: l)) : (h.put p none).Owns l := by
  have hn := ho.nodup
  rw [List.map_cons, List.nodup_cons] at hn
  refine ⟨hn.2, fun q m₁ => ?_, fun q m₁ hq => ho.lt_next q m₁ (List.mem_cons_of_mem _ hq)⟩
  by_cases hq : q = p
  · subst hq
    simp only [put, Function.update_self, reduceCtorEq, false_iff]
    exact fun h₁ => hn.1 (List.mem_map.mpr ⟨(q, m₁), h₁, rfl⟩)
  · simp only [put, Function.update_of_ne hq, ho.blocks_iff, List.mem_cons, Prod.mk.injEq, hq,
      false_and, false_or]

/-- A block at a new address. -/
theorem Owns.put_next (ho : h.Owns l) (m : List UInt8) :
    Owns { h.put h.next (some m) with next := h.next + 1 } ((h.next, m) :: l) := by
  have hnew : ∀ q m₁, (q, m₁) ∈ l → q ≠ h.next := fun q m₁ hq =>
    Nat.ne_of_lt (ho.lt_next q m₁ hq)
  refine ⟨?_, fun q m₁ => ?_, fun q m₁ hq => ?_⟩
  · rw [List.map_cons, List.nodup_cons]
    refine ⟨fun hmem => ?_, ho.nodup⟩
    obtain ⟨⟨q, m₁⟩, hq, heq⟩ := List.mem_map.mp hmem
    exact hnew q m₁ hq heq
  · by_cases hq : q = h.next
    · subst hq
      simp only [put, Function.update_self, Option.some.injEq, List.mem_cons, Prod.mk.injEq,
        true_and]
      refine ⟨fun h₁ => .inl h₁.symm, ?_⟩
      rintro (h₁ | h₁)
      · exact h₁.symm
      · exact absurd rfl (hnew _ _ h₁)
    · simp only [put, Function.update_of_ne hq, ho.blocks_iff, List.mem_cons, Prod.mk.injEq, hq,
        false_and, false_or]
  · obtain h₁ | h₁ := List.mem_cons.mp hq
    · obtain ⟨rfl, rfl⟩ := Prod.mk.inj h₁
      exact Nat.lt_succ_self _
    · exact Nat.lt_succ_of_lt (ho.lt_next q m₁ h₁)

/-! ### The rules of the operations -/

/-- **`malloc`.** -/
theorem Owns.malloc (ho : h.Owns l) (hg : (h.answers h.calls).granted = true) (size : ℕ) :
    ∃ p m h', Heap.malloc size h = some (some p, h') ∧ m.length = size ∧ h'.Owns ((p, m) :: l) ∧
      h'.answers = h.answers ∧ h'.calls = h.calls + 1 := by
  obtain ⟨moves, junk, ha⟩ := Answer.eq_grant hg
  refine ⟨_, _, _, ?_, fresh_length junk size, ho.called.put_next _, rfl, rfl⟩
  simp only [Heap.malloc, ha]
  rfl

theorem malloc_refused (hg : (h.answers h.calls).granted = false) (size : ℕ) :
    Heap.malloc size h = some (none, h.called) := by
  simp only [Heap.malloc, Answer.eq_refuse hg]

/-- **`realloc`.** The bytes up to the smaller of the two sizes stay. -/
theorem Owns.realloc (ho : h.Owns ((p, m) :: l)) (hg : (h.answers h.calls).granted = true)
    (size : ℕ) :
    ∃ p' m' h', Heap.realloc p size h = some (some p', h') ∧ m'.length = size ∧
      m'.take m.length = m.take size ∧ h'.Owns ((p', m') :: l) ∧ h'.answers = h.answers ∧
      h'.calls = h.calls + 1 := by
  obtain ⟨moves, junk, ha⟩ := Answer.eq_grant hg
  have hb := ho.blocks_eq (p := p) (m := m) List.mem_cons_self
  have hlen : (m.take size ++ fresh junk (size - m.length)).length = size := by
    rw [List.length_append, List.length_take, fresh_length]
    omega
  have htake : (m.take size ++ fresh junk (size - m.length)).take m.length = m.take size := by
    obtain hle | hle := Nat.le_total size m.length
    · rw [List.take_append, List.length_take, Nat.min_eq_left hle, Nat.sub_eq_zero_of_le hle]
      simp [fresh, List.take_take, Nat.min_eq_right hle]
    · rw [List.take_of_length_le hle, List.take_left]
  cases moves with
  | true =>
    have ho' := ho.called.put_none.put_next (m.take size ++ fresh junk (size - m.length))
    refine ⟨h.next, _, _, ?_, hlen, htake, ho', rfl, rfl⟩
    simp only [Heap.realloc, hb, ha, ↓reduceIte]
    rfl
  | false =>
    have ho' := ho.called.put_some (m.take size ++ fresh junk (size - m.length))
    refine ⟨p, _, _, ?_, hlen, htake, ho', rfl, rfl⟩
    simp only [Heap.realloc, hb, ha, Bool.false_eq_true, ↓reduceIte]

theorem Owns.realloc_refused (ho : h.Owns ((p, m) :: l))
    (hg : (h.answers h.calls).granted = false) (size : ℕ) :
    Heap.realloc p size h = some (none, h.called) := by
  simp only [Heap.realloc, ho.blocks_eq List.mem_cons_self, Answer.eq_refuse hg]

/-- **`free`.** -/
theorem Owns.free (ho : h.Owns ((p, m) :: l)) :
    Heap.free p h = some ((), h.put p none) ∧ (h.put p none).Owns l := by
  refine ⟨?_, ho.put_none⟩
  simp only [Heap.free, ho.blocks_eq List.mem_cons_self]

/-- **Writing.** -/
theorem Owns.store (ho : h.Owns ((p, m) :: l)) (off : ℕ) (bs : List UInt8)
    (hle : off + bs.length ≤ m.length) :
    Heap.store p off bs h = some ((), h.put p (some (overwrite m off bs))) ∧
      (h.put p (some (overwrite m off bs))).Owns ((p, overwrite m off bs) :: l) := by
  refine ⟨?_, ho.put_some _⟩
  simp only [Heap.store, ho.blocks_eq List.mem_cons_self, hle, ↓reduceIte]

theorem Owns.load (ho : h.Owns l) (hm : (p, m) ∈ l) {off n : ℕ} (hle : off + n ≤ m.length) :
    Heap.load p off n h = some ((m.drop off).take n, h) := by
  simp only [Heap.load, ho.blocks_eq hm, hle, ↓reduceIte]

/-- **Moving bytes.** -/
theorem Owns.memmove (ho : h.Owns ((p, m) :: l)) (dst src n : ℕ) (hsrc : src + n ≤ m.length)
    (hdst : dst + n ≤ m.length) :
    Heap.memmove p dst src n h =
        some ((), h.put p (some (overwrite m dst ((m.drop src).take n)))) ∧
      (h.put p (some (overwrite m dst ((m.drop src).take n)))).Owns
        ((p, overwrite m dst ((m.drop src).take n)) :: l) := by
  have hlen : ((m.drop src).take n).length = n := by
    rw [List.length_take, List.length_drop]
    omega
  have hstore := ho.store dst ((m.drop src).take n) (by rw [hlen]; exact hdst)
  refine ⟨?_, hstore.2⟩
  change (Heap.load p src n h).bind (fun r => Heap.store p dst r.1 r.2) = _
  rw [ho.load List.mem_cons_self hsrc]
  exact hstore.1

end Heap

/-! ### Strings -/

/-- The bytes `m` start with the string `t` and its terminator. -/
def CString (m t : List UInt8) : Prop := 0 ∉ t ∧ ∃ rest, m = t ++ 0 :: rest

namespace CString

variable {m t : List UInt8}

theorem length_lt (h : CString m t) : t.length < m.length := by
  obtain ⟨-, rest, rfl⟩ := h
  simp

theorem take (h : CString m t) : m.take (t.length + 1) = t ++ [0] := by
  obtain ⟨-, rest, rfl⟩ := h
  rw [List.take_append, List.take_of_length_le (Nat.le_succ _)]
  simp

theorem take_of_le (h : CString m t) {n : ℕ} (hn : n ≤ t.length) : m.take n = t.take n := by
  obtain ⟨-, rest, rfl⟩ := h
  rw [List.take_append_of_le_length hn]

/-- A string is determined by the bytes up to its terminator. -/
theorem of_take (ht : 0 ∉ t) (h : m.take (t.length + 1) = t ++ [0]) : CString m t := by
  refine ⟨ht, m.drop (t.length + 1), ?_⟩
  calc m = m.take (t.length + 1) ++ m.drop (t.length + 1) := (List.take_append_drop _ _).symm
    _ = t ++ 0 :: m.drop (t.length + 1) := by rw [h, List.append_assoc]; rfl

theorem drop (h : CString m t) {off : ℕ} (hle : off ≤ t.length) :
    CString (m.drop off) (t.drop off) := by
  obtain ⟨ht, rest, rfl⟩ := h
  refine ⟨fun hmem => ht (List.mem_of_mem_drop hmem), rest, ?_⟩
  rw [List.drop_append_of_le_length hle]

theorem zero_mem (h : CString m t) : 0 ∈ m := by
  obtain ⟨-, rest, rfl⟩ := h
  simp

theorem takeWhile_eq (h : CString m t) : m.takeWhile (· ≠ 0) = t := by
  obtain ⟨ht, rest, rfl⟩ := h
  rw [List.takeWhile_append_of_pos]
  · simp
  · intro c hc
    simp only [ne_eq, decide_not, Bool.not_eq_eq_eq_not, Bool.not_true, decide_eq_false_iff_not]
    rintro rfl
    exact ht hc

end CString

namespace Heap

variable {h : Heap} {l : List (Ptr × List UInt8)} {p : Ptr} {m t : List UInt8}

/-- **Reading a string.** -/
theorem Owns.string (ho : h.Owns l) (hm : (p, m) ∈ l) (hs : CString m t) {off : ℕ}
    (hle : off ≤ t.length) : Heap.string p off h = some (t.drop off, h) := by
  have hd := hs.drop hle
  simp only [Heap.string, ho.blocks_eq hm, hd.zero_mem, ↓reduceIte, hd.takeWhile_eq]

end Heap

/-! ### Bytes that are written over -/

namespace Heap

variable {m : List UInt8} {off : ℕ}

@[simp] theorem overwrite_length {bs : List UInt8} (h : off + bs.length ≤ m.length) :
    (overwrite m off bs).length = m.length := by
  simp only [overwrite, List.length_append, List.length_take, List.length_drop]
  omega

/-- Up to the end of what was written. -/
theorem take_overwrite (bs : List UInt8) (off : ℕ) (h : off ≤ m.length) :
    (overwrite m off bs).take (off + bs.length) = m.take off ++ bs := by
  have hlen : (m.take off ++ bs).length = off + bs.length := by
    rw [List.length_append, List.length_take, Nat.min_eq_left h]
  rw [overwrite, ← hlen, List.take_left]

/-- Behind what was written. -/
theorem drop_overwrite (bs : List UInt8) (off : ℕ) (h : off ≤ m.length) (n : ℕ) :
    (overwrite m off bs).drop (off + bs.length + n) = m.drop (off + bs.length + n) := by
  have hlen : (m.take off ++ bs).length = off + bs.length := by
    rw [List.length_append, List.length_take, Nat.min_eq_left h]
  rw [overwrite, ← List.drop_drop, ← hlen, List.drop_left, List.drop_drop]

/-- Bytes that were moved up, and others written in front of them. -/
theorem take_overwrite_overwrite (bs cs : List UInt8) (off : ℕ)
    (h : off + bs.length + cs.length ≤ m.length) :
    (overwrite (overwrite m (off + bs.length) cs) off bs).take (off + bs.length + cs.length) =
      m.take off ++ bs ++ cs := by
  have hlen : (m.take (off + bs.length)).length = off + bs.length := by
    rw [List.length_take]
    omega
  have hlen' : (m.take off ++ bs ++ cs).length = off + bs.length + cs.length := by
    rw [List.length_append, List.length_append, List.length_take]
    omega
  generalize hrest : m.drop (off + bs.length + cs.length) = rest
  have hM : overwrite m (off + bs.length) cs = m.take (off + bs.length) ++ (cs ++ rest) := by
    rw [overwrite, hrest, List.append_assoc]
  have htake : (overwrite m (off + bs.length) cs).take off = m.take off := by
    rw [hM, List.take_append_of_le_length (by omega), List.take_take,
      Nat.min_eq_left (Nat.le_add_right _ _)]
  have hdrop : (overwrite m (off + bs.length) cs).drop (off + bs.length) = cs ++ rest := by
    rw [hM, List.drop_left' hlen]
  rw [overwrite, htake, hdrop, ← List.append_assoc, ← hlen', List.take_left]

end Heap

end ELuaBrain
