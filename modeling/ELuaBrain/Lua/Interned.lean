import ELuaBrain.Lua.StringTable
import ELuaBrain.System.Reach
import Mathlib.Order.Interval.Finset.Nat
import Mathlib.Data.List.Forall2

/-!
# Strings are interned

Two strings of the table do not have the same characters, as long as no string comes into the table
while one with the same characters is being created, and the table does not shrink while a
collection may start.

## Main definitions

* `Interned` : what is expected of the string table.
* `Tame` : the condition on the steps.
* `Inv` : the invariant.

## Main results

* `find_eq_none_iff` : the lookup finds every string of the table.
* `interned_of_reach` : the strings are interned in all states that tame steps reach.
-/

namespace ELuaBrain.Lua.Strings

open Buckets (bucket items Placed)

variable {rom : UInt32 → UInt8} {s s' : State} {ts ts' : TString} {l l' : List TString}

/-! ### What is expected -/

/-- A string has the characters that it was created from, and their hash. -/
structure TString.Sound (rom : UInt32 → UInt8) (ts : TString) : Prop where
  getstr : getstr rom ts = some (ts.source.content rom)
  len : ts.len = (ts.source.content rom).length
  hash : ts.hash = hashOf (ts.source.content rom)

/-- The strings of a table: different objects with different characters. -/
structure Distinct (rom : UInt32 → UInt8) (l : List TString) : Prop where
  addrs : (l.map TString.addr).Nodup
  nonzero : ∀ ts ∈ l, ts.addr ≠ 0
  sound : ∀ ts ∈ l, ts.Sound rom
  unique : (l.map (getstr rom)).Nodup

/-- Two strings of the table with equal characters are the same object, every string has the
characters that it was created from and is in the bucket of its hash, `nuse` is their number, and
what the program holds is in the table. -/
structure Interned (rom : UInt32 → UInt8) (s : State) : Prop where
  unique : ∀ ts ∈ s.strings, ∀ ts' ∈ s.strings, getstr rom ts = getstr rom ts' → ts = ts'
  placed : ∀ i, ∀ ts ∈ bucket s.hash i, lmod ts.hash s.size = i
  sound : ∀ ts ∈ s.strings, ts.Sound rom
  nuse : s.nuse.toNat = s.strings.length
  held : ∀ a ∈ s.held, ∃ ts ∈ s.strings, ts.addr = a

/-- The table waits for a smaller vector. -/
def State.Shrinking (s : State) : Prop :=
  match s.frames with
  | .shrinking _ :: _ => True
  | _ => False

instance (s : State) : Decidable s.Shrinking :=
  decidable_of_iff (s.frames.head?.any (· matches .shrinking _) = true) <| by
    rw [State.Shrinking]
    rcases s.frames with - | ⟨- | - | - | - | -, rest⟩ <;> simp

/-- No string is linked in while there is one with the same characters. While the table waits for a
smaller vector, it gets it, and the collector is blocked. -/
def Tame (rom : UInt32 → UInt8) (s : State) : Event → Prop
  | .allocated _ =>
    match s.frames with
    | .creating src :: _ => s.find rom (src.content rom) = none
    | _ => True
  | .throw _ => ¬s.Shrinking
  | .collect _ => s.Shrinking → s.blockGc = true
  | _ => True

/-! ### The invariant -/

/-- The size of the table by which its strings are placed. -/
def State.place (s : State) : ℕ :=
  match s.frames with
  | .shrinking newsize :: _ => newsize
  | _ => s.size

/-- `luaS_resize` is pending. -/
def Frame.Resizes : Frame → Prop
  | .growing _ _ => True
  | .shrinking _ => True
  | _ => False

/-- A pending `luaS_resize` doubles the table, or is the innermost frame and halves it, and there is
one at most. -/
structure Framed (s : State) : Prop where
  growing : ∀ src newsize, .growing src newsize ∈ s.frames → newsize = 2 * s.size
  shrinking : ∀ newsize, .shrinking newsize ∈ s.frames →
    s.frames.head? = some (.shrinking newsize) ∧ s.size = 2 * newsize ∧ s.gcstate ≠ .sweepstring
  resizing : ∀ f ∈ s.frames, f.Resizes → s.resizing = true
  once : s.frames.Pairwise fun f g => ¬(f.Resizes ∧ g.Resizes)

/-- The colours: a string that is dead is still to be swept, and one that is held survives. -/
structure Coloured (s : State) : Prop where
  white : ∀ ts ∈ s.strings, ¬(ts.marked.white0 = true ∧ ts.marked.white1 = true)
  dead : ∀ ts ∈ s.strings, isdead s.currentwhite ts.marked = true →
    s.gcstate = .sweepstring ∧ s.sweepstrgc ≤ lmod ts.hash s.place
  held : ∀ a ∈ s.held, ∃ ts ∈ s.strings, ts.addr = a ∧ survives s.currentwhite ts.marked = true
  sweep : s.gcstate = .sweepstring → s.sweepstrgc < s.size

/-- **The invariant.** -/
structure Inv (rom : UInt32 → UInt8) (s : State) : Prop where
  pow : ∃ k, s.place = 2 ^ k
  length : s.hash.length = s.size
  placed : Placed (fun ts => lmod ts.hash s.place) s.hash
  distinct : Distinct rom s.strings
  nuse : s.nuse = UInt32.ofNat s.strings.length
  framed : Framed s
  coloured : Coloured s

/-! ### Distinct strings -/

/-- The same string with other marks. -/
structure SameString (ts ts' : TString) : Prop where
  addr : ts'.addr = ts.addr
  hash : ts'.hash = ts.hash
  getstr : ∀ rom, getstr rom ts' = getstr rom ts
  len : ts'.len = ts.len
  source : ts'.source = ts.source

theorem sameString_marked {m : Marked} (h : m.readonly = ts.marked.readonly) :
    SameString ts { ts with marked := m } := by
  refine ⟨rfl, rfl, fun rom => ?_, rfl, rfl⟩
  rw [getstr, getstr, h]

namespace Distinct

theorem perm (h : Distinct rom l) (hp : l.Perm l') : Distinct rom l' where
  addrs := (hp.map _).nodup_iff.mp h.addrs
  nonzero ts hts := h.nonzero ts (hp.mem_iff.mpr hts)
  sound ts hts := h.sound ts (hp.mem_iff.mpr hts)
  unique := (hp.map _).nodup_iff.mp h.unique

theorem sublist (h : Distinct rom l) (hs : l'.Sublist l) : Distinct rom l' where
  addrs := h.addrs.sublist (hs.map _)
  nonzero ts hts := h.nonzero ts (hs.subset hts)
  sound ts hts := h.sound ts (hs.subset hts)
  unique := h.unique.sublist (hs.map _)

theorem congr (h : Distinct rom l) (hs : List.Forall₂ SameString l l') : Distinct rom l' := by
  have hmap {β : Type} (f : TString → β) (hf : ∀ ts ts', SameString ts ts' → f ts' = f ts) :
      l'.map f = l.map f := by
    clear h
    induction hs with
    | nil => rfl
    | cons hts _ ih => rw [List.map_cons, List.map_cons, ih, hf _ _ hts]
  have hmem : ∀ ts' ∈ l', ∃ ts ∈ l, SameString ts ts' := by
    clear h hmap
    induction hs with
    | nil => exact List.forall_mem_nil _
    | cons hts _ ih =>
      rintro ts' (_ | ⟨_, hmem⟩)
      · exact ⟨_, List.mem_cons_self, hts⟩
      · obtain ⟨ts, hts', hsame⟩ := ih ts' hmem
        exact ⟨ts, List.mem_cons_of_mem _ hts', hsame⟩
  refine ⟨?_, fun ts' hts' => ?_, fun ts' hts' => ?_, ?_⟩
  · rw [hmap _ fun _ _ hsame => hsame.addr]
    exact h.addrs
  · obtain ⟨ts, hts, hsame⟩ := hmem ts' hts'
    rw [hsame.addr]
    exact h.nonzero ts hts
  · obtain ⟨ts, hts, hsame⟩ := hmem ts' hts'
    have hsound := h.sound ts hts
    exact ⟨by rw [hsame.getstr, hsame.source, hsound.getstr],
      by rw [hsame.len, hsame.source, hsound.len], by rw [hsame.hash, hsame.source, hsound.hash]⟩
  · rw [hmap _ fun _ _ hsame => hsame.getstr rom]
    exact h.unique

theorem cons (h : Distinct rom l) (haddr : ∀ ts' ∈ l, ts'.addr ≠ ts.addr) (hzero : ts.addr ≠ 0)
    (hsound : ts.Sound rom) (hnew : ∀ ts' ∈ l, getstr rom ts' ≠ some (ts.source.content rom)) :
    Distinct rom (ts :: l) where
  addrs := by
    refine List.nodup_cons.mpr ⟨fun hmem => ?_, h.addrs⟩
    obtain ⟨ts', hts', heq⟩ := List.mem_map.mp hmem
    exact haddr ts' hts' heq
  nonzero := List.forall_mem_cons.mpr ⟨hzero, h.nonzero⟩
  sound := List.forall_mem_cons.mpr ⟨hsound, h.sound⟩
  unique := by
    refine List.nodup_cons.mpr ⟨fun hmem => ?_, h.unique⟩
    obtain ⟨ts', hts', heq⟩ := List.mem_map.mp hmem
    exact hnew ts' hts' (heq.trans hsound.getstr)

/-- There are fewer strings than addresses. -/
theorem length_lt (h : Distinct rom l) : l.length < 2 ^ 32 := by
  have hnodup : (l.map fun ts => ts.addr.toNat).Nodup := by
    have hinj : Function.Injective UInt32.toNat := fun _ _ => UInt32.toNat_inj.mp
    have := h.addrs.map hinj
    rwa [List.map_map] at this
  have hsub : (l.map fun ts => ts.addr.toNat).toFinset ⊆ Finset.Ioo 0 (2 ^ 32) := fun n hn => by
    obtain ⟨ts, hts, rfl⟩ := List.mem_map.mp (List.mem_toFinset.mp hn)
    refine Finset.mem_Ioo.mpr ⟨Nat.pos_of_ne_zero fun hzero => h.nonzero ts hts ?_, ts.addr.toNat_lt⟩
    exact UInt32.toNat_inj.mp hzero
  have hcard := Finset.card_le_card hsub
  rw [List.toFinset_card_of_nodup hnodup, List.length_map, Nat.card_Ioo] at hcard
  omega

theorem eq_of_addr (h : Distinct rom l) (hts : ts ∈ l) (hts' : ts' ∈ l) (heq : ts.addr = ts'.addr) :
    ts = ts' :=
  List.inj_on_of_nodup_map h.addrs hts hts' heq

end Distinct

/-! ### Positions -/

theorem lmod_two_pow (h : UInt32) (k : ℕ) : lmod h (2 ^ k) = h.toNat % 2 ^ k :=
  Nat.and_two_pow_sub_one_eq_mod _ _

theorem lmod_lt (h : UInt32) (k : ℕ) : lmod h (2 ^ k) < 2 ^ k := by
  rw [lmod_two_pow]
  exact Nat.mod_lt _ (Nat.two_pow_pos k)

/-- In a table of twice the size, a position is the old one or behind the old table. -/
theorem lmod_double (h : UInt32) (k : ℕ) :
    lmod h (2 * 2 ^ k) = lmod h (2 ^ k) ∨ lmod h (2 * 2 ^ k) = 2 ^ k + lmod h (2 ^ k) := by
  rw [← Nat.pow_succ', lmod_two_pow, lmod_two_pow, Nat.pow_succ, Nat.mod_mul]
  rcases Nat.mod_two_eq_zero_or_one (h.toNat / 2 ^ k) with hbit | hbit
  · exact Or.inl (by rw [hbit, Nat.mul_zero, Nat.add_zero])
  · exact Or.inr (by rw [hbit, Nat.mul_one, Nat.add_comm])

theorem lmod_le_double (h : UInt32) (k : ℕ) : lmod h (2 ^ k) ≤ lmod h (2 * 2 ^ k) := by
  rcases lmod_double h k with heq | heq
  · exact heq.ge
  · exact heq ▸ Nat.le_add_left _ _

/-! ### Frames -/

theorem place_eq (h : ¬s.Shrinking) : s.place = s.size := by
  rw [State.place]
  split
  · rename_i hframes
    rw [State.Shrinking, hframes] at h
    exact absurd trivial h
  · rfl

theorem State.Running.not_shrinking (h : s.Running) : ¬s.Shrinking := by
  intro hs
  rw [State.Running] at h
  rw [State.Shrinking] at hs
  revert h hs
  rcases s.frames with _ | ⟨_ | _ | _ | _ | _, _⟩ <;> intro h hs <;> first | exact h | exact hs

/-- No smaller vector is waited for where the innermost frame is another one. -/
theorem not_shrinking_of_frames {f : Frame} {frames : List Frame} (hframes : s.frames = f :: frames)
    (hf : ∀ n, f ≠ .shrinking n) : ¬s.Shrinking := by
  rw [State.Shrinking, hframes]
  cases f with
  | shrinking n => exact absurd rfl (hf n)
  | growing | creating | collecting | finalizer => exact id

namespace Framed

variable (h : Framed s)
include h

/-- A smaller vector is only waited for in the innermost frame. -/
theorem not_mem (hs : ¬s.Shrinking) (n : ℕ) : .shrinking n ∉ s.frames := fun hmem => by
  obtain ⟨hhead, -⟩ := h.shrinking n hmem
  obtain ⟨frames, hframes⟩ := List.head?_eq_some_iff.mp hhead
  rw [State.Shrinking, hframes] at hs
  exact hs trivial

theorem not_shrinking (hs : ¬s.Shrinking) {frames : List Frame} (hsub : frames.Sublist s.frames)
    (hframes : s'.frames = frames) : ¬s'.Shrinking := by
  rcases frames with _ | ⟨f, frames⟩
  · rw [State.Shrinking, hframes]
    exact id
  · refine not_shrinking_of_frames hframes fun n hn => ?_
    exact h.not_mem hs n (hsub.subset (hn ▸ List.mem_cons_self))

/-- Some frames fewer. -/
theorem sublist {frames : List Frame} (hs : ∀ n, .shrinking n ∉ frames)
    (hsub : frames.Sublist s.frames) (hframes : s'.frames = frames) (hsize : s'.size = s.size)
    (hresizing : s'.resizing = s.resizing) : Framed s' where
  growing src n hmem := by
    rw [hframes] at hmem
    rw [hsize]
    exact h.growing src n (hsub.subset hmem)
  shrinking n hmem := by
    rw [hframes] at hmem
    exact absurd hmem (hs n)
  resizing f hmem hf := by
    rw [hframes] at hmem
    rw [hresizing]
    exact h.resizing f (hsub.subset hmem) hf
  once := by
    rw [hframes]
    exact h.once.sublist hsub

/-- A frame more that does not resize the table. -/
theorem cons {f : Frame} (hs : ¬s.Shrinking) (hf : ¬f.Resizes) (hframes : s'.frames = f :: s.frames)
    (hsize : s'.size = s.size) (hresizing : s'.resizing = s.resizing) : Framed s' where
  growing src n hmem := by
    rw [hframes] at hmem
    rw [hsize]
    rcases List.mem_cons.mp hmem with rfl | hmem
    · exact absurd trivial hf
    · exact h.growing src n hmem
  shrinking n hmem := by
    rw [hframes] at hmem
    rcases List.mem_cons.mp hmem with rfl | hmem
    · exact absurd trivial hf
    · exact absurd hmem (h.not_mem hs n)
  resizing g hmem hg := by
    rw [hframes] at hmem
    rw [hresizing]
    rcases List.mem_cons.mp hmem with rfl | hmem
    · exact absurd hg hf
    · exact h.resizing g hmem hg
  once := by
    rw [hframes]
    exact List.pairwise_cons.mpr ⟨fun _ _ hboth => hf hboth.1, h.once⟩

/-- Behind a frame that resizes the table there is no other one. -/
theorem tail_not_resizes {f : Frame} {frames : List Frame} (hframes : s.frames = f :: frames)
    (hf : f.Resizes) : ∀ g ∈ frames, ¬g.Resizes := fun g hg hres => by
  have honce := h.once
  rw [hframes] at honce
  exact (List.pairwise_cons.mp honce).1 g hg ⟨hf, hres⟩

/-- No resize is pending while the flag is not set. -/
theorem not_resizes (hresizing : s.resizing = false) : ∀ g ∈ s.frames, ¬g.Resizes :=
  fun g hg hres => Bool.false_ne_true (hresizing.symm.trans (h.resizing g hg hres))

end Framed

/-- No resize is pending. -/
theorem framed_of_not_resizes (h : ∀ g ∈ s.frames, ¬g.Resizes) : Framed s where
  growing _ _ hmem := absurd trivial (h _ hmem)
  shrinking _ hmem := absurd trivial (h _ hmem)
  resizing g hmem hg := absurd hg (h g hmem)
  once := List.pairwise_iff_forall_sublist.mpr fun hsub hboth =>
    h _ (hsub.subset List.mem_cons_self) hboth.1

/-! ### Colours -/

/-- The strings stay, and the collector has no more to sweep than before. -/
theorem Coloured.control (h : Coloured s) (hstrings : s'.strings = s.strings)
    (hwhite : s'.currentwhite = s.currentwhite) (hplace : s'.place = s.place)
    (hheld : ∀ a ∈ s'.held, a ∈ s.held)
    (hgc : s.gcstate = .sweepstring → s'.gcstate = .sweepstring ∧ s'.sweepstrgc ≤ s.sweepstrgc)
    (hsweep : s'.gcstate = .sweepstring → s'.sweepstrgc < s'.size) : Coloured s' where
  white := by
    rw [hstrings]
    exact h.white
  dead ts hts hdead := by
    rw [hstrings] at hts
    rw [hwhite] at hdead
    obtain ⟨hstate, hle⟩ := h.dead ts hts hdead
    obtain ⟨hstate', hle'⟩ := hgc hstate
    rw [hplace]
    exact ⟨hstate', hle'.trans hle⟩
  held a ha := by
    rw [hstrings, hwhite]
    exact h.held a (hheld a ha)
  sweep := hsweep

theorem strings_remark (s : State) (f : Marked → Marked) (addrs : List UInt32) :
    (s.remark f addrs).strings = s.strings.map fun ts =>
      if ts.addr ∈ addrs then { ts with marked := f ts.marked } else ts :=
  List.map_flatten.symm

/-- Other marks. -/
theorem Coloured.remark {f : Marked → Marked} {addrs : List UInt32} (h : Coloured s)
    (hwhite : ∀ ts ∈ s.strings, ts.addr ∈ addrs →
      ¬((f ts.marked).white0 = true ∧ (f ts.marked).white1 = true))
    (hdead : ∀ ts ∈ s.strings, ts.addr ∈ addrs → isdead s.currentwhite (f ts.marked) = true →
      isdead s.currentwhite ts.marked = true)
    (hsurvives : ∀ ts ∈ s.strings, ts.addr ∈ addrs → survives s.currentwhite ts.marked = true →
      survives s.currentwhite (f ts.marked) = true) :
    Coloured (s.remark f addrs) := by
  have hmem : ∀ ts' ∈ (s.remark f addrs).strings, ∃ ts ∈ s.strings,
      ts' = if ts.addr ∈ addrs then { ts with marked := f ts.marked } else ts := fun ts' hts' => by
    rw [strings_remark] at hts'
    obtain ⟨ts, hts, heq⟩ := List.mem_map.mp hts'
    exact ⟨ts, hts, heq.symm⟩
  refine ⟨fun ts' hts' => ?_, fun ts' hts' hd => ?_, fun a ha => ?_, h.sweep⟩
  · obtain ⟨ts, hts, rfl⟩ := hmem ts' hts'
    split_ifs with haddr
    · exact hwhite ts hts haddr
    · exact h.white ts hts
  · obtain ⟨ts, hts, rfl⟩ := hmem ts' hts'
    split_ifs at hd ⊢ with haddr
    · exact h.dead ts hts (hdead ts hts haddr hd)
    · exact h.dead ts hts hd
  · obtain ⟨ts, hts, haddr, hs⟩ := h.held a ha
    refine ⟨if ts.addr ∈ addrs then { ts with marked := f ts.marked } else ts, ?_, ?_⟩
    · rw [strings_remark]
      exact List.mem_map_of_mem hts
    · split_ifs with hin
      · exact ⟨haddr, hsurvives ts hts hin hs⟩
      · exact ⟨haddr, hs⟩

/-! ### The table -/

namespace Inv

/-- The table is not touched. -/
theorem control (h : Inv rom s) (hhash : s'.hash = s.hash) (hnuse : s'.nuse = s.nuse)
    (hsize : s'.size = s.size) (hplace : s'.place = s.place) (hframed : Framed s')
    (hcoloured : Coloured s') : Inv rom s' where
  pow := by
    rw [hplace]
    exact h.pow
  length := by
    rw [hhash, hsize]
    exact h.length
  placed := by
    rw [hhash, hplace]
    exact h.placed
  distinct := by
    rw [State.strings, hhash]
    exact h.distinct
  nuse := by
    rw [State.strings, hhash, hnuse]
    exact h.nuse
  framed := hframed
  coloured := hcoloured

/-- Other marks. -/
theorem remark {f : Marked → Marked} {addrs : List UInt32} (h : Inv rom s)
    (hf : ∀ m, (f m).readonly = m.readonly) (hcoloured : Coloured (s.remark f addrs)) :
    Inv rom (s.remark f addrs) := by
  have hsame : List.Forall₂ SameString s.strings (s.remark f addrs).strings := by
    rw [strings_remark]
    refine List.forall₂_map_right_iff.mpr (List.forall₂_same.mpr fun ts _ => ?_)
    split_ifs
    · exact sameString_marked (hf ts.marked)
    · exact ⟨rfl, rfl, fun _ => rfl, rfl, rfl⟩
  refine ⟨h.pow, ?_, fun i ts hts => ?_, h.distinct.congr hsame, ?_, ?_, hcoloured⟩
  · rw [State.remark, List.length_map]
    exact h.length
  · rw [State.remark, Buckets.bucket_map] at hts
    obtain ⟨ts, hmem, rfl⟩ := List.mem_map.mp hts
    have hplaced : lmod ts.hash s.place = i := h.placed i ts hmem
    split_ifs <;> exact hplaced
  · rw [← hsame.length_eq]
    exact h.nuse
  · exact ⟨h.framed.growing, h.framed.shrinking, h.framed.resizing, h.framed.once⟩

section Size

variable (h : Inv rom s) (hs : ¬s.Shrinking)
include h hs

theorem size_pow : ∃ k, s.size = 2 ^ k := by
  obtain ⟨k, hk⟩ := h.pow
  exact ⟨k, (place_eq hs).symm.trans hk⟩

theorem placed_size : Placed (fun ts => lmod ts.hash s.size) s.hash := by
  rw [← place_eq hs]
  exact h.placed

/-- **The lookup.** A string that is in the table is found. -/
theorem find_eq_none_iff (str : List UInt8) :
    s.find rom str = none ↔ ∀ ts ∈ s.strings, getstr rom ts ≠ some str := by
  rw [State.find, List.find?_eq_none]
  constructor
  · intro hnone ts hts hstr
    have hsound := h.distinct.sound ts hts
    obtain rfl : ts.source.content rom = str := Option.some.inj (hsound.getstr.symm.trans hstr)
    have hbucket : ts ∈ bucket s.hash (lmod ts.hash s.size) :=
      (h.placed_size hs).mem_bucket.mpr hts
    rw [hsound.hash] at hbucket
    exact hnone ts hbucket (decide_eq_true ⟨hsound.len, hstr⟩)
  · intro hnew ts hts hfound
    exact hnew ts (Buckets.mem_items.mpr ⟨_, hts⟩) (of_decide_eq_true hfound).2

end Size

/-- A string that the lookup finds. -/
theorem mem_of_find {str : List UInt8} (hfind : s.find rom str = some ts) : ts ∈ s.strings :=
  Buckets.mem_items.mpr ⟨_, List.mem_of_find?_eq_some hfind⟩

/-! ### Linking -/

theorem getstr_newTString (addr : UInt32) (src : Source) (current : Bool) :
    getstr rom (newTString rom addr src current) = some (src.content rom) := by
  cases src with
  | copy bytes => exact congrArg some (List.take_left' rfl)
  | rom p len =>
    have hlen : (slice rom p len).length = len := by rw [slice, List.length_map, List.length_range]
    by_cases hro : (Source.rom p len).readonly = true
    · simp only [getstr, newTString, hro, if_true, Source.content, hlen]
    · rw [Bool.not_eq_true] at hro
      simp only [getstr, newTString, hro, Bool.false_eq_true, if_false, Source.content]
      rw [List.take_left' rfl]

theorem marked_newTString (addr : UInt32) (src : Source) (current : Bool) :
    (newTString rom addr src current).marked =
      { luaCWhite current with readonly := src.readonly } := rfl

/-- A new string whose characters are not in the table. -/
theorem link (h : Inv rom s) (hs : ¬s.Shrinking) {addr : UInt32} {src : Source}
    (hzero : addr ≠ 0) (haddr : ∀ ts ∈ s.strings, ts.addr ≠ addr)
    (hnew : s.find rom (src.content rom) = none) :
    Inv rom (s.link (newTString rom addr src s.currentwhite)) := by
  obtain ⟨k, hk⟩ := h.size_pow hs
  have hlt : lmod (newTString rom addr src s.currentwhite).hash s.size < s.hash.length := by
    rw [h.length, hk]
    exact lmod_lt _ _
  have hperm : (s.link (newTString rom addr src s.currentwhite)).strings.Perm
      (newTString rom addr src s.currentwhite :: s.strings) := Buckets.push_perm hlt
  have hplace : (s.link (newTString rom addr src s.currentwhite)).place = s.size := place_eq hs
  have hdead : isdead s.currentwhite (newTString rom addr src s.currentwhite).marked = false := by
    rw [marked_newTString, luaCWhite, isdead]
    cases s.currentwhite <;> rfl
  refine ⟨⟨k, hplace.trans hk⟩, (Buckets.length_push _ _ _).trans h.length, ?_, ?_, ?_, ?_, ?_⟩
  · rw [hplace]
    exact (h.placed_size hs).push _
  · refine Distinct.perm ?_ hperm.symm
    exact h.distinct.cons haddr hzero ⟨getstr_newTString addr src _, rfl, rfl⟩
      ((h.find_eq_none_iff hs _).mp hnew)
  · have hnuse : s.nuse + 1 = UInt32.ofNat (s.strings.length + 1) := by
      rw [h.nuse, UInt32.ofNat_add]
      rfl
    rw [hperm.length_eq, List.length_cons]
    exact hnuse
  · exact ⟨h.framed.growing, h.framed.shrinking, h.framed.resizing, h.framed.once⟩
  · refine ⟨fun ts hts => ?_, fun ts hts hd => ?_, fun a ha => ?_, h.coloured.sweep⟩
    · rcases List.mem_cons.mp (hperm.mem_iff.mp hts) with rfl | hts
      · rw [marked_newTString, luaCWhite]
        cases s.currentwhite <;> nofun
      · exact h.coloured.white ts hts
    · rcases List.mem_cons.mp (hperm.mem_iff.mp hts) with rfl | hts
      · exact absurd hd (by rw [show (s.link _).currentwhite = s.currentwhite from rfl, hdead]; nofun)
      · rw [hplace, ← place_eq hs]
        exact h.coloured.dead ts hts hd
    · rcases List.mem_cons.mp ha with rfl | ha
      · refine ⟨_, hperm.mem_iff.mpr List.mem_cons_self, rfl, ?_⟩
        rw [survives, show (s.link _).currentwhite = s.currentwhite from rfl, hdead]
        rfl
      · obtain ⟨ts, hts, hrest⟩ := h.coloured.held a ha
        exact ⟨ts, hperm.mem_iff.mpr (List.mem_cons_of_mem _ hts), hrest⟩

/-! ### Resizing -/

/-- The table has become larger. -/
theorem grow (h : Inv rom s) {src : Source} {newsize : ℕ} {frames : List Frame}
    (hframes : s.frames = .growing src newsize :: frames) :
    Inv rom
      { ({ s with hash := s.hash ++ List.replicate (newsize - s.size) [] } : State).rehash newsize with
        size := newsize, resizing := false, frames := .creating src :: frames } := by
  have hs : ¬s.Shrinking := not_shrinking_of_frames hframes nofun
  obtain ⟨k, hk⟩ := h.size_pow hs
  obtain rfl : newsize = 2 * s.size :=
    h.framed.growing src newsize (hframes ▸ List.mem_cons_self)
  have hlength : (s.hash ++ List.replicate (2 * s.size - s.size) []).length = 2 * s.size := by
    rw [List.length_append, List.length_replicate, h.length]
    omega
  have hitems : items (s.hash ++ List.replicate (2 * s.size - s.size) []) = s.strings :=
    Buckets.items_append_replicate _ _
  have hold : Placed (fun ts => lmod ts.hash s.size)
      (s.hash ++ List.replicate (2 * s.size - s.size) []) := fun i ts hts => by
    rw [Buckets.bucket_append_replicate] at hts
    exact h.placed_size hs i ts hts
  have hempty : ∀ i, s.size ≤ i →
      bucket (s.hash ++ List.replicate (2 * s.size - s.size) []) i = [] := fun i hi => by
    rw [Buckets.bucket_append_replicate]
    exact Buckets.bucket_eq_nil (h.length.trans_le hi)
  have hpos : ∀ ts : TString, lmod ts.hash (2 * s.size) ≤ lmod ts.hash s.size ∨
      s.size ≤ lmod ts.hash (2 * s.size) := fun ts => by
    rw [hk]
    rcases lmod_double ts.hash k with heq | heq
    · exact Or.inl heq.le
    · exact Or.inr (heq ▸ Nat.le_add_right _ _)
  have hlt : ∀ ts : TString, lmod ts.hash (2 * s.size) < 2 * s.size := fun ts => by
    rw [hk, ← Nat.pow_succ']
    exact lmod_lt _ _
  have hperm : (items (Buckets.rehash (fun ts : TString => lmod ts.hash (2 * s.size)) s.size
      (s.hash ++ List.replicate (2 * s.size - s.size) []))).Perm s.strings := by
    rw [← hitems]
    refine Buckets.rehash_perm (fun ts _ => ?_) _
    rw [hlength]
    exact hlt ts
  refine ⟨⟨k + 1, ?_⟩, ?_, ?_, h.distinct.perm hperm.symm, ?_, ?_, ?_⟩
  · rw [Nat.pow_succ', ← hk]
    rfl
  · exact (Buckets.length_rehash _ _ _).trans hlength
  · exact Buckets.rehash_placed hold hempty fun ts _ => hpos ts
  · exact h.nuse.trans (congrArg UInt32.ofNat hperm.length_eq.symm)
  · refine framed_of_not_resizes fun f hf => ?_
    rcases List.mem_cons.mp hf with rfl | hf
    · exact id
    · exact h.framed.tail_not_resizes hframes trivial f hf
  · refine ⟨fun ts hts => h.coloured.white ts (hperm.mem_iff.mp hts), fun ts hts hd => ?_,
      fun a ha => ?_, fun hstate => ?_⟩
    · obtain ⟨hstate, hle⟩ := h.coloured.dead ts (hperm.mem_iff.mp hts) hd
      refine ⟨hstate, hle.trans ?_⟩
      rw [place_eq hs, hk]
      exact lmod_le_double ts.hash k
    · obtain ⟨ts, hts, hrest⟩ := h.coloured.held a ha
      exact ⟨ts, hperm.mem_iff.mpr hts, hrest⟩
    · have := h.coloured.sweep hstate
      show s.sweepstrgc < 2 * s.size
      omega

/-- The strings have moved to the lower half of the table. -/
theorem rehash_half (h : Inv rom s) (hs : ¬s.Shrinking) (hsize : 1 < s.size)
    (hresizing : s.resizing = false) (hstate : s.gcstate ≠ .sweepstring) :
    Inv rom { s.rehash (s.size / 2) with
      resizing := true, frames := .shrinking (s.size / 2) :: s.frames } := by
  obtain ⟨k, hk⟩ := h.size_pow hs
  obtain ⟨k, rfl⟩ : ∃ j, k = j + 1 := Nat.exists_eq_succ_of_ne_zero (by
    rintro rfl
    rw [hk] at hsize
    exact absurd hsize (by decide))
  have hhalf : s.size / 2 = 2 ^ k := by
    rw [hk, Nat.pow_succ, Nat.mul_div_cancel _ (by decide)]
  have hdouble : s.size = 2 * 2 ^ k := hk.trans (Nat.pow_succ' ..)
  have hperm : (items (Buckets.rehash (fun ts : TString => lmod ts.hash (s.size / 2)) s.size
      s.hash)).Perm s.strings := by
    refine Buckets.rehash_perm (fun ts _ => ?_) _
    rw [h.length, hhalf]
    have := lmod_lt ts.hash k
    omega
  refine ⟨⟨k, hhalf⟩, (Buckets.length_rehash _ _ _).trans h.length, ?_,
    h.distinct.perm hperm.symm, h.nuse.trans (congrArg UInt32.ofNat hperm.length_eq.symm), ?_, ?_⟩
  · refine Buckets.rehash_placed (h.placed_size hs)
      (fun i hi => Buckets.bucket_eq_nil (h.length.trans_le hi)) fun ts _ => Or.inl ?_
    rw [hhalf, hdouble]
    exact lmod_le_double ts.hash k
  · have hnone := h.framed.not_resizes hresizing
    refine ⟨fun src n hmem => ?_, fun n hmem => ?_, fun _ _ _ => rfl, ?_⟩
    · rcases List.mem_cons.mp hmem with heq | hmem
      · cases heq
      · exact absurd trivial (hnone _ hmem)
    · rcases List.mem_cons.mp hmem with heq | hmem
      · obtain rfl := Frame.shrinking.inj heq
        exact ⟨rfl, by rw [hhalf]; exact hdouble, hstate⟩
      · exact absurd trivial (hnone _ hmem)
    · exact List.pairwise_cons.mpr ⟨fun f hf hboth => hnone f hf hboth.2, h.framed.once⟩
  · refine ⟨fun ts hts => h.coloured.white ts (hperm.mem_iff.mp hts), fun ts hts hd => ?_,
      fun a ha => ?_, fun hsweep => absurd hsweep hstate⟩
    · exact absurd (h.coloured.dead ts (hperm.mem_iff.mp hts) hd).1 hstate
    · obtain ⟨ts, hts, hrest⟩ := h.coloured.held a ha
      exact ⟨ts, hperm.mem_iff.mpr hts, hrest⟩

/-- The table has become smaller. -/
theorem shrink (h : Inv rom s) {newsize : ℕ} {frames : List Frame}
    (hframes : s.frames = .shrinking newsize :: frames) :
    Inv rom { s with
      hash := s.hash.take newsize
      size := newsize
      resizing := false
      gcstate := .finalize
      frames := frames } := by
  obtain ⟨-, hsize, hstate⟩ := h.framed.shrinking newsize (hframes ▸ List.mem_cons_self)
  have hplace : s.place = newsize := by
    rw [State.place, hframes]
  obtain ⟨k, hk⟩ := h.pow
  have hnone := h.framed.tail_not_resizes hframes trivial
  have hempty : ∀ i, newsize ≤ i → bucket s.hash i = [] := fun i hi => by
    refine h.placed.bucket_eq_nil_of_le (n := newsize) (fun ts _ => ?_) hi
    rw [← hplace, hk]
    exact lmod_lt _ _
  have hitems : items (s.hash.take newsize) = s.strings := Buckets.items_take hempty
  have hplace' : ({ s with
      hash := s.hash.take newsize, size := newsize, resizing := false, gcstate := .finalize,
      frames := frames } : State).place = newsize := by
    refine place_eq fun hs => ?_
    rw [State.Shrinking] at hs
    revert hs
    rcases frames with _ | ⟨f, frames⟩
    · exact id
    · cases f with
      | shrinking n => exact absurd trivial (hnone _ List.mem_cons_self)
      | growing | creating | collecting | finalizer => exact id
  refine ⟨⟨k, ?_⟩, ?_, fun i ts hts => ?_, ?_, ?_, framed_of_not_resizes hnone, ?_⟩
  · rw [hplace', ← hplace, hk]
  · show (s.hash.take newsize).length = newsize
    rw [List.length_take, h.length]
    omega
  · have hi : i < newsize := lt_of_not_ge fun hle => by
      rw [Buckets.bucket_eq_nil] at hts
      · cases hts
      · rw [List.length_take]
        omega
    rw [Buckets.bucket_take _ hi] at hts
    rw [hplace', ← hplace]
    exact h.placed i ts hts
  · rw [State.strings, hitems]
    exact h.distinct
  · rw [State.strings, hitems]
    exact h.nuse
  · refine ⟨?_, fun ts hts hd => ?_, ?_, nofun⟩
    · rw [State.strings, hitems]
      exact h.coloured.white
    · rw [State.strings, hitems] at hts
      exact absurd (h.coloured.dead ts hts hd).1 hstate
    · rw [State.strings, hitems]
      exact h.coloured.held

/-! ### Sweeping -/

/-- The next list of strings is swept. -/
theorem sweepList (h : Inv rom s) (hs : ¬s.Shrinking) (hstate : s.gcstate = .sweepstring) :
    Inv rom { s.sweepList s.sweepstrgc with
      sweepstrgc := s.sweepstrgc + 1
      gcstate := if s.size ≤ s.sweepstrgc + 1 then .sweep else .sweepstring } := by
  have hi : s.sweepstrgc < s.hash.length := by
    rw [h.length]
    exact h.coloured.sweep hstate
  let kept := (bucket s.hash s.sweepstrgc).filter fun ts => survives s.currentwhite ts.marked
  let swept := kept.map fun ts : TString =>
    { ts with marked := makewhite s.currentwhite ts.marked }
  let rest := items (s.hash.set s.sweepstrgc [])
  have hkept : kept.Sublist (bucket s.hash s.sweepstrgc) := List.filter_sublist
  have hperm : s.strings.Perm (bucket s.hash s.sweepstrgc ++ rest) :=
    (Buckets.set_nil_perm _ _).symm
  have hperm' : (items (s.hash.set s.sweepstrgc swept)).Perm (swept ++ rest) :=
    Buckets.set_perm hi
  have hswept : List.Forall₂ SameString kept swept :=
    List.forall₂_map_right_iff.mpr (List.forall₂_same.mpr fun _ _ => sameString_marked rfl)
  have hrest : List.Forall₂ SameString rest rest :=
    List.forall₂_same.mpr fun _ _ => ⟨rfl, rfl, fun _ => rfl, rfl, rfl⟩
  have hsame : List.Forall₂ SameString (kept ++ rest) (swept ++ rest) := List.rel_append hswept hrest
  have hlength : swept.length = kept.length := List.length_map _
  have hplace : ({ s.sweepList s.sweepstrgc with
      sweepstrgc := s.sweepstrgc + 1
      gcstate := if s.size ≤ s.sweepstrgc + 1 then .sweep else .sweepstring } : State).place =
      s.size := place_eq hs
  refine ⟨?_, ?_, fun i ts hts => ?_, ?_, ?_, ?_, ?_⟩
  · rw [hplace]
    exact h.size_pow hs
  · exact List.length_set.trans h.length
  · rw [hplace]
    have hbucket : ts ∈ if s.sweepstrgc = i then swept else bucket s.hash i := by
      rwa [← Buckets.bucket_set hi]
    split_ifs at hbucket with heq
    · obtain ⟨ts, hmem, rfl⟩ := List.mem_map.mp hbucket
      rw [← heq]
      exact h.placed_size hs s.sweepstrgc ts (hkept.subset hmem)
    · exact h.placed_size hs i ts hbucket
  · exact ((h.distinct.perm hperm).sublist (hkept.append_right rest)).congr hsame |>.perm
      hperm'.symm
  · have htotal : s.strings.length = (bucket s.hash s.sweepstrgc).length + rest.length := by
      rw [hperm.length_eq, List.length_append]
    have hle := hkept.length_le
    have hleft : (items (s.hash.set s.sweepstrgc swept)).length =
        s.strings.length - ((bucket s.hash s.sweepstrgc).length - kept.length) := by
      rw [hperm'.length_eq, List.length_append, hlength]
      omega
    show s.nuse - UInt32.ofNat ((bucket s.hash s.sweepstrgc).length - kept.length) =
      UInt32.ofNat (items (s.hash.set s.sweepstrgc swept)).length
    rw [hleft, h.nuse]
    exact (UInt32.ofNat_sub (by omega)).symm
  · exact ⟨h.framed.growing, fun n hmem => absurd hmem (h.framed.not_mem hs n), h.framed.resizing,
      h.framed.once⟩
  · have hmem : ∀ ts ∈ items (s.hash.set s.sweepstrgc swept),
        (∃ ts' ∈ kept, ts = { ts' with marked := makewhite s.currentwhite ts'.marked }) ∨
          ts ∈ s.strings ∧ lmod ts.hash s.size ≠ s.sweepstrgc := fun ts hts => by
      obtain ⟨i, hmem⟩ := Buckets.mem_items.mp hts
      rw [Buckets.bucket_set hi] at hmem
      split_ifs at hmem with heq
      · obtain ⟨ts', hts', rfl⟩ := List.mem_map.mp hmem
        exact Or.inl ⟨ts', hts', rfl⟩
      · refine Or.inr ⟨Buckets.mem_items.mpr ⟨i, hmem⟩, fun hpos => heq ?_⟩
        rw [← hpos]
        exact h.placed_size hs i ts hmem
    have hwhite (m : Marked) : isdead s.currentwhite (makewhite s.currentwhite m) = false ∧
        ¬((makewhite s.currentwhite m).white0 = true ∧
          (makewhite s.currentwhite m).white1 = true) := by
      rw [makewhite, isdead]
      cases s.currentwhite
      · exact ⟨rfl, fun hboth => Bool.false_ne_true hboth.2⟩
      · exact ⟨rfl, fun hboth => Bool.false_ne_true hboth.1⟩
    refine ⟨fun ts hts => ?_, fun ts hts hd => ?_, fun a ha => ?_, fun hstate' => ?_⟩
    · rcases hmem ts hts with ⟨ts', -, rfl⟩ | ⟨hts, -⟩
      · exact (hwhite ts'.marked).2
      · exact h.coloured.white ts hts
    · rcases hmem ts hts with ⟨ts', -, rfl⟩ | ⟨hts, hne⟩
      · exact absurd ((hwhite ts'.marked).1.symm.trans hd) Bool.false_ne_true
      · obtain ⟨-, hle⟩ := h.coloured.dead ts hts hd
        rw [place_eq hs] at hle
        have hlt : lmod ts.hash s.size < s.size :=
          ((h.placed_size hs).lt_length hts).trans_eq h.length
        refine ⟨if_neg (by omega), ?_⟩
        rw [hplace]
        show s.sweepstrgc + 1 ≤ lmod ts.hash s.size
        omega
    · obtain ⟨ts, hts, haddr, hsurvives⟩ := h.coloured.held a ha
      rcases List.mem_append.mp (hperm.mem_iff.mp hts) with hbucket | hrest
      · refine ⟨{ ts with marked := makewhite s.currentwhite ts.marked }, ?_, haddr, ?_⟩
        · have hmem : ts ∈ kept := List.mem_filter.mpr ⟨hbucket, hsurvives⟩
          exact hperm'.mem_iff.mpr (List.mem_append_left _ (List.mem_map_of_mem hmem))
        · show survives s.currentwhite (makewhite s.currentwhite ts.marked) = true
          rw [survives, (hwhite ts.marked).1]
          rfl
      · exact ⟨ts, hperm'.mem_iff.mpr (List.mem_append_right _ hrest), haddr, hsurvives⟩
    · refine lt_of_not_ge fun hle => ?_
      rw [show (if s.size ≤ s.sweepstrgc + 1 then GcState.sweep else .sweepstring) = .sweep from
        if_pos hle] at hstate'
      cases hstate'

/-! ### Steps -/

/-- Dead strings become white, and marked ones are not dead. -/
theorem intern (h : Inv rom s) (hs : ¬s.Shrinking) (src : Source) : Inv rom (s.intern rom src) := by
  rw [State.intern]
  cases hfind : s.find rom (src.content rom) with
  | some ts =>
    have hts : ts ∈ s.strings := mem_of_find hfind
    simp only
    split_ifs with hdead
    · -- the string is brought back
      have hflip : isdead s.currentwhite (changewhite ts.marked) = false ∧
          ¬((changewhite ts.marked).white0 = true ∧ (changewhite ts.marked).white1 = true) := by
        have hwhite := h.coloured.white ts hts
        revert hdead hwhite
        rw [isdead, isdead, changewhite]
        cases s.currentwhite <;> cases ts.marked.white0 <;> cases ts.marked.white1 <;> simp
      have honly : ∀ ts' ∈ s.strings, ts'.addr ∈ [ts.addr] → ts' = ts := fun ts' hts' haddr =>
        h.distinct.eq_of_addr hts' hts (List.mem_singleton.mp haddr)
      have hcoloured : Coloured (s.remark changewhite [ts.addr]) := by
        refine h.coloured.remark (fun ts' hts' haddr => ?_) (fun ts' hts' haddr hd => ?_)
          fun ts' hts' haddr _ => ?_
        · obtain rfl := honly ts' hts' haddr
          exact hflip.2
        · obtain rfl := honly ts' hts' haddr
          exact absurd (hflip.1.symm.trans hd) Bool.false_ne_true
        · obtain rfl := honly ts' hts' haddr
          rw [survives, hflip.1]
          rfl
      have hinv : Inv rom (s.remark changewhite [ts.addr]) := h.remark (fun _ => rfl) hcoloured
      refine hinv.control rfl rfl rfl rfl
        ⟨hinv.framed.growing, hinv.framed.shrinking, hinv.framed.resizing, hinv.framed.once⟩
        ⟨hcoloured.white, hcoloured.dead, fun a ha => ?_, hcoloured.sweep⟩
      rcases List.mem_cons.mp ha with rfl | ha
      · refine ⟨{ ts with marked := changewhite ts.marked }, ?_, rfl, ?_⟩
        · show _ ∈ (s.remark changewhite [ts.addr]).strings
          rw [strings_remark]
          refine List.mem_map.mpr ⟨ts, hts, ?_⟩
          rw [if_pos (List.mem_singleton.mpr rfl)]
        · show survives s.currentwhite (changewhite ts.marked) = true
          rw [survives, hflip.1]
          rfl
      · exact hcoloured.held a ha
    · refine h.control rfl rfl rfl rfl
        ⟨h.framed.growing, h.framed.shrinking, h.framed.resizing, h.framed.once⟩
        ⟨h.coloured.white, h.coloured.dead, fun a ha => ?_, h.coloured.sweep⟩
      rcases List.mem_cons.mp ha with rfl | ha
      · refine ⟨ts, hts, rfl, ?_⟩
        rw [survives, Bool.eq_false_of_not_eq_true hdead]
        rfl
      · exact h.coloured.held a ha
  | none =>
    simp only [State.newlstr]
    split_ifs with hcrowded
    · -- the table is to become larger
      have hresizing : s.resizing = false :=
        Bool.eq_false_of_not_eq_true fun hset => hcrowded.2.2 (Or.inr (Or.inr hset))
      have hnone := h.framed.not_resizes hresizing
      refine h.control rfl rfl rfl ?_ ⟨fun src' n hmem => ?_, fun n hmem => ?_, fun _ _ _ => rfl, ?_⟩
        ⟨h.coloured.white, ?_, h.coloured.held, h.coloured.sweep⟩
      · rw [place_eq hs]
        rfl
      · rcases List.mem_cons.mp hmem with heq | hmem
        · exact (Frame.growing.inj heq).2
        · exact absurd trivial (hnone _ hmem)
      · rcases List.mem_cons.mp hmem with heq | hmem
        · cases heq
        · exact absurd trivial (hnone _ hmem)
      · exact List.pairwise_cons.mpr ⟨fun f hf hboth => hnone f hf hboth.2, h.framed.once⟩
      · have hdead := h.coloured.dead
        rwa [place_eq hs] at hdead
    · refine h.control rfl rfl rfl ?_ (h.framed.cons hs id rfl rfl rfl)
        ⟨h.coloured.white, ?_, h.coloured.held, h.coloured.sweep⟩
      · rw [place_eq hs]
        rfl
      · have hdead := h.coloured.dead
        rwa [place_eq hs] at hdead

/-- Only what is pending changes, and what is to be swept does not grow. -/
theorem frames (h : Inv rom s) (hs : ¬s.Shrinking) (hs' : ¬s'.Shrinking) (hhash : s'.hash = s.hash)
    (hnuse : s'.nuse = s.nuse) (hsize : s'.size = s.size) (hframed : Framed s')
    (hwhite : s'.currentwhite = s.currentwhite) (hheld : ∀ a ∈ s'.held, a ∈ s.held)
    (hgc : s.gcstate = .sweepstring → s'.gcstate = .sweepstring ∧ s'.sweepstrgc ≤ s.sweepstrgc)
    (hsweep : s'.gcstate = .sweepstring → s'.sweepstrgc < s'.size) : Inv rom s' := by
  have hplace : s'.place = s.place := by rw [place_eq hs, place_eq hs', hsize]
  refine h.control hhash hnuse hsize hplace hframed
    (h.coloured.control ?_ hwhite hplace hheld hgc hsweep)
  rw [State.strings, hhash]

/-- Marking. -/
theorem mark (h : Inv rom s) (marks : List UInt32) : Inv rom (s.remark stringmark marks) := by
  have hdead (m : Marked) : isdead s.currentwhite (stringmark m) = false := by
    rw [isdead, stringmark]
    cases s.currentwhite <;> rfl
  refine h.remark (fun _ => rfl) (h.coloured.remark (fun _ _ _ hboth => ?_) (fun ts _ _ hd => ?_)
    fun ts _ _ _ => ?_)
  · exact Bool.false_ne_true hboth.1
  · exact absurd ((hdead ts.marked).symm.trans hd) Bool.false_ne_true
  · rw [survives, hdead]
    rfl

/-- The end of the mark phase: what is held is not white, and the whites change places. -/
theorem atomic (h : Inv rom s) (hs : ¬s.Shrinking) (hheld : s.HeldMarked) :
    Inv rom { s with
      currentwhite := !s.currentwhite, sweepstrgc := 0, gcstate := .sweepstring } := by
  refine h.control rfl rfl rfl rfl
    ⟨h.framed.growing, fun n hmem => absurd hmem (h.framed.not_mem hs n), h.framed.resizing,
      h.framed.once⟩
    ⟨h.coloured.white, fun _ _ _ => ⟨rfl, Nat.zero_le _⟩, fun a ha => ?_, fun _ => ?_⟩
  · obtain ⟨ts, hts, rfl, -⟩ := h.coloured.held a ha
    refine ⟨ts, hts, rfl, ?_⟩
    rw [survives, isdead]
    rcases hheld ts hts ha with ⟨hwhite0, hwhite1⟩ | hfixed
    · rw [hwhite0, hwhite1, ite_self]
      rfl
    · rw [hfixed, Bool.or_true]
  · obtain ⟨k, hk⟩ := h.size_pow hs
    rw [hk]
    exact Nat.two_pow_pos k

/-- `singlestep`. -/
theorem singlestep {c : Chance} (h : Inv rom s) (hs : ¬s.Shrinking)
    (hstep : s.singlestep c = some s') : Inv rom s' := by
  rw [State.singlestep] at hstep
  cases hstate : s.gcstate with
  | pause =>
    rw [hstate] at hstep
    obtain rfl := Option.some.inj hstep
    exact h.frames hs hs rfl rfl rfl
      (h.framed.sublist (h.framed.not_mem hs) (List.Sublist.refl _) rfl rfl rfl) rfl
      (fun _ ha => ha) (fun hsweep => nomatch hstate.symm.trans hsweep) nofun
  | propagate =>
    rw [hstate] at hstep
    simp only at hstep
    split_ifs at hstep with hmore hheld
    · obtain rfl := Option.some.inj hstep
      exact h.mark c.marks
    · obtain rfl := Option.some.inj hstep
      exact (h.mark c.marks).atomic hs hheld
  | sweepstring =>
    rw [hstate] at hstep
    obtain rfl := Option.some.inj hstep
    exact h.sweepList hs hstate
  | sweep =>
    rw [hstate] at hstep
    obtain rfl := Option.some.inj hstep
    have hne : s.gcstate ≠ .sweepstring := fun hsweep => nomatch hstate.symm.trans hsweep
    split_ifs
    · exact h
    · rw [State.checkSizes]
      split_ifs with hcheck
      · have hsize : 1 < s.size :=
          (show 1 < 2 * minstrtabsize by decide).trans hcheck.2.1
        have hresizing : s.resizing = false :=
          Bool.eq_false_of_not_eq_true fun hset => hcheck.2.2 (Or.inr (Or.inr hset))
        exact h.rehash_half hs hsize hresizing hne
      · exact h.frames hs hs rfl rfl rfl
          (h.framed.sublist (h.framed.not_mem hs) (List.Sublist.refl _) rfl rfl rfl) rfl
          (fun _ ha => ha) (fun hsweep => absurd hsweep hne) nofun
  | finalize =>
    rw [hstate] at hstep
    obtain rfl := Option.some.inj hstep
    have hne : s.gcstate ≠ .sweepstring := fun hsweep => nomatch hstate.symm.trans hsweep
    split_ifs
    · exact h.frames hs id rfl rfl rfl (h.framed.cons hs id rfl rfl rfl) rfl (fun _ ha => ha)
        (fun hsweep => absurd hsweep hne) nofun
    · exact h.frames hs hs rfl rfl rfl
        (h.framed.sublist (h.framed.not_mem hs) (List.Sublist.refl _) rfl rfl rfl) rfl
        (fun _ ha => ha) (fun hsweep => absurd hsweep hne) nofun

/-- A collection starts. -/
theorem collect (h : Inv rom s) (full : Bool) (hblock : s.Shrinking → s.blockGc = true) :
    Inv rom (s.collect full) := by
  rw [State.collect]
  split_ifs with hblocked hfull hreset
  · exact h
  all_goals
    have hs : ¬s.Shrinking := fun hshrinking => hblocked (hblock hshrinking)
    have hpos : 0 < s.size := by
      obtain ⟨k, hk⟩ := h.size_pow hs
      rw [hk]
      exact Nat.two_pow_pos k
  · -- the mark phase is given up
    exact h.frames hs id rfl rfl rfl (h.framed.cons hs id rfl rfl rfl) rfl (fun _ ha => ha)
      (fun hsweep => ⟨rfl, Nat.zero_le _⟩) fun _ => hpos
  · exact h.frames hs id rfl rfl rfl (h.framed.cons hs id rfl rfl rfl) rfl (fun _ ha => ha)
      (fun hsweep => ⟨hsweep, le_rfl⟩) h.coloured.sweep
  · exact h.frames hs id rfl rfl rfl (h.framed.cons hs id rfl rfl rfl) rfl (fun _ ha => ha)
      (fun hsweep => ⟨hsweep, le_rfl⟩) h.coloured.sweep

/-- Some frames fewer, with other flags of the collector. -/
theorem leave (h : Inv rom s) (hs : ¬s.Shrinking) {frames : List Frame}
    (hsub : frames.Sublist s.frames) (b : Bool) :
    Inv rom { s with blockGc := b, frames := frames } := by
  have hnone : ∀ n, .shrinking n ∉ frames := fun n hmem => h.framed.not_mem hs n (hsub.subset hmem)
  exact h.frames hs (h.framed.not_shrinking hs hsub rfl) rfl rfl rfl
    (h.framed.sublist hnone hsub rfl rfl rfl) rfl (fun _ ha => ha)
    (fun hsweep => ⟨hsweep, le_rfl⟩) h.coloured.sweep

/-- A collection goes on. -/
theorem collecting {c : Chance} {last : Bool} (h : Inv rom s)
    (hstep : s.collecting c last = some s') : Inv rom s' := by
  rw [State.collecting] at hstep
  split at hstep
  · rename_i frames hframes
    have hs : ¬s.Shrinking := not_shrinking_of_frames hframes nofun
    split_ifs at hstep
    · obtain rfl := Option.some.inj hstep
      exact h.leave hs (hframes ▸ List.sublist_cons_self _ _) false
    · exact h.singlestep hs hstep
  · rename_i frames hframes
    have hs : ¬s.Shrinking := not_shrinking_of_frames hframes nofun
    split_ifs at hstep with hstate
    · -- `markroot` without the finalizers
      obtain rfl := Option.some.inj hstep
      have hsub : frames.Sublist s.frames := hframes ▸ List.sublist_cons_self _ _
      have hinv := h.leave hs hsub s.blockGc
      exact hinv.frames (h.framed.not_shrinking hs hsub rfl) id rfl rfl rfl
        (hinv.framed.cons (h.framed.not_shrinking hs hsub rfl) id rfl rfl rfl) rfl
        (fun _ ha => ha) (fun hsweep => nomatch hstate.symm.trans hsweep) nofun
    · exact h.singlestep hs hstep
  · rename_i frames hframes
    have hs : ¬s.Shrinking := not_shrinking_of_frames hframes nofun
    split_ifs at hstep
    · obtain rfl := Option.some.inj hstep
      exact h.leave hs (hframes ▸ List.sublist_cons_self _ _) false
    · exact h.singlestep hs hstep
  · cases hstep

/-- A block is allocated. -/
theorem allocated {addr : UInt32} (h : Inv rom s) (ht : Tame rom s (.allocated addr))
    (hstep : s.allocated rom addr = some s') : Inv rom s' := by
  rw [State.allocated] at hstep
  split at hstep
  · rename_i hframes
    obtain rfl := Option.some.inj hstep
    exact h.grow hframes
  · rename_i src frames hframes
    have hs : ¬s.Shrinking := not_shrinking_of_frames hframes fun _ h => by cases h
    split_ifs at hstep with haddr
    obtain rfl := Option.some.inj hstep
    have hnew : s.find rom (src.content rom) = none := by
      rw [Tame, hframes] at ht
      exact ht
    have hsub : frames.Sublist s.frames := hframes ▸ List.sublist_cons_self _ _
    exact (h.leave hs hsub s.blockGc).link (h.framed.not_shrinking hs hsub rfl) haddr.1 haddr.2 hnew
  · rename_i hframes
    obtain rfl := Option.some.inj hstep
    exact h.shrink hframes
  · cases hstep

/-- **One step.** -/
theorem step {ev : Event} (h : Inv rom s) (ht : Tame rom s ev) (hstep : step rom s ev = some s') :
    Inv rom s' := by
  cases ev with
  | intern src =>
    obtain ⟨hrunning, hstep⟩ := Option.ite_none_right_eq_some.mp hstep
    obtain rfl := Option.some.inj hstep
    exact h.intern hrunning.not_shrinking src
  | allocated addr => exact h.allocated ht hstep
  | throw n =>
    obtain ⟨-, hstep⟩ := Option.ite_none_right_eq_some.mp hstep
    obtain rfl := Option.some.inj hstep
    exact h.leave ht (List.drop_sublist n _) false
  | collect full =>
    obtain ⟨-, hstep⟩ := Option.ite_none_right_eq_some.mp hstep
    obtain rfl := Option.some.inj hstep
    exact h.collect full ht
  | collecting c last => exact h.collecting hstep
  | returns =>
    rw [Strings.step] at hstep
    split at hstep
    · rename_i frames hframes
      have hs : ¬s.Shrinking := not_shrinking_of_frames hframes nofun
      obtain rfl := Option.some.inj hstep
      exact h.leave hs (hframes ▸ List.sublist_cons_self _ _) s.blockGc
    · cases hstep
  | drop addr =>
    obtain ⟨hrunning, hstep⟩ := Option.ite_none_right_eq_some.mp hstep
    obtain rfl := Option.some.inj hstep
    have hs := hrunning.not_shrinking
    exact h.frames hs hs rfl rfl rfl
      (h.framed.sublist (h.framed.not_mem hs) (List.Sublist.refl _) rfl rfl rfl) rfl
      (fun _ ha => (List.mem_filter.mp ha).1) (fun hsweep => ⟨hsweep, le_rfl⟩) h.coloured.sweep
  | fix addr =>
    obtain ⟨-, hstep⟩ := Option.ite_none_right_eq_some.mp hstep
    obtain rfl := Option.some.inj hstep
    refine h.remark (fun _ => rfl) (h.coloured.remark (fun ts hts _ => h.coloured.white ts hts)
      (fun _ _ _ hd => hd) fun ts _ _ _ => ?_)
    rw [survives, luaSFix, Bool.or_true]
  | block b =>
    obtain ⟨hrunning, hstep⟩ := Option.ite_none_right_eq_some.mp hstep
    obtain rfl := Option.some.inj hstep
    exact h.leave hrunning.not_shrinking (List.Sublist.refl _) b

/-- A new state. -/
theorem start : Inv rom start := by
  have hitems : Strings.start.strings = [] := rfl
  refine ⟨⟨5, rfl⟩, rfl, Placed.nil _, ?_, rfl, framed_of_not_resizes nofun, ?_⟩
  · rw [hitems]
    exact ⟨List.nodup_nil, List.forall_mem_nil _, List.forall_mem_nil _, List.nodup_nil⟩
  · refine ⟨?_, ?_, List.forall_mem_nil _, nofun⟩
    · rw [hitems]
      exact List.forall_mem_nil _
    · rw [hitems]
      exact List.forall_mem_nil _

/-- What the invariant says where no smaller vector is waited for. -/
theorem interned (h : Inv rom s) (hs : ¬s.Shrinking) : Interned rom s where
  unique ts hts ts' hts' heq := List.inj_on_of_nodup_map h.distinct.unique hts hts' heq
  placed := h.placed_size hs
  sound := h.distinct.sound
  nuse := by
    rw [h.nuse]
    exact UInt32.toNat_ofNat_of_lt' h.distinct.length_lt
  held a ha := by
    obtain ⟨ts, hts, haddr, -⟩ := h.coloured.held a ha
    exact ⟨ts, hts, haddr⟩

end Inv

/-- **Interning.** In every state that tame steps reach, unless it is one in which the table waits
for a smaller vector, the strings are interned. -/
theorem interned_of_reach (h : Reach (step rom) (Tame rom) start s) (hs : ¬s.Shrinking) :
    Interned rom s :=
  (h.invariant Inv.start fun _ _ _ hinv ht hstep => hinv.step ht hstep).interned hs

/-! ### A collection in the middle of `luaS_newlstr` -/

instance (frames : List Frame) (p : Source → Prop) [DecidablePred p] :
    Decidable (match frames with
      | .creating src :: _ => p src
      | _ => True) :=
  match frames with
  | .creating src :: _ => inferInstanceAs (Decidable (p src))
  | [] | .growing .. :: _ | .shrinking _ :: _ | .collecting _ :: _ | .finalizer :: _ =>
      .isTrue trivial

instance (s : State) (ev : Event) : Decidable (Tame rom s ev) :=
  match ev with
  | .allocated _ => inferInstanceAs (Decidable (match s.frames with
      | .creating src :: _ => s.find rom (src.content rom) = none
      | _ => True))
  | .throw _ => inferInstanceAs (Decidable (¬s.Shrinking))
  | .collect _ => inferInstanceAs (Decidable (s.Shrinking → s.blockGc = true))
  | .intern _ | .collecting .. | .returns | .drop _ | .fix _ | .block _ => .isTrue trivial

/-- A collection goes on. -/
def sweepAll : List Event := List.replicate 32 (.collecting ⟨[], false⟩ false)

/-- The string `a` is created; the allocator makes a full collection, in which a finalizer creates a
string and keeps it. -/
def emergency (bytes : List UInt8) : List Event :=
  [.intern (.copy [0x61]), .collect true] ++ sweepAll ++
  [.collecting ⟨[], false⟩ false, .collecting ⟨[], false⟩ false, .collecting ⟨[], false⟩ false] ++
  sweepAll ++
  [.collecting ⟨[], false⟩ false, .collecting ⟨[], true⟩ false, .intern (.copy bytes), .allocated 1,
    .returns, .collecting ⟨[], false⟩ false, .collecting ⟨[], false⟩ false, .allocated 2]

def noRom : UInt32 → UInt8 := fun _ => 0

/-- The run where the finalizer creates `b`. Its steps are tame. -/
theorem emergency_tame :
    (runAll (guarded (step noRom) (Tame noRom)) (emergency [0x62]) start).isSome := by
  decide +kernel

/-- The run where the finalizer creates `a`. -/
theorem emergency_runs : (runAll (step noRom) (emergency [0x61]) start).isSome := by
  decide +kernel

/-- If the finalizer creates another string, the strings are interned. -/
theorem interned_emergency :
    ∃ s, runAll (guarded (step noRom) (Tame noRom)) (emergency [0x62]) start = some s ∧
      s.held = [2, 1] ∧ Interned noRom s := by
  have hrun := (Option.some_get emergency_tame).symm
  refine ⟨_, hrun, by decide +kernel, interned_of_reach (reach_of_runAll hrun) ?_⟩
  decide +kernel

/-- If the finalizer creates the same string, there are two of it. -/
theorem not_interned_emergency :
    ∃ s, runAll (step noRom) (emergency [0x61]) start = some s ∧ s.held = [2, 1] ∧
      ¬Interned noRom s := by
  refine ⟨_, (Option.some_get emergency_runs).symm, by decide +kernel, fun h => ?_⟩
  obtain ⟨ts, hts, haddr⟩ := h.held 1 (by decide +kernel)
  obtain ⟨ts', hts', haddr'⟩ := h.held 2 (by decide +kernel)
  have hchars : ∀ ts ∈ ((runAll (step noRom) (emergency [0x61]) start).get emergency_runs).strings,
      getstr noRom ts = some [0x61] := by
    decide +kernel
  have heq := h.unique ts hts ts' hts' ((hchars ts hts).trans (hchars ts' hts').symm)
  rw [heq, haddr'] at haddr
  exact absurd haddr (by decide)

end ELuaBrain.Lua.Strings
