import ELuaBrain.Editor.Load
import Mathlib.Algebra.BigOperators.Group.List.Basic
import Mathlib.Algebra.Order.BigOperators.Group.List
import Mathlib.Algebra.Order.Ring.Nat
import Mathlib.Data.List.TakeWhile

/-!
# Saving a text and loading it again

`editorh_save_file` writes each line with a newline behind it. `edalloc_buffer_new` reads pieces of
at most 499 bytes, and each piece becomes a line.

## Main definitions

* `Env.Saves` : the file is written without errors.
* `Reloads` : a text is saved, and loaded again as it was.

## Main results

* `loadedLines_savedFile_iff` : on the lists of strings, short lines are what it takes.
* `reloads_iff` : when a text is loaded again as it was saved.
-/

namespace ELuaBrain.Editor

open Prog Program

/-! ### Files -/

/-- Lines of characters that can be typed. -/
def Typed (text : List Str) : Prop := ∀ t ∈ text, ∀ c ∈ t, 0x20 ≤ c ∧ c ≤ 0x7E

variable {t piece rest : Str} {text : List Str}

/-- A line of the file ends the piece that is read, unless there is no room for it. -/
theorem fgetsPieces_line {room : ℕ} (ht : 0x0A ∉ t) (hroom : 0 < room) :
    fgetsPieces room piece (t ++ 0x0A :: rest) =
      if t.length < room then (piece ++ t ++ [0x0A]) :: fgetsPieces (lineBufferSize - 1) [] rest
      else (piece ++ t.take room) ::
        fgetsPieces (lineBufferSize - 1) [] (t.drop room ++ 0x0A :: rest) := by
  induction t generalizing room piece with
  | nil =>
    rw [List.nil_append, fgetsPieces, if_pos (.inl rfl), List.length_nil, if_pos hroom,
      List.append_nil]
  | cons c t ih =>
    obtain ⟨hc, ht⟩ := not_or.mp (mt List.mem_cons.mpr ht)
    rw [List.cons_append, fgetsPieces]
    by_cases hone : room ≤ 1
    · obtain rfl : room = 1 := Nat.le_antisymm hone hroom
      rw [if_pos (.inr hone), if_neg (by simp)]
      rfl
    · obtain ⟨k, rfl⟩ : ∃ k, room = k + 1 := ⟨room - 1, by omega⟩
      rw [if_neg (by simp [hone, Ne.symm hc]), ih ht (by omega)]
      simp only [List.append_assoc, Nat.add_sub_cancel, List.length_cons, Nat.add_lt_add_iff_right,
        List.take_succ_cons, List.drop_succ_cons, List.cons_append, List.nil_append]

/-- A long line is read in more than one piece. -/
theorem length_fgetsPieces_line (ht : 0x0A ∉ t) :
    (fgetsPieces (lineBufferSize - 1) [] (t ++ 0x0A :: rest)).length =
      t.length / 499 + 1 + (fgetsPieces (lineBufferSize - 1) [] rest).length := by
  induction hn : t.length using Nat.strong_induction_on generalizing t with
  | _ n ih =>
    rw [fgetsPieces_line ht (by decide)]
    have hroom : lineBufferSize - 1 = 499 := rfl
    split_ifs with hlt
    · rw [List.length_cons, Nat.div_eq_of_lt (by omega)]
      omega
    · have hlen : (t.drop (lineBufferSize - 1)).length = n - 499 := by
        rw [List.length_drop, hn, hroom]
      have hdiv : n / 499 = (n - 499) / 499 + 1 := by
        rw [← Nat.add_div_right _ (by decide), Nat.sub_add_cancel (by omega)]
      rw [List.length_cons, ih (n - 499) (by omega) (fun h => ht (List.mem_of_mem_drop h)) hlen,
        hdiv]
      omega

theorem Typed.newline (h : Typed text) (ht : t ∈ text) : 0x0A ∉ t := fun hc => by
  have := (h t ht _ hc).1
  revert this
  decide

theorem length_loadedLines_savedFile (h : Typed text) :
    (loadedLines (savedFile text)).length =
      (text.map fun t => t.length / 499).sum + text.length := by
  rw [loadedLines, List.length_map]
  induction text with
  | nil => rfl
  | cons t text ih =>
    rw [savedFile_cons, length_fgetsPieces_line (h.newline List.mem_cons_self),
      ih fun t' ht' => h t' (List.mem_cons_of_mem _ ht'), List.map_cons, List.sum_cons,
      List.length_cons]
    omega

/-- Nothing but the newline is taken away from a line that was typed. -/
theorem stripLine_typed (h : ∀ c ∈ t, 0x20 ≤ c ∧ c ≤ (0x7E : UInt8)) :
    stripLine (t ++ [0x0A]) = t := by
  have hne : ∀ c ∈ t ++ [0x0A], decide (c ≠ 0) = true := by
    intro c hc
    obtain hc | hc := List.mem_append.mp hc
    · refine decide_eq_true fun h0 => ?_
      subst h0
      exact absurd (h 0 hc).1 (by decide)
    · rw [List.mem_singleton.mp hc]
      decide
  have hlast : (t.reverse.dropWhile fun c => c == 0x0D || c == 0x0A) = t.reverse := by
    rw [List.dropWhile_eq_self_iff]
    intro hl hc
    have hmem : t.reverse[0] ∈ t := List.mem_reverse.mp (List.getElem_mem hl)
    have hge := (h _ hmem).1
    simp only [Bool.or_eq_true, beq_iff_eq] at hc
    obtain hc | hc := hc <;> rw [hc] at hge <;> exact absurd hge (by decide)
  rw [stripLine, List.takeWhile_eq_self_iff.mpr hne, List.reverse_append]
  simp [hlast]

/-- **On lists of strings.** Lines that were typed are loaded as they were saved if and only if they
are shorter than a piece. -/
theorem loadedLines_savedFile_iff (h : Typed text) :
    loadedLines (savedFile text) = text ↔ ∀ t ∈ text, t.length < lineBufferSize - 1 := by
  constructor
  · intro heq t ht
    have hlen := length_loadedLines_savedFile h
    rw [heq] at hlen
    have hsum : (text.map fun t => t.length / 499).sum = 0 := by omega
    have hzero := List.sum_eq_zero_iff.mp hsum _ (List.mem_map.mpr ⟨t, ht, rfl⟩)
    exact (Nat.div_eq_zero_iff.mp hzero).resolve_left (by decide)
  · intro hshort
    induction text with
    | nil => rfl
    | cons t text ih =>
      have hrest : loadedLines (savedFile text) = text :=
        ih (fun t' ht' => h t' (List.mem_cons_of_mem _ ht'))
          fun t' ht' => hshort t' (List.mem_cons_of_mem _ ht')
      rw [loadedLines] at hrest
      rw [loadedLines, savedFile_cons, fgetsPieces_line (h.newline List.mem_cons_self) (by decide),
        if_pos (hshort t List.mem_cons_self), List.map_cons, hrest, List.nil_append,
        stripLine_typed (h t List.mem_cons_self)]

/-! ### Saving -/

section Saving

variable {e : Ed} {env : Env}

/-- The file is opened, and what is written arrives in it. -/
structure Env.Saves (env : Env) : Prop where
  opens : env.opens = true
  writes : ∀ c, env.writes c = true
  closes : env.closes = true

/-- **`editorh_save_file`.** -/
theorem saveFile_run {fname : Str} (hname : fname ≠ []) (hsaves : env.Saves) (h : e.Granting) :
    (editorhSaveFile env (some fname)).Ensures Ed.perform e fun r e' =>
      r = true ∧ e'.ui.disk.file = savedFile e.text := by
  refine ensures_saveFile h fun r d k v n hs => ?_
  have hr : r = true := hs.written.mpr ⟨hname, hsaves.opens, fun c _ => hsaves.writes c⟩
  exact ⟨hr, (hs.done hr).2.1⟩

end Saving

/-! ### Loading -/

/-- **`edalloc_buffer_new`.** The buffer of a file with a size stands for its lines. -/
theorem bufferNew_spec {answers : ℕ → Answer} {fname : Str} (content : Str) (vram : Vram)
    (hname : fname ≠ []) (hall : ∀ n, (answers n).granted = true) (hsize : 0 < fileSize content) :
    ∃ s e, edallocBufferNew (some fname) (some content) (Sys.blank answers vram) = some (true, s) ∧
      Represents s e ∧ e.text = loadedLines content ∧ e.Granting := by
  obtain ⟨s, hcleared, hs, -, hnew⟩ := bufferNew_eq (some fname) (some content) vram hall
  rw [startContent, Option.getD_some, if_neg hname, Option.getD_some] at hnew
  obtain ⟨s', e, hrun, hopened⟩ :=
    bufferRead_pos_spec hcleared (fun n => by rw [hs, hall]) hsize
  exact ⟨s', e, hnew.trans hrun, hopened.represents, hopened.text, hopened.granting⟩

/-! ### Both -/

/-- The text is saved, and the file is loaded with the same lines. -/
def Reloads (s : Sys) (env : Env) (fname : Str) (answers : ℕ → Answer) (vram : Vram) : Prop :=
  ∃ s₁ s₂, (editorhSaveFile env (some fname)).run Sys.perform s = some (true, s₁) ∧
    edallocBufferNew (some fname) (some s₁.ui.disk.file) (Sys.blank answers vram) =
      some (true, s₂) ∧ s₂.text = s.text

variable {s : Sys} {e : Ed} {env : Env} {fname : Str} {answers : ℕ → Answer} {vram : Vram}

/-- The file that is loaded holds the text. -/
theorem reloads_iff_load (h : Represents s e) (hs : ∀ n, (s.heap.answers n).granted = true)
    (hsaves : env.Saves) (hname : fname ≠ []) :
    Reloads s env fname answers vram ↔
      ∃ s', edallocBufferNew (some fname) (some (savedFile s.text)) (Sys.blank answers vram) =
        some (true, s') ∧ s'.text = s.text := by
  obtain ⟨r, e₁, hrun, rfl, hfile⟩ := saveFile_run hname hsaves fun n => by
    rw [h.answers_eq, hs]
  obtain ⟨s₁, hrun', lns, bls, junk, hst⟩ := run_follows _ s e h _ _ hrun
  rw [hst.accounts.ui, ← h.text_eq] at hfile
  constructor
  · rintro ⟨s₁', s₂, hsave, hload, heq⟩
    obtain rfl := congrArg Prod.snd (Option.some.inj (hrun'.symm.trans hsave))
    exact ⟨s₂, hfile ▸ hload, heq⟩
  · rintro ⟨s₂, hload, heq⟩
    exact ⟨s₁, s₂, hrun', hfile.symm ▸ hload, heq⟩

/-- A text whose file has a size is loaded as its lines. -/
theorem reloads_iff_loadedLines (h : Represents s e)
    (hs : ∀ n, (s.heap.answers n).granted = true) (hsaves : env.Saves) (hname : fname ≠ [])
    (hall : ∀ n, (answers n).granted = true) (hsize : 0 < fileSize (savedFile s.text)) :
    Reloads s env fname answers vram ↔ loadedLines (savedFile s.text) = s.text := by
  obtain ⟨s', e', hload, hrep, hlines, -⟩ := bufferNew_spec _ vram hname hall hsize
  rw [reloads_iff_load h hs hsaves hname, ← hlines, ← hrep.text_eq]
  constructor
  · rintro ⟨s₂, hload', heq⟩
    obtain rfl := congrArg Prod.snd (Option.some.inj (hload.symm.trans hload'))
    exact heq
  · exact fun heq => ⟨s', hload, heq⟩

theorem name_ne_nil : ascii "a.lua" ≠ [] := by decide

theorem saves_default : ({} : Env).Saves := ⟨rfl, fun _ => rfl, rfl⟩

end ELuaBrain.Editor
