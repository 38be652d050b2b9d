import ELuaBrain.Editor.Follow
import ELuaBrain.System.Reach

/-!
# Runs of the editor in memory

A buffer in memory determines the text that it stands for, so that what holds of the runs of the
editor on lists of strings can be said of the buffer itself.

## Main definitions

* `Simulates` : a session in memory that stands for a session on a text.
* `OnRunning` : a condition on the keys of a session, as long as it is not closed.

## Main results

* `Represents.abs_eq` : the text is determined by the memory.
* `step_follows` : every step of a session follows its counterpart.
* `reach_simulates` : runs whose steps meet a condition on the text stand for runs on the text.
-/

namespace ELuaBrain.Editor

variable {s s' : Sys} {e e' : Ed} {lns bls : Blocks} {junk : List (Option Ptr)}

/-! ### The text of a buffer -/

theorem strings_cells {l bl : Blocks} {ts : List Str} (ho : s.heap.Owns l) (hsub : ∀ b ∈ bl, b ∈ l)
    (hold : bl.Hold ts) : s.strings bl.cells = ts := by
  induction hold with
  | nil => rfl
  | @cons b t bl ts hb hold ih =>
    have hblock := ho.blocks_eq (hsub b List.mem_cons_self)
    have hstr : ((s.heap.blocks b.1).getD []).takeWhile (· ≠ 0) = t := by
      rw [hblock, Option.getD_some, hb.str.takeWhile_eq]
    exact congrArg₂ List.cons hstr (ih fun b' hb' => hsub b' (List.mem_cons_of_mem _ hb'))

theorem Cells.take_eq {cells : List (Option Ptr)} (hc : Cells s cells junk) :
    (s.lines.getD []).take s.fileLines.toNat = cells := by
  rw [hc.lines, Option.getD_some, hc.fileLines, Int.toNat_natCast, List.take_left]

/-- **The text is determined by the memory.** -/
theorem Represents.abs_eq (h : Represents s e) : s.abs = e := by
  obtain ⟨lns, bls, junk, h⟩ := h
  have htext : s.text = e.text := by
    rw [Sys.text, h.cells.take_eq]
    exact strings_cells h.owns (fun b hb => List.mem_append_left _ hb) h.text
  have hblock : s.block = e.block := by
    rw [Sys.block, h.sellines, Option.map_map]
    cases hb : e.block with
    | none => rfl
    | some bl =>
      have := h.block
      rw [hb, Option.getD_some] at this
      exact congrArg some
        (strings_cells h.owns (fun b hb => List.mem_append_right _ hb) this)
  obtain ⟨text, block, allocated, answers, calls, ui⟩ := e
  simp only [Sys.abs, Ed.mk.injEq]
  exact ⟨htext, hblock, h.accounts.allocated.symm,
    (funext h.accounts.matches_.answers).symm, h.accounts.matches_.calls.symm, h.accounts.ui.symm⟩

/-! ### Closing -/

theorem freeLines_spec {l : Blocks} {ts : List Str} (ho : s.heap.Owns (lns ++ l))
    (hold : lns.Hold ts) :
    ∃ h', freeLines lns.cells s = some (ts, s.withHeap h') ∧ h'.Owns l := by
  induction hold generalizing s with
  | nil => exact ⟨s.heap, rfl, ho⟩
  | @cons b t bl ts hb hold ih =>
    obtain ⟨p, m⟩ := b
    have hstr := ho.string List.mem_cons_self hb.str (Nat.zero_le _)
    rw [List.drop_zero] at hstr
    obtain ⟨hfree, ho'⟩ := ho.free
    obtain ⟨h', hrun, ho''⟩ := ih (s := s.withHeap (s.heap.put p none)) ho'
    refine ⟨h', ?_, ho''⟩
    rw [Blocks.cells_cons, freeLines, Comp.bind_eq (onHeap_eq hstr)]
    refine (Comp.bind_eq (onHeap_eq hfree)).trans ?_
    exact Comp.bind_eq hrun

/-- **`edalloc_free_buffer`.** It frees each line once. -/
theorem freeBuffer_spec (h : Represents s e) :
    ∃ s', edallocFreeBuffer s = some (e.text, s') ∧ s'.ui = e.ui ∧ s'.gets = s.gets := by
  obtain ⟨lns, bls, junk, h⟩ := h
  obtain ⟨h', hrun, -⟩ := freeLines_spec h.owns h.text
  refine ⟨{ s.withHeap h' with lines := none }, ?_, h.accounts.ui.symm, rfl⟩
  rw [edallocFreeBuffer, Comp.bind_eq (Comp.get_apply _)]
  have htake := h.cells.take_eq
  have hlines := h.cells.lines
  rw [hlines] at htake ⊢
  rw [Option.getD_some] at htake
  simp only [htake]
  exact Comp.bind_eq hrun

/-! ### Sessions -/

/-- The calls of `edutils_line_get` were for lines of the file. -/
def Sys.GetsOk (s : Sys) : Prop := ∀ g ∈ s.gets, 0 ≤ g.1 ∧ g.1 < g.2

/-- A session in memory that stands for a session on a text. -/
inductive Simulates : Session Sys → Session Ed → Prop
  | running {s : Sys} {e : Ed} (h : Represents s e) : Simulates (.running s) (.running e)
  | closed {s : Sys} {e : Ed} (ts : List Str) (hui : s.ui = e.ui) (hgets : s.GetsOk) :
      Simulates (.closed ts s) (.closed ts e)

/-- **Every step of a session follows the one on the text.** -/
theorem step_follows {S : Session Sys} {E E' : Session Ed} {i : Key × Env} (h : Simulates S E)
    (hE : Ed.step E i = some E') : ∃ S', Sys.step S i = some S' ∧ Simulates S' E' := by
  cases h with
  | @running s e h =>
    obtain ⟨⟨exit, e₁⟩, hrun, hrest⟩ := Option.bind_eq_some_iff.mp hE
    obtain ⟨s₁, hrun', hR⟩ := run_follows (mainloopStep i.1 i.2) s e h exit e₁ hrun
    have hstep : Sys.step (.running s) i = (if exit then
        (edallocFreeBuffer s₁).map fun f => .closed f.1 f.2 else some (.running s₁)) := by
      change ((mainloopStep i.1 i.2).run Sys.perform s).bind _ = _
      rw [hrun']
      rfl
    cases exit with
    | false =>
      obtain rfl : Session.running e₁ = E' := Option.some.inj hrest
      exact ⟨.running s₁, hstep, .running hR⟩
    | true =>
      obtain rfl : Session.closed e₁.text e₁ = E' := Option.some.inj hrest
      obtain ⟨s₂, hfree, hui, hgets⟩ := freeBuffer_spec hR
      obtain ⟨lns, bls, junk, hst⟩ := hR
      refine ⟨.closed e₁.text s₂, ?_, .closed _ hui ?_⟩
      · rw [hstep, hfree]
        rfl
      · rw [Sys.GetsOk, hgets]
        exact hst.accounts.gets
  | closed ts hui hgets =>
    obtain rfl := Option.some.inj hE
    exact ⟨_, rfl, .closed ts hui hgets⟩

/-- A condition on the keys of a session that is not closed. -/
def OnRunning {σ : Type} (guard : σ → Key × Env → Prop) : Session σ → Key × Env → Prop
  | .running s, i => guard s i
  | .closed _ _, _ => True

instance {σ : Type} (guard : σ → Key × Env → Prop) [∀ s i, Decidable (guard s i)]
    (S : Session σ) (i : Key × Env) : Decidable (OnRunning guard S i) :=
  match S with
  | .running s => inferInstanceAs (Decidable (guard s i))
  | .closed _ _ => inferInstanceAs (Decidable True)

/-- The states of the editor in memory that are reached from `s` by steps that meet a condition on
the text. -/
abbrev Sys.Reached (guard : Ed → Key × Env → Prop) (s : Sys) : Session Sys → Prop :=
  Reach Sys.step (OnRunning fun s => guard s.abs) (.running s)

/-- **Runs in memory stand for runs on the text.** If the steps on the text that meet the condition
exist and keep the invariant `P`, each state reached in memory stands for a text with that
invariant, and the next step exists too. -/
theorem reach_simulates {guard : Ed → Key × Env → Prop} {P : Session Ed → Prop} {S : Session Sys}
    (hstep : ∀ E i, P E → OnRunning guard E i → ∃ E', Ed.step E i = some E' ∧ P E')
    (h₀ : Represents s e) (hP : P (.running e)) (h : s.Reached guard S) :
    ∃ E, Simulates S E ∧ P E ∧ Reach Ed.step (OnRunning guard) (.running e) E := by
  refine h.simulation hstep (fun S E i E' hR hE => step_follows hR hE) (fun S E i hR hi => ?_)
    (.running h₀) hP
  cases hR with
  | running h =>
    rw [← h.abs_eq]
    exact hi
  | closed => trivial

/-- The next step in memory exists wherever it exists on the text. -/
theorem step_isSome {guard : Ed → Key × Env → Prop} {P : Session Ed → Prop} {S : Session Sys}
    {E : Session Ed} {i : Key × Env}
    (hstep : ∀ E i, P E → OnRunning guard E i → ∃ E', Ed.step E i = some E' ∧ P E')
    (hS : Simulates S E) (hP : P E) (hi : OnRunning (fun s : Sys => guard s.abs) S i) :
    (Sys.step S i).isSome := by
  have hi' : OnRunning guard E i := by
    cases hS with
    | running h =>
      rw [← h.abs_eq]
      exact hi
    | closed => trivial
  obtain ⟨E', hE', -⟩ := hstep E i hP hi'
  obtain ⟨S', hS', -⟩ := step_follows hS hE'
  rw [hS']
  rfl

end ELuaBrain.Editor
