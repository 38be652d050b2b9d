import ELuaBrain.Linenoise.Memory
import ELuaBrain.System.Reach
import Mathlib.Data.UInt

/-!
# Histories in every run

## Main definitions

* `Keeps` : the entries are the strings in memory, and there are no others.
* `Careful` : no request for memory fails at a prompt.

## Main results

* `Keeps.step` : one call or key.
* `histories_kept` : every run.
-/

namespace ELuaBrain.Linenoise

/-- The entries of both histories are strings in blocks of their own, and there are no other
blocks. -/
def Stores (maxLength : Component → ℕ) (histories : Component → History) (heap : Heap)
    (lines : Component → Lines) : Prop :=
  ∃ b : Component → Blocks,
    (∀ id, Holds (maxLength id) (histories id) (lines id).texts (b id)) ∧
      heap.Owns (b .lua ++ b .shell)

/-- The histories are these lines, in memory. There is a line at the prompt in the history of the
prompt only. -/
structure Keeps (maxLength : Component → ℕ) (s : State) (a : Model) : Prop where
  stores : Stores maxLength s.histories s.heap a.histories
  prompt : s.prompt = a.prompt
  reads : ∀ p, a.prompt = some p → Reads p (a.histories p.id) ∧ maxLength p.id ≠ 0
  closed : ∀ id, (∀ p, a.prompt = some p → p.id ≠ id) → (a.histories id).current = none

/-- No request for memory fails at a prompt. -/
def Careful (maxLength : Component → ℕ) (s : State) (e : Event) : Prop :=
  match s.prompt, e with
  | none, .getline id _ => maxLength id ≠ 0 → Granted (s.histories id) s.heap
  | some _, .key .kcCtrlC => (s.heap.answers s.heap.calls).granted = true
  | some p, .key .kcUp | some p, .key .kcDown =>
      1 < (s.histories p.id).length → (s.heap.answers s.heap.calls).granted = true
  | _, _ => True

section Runs

variable {maxLength : Component → ℕ} {s : State} {a : Model} {p : Prompt}
  {histories : Component → History} {heap : Heap} {lines : Component → Lines}

/-- The blocks of one history, and the other ones. -/
theorem Stores.focus (h : Stores maxLength histories heap lines) (id : Component) :
    ∃ b rest, Holds (maxLength id) (histories id) (lines id).texts b ∧ heap.Owns (b ++ rest) ∧
      ∀ {h' l b' heap'}, Holds (maxLength id) h' l.texts b' → heap'.Owns (b' ++ rest) →
        Stores maxLength (Function.update histories id h') heap' (Function.update lines id l) := by
  obtain ⟨b, hb, ho⟩ := h
  have hupdate {h' : History} {l : Lines} {b' : Blocks} (hh : Holds (maxLength id) h' l.texts b')
      (j : Component) : Holds (maxLength j) (Function.update histories id h' j)
        (Function.update lines id l j).texts (Function.update b id b' j) := by
    obtain rfl | hne := eq_or_ne j id
    · rw [Function.update_self, Function.update_self, Function.update_self]
      exact hh
    · rw [Function.update_of_ne hne, Function.update_of_ne hne, Function.update_of_ne hne]
      exact hb j
  cases id with
  | lua => exact ⟨b .lua, b .shell, hb _, ho, fun hh ho' => ⟨_, hupdate hh, ho'⟩⟩
  | shell =>
    exact ⟨b .shell, b .lua, hb _, ho.perm List.perm_append_comm, fun hh ho' =>
      ⟨_, hupdate hh, ho'.perm List.perm_append_comm⟩⟩

/-- A prompt starts. -/
theorem Keeps.start (h : Keeps maxLength s a) (hprompt : a.prompt = none) {id : Component}
    (hmax : maxLength id ≠ 0) (hg : Granted (s.histories id) s.heap) (buflen : ℕ) :
    ∃ s', s.startPrompt maxLength id buflen = some s' ∧
      Keeps maxLength s' (a.start maxLength id buflen) := by
  obtain ⟨b, rest, hh, ho, hclose⟩ := h.stores.focus id
  have htexts : (a.histories id).texts = (a.histories id).lines := by
    rw [Lines.texts, h.closed id fun p hp =>
      absurd (hp.symm.trans hprompt) (Option.some_ne_none p)]
    exact List.append_nil _
  rw [htexts] at hh
  obtain ⟨h', heap', b', hadd, hh', ho'⟩ := hh.pushEmpty ho hmax hg
  refine ⟨{ s.put id (h', heap') with prompt := some { id, buflen } }, ?_,
    hclose (l := { lines := makeRoom (maxLength id) (a.histories id).lines, current := some [] })
      hh' ho', rfl, ?_, fun j hj => ?_⟩
  · rw [State.startPrompt, hadd]
    rfl
  · rintro p hp
    obtain rfl := Option.some.inj hp
    refine ⟨?_, hmax⟩
    change Reads _ (Function.update a.histories id _ id)
    rw [Function.update_self]
    exact ⟨rfl, le_rfl, Int.natCast_nonneg _, List.not_mem_nil⟩
  · change (Function.update a.histories id _ j).current = none
    rw [Function.update_of_ne (hj _ rfl).symm]
    exact h.closed j fun p hp => absurd (hp.symm.trans hprompt) (Option.some_ne_none p)

/-- A prompt ends. The entry that is removed is the line at the prompt. -/
theorem Keeps.finish (h : Keeps maxLength s a) (hp : a.prompt = some p) :
    ∃ s', s.finish p.id = some s' ∧ Keeps maxLength s' (a.finish p.id) ∧
      (s'.histories p.id).array.isSome ∧ s'.heap.answers = s.heap.answers ∧
      s'.heap.calls = s.heap.calls := by
  obtain ⟨b, rest, hh, ho, hclose⟩ := h.stores.focus p.id
  obtain ⟨current, hcurrent⟩ := Option.isSome_iff_exists.mp (h.reads p hp).1.current
  rw [Lines.texts_eq hcurrent] at hh
  obtain ⟨h', heap', b', hend, hh', ho', hsome, hanswers, hcalls⟩ := hh.endPrompt ho
  have htexts : ({ a.histories p.id with current := none } : Lines).texts =
      (a.histories p.id).lines := List.append_nil _
  rw [← htexts] at hh'
  refine ⟨{ s.put p.id (h', heap') with prompt := none }, ?_, ⟨hclose hh' ho', rfl, nofun,
    fun j _ => ?_⟩, ?_, hanswers, hcalls⟩
  · rw [State.finish, hend]
    rfl
  · change (Function.update a.histories p.id _ j).current = none
    obtain rfl | hne := eq_or_ne j p.id
    · rw [Function.update_self]
    · rw [Function.update_of_ne hne]
      refine h.closed j fun q hq => ?_
      obtain rfl := Option.some.inj (hp.symm.trans hq)
      exact hne.symm
  · change (Function.update s.histories p.id h' p.id).array.isSome
    rw [Function.update_self]
    exact hsome

/-- The prompt and its history change. -/
theorem Keeps.setPrompt (h : Keeps maxLength s a) (hp : a.prompt = some p) {p' : Prompt}
    {h' : History} {l : Lines} {heap' : Heap}
    (hstores : Stores maxLength (Function.update s.histories p.id h') heap'
      (Function.update a.histories p.id l)) (hid : p'.id = p.id) (hreads : Reads p' l) :
    Keeps maxLength { s.put p.id (h', heap') with prompt := some p' }
      { histories := Function.update a.histories p.id l, prompt := some p' } := by
  refine ⟨hstores, rfl, ?_, fun j hj => ?_⟩
  · rintro q hq
    obtain rfl := Option.some.inj hq
    rw [hid]
    refine ⟨?_, (h.reads p hp).2⟩
    change Reads _ (Function.update a.histories p.id l p.id)
    rw [Function.update_self]
    exact hreads
  · change (Function.update a.histories p.id l j).current = none
    have hne : p.id ≠ j := hid ▸ hj p' rfl
    rw [Function.update_of_ne hne.symm]
    refine h.closed j fun q hq => ?_
    obtain rfl := Option.some.inj (hp.symm.trans hq)
    exact hne

/-- A history changes while no line is read. -/
theorem Keeps.setLines (h : Keeps maxLength s a) (hp : a.prompt = none) {id : Component}
    {h' : History} {l : Lines} {heap' : Heap}
    (hstores : Stores maxLength (Function.update s.histories id h') heap'
      (Function.update a.histories id l)) (hl : l.current = none) :
    Keeps maxLength (s.put id (h', heap'))
      { histories := Function.update a.histories id l, prompt := none } := by
  refine ⟨hstores, h.prompt.trans hp, nofun, fun j _ => ?_⟩
  change (Function.update a.histories id l j).current = none
  obtain rfl | hne := eq_or_ne j id
  · rw [Function.update_self]
    exact hl
  · rw [Function.update_of_ne hne]
    exact h.closed j fun p hp' => absurd (hp.symm.trans hp') nofun

/-- A key at a prompt. -/
theorem Keeps.press (h : Keeps maxLength s a) (hp : a.prompt = some p) (key : Key)
    (hcareful : Careful maxLength s (.key key)) :
    ∃ s', s.press maxLength p key = some s' ∧ Keeps maxLength s' (a.press maxLength p key) := by
  have hsp : s.prompt = some p := h.prompt.trans hp
  obtain ⟨hreads, hmax⟩ := h.reads p hp
  have hnavigate (delta : ℤ) (hg : 1 < (s.histories p.id).length →
      (s.heap.answers s.heap.calls).granted = true) :
      ∃ s', (navigate delta p (s.histories p.id) s.heap).map (fun r =>
          { s.put p.id r.2 with prompt := some r.1 }) = some s' ∧
        Keeps maxLength s'
          { histories := Function.update a.histories p.id ((a.histories p.id).navigate delta p).2
            prompt := some ((a.histories p.id).navigate delta p).1 } := by
    obtain ⟨b, rest, hh, ho, hclose⟩ := h.stores.focus p.id
    obtain ⟨h', heap', b', hnav, hh', ho', hreads'⟩ := hh.navigate ho hreads hg delta
    rw [hnav]
    exact ⟨_, rfl, h.setPrompt hp (hclose hh' ho') (Lines.id_navigate _ _ _) hreads'⟩
  have hedit (key : Key) : Keeps maxLength { s with prompt := some (p.edit key) }
      { a with prompt := some (p.edit key) } := by
    refine ⟨h.stores, rfl, ?_, fun j hj => h.closed j fun q hq => ?_⟩
    · rintro q hq
      obtain rfl := Option.some.inj hq
      rw [Prompt.id_edit]
      exact ⟨hreads.edit key, hmax⟩
    · obtain rfl := Option.some.inj (hp.symm.trans hq)
      exact p.id_edit key ▸ hj _ rfl
  cases key with
  | kcEnter | kcCtrlZ =>
    obtain ⟨s', hfinish, hkeeps, -⟩ := h.finish hp
    exact ⟨s', hfinish, hkeeps⟩
  | kcCtrlC =>
    simp only [Careful, hsp] at hcareful
    obtain ⟨s₁, hfinish, hkeeps, hsome, hanswers, hcalls⟩ := h.finish hp
    have hg : Granted (s₁.histories p.id) s₁.heap := by
      refine ⟨by rw [hanswers, hcalls]; exact hcareful, fun hnone => ?_⟩
      rw [hnone] at hsome
      cases hsome
    obtain ⟨s', hstart, hkeeps'⟩ := hkeeps.start rfl hmax hg p.buflen
    exact ⟨s', by rw [State.press, hfinish]; exact hstart, hkeeps'⟩
  | kcUp =>
    simp only [Careful, hsp] at hcareful
    exact hnavigate 1 hcareful
  | kcDown =>
    simp only [Careful, hsp] at hcareful
    exact hnavigate (-1) hcareful
  | kcBackspace | kcLeft | kcRight | kcDel | kcHome | kcEnd | kcCtrlU | kcCtrlK | char | other =>
    exact ⟨_, rfl, hedit _⟩

/-- One event. -/
theorem Keeps.step (h : Keeps maxLength s a) (e : Event) (hcareful : Careful maxLength s e) :
    ∃ s' n, Linenoise.step maxLength s e = some s' ∧ Keeps maxLength s' (a.step maxLength n e) := by
  cases hp : a.prompt with
  | some p =>
    have hsp : s.prompt = some p := h.prompt.trans hp
    cases e with
    | key key =>
      obtain ⟨s', hpress, hkeeps⟩ := h.press hp key hcareful
      refine ⟨s', 0, ?_, ?_⟩
      · simp only [Linenoise.step, hsp, hpress]
      · simp only [Model.step, hp]
        exact hkeeps
    | getline | addhistory | cleanup =>
      refine ⟨s, 0, ?_, ?_⟩
      · simp only [Linenoise.step, hsp]
      · simp only [Model.step, hp]
        exact h
  | none =>
    have hsp : s.prompt = none := h.prompt.trans hp
    have hnone (q : Prompt) : a.prompt ≠ some q := fun hq => absurd (hp.symm.trans hq) nofun
    cases e with
    | key =>
      refine ⟨s, 0, ?_, ?_⟩
      · simp only [Linenoise.step, hsp]
      · simp only [Model.step, hp]
        exact h
    | getline id buflen =>
      simp only [Careful, hsp] at hcareful
      simp only [Linenoise.step, Model.step, hsp, hp]
      split_ifs with hmax
      · exact ⟨s, 0, rfl, h⟩
      · obtain ⟨s', hstart, hkeeps⟩ := h.start hp hmax (hcareful hmax) buflen
        exact ⟨s', 0, hstart, hkeeps⟩
    | addhistory id line =>
      simp only [Linenoise.step, Model.step, hsp, hp]
      obtain ⟨b, rest, hh, ho, hclose⟩ := h.stores.focus id
      have hcurrent := h.closed id fun p hp => absurd hp (hnone p)
      have htexts : (a.histories id).texts = (a.histories id).lines := by
        rw [Lines.texts, hcurrent]
        exact List.append_nil _
      rw [htexts] at hh
      obtain ⟨ok, n, h', heap', b', hadd, hh', ho'⟩ := hh.addhistory ho line
      rw [hadd]
      refine ⟨_, n, rfl, h.setLines hp (hclose ?_ ho') hcurrent⟩
      rw [Lines.texts]
      dsimp only
      rw [hcurrent]
      exact (List.append_nil _).symm ▸ hh'
    | cleanup id =>
      simp only [Linenoise.step, Model.step, hsp, hp]
      obtain ⟨b, rest, hh, ho, hclose⟩ := h.stores.focus id
      obtain ⟨heap', hcleanup, ho'⟩ := hh.cleanup ho
      rw [hcleanup]
      exact ⟨_, 0, rfl, h.setLines hp (@hclose _ _ [] _ .null ho') rfl⟩

/-- Every event of a run is careful. -/
def AllCareful (maxLength : Component → ℕ) : State → List Event → Prop
  | _, [] => True
  | s, e :: events => Careful maxLength s e ∧
      match step maxLength s e with
      | some s' => AllCareful maxLength s' events
      | none => True

/-- The lines after some events. Of the lines of a text that is added, the last ones may be missing,
if there is no memory for them. -/
def Follows (maxLength : Component → ℕ) : Model → List Event → Model → Prop
  | a, [], a' => a' = a
  | a, e :: events, a' => ∃ n, Follows maxLength (a.step maxLength n e) events a'

theorem Keeps.run (h : Keeps maxLength s a) (events : List Event)
    (hcareful : AllCareful maxLength s events) :
    ∃ s' a', runAll (Linenoise.step maxLength) events s = some s' ∧ Follows maxLength a events a' ∧
      Keeps maxLength s' a' := by
  induction events generalizing s a with
  | nil => exact ⟨s, a, rfl, rfl, h⟩
  | cons e events ih =>
    obtain ⟨s₁, n, hstep, hkeeps⟩ := h.step e hcareful.1
    have hrest := hcareful.2
    rw [hstep] at hrest
    obtain ⟨s', a', hrun, hfollows, hkeeps'⟩ := ih hkeeps hrest
    refine ⟨s', a', ?_, ⟨n, hfollows⟩, hkeeps'⟩
    rw [runAll, hstep]
    exact hrun

theorem keeps_init (maxLength : Component → ℕ) (answers : ℕ → Answer) :
    Keeps maxLength { heap := { answers } } {} := by
  refine ⟨⟨fun _ => [], fun _ => .null, ?_⟩, rfl, nofun, fun _ _ => rfl⟩
  exact ⟨List.nodup_nil, fun _ _ => ⟨nofun, nofun⟩, nofun⟩

/-- The histories of the other components stay. -/
theorem Model.histories_step (a : Model) (n : ℕ) (e : Event) {j : Component}
    (hj : match a.prompt, e with
      | none, .getline id _ | none, .addhistory id _ | none, .cleanup id => j ≠ id
      | some p, .key _ => j ≠ p.id
      | _, _ => True) :
    (a.step maxLength n e).histories j = a.histories j := by
  cases hp : a.prompt with
  | none =>
    simp only [hp] at hj
    simp only [Model.step, hp]
    cases e with
    | getline id buflen =>
      dsimp only at hj ⊢
      split_ifs
      · rfl
      · exact Function.update_of_ne hj _ _
    | addhistory | cleanup => exact Function.update_of_ne hj _ _
    | key => rfl
  | some p =>
    simp only [hp] at hj
    simp only [Model.step, hp]
    cases e with
    | key key =>
      cases key with
      | kcEnter | kcCtrlZ | kcUp | kcDown => exact Function.update_of_ne hj _ _
      | kcCtrlC => exact (Function.update_of_ne hj _ _).trans (Function.update_of_ne hj _ _)
      | _ => rfl
    | _ => rfl

end Runs

/-- **Histories are kept** in every run in which no request for memory fails at a prompt. -/
theorem histories_kept (maxLength : Component → ℕ) (answers : ℕ → Answer) (events : List Event)
    (hcareful : AllCareful maxLength { heap := { answers } } events) :
    ∃ s a, runAll (step maxLength) events { heap := { answers } } = some s ∧
      Follows maxLength {} events a ∧ Keeps maxLength s a :=
  (keeps_init maxLength answers).run events hcareful

/-- Two commands are added, and the last one is read again. -/
def addedAndRead : List Event :=
  [.addhistory .shell [0x6C, 0x73, 0x0A, 0x63, 0x64], .getline .shell 79, .key (.char 0x78),
    .key .kcUp, .key .kcEnter]

theorem histories_kept_addedAndRead : ∃ s a,
    runAll (step fun _ => 10) addedAndRead { heap := { answers := fun _ => .grant false 0 } } =
        some s ∧
      Follows (fun _ => 10) {} addedAndRead a ∧ Keeps (fun _ => 10) s a :=
  histories_kept _ _ _
    ⟨trivial, fun _ => ⟨rfl, fun _ => rfl⟩, trivial, fun _ => rfl, trivial, trivial⟩

/-- There is no memory for the line at the prompt. -/
theorem not_histories_kept : ¬∀ (maxLength : Component → ℕ) (answers : ℕ → Answer)
    (events : List Event), ∃ s a, runAll (step maxLength) events { heap := { answers } } = some s ∧
      Follows maxLength {} events a ∧ Keeps maxLength s a := by
  intro h
  obtain ⟨s, a, hrun, -⟩ := h (fun _ => 10) (fun _ => .refuse) [.getline .shell 79, .key .kcEnter]
  have hnone : runAll (step fun _ => 10) [.getline .shell 79, .key .kcEnter]
      { heap := { answers := fun _ => .refuse } } = none := rfl
  rw [hnone] at hrun
  cases hrun

end ELuaBrain.Linenoise
