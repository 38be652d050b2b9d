import ELuaBrain.Terminal.Cells

/-!
# Menus

`luaterm_menu` of `src/modules/term.c`, on the video terminal. It shows a page of the choices, and
changes only attributes as long as the selection stays on the page.

An arithmetic error, an access outside of the screen and a choice that is not there have no result.
A callback changes the screen. The shape of the cursor is left out.

## Main definitions

* `Menu.luatermMenu`, `Menu.update`, `Menu.press` : the code.
* `Menu.follow` : the selection and the value that is returned.
* `Menu.Shown` : the page on the screen.
* `Menu.Fits` : the default selection and the configuration are in range.

## Main results

* `Menu.Pending.update`, `Menu.Waiting.press` : painting, and one key.
* `Menu.luatermMenu_correct` : every sequence of keys.
-/

namespace ELuaBrain.Terminal

open Editor (vramCols vramLines)

/-! ### The code -/

/-- `KC_UP`, `KC_DOWN`, `KC_ENTER` and `KC_ESC`. -/
def kcUp : ℤ := 256
def kcDown : ℤ := 257
def kcEnter : ℤ := 264
def kcEsc : ℤ := 267

/-- A value of type `int`, if there is no overflow. -/
def checkedInt (n : ℤ) : Option ℤ := if -2 ^ 31 ≤ n ∧ n < 2 ^ 31 then some n else none

/-- A value of the configuration table. -/
inductive Field where
  | nil
  | integer (n : ℤ)
  | other

/-- The arguments of a menu, and the colours before it. -/
structure Menu where
  choices : List (List UInt8)
  sx : ℤ
  sy : ℤ
  width : ℤ
  height : ℤ
  attrs : ℤ
  fgsel : ℤ
  bgsel : ℤ
  callback : Option (ℤ → ℤ → Video → Option Video)
  origfg : ℤ
  origbg : ℤ

namespace Menu

/-- The static variables of the loop. -/
structure State where
  sel : ℤ
  prevsel : ℤ := -1
  first : ℤ := 0
  last : ℤ := 0
  newfirst : ℤ
  key : ℤ := -1
  video : Video

/-- How far a menu gets. -/
inductive Outcome where
  | waits (s : State)
  | returned (sel : ℤ) (video : Video)

/-- A required number of the configuration. -/
def required (t : String → Field) (name : String) : Except String ℤ :=
  match t name with
  | .nil => .error ("field '" ++ name ++ "' not found in the configuration table")
  | .integer n => .ok n
  | .other => .error "number expected"

/-- A number of the configuration that has a default value. -/
def optional (t : String → Field) (name : String) (default : ℤ) : Except String ℤ :=
  match t name with
  | .nil => .ok default
  | .integer n => .ok n
  | .other => .error "number expected"

/-- The configuration is read. -/
def configure (choices : List (List UInt8)) (t : String → Field)
    (callback : Option (ℤ → ℤ → Video → Option Video)) (v : Video) : Except String Menu := do
  let sx ← required t "x"
  let sy ← required t "y"
  let width ← required t "width"
  let height ← required t "height"
  let attrs ← optional t "attrs" 0
  let fgsel ← optional t "fgsel" (-1)
  let bgsel ← optional t "bgsel" (-1)
  let origfg : ℤ := v.fgCol.toNat
  let origbg : ℤ := v.bgCol.toNat
  return {
    choices, sx, sy, width, height, attrs, callback, origfg, origbg
    fgsel := if fgsel = -1 then origbg else fgsel
    bgsel := if bgsel = -1 then origfg else bgsel }

/-- `strlen` ends a choice. -/
def cstring (pentry : List UInt8) : List UInt8 := pentry.takeWhile (· ≠ 0)

section Code

variable (outOfRange : ℤ → ℤ) (m : Menu)

/-- The number of choices. -/
def nchoices : ℤ := m.choices.length

/-- `lua_rawgeti` and `luaL_checkstring`. -/
def entry (i : ℤ) : Option (List UInt8) := if 1 ≤ i then m.choices[(i - 1).toNat]? else none

/-- The row of a choice on the screen. -/
def row (first i : ℤ) : Option ℤ := (checkedInt (m.sy + i)).bind fun y => checkedInt (y - first)

/-- A choice is printed. -/
def putRow (pentry : List UInt8) (v : Video) : Option Video := do
  let len ← checkedInt (m.width - 2)
  let str := cstring pentry
  let v ← v.putchar outOfRange 0x20
  let v ← Video.putstr outOfRange (str.take (min str.length (unsigned len))) v
  Video.putstr outOfRange (List.replicate (len - str.length).toNat 0x20) v

/-- The next `n` choices are printed. -/
def putRows (first : ℤ) : ℕ → ℤ → Video → Option Video
  | 0, _, v => some v
  | n + 1, i, v => do
      let pentry ← m.entry i
      let y ← m.row first i
      let v ← m.putRow outOfRange pentry (v.gotoxy (UInt8.ofInt m.sx) (UInt8.ofInt y))
      putRows first n (i + 1) v

/-- Display current items if needed. -/
def display (s : State) : Option State :=
  if s.newfirst ≠ -1 then do
    let first := s.newfirst
    let bottom ← (checkedInt (first + m.height)).bind fun n => checkedInt (n - 1)
    let last := min bottom m.nchoices
    let v := s.video.setColor m.origfg m.origbg
    let v ← m.putRows outOfRange first (last + 1 - first).toNat first v
    return { s with first, last, video := v }
  else some s

/-- Highlight current item. -/
def highlight (s : State) : Option State :=
  if s.prevsel ≠ s.sel then do
    let v ← if s.newfirst = -1 then do
        let y ← m.row s.first s.prevsel
        s.video.vramChangeAttr m.sx y m.width m.origfg m.origbg
      else some s.video
    let y ← m.row s.first s.sel
    let v ← v.vramChangeAttr m.sx y m.width m.fgsel m.bgsel
    return { s with video := v, prevsel := s.sel }
  else some s

/-- The callback, if there is one. -/
def call (s : State) : Option State :=
  match m.callback with
  | some callback => (callback s.sel s.key s.video).map fun v => { s with video := v }
  | none => some s

/-- One round of the loop, until the menu waits for a key. -/
def update (s : State) : Option State :=
  (m.display outOfRange s).bind fun s =>
    (if s.prevsel ≠ s.sel ∨ s.key ≠ -1 then (m.highlight s).bind m.call else some s).map fun s =>
      { s with newfirst := -1 }

/-- A key. -/
def press (s : State) (key : ℤ) : State ⊕ ℤ :=
  let s := { s with key }
  if key = kcUp ∧ s.sel > 1 then
    .inl { s with
      sel := s.sel - 1, newfirst := if s.sel - 1 < s.first then s.first - 1 else s.newfirst }
  else if key = kcDown ∧ s.sel < m.nchoices then
    .inl { s with
      sel := s.sel + 1, newfirst := if s.sel + 1 > s.last then s.first + 1 else s.newfirst }
  else if key = kcEnter ∧ m.attrs % 2 = 0 then .inr s.sel
  else if key = kcEsc ∧ m.attrs / 2 % 2 = 0 then .inr (-1)
  else .inl s

/-- The loop. -/
def loop : State → List ℤ → Option Outcome
  | s, [] => (m.update outOfRange s).map .waits
  | s, key :: keys => (m.update outOfRange s).bind fun s =>
      match m.press s key with
      | .inl s => loop s keys
      | .inr sel => some (.returned sel (s.video.setColor m.origfg m.origbg))

/-- The proper page for `sel`. -/
def start (sel : ℤ) (v : Video) : Option State := do
  let sel' ← checkedInt (sel - 1)
  let page ← if m.height = 0 then none else checkedInt (sel'.tdiv m.height)
  let newfirst ← (checkedInt (page * m.height)).bind fun n => checkedInt (n + 1)
  return { sel, newfirst, video := v }

/-- The menu, after it is configured. -/
def run (sel : ℤ) (v : Video) (keys : List ℤ) : Option Outcome :=
  (m.start sel v).bind fun s => m.loop outOfRange s keys

end Code

/-- `luaterm_menu`. Without choices nothing is returned. -/
def luatermMenu (outOfRange : ℤ → ℤ) (choices : Option (List (List UInt8))) (sel : ℤ)
    (config : Option (String → Field)) (callback : Option (ℤ → ℤ → Video → Option Video))
    (v : Video) (keys : List ℤ) : Except String (Option (Option Outcome)) := do
  let some choices := choices | .error "expected a table as the list of entries"
  let some t := config | .error "expected a table for the menu configuration"
  if choices.length = 0 then return none
  let m ← configure choices t callback v
  return some (m.run outOfRange sel v keys)

/-! ### What is on the screen -/

section Screen

variable (m : Menu)

/-- The attribute of a choice. -/
def attr : UInt8 := Video.colorAttr m.origfg m.origbg

/-- The attribute of the selected choice. -/
def selAttr : UInt8 := Video.colorAttr m.fgsel m.bgsel

/-- The characters of a choice. -/
def rowText (pentry : List UInt8) : List UInt8 :=
  0x20 :: ((cstring pentry).take (m.width - 2).toNat ++
    List.replicate ((m.width - 2).toNat - (cstring pentry).length) 0x20)

/-- The page is on the screen. -/
structure Inside : Prop where
  sx_nonneg : 0 ≤ m.sx
  two_le_width : 2 ≤ m.width
  columns : m.sx + m.width ≤ vramCols
  sy_nonneg : 0 ≤ m.sy
  lines : m.sy + min m.height m.nchoices ≤ vramLines

/-- The terminal just prints the choices. -/
structure Prints (v : Video) : Prop where
  readingAnsi : v.readingAnsi = false
  plain : ∀ pentry ∈ m.choices, ∀ c ∈ (cstring pentry).take (m.width - 2).toNat, v.Plain c

/-- A cell of the page. -/
def Covers (c l : ℕ) : Prop :=
  (m.sx ≤ c ∧ c < m.sx + m.width) ∧ m.sy ≤ l ∧ l < m.sy + min m.height m.nchoices

/-- A page from `first` to `last` with the choice `sel`. -/
structure Page (first last sel : ℤ) : Prop where
  one_le_first : 1 ≤ first
  first_le_sel : first ≤ sel
  sel_le_last : sel ≤ last
  last_le_nchoices : last ≤ m.nchoices
  last_sub_first_lt : last - first < m.height
  full : last = m.nchoices ∨ last - first = m.height - 1
  more : first = 1 ∨ m.height ≤ m.nchoices

/-- The choices from `first` to `last` are printed with these attributes. -/
def Rows (first last : ℤ) (attrs : ℤ → UInt8) (v : Video) : Prop :=
  ∀ i, first ≤ i → i ≤ last → ∀ pentry, m.entry i = some pentry →
    v.HasRow m.sx.toNat (m.sy + i - first).toNat ((m.rowText pentry).map (mkCell (attrs i)))

/-- The last column, which is not printed, has the attribute that it had before the menu or the one
of a choice. -/
def Margin (v₀ : Video) (l : ℤ) (v : Video) : Prop :=
  ∀ c i : ℕ, m.Covers c i → i ≠ l → c = m.sx + m.width - 1 →
    cellAttr (v.wordAt c i) = cellAttr (v₀.wordAt c i) ∨ cellAttr (v.wordAt c i) = m.attr

/-- The page from `first` to `last` is on the screen, and the row of `sel` is highlighted. -/
structure Shown (v₀ : Video) (first last sel : ℤ) (v : Video) : Prop where
  page : m.Page first last sel
  rows : m.Rows first last (fun i => if i = sel then m.selAttr else m.attr) v
  selected : ∀ c l : ℕ, m.Covers c l → l = m.sy + sel - first → cellAttr (v.wordAt c l) = m.selAttr
  margin : m.Margin v₀ (m.sy + sel - first) v

end Screen

section Rows

variable (outOfRange : ℤ → ℤ) {m : Menu} {v v₀ : Video} {first last sel i y : ℤ}
  {pentry : List UInt8}

theorem Inside.lt_vramCols (h : m.Inside) {c l : ℕ} (hcovers : m.Covers c l) : c < vramCols := by
  have hcolumns := h.columns
  have hc := hcovers.1.2
  omega

theorem checkedInt_eq {n : ℤ} (hlow : -2 ^ 31 ≤ n) (hhigh : n < 2 ^ 31) : checkedInt n = some n :=
  if_pos ⟨hlow, hhigh⟩

theorem length_rowText (h : m.Inside) : (m.rowText pentry).length = (m.width - 1).toNat := by
  have hwidth := h.two_le_width
  rw [rowText, List.length_cons, List.length_append, List.length_take, List.length_replicate]
  omega

theorem putRow_eq (h : m.Inside) :
    m.putRow outOfRange pentry v = Video.putstr outOfRange (m.rowText pentry) v := by
  obtain ⟨len, hlen⟩ := Int.eq_ofNat_of_zero_le (Int.sub_nonneg.mpr h.two_le_width)
  have hcolumns := h.columns
  have hsx := h.sx_nonneg
  rw [vramCols] at hcolumns
  have htake : (cstring pentry).take (min (cstring pentry).length (unsigned len)) =
      (cstring pentry).take len := by
    rw [unsigned_natCast (by omega), Nat.min_comm, ← List.take_eq_take_min]
  rw [putRow, rowText, hlen, checkedInt_eq (by omega) (by omega), Int.toNat_natCast, Video.putstr]
  change (v.putchar outOfRange 0x20).bind (fun v =>
    (Video.putstr outOfRange ((cstring pentry).take (min (cstring pentry).length (unsigned len)))
      v).bind (Video.putstr outOfRange (List.replicate _ 0x20))) = _
  congr 1
  funext v
  rw [htake, Video.putstr_append, Int.toNat_sub]

theorem Prints.rowText (h : m.Prints v) (hentry : m.entry i = some pentry) :
    ∀ c ∈ m.rowText pentry, v.Plain c := by
  have hmem : pentry ∈ m.choices := by
    rw [entry] at hentry
    split_ifs at hentry
    exact List.mem_of_getElem? hentry
  intro c hc
  rw [Menu.rowText, List.mem_cons, List.mem_append, List.mem_replicate] at hc
  obtain rfl | hc | ⟨-, rfl⟩ := hc
  · exact v.plain_space
  · exact h.plain pentry hmem c hc
  · exact v.plain_space

/-- One row is printed. -/
theorem exists_putRow (h : m.Inside) (hprints : m.Prints v) (hentry : m.entry i = some pentry)
    (hy : 0 ≤ y) (hlines : y < vramLines) :
    ∃ data cx cy, m.putRow outOfRange pentry (v.gotoxy (UInt8.ofInt m.sx) (UInt8.ofInt y)) =
        some { v with data, cx, cy } ∧
      ({ v with data, cx, cy } : Video).HasRow m.sx.toNat y.toNat
        ((m.rowText pentry).map (mkCell v.crtAttr)) ∧
      ∀ c l : ℕ, c < vramCols → (l = y → c < m.sx ∨ m.sx + m.width - 1 ≤ c) →
        ({ v with data, cx, cy } : Video).wordAt c l = v.wordAt c l := by
  have hlength : (m.rowText pentry).length = _ := length_rowText h
  have hwidth := h.two_le_width
  have hcolumns := h.columns
  obtain ⟨x, hx⟩ := Int.eq_ofNat_of_zero_le h.sx_nonneg
  obtain ⟨y, rfl⟩ := Int.eq_ofNat_of_zero_le hy
  rw [hx] at hcolumns ⊢
  rw [putRow_eq outOfRange h]
  obtain ⟨data, cx, cy, hput, hshows, hkept⟩ := Video.exists_putstr_gotoxy
    outOfRange (x := x) hprints.readingAnsi (hprints.rowText hentry) (by omega)
    (List.cons_ne_nil _ _) (Int.ofNat_lt.mp hlines)
  exact ⟨data, cx, cy, hput, hshows, fun c l hc hout => hkept c l hc (by omega)⟩

theorem Prints.congr {v' : Video} (hprints : m.Prints v) (hansi : v'.readingAnsi = v.readingAnsi)
    (hmode : v'.mode = v.mode) : m.Prints v' :=
  ⟨hansi.trans hprints.readingAnsi,
    fun pentry hmem c hc => (hprints.plain pentry hmem c hc).congr hmode⟩

theorem exists_entry (m : Menu) (hi : 1 ≤ i) (hle : i ≤ m.nchoices) :
    ∃ pentry, m.entry i = some pentry := by
  rw [nchoices] at hle
  rw [entry, if_pos hi]
  exact ⟨_, List.getElem?_eq_getElem (by omega)⟩

theorem row_eq (h : m.Inside) (hi : first ≤ i) (hlt : i < first + min m.height m.nchoices)
    (hn : m.nchoices + vramLines < 2 ^ 31) (hfirst : 1 ≤ first) (hle : i ≤ m.nchoices) :
    m.row first i = some (m.sy + i - first) := by
  have hlines := h.lines
  have hsy := h.sy_nonneg
  rw [vramLines] at hlines hn
  rw [row, checkedInt_eq (by omega) (by omega), Option.bind_some,
    checkedInt_eq (by omega) (by omega)]

/-- Some rows are printed. -/
theorem exists_putRows (h : m.Inside) (hprints : m.Prints v) (n : ℕ) (hfirst : 1 ≤ first)
    (hi : first ≤ i) (hlast : i + n ≤ m.nchoices + 1) (hheight : i + n ≤ first + m.height)
    (hn : m.nchoices + vramLines < 2 ^ 31) :
    ∃ data cx cy, m.putRows outOfRange first n i v = some { v with data, cx, cy } ∧
      (∀ i', i ≤ i' → i' < i + n → ∀ pentry, m.entry i' = some pentry →
        ({ v with data, cx, cy } : Video).HasRow m.sx.toNat (m.sy + i' - first).toNat
          ((m.rowText pentry).map (mkCell v.crtAttr))) ∧
      ∀ c l : ℕ, c < vramCols →
        (m.sy + i - first ≤ l → l < m.sy + i - first + n → c < m.sx ∨ m.sx + m.width - 1 ≤ c) →
        ({ v with data, cx, cy } : Video).wordAt c l = v.wordAt c l := by
  induction n generalizing i v with
  | zero => exact ⟨v.data, v.cx, v.cy, rfl, fun i' hle hlt => by omega, fun _ _ _ _ => rfl⟩
  | succ n ih =>
    have hlines := h.lines
    have hsy := h.sy_nonneg
    have hcolumns := h.columns
    have hsx := h.sx_nonneg
    rw [Nat.cast_add_one] at hlast hheight
    obtain ⟨pentry, hentry⟩ := m.exists_entry (hfirst.trans hi) (by omega)
    have hrow : m.row first i = some (m.sy + i - first) :=
      row_eq h hi (by omega) hn hfirst (by omega)
    obtain ⟨data, cx, cy, hput, hshows, hkept⟩ := exists_putRow outOfRange h hprints
      hentry (y := m.sy + i - first) (by omega) (by omega)
    obtain ⟨data', cx', cy', hrest, hshows', hkept'⟩ := @ih { v with data, cx, cy } (i + 1)
      (hprints.congr rfl rfl) (by omega) (by omega) (by omega)
    refine ⟨data', cx', cy', ?_, fun i' hle hlt pentry' hentry' => ?_, fun c l hc hout => ?_⟩
    · rw [putRows, hentry, hrow]
      change (m.putRow outOfRange pentry _).bind _ = _
      rw [hput, Option.bind_some, hrest]
    · obtain rfl | hlt' := hle.eq_or_lt
      · -- The row is not printed again.
        obtain rfl := Option.some.inj (hentry.symm.trans hentry')
        refine hshows.congr fun j hj => hkept' _ _ ?_ (by omega)
        rw [List.length_map, length_rowText h] at hj
        omega
      · exact hshows' i' (by omega) (by omega) pentry' hentry'
    · rw [hkept' c l hc (by omega), hkept c l hc (by omega)]

end Rows

/-! ### One round -/

section Round

variable (outOfRange : ℤ → ℤ) {m : Menu} {v v' v₀ : Video} {s : State} {first last sel : ℤ}
  {key : ℤ}

/-- The default selection and the configuration are in range. -/
structure Fits (m : Menu) (v₀ : Video) : Prop where
  inside : m.Inside
  one_le_height : 1 ≤ m.height
  height_lt : m.height < 2 ^ 31 - 1
  nchoices_lt : m.nchoices + vramLines < 2 ^ 31
  colors : Video.Storable m.origfg m.origbg
  selColors : Video.Storable m.fgsel m.bgsel
  prints : m.Prints v₀
  /-- The callback lets the page and the way in which the terminal prints as they are. -/
  callback : ∀ f ∈ m.callback, ∀ sel key v, v.readingAnsi = false → ∃ v',
    f sel key v = some v' ∧ v'.readingAnsi = false ∧ v'.mode = v.mode ∧
      ∀ c l : ℕ, m.Covers c l → v'.wordAt c l = v.wordAt c l

/-- The state before a round. -/
structure Pending (m : Menu) (v₀ : Video) (s : State) : Prop where
  prints : m.Prints s.video
  sel_le_nchoices : s.sel ≤ m.nchoices
  page : if s.newfirst = -1 then
      m.Page s.first s.last s.sel ∧ m.Shown v₀ s.first s.last s.prevsel s.video
    else
      s.prevsel ≠ s.sel ∧ 1 ≤ s.newfirst ∧ s.newfirst ≤ s.sel ∧ s.sel < s.newfirst + m.height ∧
        (s.newfirst = 1 ∨ m.height ≤ m.nchoices) ∧
        m.Margin v₀ (m.sy + s.sel - s.newfirst) s.video

/-- The state after the choices are printed, if this is needed. -/
structure Displayed (m : Menu) (v₀ : Video) (s : State) : Prop where
  prints : m.Prints s.video
  page : m.Page s.first s.last s.sel
  shown : if s.newfirst = -1 then m.Shown v₀ s.first s.last s.prevsel s.video
    else
      s.prevsel ≠ s.sel ∧ m.Rows s.first s.last (fun _ => m.attr) s.video ∧
        m.Margin v₀ (m.sy + s.sel - s.first) s.video

/-- The state while the menu waits for a key. -/
structure Waiting (m : Menu) (v₀ : Video) (s : State) : Prop where
  prints : m.Prints s.video
  shown : m.Shown v₀ s.first s.last s.sel s.video
  prevsel : s.prevsel = s.sel
  newfirst : s.newfirst = -1

theorem Pending.display (h : m.Pending v₀ s) (hfits : m.Fits v₀) :
    ∃ s', m.display outOfRange s = some s' ∧ m.Displayed v₀ s' ∧ s'.sel = s.sel := by
  have hpage := h.page
  rw [Menu.display]
  split_ifs at hpage with hnew
  · rw [if_neg (not_not.mpr hnew)]
    exact ⟨s, rfl, ⟨h.prints, hpage.1, by rw [if_pos hnew]; exact hpage.2⟩, rfl⟩
  · obtain ⟨hprevsel, hone, hle, hlt, hmore, hmargin⟩ := hpage
    have hsel := h.sel_le_nchoices
    have hheight := hfits.height_lt
    have hn := hfits.nchoices_lt
    have hlines := hfits.inside.lines
    have hsy := hfits.inside.sy_nonneg
    have hcolors := hfits.colors
    rw [vramLines] at hlines hn
    let last := min (s.newfirst + m.height - 1) m.nchoices
    obtain ⟨data, cx, cy, hput, hrows, hkept⟩ := exists_putRows outOfRange
      (v := s.video.setColor m.origfg m.origbg) (i := s.newfirst) hfits.inside
      (h.prints.congr rfl rfl) (last + 1 - s.newfirst).toNat hone le_rfl (by omega) (by omega) hn
    let v : Video := { s.video.setColor m.origfg m.origbg with data, cx, cy }
    have hpage : m.Page s.newfirst last s.sel :=
      ⟨hone, hle, by omega, by omega, by omega, by omega, hmore⟩
    have hdone : m.Rows s.newfirst last (fun _ => m.attr) v := by
      intro i hfirst hlast pentry hentry
      rw [attr, ← Video.crtAttr_setColor hcolors.1 hcolors.2.1]
      exact hrows i hfirst (by omega) pentry hentry
    have hkeep : m.Margin v₀ (m.sy + s.sel - s.newfirst) v := by
      intro c l hcovers hl hc
      have hcell : v.wordAt c l = s.video.wordAt c l :=
        hkept c l (hfits.inside.lt_vramCols hcovers) (by omega)
      rw [hcell]
      exact hmargin c l hcovers hl hc
    refine ⟨{ s with first := s.newfirst, last, video := v }, ?_,
      ⟨h.prints.congr rfl rfl, hpage, ?_⟩, rfl⟩
    · have hbottom : (checkedInt (s.newfirst + m.height)).bind (fun n => checkedInt (n - 1)) =
          some (s.newfirst + m.height - 1) := by
        rw [checkedInt_eq (by omega) (by omega), Option.bind_some,
          checkedInt_eq (by omega) (by omega)]
      rw [if_pos hnew]
      change ((checkedInt (s.newfirst + m.height)).bind _).bind _ = _
      rw [hbottom]
      change (m.putRows outOfRange _ _ _ _).bind _ = _
      rw [hput]
      rfl
    · rw [if_neg hnew]
      exact ⟨hprevsel, hdone, hkeep⟩

/-- Other attributes in a row of the page. -/
theorem exists_changeAttr (hfits : m.Fits v₀) (hpage : m.Page first last sel) {fg bg : ℤ}
    (hcolors : Video.Storable fg bg) (hprints : m.Prints v) :
    ∃ v', (m.row first sel).bind (fun y => v.vramChangeAttr m.sx y m.width fg bg) = some v' ∧
      m.Prints v' ∧ ∀ c l : ℕ, c < vramCols → v'.wordAt c l =
        if l = m.sy + sel - first ∧ m.sx ≤ c ∧ c < m.sx + m.width then
          withAttr (v.wordAt c l) (Video.colorAttr fg bg)
        else v.wordAt c l := by
  obtain ⟨hone, hle, hlast, hlast_le, hheight, -, -⟩ := hpage
  have hinside := hfits.inside
  have hlines := hinside.lines
  have hcolumns := hinside.columns
  have hwidth := hinside.two_le_width
  obtain ⟨x, hx⟩ := Int.eq_ofNat_of_zero_le hinside.sx_nonneg
  obtain ⟨y, hy⟩ := Int.eq_ofNat_of_zero_le (a := m.sy + sel - first)
    (by have := hinside.sy_nonneg; omega)
  obtain ⟨len, hlen⟩ := Int.eq_ofNat_of_zero_le (a := m.width) (by omega)
  rw [row_eq hinside hle (by omega) hfits.nchoices_lt hone (by omega), Option.bind_some, hx, hy,
    hlen]
  obtain ⟨data, hchange, hcells⟩ := v.exists_vramChangeAttr (x := x) (y := y) len hcolors
    (by omega) (by omega)
  refine ⟨_, hchange, hprints.congr rfl rfl, fun c l hc => (hcells c l hc).trans ?_⟩
  exact if_congr (by omega) rfl rfl

/-- The rows after another attribute is stored in one of them. -/
theorem Rows.change {attrs : ℤ → UInt8} {a : UInt8} (hrows : m.Rows first last attrs v)
    (hfits : m.Fits v₀) (hpage : m.Page first last sel)
    (hcells : ∀ c l : ℕ, c < vramCols → v'.wordAt c l =
      if l = m.sy + sel - first ∧ m.sx ≤ c ∧ c < m.sx + m.width then withAttr (v.wordAt c l) a
      else v.wordAt c l) :
    m.Rows first last (fun i => if i = sel then a else attrs i) v' := by
  intro i hfirst hlast pentry hentry j cell hj
  have hcolumns := hfits.inside.columns
  have hsx := hfits.inside.sx_nonneg
  have hsy := hfits.inside.sy_nonneg
  have hle := hpage.first_le_sel
  rw [List.getElem?_map, Option.map_eq_some_iff] at hj
  obtain ⟨c, hc, rfl⟩ := hj
  have hlt := (List.getElem?_eq_some_iff.mp hc).1
  rw [length_rowText hfits.inside] at hlt
  have hcell : v.wordAt (m.sx.toNat + j) (m.sy + i - first).toNat = mkCell (attrs i) c :=
    hrows i hfirst hlast pentry hentry j _ (by rw [List.getElem?_map, hc, Option.map_some])
  rw [hcells _ _ (by omega), hcell]
  dsimp only
  by_cases hi : i = sel
  · rw [if_pos (by omega), if_pos hi, withAttr_mkCell]
  · rw [if_neg (by omega), if_neg hi]

theorem Shown.unmark (h : m.Shown v₀ first last sel v) (hfits : m.Fits v₀)
    (hprints : m.Prints v) :
    ∃ v', (m.row first sel).bind (fun y => v.vramChangeAttr m.sx y m.width m.origfg m.origbg) =
        some v' ∧ m.Prints v' ∧ m.Rows first last (fun _ => m.attr) v' ∧ ∀ l, m.Margin v₀ l v' := by
  obtain ⟨v', hchange, hprints', hcells⟩ := exists_changeAttr hfits h.page hfits.colors hprints
  refine ⟨v', hchange, hprints', ?_, fun l c i hcovers hl hc => ?_⟩
  · have hattrs : (fun i => if i = sel then m.attr else if i = sel then m.selAttr else m.attr) =
        fun _ => m.attr := by
      funext i
      split_ifs <;> rfl
    exact hattrs ▸ h.rows.change hfits h.page hcells
  · rw [hcells c i (hfits.inside.lt_vramCols hcovers)]
    split_ifs with hrow
    · exact .inr cellAttr_withAttr
    · exact h.margin c i hcovers (fun hi => hrow ⟨hi, hcovers.1⟩) hc

theorem Page.mark (hpage : m.Page first last sel) (hfits : m.Fits v₀)
    (hprints : m.Prints v) (hrows : m.Rows first last (fun _ => m.attr) v)
    (hmargin : m.Margin v₀ (m.sy + sel - first) v) :
    ∃ v', (m.row first sel).bind (fun y => v.vramChangeAttr m.sx y m.width m.fgsel m.bgsel) =
        some v' ∧ m.Prints v' ∧ m.Shown v₀ first last sel v' := by
  obtain ⟨v', hchange, hprints', hcells⟩ := exists_changeAttr hfits hpage hfits.selColors hprints
  refine ⟨v', hchange, hprints', hpage, hrows.change hfits hpage hcells, fun c l hcovers hl => ?_,
    fun c l hcovers hl hc => ?_⟩
  · rw [hcells c l (hfits.inside.lt_vramCols hcovers), if_pos ⟨hl, hcovers.1⟩]
    exact cellAttr_withAttr
  · rw [hcells c l (hfits.inside.lt_vramCols hcovers), if_neg fun hrow => hl hrow.1]
    exact hmargin c l hcovers hl hc

theorem Displayed.highlight (h : m.Displayed v₀ s) (hfits : m.Fits v₀) (hne : s.prevsel ≠ s.sel) :
    ∃ video, m.highlight s = some { s with video, prevsel := s.sel } ∧ m.Prints video ∧
      m.Shown v₀ s.first s.last s.sel video := by
  have hshown := h.shown
  rw [Menu.highlight, if_pos hne]
  split_ifs at hshown with hnew
  · obtain ⟨v₁, hunmark, hprints, hrows, hmargin⟩ := hshown.unmark hfits h.prints
    obtain ⟨v₂, hmark, hprints', hshown'⟩ := h.page.mark hfits hprints hrows (hmargin _)
    refine ⟨v₂, ?_, hprints', hshown'⟩
    obtain ⟨y₀, hrow₀, hunmark⟩ := Option.bind_eq_some_iff.mp hunmark
    obtain ⟨y, hrow, hmark⟩ := Option.bind_eq_some_iff.mp hmark
    rw [if_pos hnew, hrow₀, hrow]
    change (s.video.vramChangeAttr m.sx y₀ m.width m.origfg m.origbg).bind _ = _
    rw [hunmark]
    change (v₁.vramChangeAttr m.sx y m.width m.fgsel m.bgsel).bind _ = _
    rw [hmark]
    rfl
  · obtain ⟨-, hrows, hmargin⟩ := hshown
    obtain ⟨v', hmark, hprints, hshown⟩ := h.page.mark hfits h.prints hrows hmargin
    refine ⟨v', ?_, hprints, hshown⟩
    obtain ⟨y, hrow, hmark⟩ := Option.bind_eq_some_iff.mp hmark
    rw [if_neg hnew, hrow]
    change (s.video.vramChangeAttr m.sx y m.width m.fgsel m.bgsel).bind _ = _
    rw [hmark]
    rfl

/-- The choice is highlighted, or it is already. -/
theorem Displayed.exists_highlight (h : m.Displayed v₀ s) (hfits : m.Fits v₀) :
    ∃ video, m.highlight s = some { s with video, prevsel := s.sel } ∧ m.Prints video ∧
      m.Shown v₀ s.first s.last s.sel video ∧ (s.prevsel = s.sel → video = s.video) := by
  by_cases hprevsel : s.prevsel = s.sel
  · refine ⟨s.video, ?_, h.prints, ?_, fun _ => rfl⟩
    · rw [Menu.highlight, if_neg (not_not.mpr hprevsel)]
      exact congrArg (fun n => some { s with prevsel := n }) hprevsel
    · have hshown := h.shown
      split_ifs at hshown
      · exact hprevsel ▸ hshown
      · exact (hshown.1 hprevsel).elim
  · obtain ⟨video, hhighlight, hprints, hshown⟩ := h.highlight hfits hprevsel
    exact ⟨video, hhighlight, hprints, hshown, fun heq => (hprevsel heq).elim⟩

/-- A cell in a row of the page. -/
theorem Page.covers (hpage : m.Page first last sel) (hfits : m.Fits v₀) {i : ℤ} (hi : first ≤ i)
    (hlast : i ≤ last) {j : ℕ} (hj : j < m.width) :
    m.Covers (m.sx.toNat + j) (m.sy + i - first).toNat := by
  obtain ⟨hone, -, -, hle, hheight, -, -⟩ := hpage
  have hsx := hfits.inside.sx_nonneg
  have hsy := hfits.inside.sy_nonneg
  refine ⟨?_, ?_⟩ <;> omega

theorem Shown.call (hshown : m.Shown v₀ s.first s.last s.sel s.video) (hprints : m.Prints s.video)
    (hfits : m.Fits v₀) :
    ∃ video, m.call s = some { s with video } ∧ m.Prints video ∧
      m.Shown v₀ s.first s.last s.sel video := by
  rw [Menu.call]
  cases hcallback : m.callback with
  | none => exact ⟨s.video, rfl, hprints, hshown⟩
  | some callback =>
    obtain ⟨video, hcall, hansi, hmode, hcells⟩ :=
      hfits.callback callback hcallback s.sel s.key s.video hprints.readingAnsi
    refine ⟨video, congrArg (Option.map _) hcall,
      hprints.congr (hansi.trans hprints.readingAnsi.symm) hmode, hshown.page, ?_, ?_, ?_⟩
    · intro i hfirst hlast pentry hentry
      refine (hshown.rows i hfirst hlast pentry hentry).congr fun j hj => hcells _ _ ?_
      rw [List.length_map, length_rowText hfits.inside] at hj
      exact hshown.page.covers hfits hfirst hlast (by omega)
    · intro c l hcovers hl
      rw [hcells c l hcovers]
      exact hshown.selected c l hcovers hl
    · intro c l hcovers hl hc
      rw [hcells c l hcovers]
      exact hshown.margin c l hcovers hl hc

/-- One round. -/
theorem Pending.update (h : m.Pending v₀ s) (hfits : m.Fits v₀) :
    ∃ s', m.update outOfRange s = some s' ∧ m.Waiting v₀ s' ∧ s'.sel = s.sel := by
  obtain ⟨s₁, hdisplay, hdisplayed, hsel⟩ := h.display outOfRange hfits
  obtain ⟨video, hhighlight, hprints, hshown, hsame⟩ := hdisplayed.exists_highlight hfits
  rw [Menu.update, hdisplay, Option.bind_some, ← hsel]
  split_ifs with hchanged
  · obtain ⟨video', hcall, hprints', hshown'⟩ :=
      Shown.call (s := { s₁ with video, prevsel := s₁.sel }) hshown hprints hfits
    rw [hhighlight, Option.bind_some, hcall]
    exact ⟨_, rfl, ⟨hprints', hshown', rfl, rfl⟩, rfl⟩
  · rw [not_or, not_not] at hchanged
    exact ⟨_, rfl, ⟨hdisplayed.prints, hsame hchanged.1 ▸ hshown, hchanged.1, rfl⟩, rfl⟩

end Round

/-! ### Every sequence of keys -/

/-- The selection after some keys, or the value that is returned. -/
def follow (nchoices attrs : ℤ) : ℤ → List ℤ → ℤ ⊕ ℤ
  | sel, [] => .inl sel
  | sel, key :: keys =>
      if key = kcUp ∧ sel > 1 then follow nchoices attrs (sel - 1) keys
      else if key = kcDown ∧ sel < nchoices then follow nchoices attrs (sel + 1) keys
      else if key = kcEnter ∧ attrs % 2 = 0 then .inr sel
      else if key = kcEsc ∧ attrs / 2 % 2 = 0 then .inr (-1)
      else follow nchoices attrs sel keys

section Keys

variable (outOfRange : ℤ → ℤ) {m : Menu} {v₀ : Video} {s : State} {sel key : ℤ} {keys : List ℤ}

/-- Another choice is selected, on the page or next to it. -/
theorem Waiting.move (h : m.Waiting v₀ s) (sel newfirst : ℤ) (hone : 1 ≤ sel)
    (hle : sel ≤ m.nchoices)
    (hmove : s.first ≤ sel ∧ sel ≤ s.last ∧ newfirst = -1 ∨
      sel = s.first - 1 ∧ s.sel = s.first ∧ newfirst = s.first - 1 ∨
      sel = s.last + 1 ∧ s.sel = s.last ∧ newfirst = s.first + 1) :
    m.Pending v₀ { s with sel, newfirst, key } := by
  obtain ⟨hfirst, hsel, hlast, hlast_le, hlt, hfull, hmore⟩ := h.shown.page
  have hprevsel := h.prevsel
  refine ⟨h.prints, hle, ?_⟩
  obtain ⟨hlow, hhigh, hnew⟩ | ⟨hnext, hold, hnew⟩ | ⟨hnext, hold, hnew⟩ := hmove
  · rw [if_pos hnew]
    exact ⟨⟨hfirst, hlow, hhigh, hlast_le, hlt, hfull, hmore⟩, hprevsel ▸ h.shown⟩
  · -- The selected row stays the first one.
    have hrow : m.sy + sel - newfirst = m.sy + s.sel - s.first := by omega
    rw [if_neg (by dsimp only; omega)]
    refine ⟨?_, ?_, ?_, ?_, ?_, hrow ▸ h.shown.margin⟩ <;> dsimp only <;> omega
  · -- The selected row stays the last one.
    have hrow : m.sy + sel - newfirst = m.sy + s.sel - s.first := by omega
    rw [if_neg (by dsimp only; omega)]
    refine ⟨?_, ?_, ?_, ?_, ?_, hrow ▸ h.shown.margin⟩ <;> dsimp only <;> omega

/-- One key. -/
theorem Waiting.press (h : m.Waiting v₀ s) (key : ℤ) :
    (∃ s', m.press s key = .inl s' ∧ m.Pending v₀ s' ∧
      ∀ keys, follow m.nchoices m.attrs s.sel (key :: keys) =
        follow m.nchoices m.attrs s'.sel keys) ∨
      ∃ r, m.press s key = .inr r ∧
        ∀ keys, follow m.nchoices m.attrs s.sel (key :: keys) = .inr r := by
  obtain ⟨hfirst, hsel, hlast, hlast_le, hlt, hfull, hmore⟩ := h.shown.page
  have hnewfirst := h.newfirst
  rw [Menu.press]
  dsimp only
  split_ifs with hup hout hdown hout henter hesc
  · exact .inl ⟨_, rfl, h.move _ _ (by omega) (by omega) (by omega), fun keys => if_pos hup⟩
  · exact .inl ⟨_, rfl, h.move _ _ (by omega) (by omega) (by omega), fun keys => if_pos hup⟩
  · exact .inl ⟨_, rfl, h.move _ _ (by omega) (by omega) (by omega), fun keys => by
      rw [follow, if_neg hup, if_pos hdown]⟩
  · exact .inl ⟨_, rfl, h.move _ _ (by omega) (by omega) (by omega), fun keys => by
      rw [follow, if_neg hup, if_pos hdown]⟩
  · exact .inr ⟨_, rfl, fun keys => by rw [follow, if_neg hup, if_neg hdown, if_pos henter]⟩
  · exact .inr ⟨_, rfl, fun keys => by
      rw [follow, if_neg hup, if_neg hdown, if_neg henter, if_pos hesc]⟩
  · refine .inl ⟨_, rfl, h.move _ _ (by omega) (by omega) (.inl ⟨hsel, hlast, hnewfirst⟩),
      fun keys => ?_⟩
    rw [follow, if_neg hup, if_neg hdown, if_neg henter, if_neg hesc]

theorem exists_start (hfits : m.Fits v₀) (hsel : 1 ≤ sel) (hle : sel ≤ m.nchoices) :
    ∃ s, m.start sel v₀ = some s ∧ m.Pending v₀ s ∧ s.sel = sel := by
  have hheight := hfits.one_le_height
  have hn := hfits.nchoices_lt
  have hdiv : (sel - 1).tdiv m.height = (sel - 1) / m.height :=
    Int.tdiv_eq_ediv_of_nonneg (by omega)
  have hmul := Int.mul_ediv_add_emod (sel - 1) m.height
  have hmod := Int.emod_nonneg (sel - 1) (by omega : m.height ≠ 0)
  have hmod_lt := Int.emod_lt_of_pos (sel - 1) (by omega : 0 < m.height)
  have hpos : 0 ≤ (sel - 1) / m.height := Int.ediv_nonneg (by omega) (by omega)
  have hpage : (sel - 1) / m.height ≤ sel - 1 := Int.ediv_le_self _ (by omega)
  rw [vramLines] at hn
  rw [Int.mul_comm] at hmul
  generalize (sel - 1) / m.height = page at *
  have hnewfirst : page * m.height ≤ sel - 1 := by omega
  have hzero : 0 ≤ page * m.height := Int.mul_nonneg hpos (by omega)
  have hmore : page * m.height + 1 = 1 ∨ m.height ≤ m.nchoices := by
    obtain hpage₀ | hpage₁ := hpos.eq_or_lt
    · rw [← hpage₀]
      omega
    · have hone : 1 * m.height ≤ page * m.height :=
        Int.mul_le_mul_of_nonneg_right hpage₁ (by omega)
      omega
  refine ⟨⟨sel, -1, 0, 0, page * m.height + 1, -1, v₀⟩, ?_, ⟨hfits.prints, hle, ?_⟩, rfl⟩
  · rw [start, checkedInt_eq (by omega) (by omega)]
    change (if m.height = 0 then _ else (checkedInt ((sel - 1).tdiv m.height)).bind _) = _
    rw [if_neg (by omega), hdiv, checkedInt_eq (by omega) (by omega)]
    change ((checkedInt (page * m.height)).bind _).bind _ = _
    rw [checkedInt_eq (by omega) (by omega), Option.bind_some, checkedInt_eq (by omega) (by omega)]
    rfl
  · rw [if_neg (by dsimp only; omega)]
    exact ⟨by dsimp only; omega, by dsimp only; omega, by dsimp only; omega, by dsimp only; omega,
      hmore, fun _ _ _ _ _ => .inl rfl⟩

/-- What a menu does. -/
def Correct (m : Menu) (v₀ : Video) : ℤ ⊕ ℤ → Outcome → Prop
  | .inl sel, .waits s => s.sel = sel ∧ m.Shown v₀ s.first s.last s.sel s.video
  | .inr sel, .returned r _ => r = sel
  | _, _ => False

theorem Pending.loop (h : m.Pending v₀ s) (hfits : m.Fits v₀) (keys : List ℤ) :
    ∃ o, m.loop outOfRange s keys = some o ∧
      m.Correct v₀ (follow m.nchoices m.attrs s.sel keys) o := by
  induction keys generalizing s with
  | nil =>
    obtain ⟨s', hupdate, hwaiting, hsel⟩ := h.update outOfRange hfits
    rw [Menu.loop, hupdate]
    exact ⟨_, rfl, hsel, hwaiting.shown⟩
  | cons key keys ih =>
    obtain ⟨s', hupdate, hwaiting, hsel⟩ := h.update outOfRange hfits
    rw [Menu.loop, hupdate, Option.bind_some, ← hsel]
    obtain ⟨s₁, hpress, hpending, hfollow⟩ | ⟨r, hpress, hfollow⟩ := hwaiting.press key
    · rw [hpress, hfollow]
      exact ih hpending
    · rw [hpress, hfollow]
      exact ⟨_, rfl, rfl⟩

theorem exists_of_bind_eq_ok {α β : Type} {x : Except String α} {f : α → Except String β} {b : β}
    (h : x >>= f = .ok b) : ∃ a, f a = .ok b := by
  cases x with
  | error e => cases h
  | ok a => exact ⟨a, h⟩

theorem choices_of_configure {choices : List (List UInt8)} {t : String → Field}
    {callback : Option (ℤ → ℤ → Video → Option Video)}
    (h : configure choices t callback v₀ = .ok m) : m.choices = choices := by
  rw [configure] at h
  obtain ⟨sx, h⟩ := exists_of_bind_eq_ok h
  obtain ⟨sy, h⟩ := exists_of_bind_eq_ok h
  obtain ⟨width, h⟩ := exists_of_bind_eq_ok h
  obtain ⟨height, h⟩ := exists_of_bind_eq_ok h
  obtain ⟨attrs, h⟩ := exists_of_bind_eq_ok h
  obtain ⟨fgsel, h⟩ := exists_of_bind_eq_ok h
  obtain ⟨bgsel, h⟩ := exists_of_bind_eq_ok h
  obtain rfl := Except.ok.inj h
  rfl

end Keys

/-- **Menus are right** if the default selection and the configuration are in range: after every
sequence of keys, the page with the selection is on the screen, or the selected choice is
returned. -/
theorem luatermMenu_correct (outOfRange : ℤ → ℤ) {choices : List (List UInt8)} {t : String → Field}
    {callback : Option (ℤ → ℤ → Video → Option Video)} {v₀ : Video} {m : Menu} {sel : ℤ}
    (hm : configure choices t callback v₀ = .ok m) (hfits : m.Fits v₀) (hsel : 1 ≤ sel)
    (hle : sel ≤ m.nchoices) (keys : List ℤ) :
    ∃ o, luatermMenu outOfRange (some choices) sel (some t) callback v₀ keys = .ok (some (some o)) ∧
      m.Correct v₀ (follow m.nchoices m.attrs sel keys) o := by
  obtain ⟨s, hstart, hpending, rfl⟩ := exists_start hfits hsel hle
  obtain ⟨o, hloop, hcorrect⟩ := hpending.loop outOfRange hfits keys
  refine ⟨o, ?_, hcorrect⟩
  have hne : choices.length ≠ 0 := by
    rw [nchoices, choices_of_configure hm] at hle
    omega
  have hrun : m.run outOfRange s.sel v₀ keys = some o := by
    rw [run, hstart, Option.bind_some, hloop]
  change (if choices.length = 0 then _ else (configure choices t callback v₀).bind _) = _
  rw [if_neg hne, hm]
  change Except.ok (some (m.run outOfRange s.sel v₀ keys)) = _
  rw [hrun]

/-- Three choices in two rows. -/
def threeChoices : List (List UInt8) := [[0x41], [0x42, 0x43, 0x44, 0x45], []]

/-- Four columns and two rows from `( 2, 1 )` on, without escape. -/
def fourColumns (name : String) : Field :=
  if name = "x" then .integer 2
  else if name = "y" then .integer 1
  else if name = "width" then .integer 4
  else if name = "height" then .integer 2
  else if name = "attrs" then .integer 2
  else .nil

/-- Their menu, with a callback that does nothing. -/
def threeChoicesMenu : Menu where
  choices := threeChoices
  sx := 2
  sy := 1
  width := 4
  height := 2
  attrs := 2
  fgsel := 0
  bgsel := 7
  callback := some fun _ _ v => some v
  origfg := 7
  origbg := 0

theorem luatermMenu_threeChoices : ∃ o,
    luatermMenu id (some threeChoices) 1 (some fourColumns) threeChoicesMenu.callback {}
      [kcDown, kcDown, kcEnter] = .ok (some (some o)) ∧ threeChoicesMenu.Correct {} (.inr 3) o := by
  have hinside : threeChoicesMenu.Inside :=
    ⟨by decide, by decide, by decide, by decide, by decide⟩
  have hcallback : ∀ f ∈ threeChoicesMenu.callback, ∀ sel key v, v.readingAnsi = false → ∃ v',
      f sel key v = some v' ∧ v'.readingAnsi = false ∧ v'.mode = v.mode ∧
        ∀ c l : ℕ, threeChoicesMenu.Covers c l → v'.wordAt c l = v.wordAt c l := by
    rintro f hf sel key v hansi
    obtain rfl := Option.some.inj hf
    exact ⟨v, rfl, hansi, rfl, fun _ _ _ => rfl⟩
  exact luatermMenu_correct id rfl ⟨hinside, by decide, by decide, by decide, by decide, by decide,
    ⟨rfl, by decide +kernel⟩, hcallback⟩ (by decide) (by decide) _

/-- There is no row. -/
theorem not_luatermMenu_correct : ¬∀ (outOfRange : ℤ → ℤ) (choices : List (List UInt8))
    (t : String → Field) (callback : Option (ℤ → ℤ → Video → Option Video)) (v₀ : Video) (m : Menu)
    (sel : ℤ) (keys : List ℤ), choices ≠ [] → configure choices t callback v₀ = .ok m →
    ∃ o, luatermMenu outOfRange (some choices) sel (some t) callback v₀ keys = .ok (some (some o)) ∧
      m.Correct v₀ (follow m.nchoices m.attrs sel keys) o := by
  intro h
  let t (name : String) : Field := .integer (if name = "height" then 0 else 10)
  obtain ⟨o, hrun, -⟩ := h id threeChoices t none {} _ 1 [] (List.cons_ne_nil _ _) rfl
  have hnone : luatermMenu id (some threeChoices) 1 (some t) none {} [] = .ok (some none) := rfl
  rw [hnone] at hrun
  cases hrun

end Menu

end ELuaBrain.Terminal
