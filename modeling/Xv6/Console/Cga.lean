import Mathlib
import Xv6.Lib.Except

/-!
# The CGA screen

`cgaputc` of `console.c` draws a character on the CGA text screen: memory at `crt` holding one
cell, a character and its colour, for each of 25 rows of 80 columns, and a cursor register of
the CRT controller holding `col + 80*row`. A newline moves the cursor to the start of the next
row, a backspace back one cell, and any other character is written under the cursor, which
moves past it. A cursor past the 24th row scrolls the screen: the rows move up in memory, and
what is left of the last one is cleared.

`Screen` says what this is for: 24 rows, each a list of 80 cells, and a cursor row and column,
where scrolling drops the top row and takes a blank one in at the bottom. `Cga.Shows s sc` says
that memory and cursor register hold the screen `sc`. One call of `cgaputc` keeps it, with
`Screen.put` on the screen (`Cga.Shows.cgaputc_ok`), so any run of calls from a cursor on the first
24 rows never panics, draws the screen the characters draw, and never touches the 25th row
(`cgaputc_refines`).
-/

namespace Xv6

/-- `BACKSPACE`: what `consputc` is given to erase the character before the cursor. -/
def BACKSPACE : Nat := 0x100

/-- The CGA text screen as `cgaputc` finds it: the cursor position read from the CRT
controller, and the cells of CGA memory. -/
structure Cga where
  /-- Cursor position: col + 80*row. -/
  pos : Nat
  crt : Nat → UInt16

namespace Cga

/-- `(c&0xff) | 0x0700`: the character `c`, black on white. -/
def cell (c : Nat) : UInt16 := UInt16.ofNat (c % 256) ||| 0x0700

/-- The first block of `cgaputc`: the cursor moved by `c`, and a character written. -/
def advance (s : Cga) (c : Nat) : Cga :=
  if c = '\n'.toNat then { s with pos := s.pos + (80 - s.pos % 80) }
  else if c = BACKSPACE then { s with pos := if 0 < s.pos then s.pos - 1 else s.pos }
  else { pos := s.pos + 1, crt := Function.update s.crt s.pos (cell c) }

/-- Scroll up. -/
def scroll (s : Cga) : Cga :=
  -- memmove(crt, crt+80, sizeof(crt[0])*23*80): the copy goes to lower addresses, so each
  -- cell takes the old value of the one a row below
  let crt := fun i => if i < 23 * 80 then s.crt (i + 80) else s.crt i
  let pos := s.pos - 80
  -- memset(crt+pos, 0, sizeof(crt[0])*(24*80 - pos))
  { pos := pos, crt := fun i => if pos ≤ i ∧ i < 24 * 80 then 0 else crt i }

end Cga

/-- `cgaputc(c)`; the error is the panic. -/
def cgaputc (s : Cga) (c : Nat) : Except String Cga :=
  let s := s.advance c
  -- pos < 0 cannot hold: pos is read from a 16-bit register, and decremented only when positive
  if 25 * 80 < s.pos then .error "pos under/overflow"
  else
    let s := if 24 ≤ s.pos / 80 then s.scroll else s
    -- the cursor register takes pos a byte at a time, and the cell under the cursor a blank
    .ok { pos := s.pos % 2 ^ 16, crt := Function.update s.crt s.pos (UInt16.ofNat ' '.toNat ||| 0x0700) }

/-- The screen as the console draws it: 24 rows of 80 cells, and the cursor's row and column. -/
structure Screen where
  rows : List (List UInt16)
  row : Nat
  col : Nat

namespace Screen

/-- A row of cleared cells. -/
def blankRow : List UInt16 := List.replicate 80 0

/-- The cell at row `r` and column `c`. -/
def get (sc : Screen) (r c : Nat) : UInt16 := (sc.rows.getD r []).getD c 0

/-- `v` written under the cursor. -/
def set (sc : Screen) (v : UInt16) : Screen :=
  { sc with rows := sc.rows.modify sc.row fun l => l.set sc.col v }

/-- The cursor moved by `c`, and a character written. -/
def move (sc : Screen) (c : Nat) : Screen :=
  if c = '\n'.toNat then { sc with row := sc.row + 1, col := 0 }
  else if c = BACKSPACE then
    if 0 < sc.col then { sc with col := sc.col - 1 }
    else if 0 < sc.row then { sc with row := sc.row - 1, col := 79 }
    else sc
  else
    let sc := sc.set (Cga.cell c)
    -- past the last column the cursor goes on at the start of the next row
    if sc.col = 79 then { sc with row := sc.row + 1, col := 0 } else { sc with col := sc.col + 1 }

/-- The top row dropped and a blank one taken in at the bottom; the cursor stays on its line. -/
def scroll (sc : Screen) : Screen :=
  { sc with rows := sc.rows.tail ++ [blankRow], row := sc.row - 1 }

/-- A character on the screen: the cursor moves, the screen scrolls when the cursor has left the
last row, and the cell under the cursor is blanked. -/
def put (sc : Screen) (c : Nat) : Screen :=
  let sc := sc.move c
  let sc := if sc.row = 24 then sc.scroll else sc
  sc.set (UInt16.ofNat ' '.toNat ||| 0x0700)

example : ((List.replicate 25 '\n'.toNat).foldl put ⟨List.replicate 24 blankRow, 0, 0⟩).row = 23 := by
  decide

@[simp] theorem set_row (sc : Screen) (v : UInt16) : (sc.set v).row = sc.row := rfl

@[simp] theorem set_col (sc : Screen) (v : UInt16) : (sc.set v).col = sc.col := rfl

theorem getD_set (sc : Screen) (v : UInt16) (r : Nat) :
    (sc.set v).rows.getD r [] =
      if r = sc.row then (sc.rows.getD r []).set sc.col v else sc.rows.getD r [] := by
  simp only [set, List.getD_eq_getElem?_getD, List.getElem?_modify]
  by_cases hr : r = sc.row
  · subst hr
    cases sc.rows[sc.row]? <;> simp
  · have hr' : sc.row ≠ r := Ne.symm hr
    cases sc.rows[r]? <;> simp [hr, hr']

theorem list_getD_set (l : List UInt16) (i c : Nat) (v : UInt16) :
    (l.set i v).getD c 0 = if c = i ∧ c < l.length then v else l.getD c 0 := by
  rw [List.getD_eq_getElem?_getD, List.getD_eq_getElem?_getD, List.getElem?_set]
  by_cases hc : c = i
  · subst hc
    by_cases hl : c < l.length <;> simp [hl]
  · simp [hc, Ne.symm hc]

theorem get_set (sc : Screen) (v : UInt16) (r c : Nat) :
    (sc.set v).get r c =
      if r = sc.row ∧ c = sc.col ∧ c < (sc.rows.getD r []).length then v else sc.get r c := by
  rw [get, getD_set]
  by_cases hr : r = sc.row
  · rw [if_pos hr, list_getD_set]
    simp [hr, get]
  · simp [hr, get]

theorem getD_scroll (sc : Screen) (h : sc.rows.length = 24) (r : Nat) :
    sc.scroll.rows.getD r [] =
      if r < 23 then sc.rows.getD (r + 1) [] else if r = 23 then blankRow else [] := by
  have hl : sc.rows.tail.length = 23 := by simp [h]
  simp only [scroll, List.getD_eq_getElem?_getD]
  split_ifs with h₁ h₂
  · rw [List.getElem?_append_left (by omega), List.getElem?_tail]
  · subst h₂
    rw [List.getElem?_append_right (by omega), hl]
    rfl
  · rw [List.getElem?_eq_none (by simp [hl]; omega)]
    rfl

end Screen

namespace Cga

/-- The screen `s` shows: its first 24 rows, and the cursor's row and column. -/
def screen (s : Cga) : Screen :=
  ⟨(List.range 24).map fun r => (List.range 80).map fun c => s.crt (80 * r + c),
    s.pos / 80, s.pos % 80⟩

/-- `s` holds the cells of the 24 rows of `sc`, and its cursor register points at the cursor of
`sc`, which is on one of the rows or at the start of the row below them. -/
structure Holds (s : Cga) (sc : Screen) : Prop where
  length_rows : sc.rows.length = 24
  length_row : ∀ r < 24, (sc.rows.getD r []).length = 80
  col_lt : sc.col < 80
  cursor : sc.row < 24 ∨ sc.row = 24 ∧ sc.col = 0
  pos_eq : s.pos = 80 * sc.row + sc.col
  get_eq : ∀ r < 24, ∀ c < 80, s.crt (80 * r + c) = sc.get r c

/-- `s` shows `sc`: it holds it, with the cursor on one of the 24 rows. -/
structure Shows (s : Cga) (sc : Screen) : Prop extends Holds s sc where
  row_lt : sc.row < 24

variable {s : Cga} {sc : Screen}

/-- A cell of the 24 rows is addressed by one row and one column. -/
theorem cell_index_eq {r c r' c' : Nat} (hc : c < 80) (hc' : c' < 80) :
    80 * r + c = 80 * r' + c' ↔ r = r' ∧ c = c' := by
  omega

theorem Shows.pos_lt (h : Shows s sc) : s.pos < 24 * 80 := by
  have := h.pos_eq
  have := h.col_lt
  have := h.row_lt
  omega

/-- Writing under the cursor, in memory and on the screen. -/
theorem Shows.set (h : Shows s sc) (v : UInt16) :
    Shows ⟨s.pos % 2 ^ 16, Function.update s.crt s.pos v⟩ (sc.set v) := by
  have hpos := h.pos_lt
  refine ⟨⟨?_, ?_, h.col_lt, .inl h.row_lt, ?_, ?_⟩, h.row_lt⟩
  · simpa [Screen.set] using h.length_rows
  · intro r hr
    rw [Screen.getD_set]
    split_ifs
    · rw [List.length_set]
      exact h.length_row r hr
    · exact h.length_row r hr
  · rw [Nat.mod_eq_of_lt (by omega)]
    exact h.pos_eq
  · intro r hr c hc
    dsimp only
    rw [Screen.get_set, h.length_row r hr, Function.update_apply, h.pos_eq]
    simp only [cell_index_eq hc h.col_lt]
    split_ifs with h₁ h₂ h₂
    · rfl
    · exact absurd ⟨h₁.1, h₁.2, hc⟩ h₂
    · exact absurd ⟨h₂.1, h₂.2.1⟩ h₁
    · exact h.get_eq r hr c hc

/-- The first block of `cgaputc` moves the cursor as the screen's `move` does, possibly to the
row below the last. -/
theorem Shows.advance (h : Shows s sc) (c : Nat) : Holds (s.advance c) (sc.move c) := by
  have hpos := h.pos_eq
  have hcol := h.col_lt
  have hrow := h.row_lt
  by_cases hn : c = '\n'.toNat
  · -- a newline: the start of the next row
    rw [Cga.advance, Screen.move, if_pos hn, if_pos hn]
    refine ⟨h.length_rows, h.length_row, Nat.zero_lt_succ _, ?_, ?_, h.get_eq⟩
    · dsimp only
      omega
    · dsimp only
      omega
  by_cases hb : c = BACKSPACE
  · -- a backspace: back one cell, across the start of a row, but not before the first cell
    rw [Cga.advance, Screen.move, if_neg hn, if_neg hn, if_pos hb, if_pos hb]
    by_cases hc : 0 < sc.col
    · rw [if_pos hc, if_pos (by omega)]
      exact ⟨h.length_rows, h.length_row, by dsimp only; omega, .inl hrow, by dsimp only; omega,
        h.get_eq⟩
    by_cases hr : 0 < sc.row
    · rw [if_neg hc, if_pos hr, if_pos (by omega)]
      exact ⟨h.length_rows, h.length_row, by dsimp only; omega, .inl (by dsimp only; omega),
        by dsimp only; omega, h.get_eq⟩
    · rw [if_neg hc, if_neg hr, if_neg (by omega)]
      exact h.toHolds
  · -- any other character is written under the cursor, which moves on
    rw [Cga.advance, Screen.move, if_neg hn, if_neg hn, if_neg hb, if_neg hb]
    have hs := h.set (cell c)
    dsimp only
    split_ifs with h79
    · -- the last column: the start of the next row
      rw [Screen.set_col] at h79
      exact ⟨hs.length_rows, hs.length_row, by dsimp only; omega,
        by dsimp only [Screen.set_row]; omega, by dsimp only [Screen.set_row]; omega, hs.get_eq⟩
    · rw [Screen.set_col] at h79
      exact ⟨hs.length_rows, hs.length_row, by dsimp only [Screen.set_col]; omega, .inl hrow,
        by dsimp only [Screen.set_row, Screen.set_col]; omega, hs.get_eq⟩

/-- The first block of `cgaputc` writes no cell but the one under the cursor. -/
theorem advance_crt (c : Nat) {i : Nat} (hi : i ≠ s.pos) : (s.advance c).crt i = s.crt i := by
  unfold Cga.advance
  split_ifs <;> simp [hi]

/-- Scrolling writes no cell past the 24th row. -/
theorem scroll_crt {i : Nat} (hi : 24 * 80 ≤ i) : s.scroll.crt i = s.crt i := by
  simp only [Cga.scroll]
  rw [if_neg (by omega), if_neg (by omega)]

theorem Holds.pos_le (h : Holds s sc) : s.pos ≤ 25 * 80 := by
  have := h.pos_eq
  have := h.cursor
  have := h.col_lt
  omega

theorem Holds.scroll_iff (h : Holds s sc) : 24 ≤ s.pos / 80 ↔ sc.row = 24 := by
  have := h.pos_eq
  have := h.cursor
  have := h.col_lt
  omega

theorem Holds.shows (h : Holds s sc) (hr : sc.row ≠ 24) : Shows s sc :=
  ⟨h, by have := h.cursor; omega⟩

/-- Scrolling, in memory and on the screen, from the start of the row below the last. -/
theorem Holds.scroll (h : Holds s sc) (hr : sc.row = 24) : Shows s.scroll sc.scroll := by
  have hc : sc.col = 0 := by have := h.cursor; omega
  have hpos : s.pos = 24 * 80 := by rw [h.pos_eq, hr, hc]
  refine ⟨⟨?_, ?_, h.col_lt, .inl (by simp [Screen.scroll, hr]), ?_, ?_⟩, by simp [Screen.scroll, hr]⟩
  · simp [Screen.scroll, h.length_rows]
  · intro r hr'
    rw [Screen.getD_scroll sc h.length_rows]
    split_ifs with h₁
    · exact h.length_row (r + 1) (by omega)
    · rfl
    · omega
  · simp [Cga.scroll, Screen.scroll, hpos, hr, hc]
  · intro r hr' c hc'
    simp only [Cga.scroll, Screen.get, Screen.getD_scroll sc h.length_rows, hpos]
    by_cases h₁ : r < 23
    · -- a row moved up
      rw [if_neg (by omega), if_pos (by omega), if_pos h₁,
        show 80 * r + c + 80 = 80 * (r + 1) + c by ring, h.get_eq (r + 1) (by omega) c hc']
      rfl
    · -- the cleared last row
      rw [if_pos (by omega), if_neg h₁, if_pos (by omega), Screen.blankRow,
        List.getD_replicate _ hc']

/-- A run of `cgaputc` from a screen it shows: no panic, the screen `put` draws, and the 25th row
untouched. -/
theorem Shows.cgaputc_ok (h : Shows s sc) (c : Nat) :
    ∃ s', cgaputc s c = .ok s' ∧ Shows s' (sc.put c) ∧ ∀ i, 24 * 80 ≤ i → s'.crt i = s.crt i := by
  have hpos := h.pos_lt
  have ha := h.advance c
  unfold cgaputc Screen.put
  rw [if_neg (by have := ha.pos_le; omega)]
  by_cases hr : (sc.move c).row = 24
  · have hs := ha.scroll hr
    refine ⟨_, rfl, ?_, ?_⟩
    · simp only [ha.scroll_iff.mpr hr, if_true, hr]
      exact hs.set _
    · -- the cells from the 25th row on, through the advance, the scroll and the blank
      intro i hi
      simp only [ha.scroll_iff.mpr hr, if_true]
      rw [Function.update_of_ne (by have := hs.pos_lt; omega), scroll_crt hi,
        advance_crt c (by omega)]
  · have hs := ha.shows hr
    have hnot : ¬24 ≤ (s.advance c).pos / 80 := fun h' => hr (ha.scroll_iff.mp h')
    refine ⟨_, rfl, ?_, ?_⟩
    · simp only [hnot, if_false, hr]
      exact hs.set _
    · intro i hi
      simp only [hnot, if_false]
      rw [Function.update_of_ne (by have := hs.pos_lt; omega), advance_crt c (by omega)]

/-- Memory read as a screen gives back the screen it shows. -/
theorem Shows.screen_eq (h : Shows s sc) : s.screen = sc := by
  obtain ⟨rows, row, col⟩ := sc
  have hpos := h.pos_eq
  have hcol := h.col_lt
  simp only [screen, Screen.mk.injEq]
  refine ⟨?_, by simp only at hpos hcol ⊢; omega, by simp only at hpos hcol ⊢; omega⟩
  apply List.ext_getElem (by simp [h.length_rows])
  intro r hr₁ hr₂
  have hr : r < 24 := by simpa using hr₁
  have hlen := h.length_row r hr
  simp only [List.getD_eq_getElem?_getD, List.getElem?_eq_getElem hr₂, Option.getD_some] at hlen
  apply List.ext_getElem (by simp [hlen])
  intro c hc₁ hc₂
  have hc : c < 80 := by simpa using hc₁
  simp only [List.getElem_map, List.getElem_range]
  rw [h.get_eq r hr c hc]
  simp [Screen.get, List.getD_eq_getElem?_getD, List.getElem?_eq_getElem hr₂,
    List.getElem?_eq_getElem hc₂]

/-- Memory with the cursor on the first 24 rows shows the screen it is read as. -/
theorem shows_screen (hs : s.pos < 24 * 80) : Shows s s.screen := by
  refine ⟨⟨by simp [screen], ?_, by simp [screen]; omega, .inl (by simp [screen]; omega),
    by simp [screen]; omega, ?_⟩, by simp [screen]; omega⟩
  · intro r hr
    simp [screen, List.getD_eq_getElem?_getD, hr]
  · intro r hr c hc
    simp [screen, Screen.get, List.getD_eq_getElem?_getD, hr, hc]

end Cga

/-- From a cursor on the first 24 rows, any run of `cgaputc` never panics, keeps the cursor on
those rows, draws what `Screen.put` draws, and never writes the 25th row. -/
theorem cgaputc_refines (s : Cga) (hs : s.pos < 24 * 80) (cs : List Nat) :
    ∃ s', cs.foldlM cgaputc s = .ok s' ∧ s'.pos < 24 * 80 ∧
      s'.screen = cs.foldl Screen.put s.screen ∧ ∀ i, 24 * 80 ≤ i → s'.crt i = s.crt i := by
  -- the run simulates the screen's, with the 25th row as it was
  obtain ⟨s', hrun, hshows, hframe⟩ := Except.foldlM_simulate
    (fun s' sc => Cga.Shows s' sc ∧ ∀ i, 24 * 80 ≤ i → s'.crt i = s.crt i)
    (fun c s₁ sc ⟨h, hf⟩ => by
      obtain ⟨s₂, hput, h₂, hf₂⟩ := h.cgaputc_ok c
      exact ⟨s₂, hput, h₂, fun i hi => (hf₂ i hi).trans (hf i hi)⟩)
    (l := cs) ⟨Cga.shows_screen hs, fun _ _ => rfl⟩
  exact ⟨s', hrun, hshows.pos_lt, hshows.screen_eq, hframe⟩

theorem cgaputc_refines_boot :
    (0 : Nat) < 24 * 80 ∧ ∃ s', ['h'.toNat, 'i'.toNat, BACKSPACE].foldlM cgaputc ⟨0, fun _ => 0⟩ = .ok s' ∧
      s'.pos < 24 * 80 ∧
      s'.screen = ['h'.toNat, 'i'.toNat, BACKSPACE].foldl Screen.put (Cga.screen ⟨0, fun _ => 0⟩) ∧
      ∀ i, 24 * 80 ≤ i → s'.crt i = 0 :=
  ⟨by decide, cgaputc_refines ⟨0, fun _ => 0⟩ (by decide) _⟩

end Xv6
