import Ceblar.Lib.Run
import Ceblar.Lib.Word
import Mathlib.Data.List.Induction
import Mathlib.Logic.Function.Basic

/-! # The text console (`drivers/vga/vga.c`)

A screen of 25 rows and 80 columns. `video` may be stored to at any index; the cells that were stored to
are told in their order, so that a store behind the screen shows.
-/

namespace Ceblar

/-! ## The driver -/

/-- The static data of `vga.c`, the video memory and the two cursor registers of the controller. -/
structure Vga where
  row : Byte
  col : Byte
  color : Byte
  video : Nat → BitVec 16
  cursorLow : Byte
  cursorHigh : Byte
  /-- The cells that were stored to, the first one first. -/
  written : List Nat

def Vga.put (s : Vga) (i : Nat) (x : BitVec 16) : Vga :=
  { s with video := Function.update s.video i x, written := s.written ++ [i] }

def Vga.cell (s : Vga) (c : Byte) : BitVec 16 := s.color.setWidth 16 <<< 8 ||| c.setWidth 16

def vgaSetCursor (r c : Byte) (s : Vga) : Vga :=
  let pos : BitVec 16 := r.setWidth 16 * 80 + c.setWidth 16
  { s with cursorLow := pos.setWidth 8, cursorHigh := (pos >>> 8).setWidth 8 }

def Vga.shown (s : Vga) : Nat := (s.cursorHigh ++ s.cursorLow).toNat

def vgaShiftRow (r : Nat) (s : Vga) : Vga :=
  forRange 80 (fun c s => s.put (r * 80 + c) (s.video ((r + 1) * 80 + c))) s

def vgaBlank (first n : Nat) (s : Vga) : Vga := forRange n (fun c s => s.put (first + c) (s.cell 0x20)) s

def vgaScroll (s : Vga) : Vga := { vgaBlank (24 * 80) 80 (forRange 24 vgaShiftRow s) with row := 24 }

def vgaClear (s : Vga) : Vga := vgaSetCursor 0 0 { vgaBlank 0 (80 * 25) s with row := 0, col := 0 }

def vgaPutc (s : Vga) (c : Byte) : Vga :=
  let s :=
    if c = 0x0a then { s with col := 0, row := s.row + 1 }
    else if c = 0x0d then { s with col := 0 }
    else if c = 0x09 then { s with col := (s.col + 8) &&& ~~~7 }
    else
      let s := s.put (s.row.toNat * 80 + s.col.toNat) (s.cell c)
      if s.col + 1 ≥ 80 then { s with col := 0, row := s.row + 1 } else { s with col := s.col + 1 }
  let s := if s.row ≥ 25 then vgaScroll s else s
  vgaSetCursor s.row s.col s

/-- `vga_write`, and the loop of `vfs_write` on the console. -/
def vgaWrite (cs : List Byte) (s : Vga) : Vga := cs.foldl vgaPutc s

def Printable (c : Byte) : Prop := c ≠ 0x0a ∧ c ≠ 0x0d ∧ c ≠ 0x09

/-! ## What stays on the screen -/

def OnlyScreen (s s' : Vga) : Prop := ∃ l, s'.written = s.written ++ l ∧ ∀ i ∈ l, i < 80 * 25

/-- The character `c` leaves the cursor on the screen, stores to nothing else, and lands where the
cursor was. -/
structure KeepsScreen (s : Vga) (c : Byte) : Prop where
  row : (vgaPutc s c).row.toNat < 25
  col : (vgaPutc s c).col.toNat < 80
  only : OnlyScreen s (vgaPutc s c)
  lands : Printable c → (vgaPutc s c).written[s.written.length]? = some (s.row.toNat * 80 + s.col.toNat) ∧
    s.shown = s.row.toNat * 80 + s.col.toNat

/-- The text is written to a cleared screen and stays there, character by character. -/
structure StaysOnScreen (s : Vga) (text : List Byte) : Prop where
  clear : OnlyScreen s (vgaClear s)
  putc : ∀ before c after, text = before ++ c :: after → KeepsScreen (vgaWrite before (vgaClear s)) c

section

variable {s s' s'' : Vga} {c : Byte}

theorem OnlyScreen.refl (s : Vga) : OnlyScreen s s := ⟨[], by simp, by simp⟩

theorem OnlyScreen.put {i : Nat} (h : OnlyScreen s s') (hi : i < 80 * 25) (x : BitVec 16) :
    OnlyScreen s (s'.put i x) := by
  obtain ⟨l, hl, hall⟩ := h
  refine ⟨l ++ [i], by rw [Vga.put, hl, List.append_assoc], fun j hj => ?_⟩
  rcases List.mem_append.mp hj with hj | hj
  · exact hall j hj
  · rw [List.mem_singleton.mp hj]
    exact hi

theorem OnlyScreen.trans (h : OnlyScreen s s') (h' : OnlyScreen s' s'') : OnlyScreen s s'' := by
  obtain ⟨l, hl, hall⟩ := h
  obtain ⟨l', hl', hall'⟩ := h'
  refine ⟨l ++ l', by rw [hl', hl, List.append_assoc], fun i hi => ?_⟩
  rcases List.mem_append.mp hi with hi | hi
  · exact hall i hi
  · exact hall' i hi

theorem OnlyScreen.of_written (h : OnlyScreen s s') (hw : s''.written = s'.written) :
    OnlyScreen s s'' := by
  obtain ⟨l, hl, hall⟩ := h
  exact ⟨l, hw.trans hl, hall⟩

structure SameCursor (s s' : Vga) : Prop where
  row : s'.row = s.row
  col : s'.col = s.col
  color : s'.color = s.color

theorem stores_only {n : Nat} {f : Nat → Nat} {g : Nat → Vga → BitVec 16} (s : Vga)
    (hf : ∀ i < n, f i < 80 * 25) :
    OnlyScreen s (forRange n (fun i s => s.put (f i) (g i s)) s) ∧
      SameCursor s (forRange n (fun i s => s.put (f i) (g i s)) s) := by
  refine forRange_inv (fun _ t => OnlyScreen s t ∧ SameCursor s t) n ⟨.refl s, ⟨rfl, rfl, rfl⟩⟩ ?_
  rintro i hi t ⟨honly, hsame⟩
  exact ⟨honly.put (hf i hi) _, ⟨hsame.row, hsame.col, hsame.color⟩⟩

theorem vgaShiftRows_only (s : Vga) :
    OnlyScreen s (forRange 24 vgaShiftRow s) ∧ SameCursor s (forRange 24 vgaShiftRow s) := by
  refine forRange_inv (fun _ t => OnlyScreen s t ∧ SameCursor s t) 24 ⟨.refl s, ⟨rfl, rfl, rfl⟩⟩ ?_
  rintro r hr t ⟨honly, hsame⟩
  obtain ⟨honly', hsame'⟩ := stores_only (n := 80) (f := fun c => r * 80 + c)
    (g := fun c s => s.video ((r + 1) * 80 + c)) t fun c hc => by omega
  exact ⟨honly.trans honly',
    ⟨hsame'.row.trans hsame.row, hsame'.col.trans hsame.col, hsame'.color.trans hsame.color⟩⟩

theorem vgaBlank_only (first n : Nat) (h : first + n ≤ 80 * 25) (s : Vga) :
    OnlyScreen s (vgaBlank first n s) ∧ SameCursor s (vgaBlank first n s) :=
  stores_only s fun c hc => by omega

@[simp] theorem vgaScroll_row (s : Vga) : (vgaScroll s).row = 24 := rfl

theorem vgaScroll_only (s : Vga) : OnlyScreen s (vgaScroll s) := by
  have hblank := vgaBlank_only (24 * 80) 80 (by decide) (forRange 24 vgaShiftRow s)
  refine OnlyScreen.of_written ((vgaShiftRows_only s).1.trans hblank.1) ?_
  unfold vgaScroll
  rfl

theorem vgaScroll_col (s : Vga) : (vgaScroll s).col = s.col := by
  have hblank := vgaBlank_only (24 * 80) 80 (by decide) (forRange 24 vgaShiftRow s)
  have hrows := (vgaShiftRows_only s).2.col
  unfold vgaScroll
  rw [← hrows, ← hblank.2.col]

@[simp] theorem vgaSetCursor_row (r c : Byte) (s : Vga) : (vgaSetCursor r c s).row = s.row := rfl
@[simp] theorem vgaSetCursor_col (r c : Byte) (s : Vga) : (vgaSetCursor r c s).col = s.col := rfl
@[simp] theorem vgaSetCursor_written (r c : Byte) (s : Vga) :
    (vgaSetCursor r c s).written = s.written := rfl

theorem vgaClear_only (s : Vga) : OnlyScreen s (vgaClear s) := by
  refine OnlyScreen.of_written (vgaBlank_only 0 (80 * 25) (by decide) s).1 ?_
  unfold vgaClear
  rw [vgaSetCursor_written]

theorem shown_setCursor (r c : Byte) (s : Vga) : (vgaSetCursor r c s).shown = r.toNat * 80 + c.toNat := by
  have hr := r.isLt
  have hc := c.isLt
  have hbytes : ∀ pos : BitVec 16, ((pos >>> 8).setWidth 8 ++ pos.setWidth 8 : BitVec (8 + 8)) = pos := by
    intro pos
    apply BitVec.eq_of_getLsbD_eq
    intro i hi
    rw [BitVec.getLsbD_append]
    by_cases h8 : i < 8
    · simp [h8]
    · simp [h8, show i - 8 < 8 by omega, show 8 + (i - 8) = i by omega]
  unfold Vga.shown vgaSetCursor
  dsimp only
  rw [hbytes, BitVec.toNat_add, BitVec.toNat_mul, BitVec.toNat_setWidth, BitVec.toNat_setWidth]
  change (r.toNat % 65536 * 80 % 65536 + c.toNat % 65536) % 65536 = _
  omega

/-! ## One character -/

/-- The part of `vga_putc` in front of the scroll. -/
def Vga.advance (s : Vga) (c : Byte) : Vga :=
  if c = 0x0a then { s with col := 0, row := s.row + 1 }
  else if c = 0x0d then { s with col := 0 }
  else if c = 0x09 then { s with col := (s.col + 8) &&& ~~~7 }
  else
    let s := s.put (s.row.toNat * 80 + s.col.toNat) (s.cell c)
    if s.col + 1 ≥ 80 then { s with col := 0, row := s.row + 1 } else { s with col := s.col + 1 }

theorem vgaPutc_eq (s : Vga) (c : Byte) : vgaPutc s c =
    let t := if (s.advance c).row ≥ 25 then vgaScroll (s.advance c) else s.advance c
    vgaSetCursor t.row t.col t := rfl

theorem vgaPutc_col (s : Vga) (c : Byte) : (vgaPutc s c).col = (s.advance c).col := by
  rw [vgaPutc_eq]
  dsimp only
  rw [vgaSetCursor_col]
  split
  · rw [vgaScroll_col]
  · rfl

theorem vgaPutc_row (s : Vga) (c : Byte) : (vgaPutc s c).row.toNat < 25 := by
  rw [vgaPutc_eq]
  dsimp only
  rw [vgaSetCursor_row]
  split
  · rw [vgaScroll_row]
    decide
  · rename_i hrow
    exact BitVec.not_le.mp hrow

theorem vgaPutc_only (s : Vga) (c : Byte) : OnlyScreen (s.advance c) (vgaPutc s c) := by
  rw [vgaPutc_eq]
  refine OnlyScreen.of_written ?_ (vgaSetCursor_written _ _ _)
  split
  · exact vgaScroll_only _
  · exact .refl _

theorem shown_vgaPutc (s : Vga) (c : Byte) :
    (vgaPutc s c).shown = (vgaPutc s c).row.toNat * 80 + (vgaPutc s c).col.toNat := by
  rw [vgaPutc_eq]
  exact shown_setCursor _ _ _

def columnAfter (col : Nat) (c : Byte) : Nat :=
  if c = 0x0a ∨ c = 0x0d then 0
  else if c = 0x09 then col / 8 * 8 + 8
  else if col + 1 ≥ 80 then 0 else col + 1

def column (text : List Byte) : Nat := text.foldl columnAfter 0

theorem tab_toNat (col : Byte) (h : col.toNat < 80) :
    ((col + 8) &&& ~~~7 : Byte).toNat = col.toNat / 8 * 8 + 8 := by
  revert h
  revert col
  decide +kernel

theorem advance_col (h : s.col.toNat < 80) : (s.advance c).col.toNat = columnAfter s.col.toNat c := by
  have h80 : (80 : Byte).toNat = 80 := rfl
  have hnext : (s.col + 1).toNat = s.col.toNat + 1 := by bv_omega
  unfold Vga.advance columnAfter
  by_cases hnl : c = 0x0a
  · rw [if_pos hnl, if_pos (.inl hnl)]
    rfl
  · by_cases hcr : c = 0x0d
    · rw [if_neg hnl, if_pos hcr, if_pos (.inr hcr)]
      rfl
    · rw [if_neg hnl, if_neg hcr, if_neg (not_or.mpr ⟨hnl, hcr⟩)]
      by_cases htab : c = 0x09
      · rw [if_pos htab, if_pos htab]
        exact tab_toNat s.col h
      · rw [if_neg htab, if_neg htab]
        dsimp only [Vga.put]
        by_cases hlast : s.col + 1 ≥ 80
        · rw [if_pos hlast, if_pos (by rw [ge_iff_le, BitVec.le_def, hnext, h80] at hlast; exact hlast)]
          rfl
        · rw [if_neg hlast, if_neg (by rw [ge_iff_le, BitVec.le_def, hnext, h80] at hlast; exact hlast)]
          exact hnext

theorem advance_written (s : Vga) (c : Byte) :
    (Printable c ∧ (s.advance c).written = s.written ++ [s.row.toNat * 80 + s.col.toNat]) ∨
    (¬Printable c ∧ (s.advance c).written = s.written) := by
  unfold Vga.advance Printable
  by_cases hnl : c = 0x0a
  · exact .inr ⟨fun h => h.1 hnl, by rw [if_pos hnl]⟩
  · by_cases hcr : c = 0x0d
    · exact .inr ⟨fun h => h.2.1 hcr, by rw [if_neg hnl, if_pos hcr]⟩
    · by_cases htab : c = 0x09
      · exact .inr ⟨fun h => h.2.2 htab, by rw [if_neg hnl, if_neg hcr, if_pos htab]⟩
      · refine .inl ⟨⟨hnl, hcr, htab⟩, ?_⟩
        rw [if_neg hnl, if_neg hcr, if_neg htab]
        dsimp only
        split <;> rfl

structure Vga.Placed (s : Vga) : Prop where
  row : s.row.toNat < 25
  col : s.col.toNat < 80
  shown : s.shown = s.row.toNat * 80 + s.col.toNat

@[simp] theorem vgaClear_row (s : Vga) : (vgaClear s).row = 0 := rfl
@[simp] theorem vgaClear_col (s : Vga) : (vgaClear s).col = 0 := rfl

theorem vgaClear_placed (s : Vga) : (vgaClear s).Placed := by
  refine ⟨?_, ?_, ?_⟩
  · rw [vgaClear_row]
    decide
  · rw [vgaClear_col]
    decide
  · rw [vgaClear_row, vgaClear_col]
    exact shown_setCursor 0 0 _

theorem keepsScreen_iff (h : s.Placed) : KeepsScreen s c ↔ (c = 0x09 → s.col.toNat < 72) := by
  have hcol := vgaPutc_col s c
  have hafter := advance_col (c := c) h.col
  have hrow := h.row
  have hleft := h.col
  constructor
  · rintro hkeeps rfl
    have hlt := hkeeps.col
    rw [hcol, hafter] at hlt
    unfold columnAfter at hlt
    rw [if_neg (by decide), if_pos rfl] at hlt
    omega
  · intro htab
    have honly := vgaPutc_only s c
    refine ⟨vgaPutc_row s c, ?_, ?_, fun hprint => ⟨?_, h.shown⟩⟩
    · rw [hcol, hafter]
      unfold columnAfter
      split
      · omega
      · split
        · rename_i hc
          have := htab hc
          omega
        · split <;> omega
    · refine OnlyScreen.trans ?_ honly
      rcases advance_written s c with ⟨-, hw⟩ | ⟨-, hw⟩
      · exact ⟨_, hw, fun i hi => by rw [List.mem_singleton.mp hi]; omega⟩
      · exact ⟨[], by rw [hw, List.append_nil], by simp⟩
    · obtain ⟨l, hl, -⟩ := honly
      obtain ⟨-, hw⟩ := (advance_written s c).resolve_right fun hno => hno.1 hprint
      rw [hl, hw, List.append_assoc, List.singleton_append, List.getElem?_append_right le_rfl,
        Nat.sub_self]
      rfl

theorem KeepsScreen.placed (h : KeepsScreen s c) :
    (vgaPutc s c).Placed := ⟨h.row, h.col, shown_vgaPutc s c⟩

theorem vgaWrite_concat (text : List Byte) (c : Byte) (s : Vga) :
    vgaWrite (text ++ [c]) s = vgaPutc (vgaWrite text s) c := List.foldl_append

theorem vgaWrite_placed {text : List Byte}
    (h : ∀ before c after, text = before ++ c :: after → KeepsScreen (vgaWrite before (vgaClear s)) c) :
    (vgaWrite text (vgaClear s)).Placed ∧ (vgaWrite text (vgaClear s)).col.toNat = column text := by
  induction text using List.reverseRecOn with
  | nil => exact ⟨vgaClear_placed s, rfl⟩
  | append_singleton text c ih =>
    obtain ⟨hplaced, hcol⟩ := ih fun before d after heq => h before d (after ++ [c]) (by rw [heq]; simp)
    have hkeeps := h text c [] rfl
    have hcolumn : column (text ++ [c]) = columnAfter (column text) c := List.foldl_append
    rw [vgaWrite_concat, hcolumn, vgaPutc_col, advance_col hplaced.col, hcol]
    exact ⟨hkeeps.placed, rfl⟩

/-- A text stays on the screen just if it has no tab in the last eight columns of a line. -/
theorem stays_on_screen_iff (s : Vga) (text : List Byte) :
    StaysOnScreen s text ↔ ∀ before after, text = before ++ 0x09 :: after → column before < 72 := by
  constructor
  · intro h before after heq
    have hkeeps : ∀ b c a, before = b ++ c :: a →
        KeepsScreen (vgaWrite b (vgaClear s)) c := fun b c a hb =>
      h.putc b c (a ++ 0x09 :: after) (by rw [heq, hb]; simp)
    obtain ⟨hplaced, hcol⟩ := vgaWrite_placed hkeeps
    rw [← hcol]
    exact (keepsScreen_iff hplaced).mp (h.putc before 0x09 after heq) rfl
  · intro h
    refine ⟨vgaClear_only s, ?_⟩
    induction text using List.reverseRecOn with
    | nil =>
      intro before c after heq
      simp at heq
    | append_singleton text d ih =>
      have hprev := ih fun before after heq => h before (after ++ [d]) (by rw [heq]; simp)
      intro before c after heq
      rcases List.eq_nil_or_concat after with rfl | ⟨after, e, rfl⟩
      · obtain ⟨rfl, hd⟩ := List.append_inj' heq rfl
        cases hd
        obtain ⟨hplaced, hcol⟩ := vgaWrite_placed hprev
        rw [keepsScreen_iff hplaced, hcol]
        rintro rfl
        exact h text [] rfl
      · have heq' : text ++ [d] = (before ++ c :: after) ++ [e] := by rw [heq]; simp
        exact hprev before c after (List.append_inj' heq' rfl).1

def cursorAfter (p : Byte × Byte) (c : Byte) : Byte × Byte :=
  let p :=
    if c = 0x0a then (p.1 + 1, 0)
    else if c = 0x0d then (p.1, 0)
    else if c = 0x09 then (p.1, (p.2 + 8) &&& ~~~7)
    else if p.2 + 1 ≥ 80 then (p.1 + 1, 0) else (p.1, p.2 + 1)
  if p.1 ≥ 25 then (24, p.2) else p

theorem vgaPutc_cursor (s : Vga) (c : Byte) :
    ((vgaPutc s c).row, (vgaPutc s c).col) = cursorAfter (s.row, s.col) c := by
  have hadvance : ((s.advance c).row, (s.advance c).col) =
      if c = 0x0a then (s.row + 1, 0)
      else if c = 0x0d then (s.row, 0)
      else if c = 0x09 then (s.row, (s.col + 8) &&& ~~~7)
      else if s.col + 1 ≥ 80 then (s.row + 1, 0) else (s.row, s.col + 1) := by
    unfold Vga.advance
    dsimp only [Vga.put]
    split_ifs <;> rfl
  unfold cursorAfter
  dsimp only
  rw [← hadvance, vgaPutc_eq]
  dsimp only
  rw [vgaSetCursor_row, vgaSetCursor_col]
  by_cases hrow : (s.advance c).row ≥ 25
  · rw [if_pos hrow, if_pos hrow, vgaScroll_row, vgaScroll_col]
  · rw [if_neg hrow, if_neg hrow]

theorem vgaWrite_cursor (text : List Byte) (s : Vga) :
    ((vgaWrite text s).row, (vgaWrite text s).col) = text.foldl cursorAfter (s.row, s.col) := by
  induction text generalizing s with
  | nil => rfl
  | cons c text ih =>
    rw [List.foldl_cons, ← vgaPutc_cursor]
    exact ih (vgaPutc s c)

def blankVga : Vga := ⟨0, 0, 7, fun _ => 0, 0, 0, []⟩

def tabbedText : List Byte := List.replicate 24 0x0a ++ List.replicate 10 0x09

/-- The cursor is in column 80 then, and the next character goes behind the last cell of the screen. -/
theorem tabs_leave_screen : (vgaWrite tabbedText (vgaClear blankVga)).col = 80 ∧
    80 * 25 ∈ (vgaPutc (vgaWrite tabbedText (vgaClear blankVga)) 0x41).written ∧
    ¬ StaysOnScreen blankVga tabbedText := by
  have hcursor := vgaWrite_cursor tabbedText (vgaClear blankVga)
  rw [vgaClear_row, vgaClear_col, show tabbedText.foldl cursorAfter (0, 0) =
    (24, 80) by decide +kernel] at hcursor
  obtain ⟨hrow, hcol⟩ := Prod.mk.inj hcursor
  refine ⟨hcol, ?_, fun h => ?_⟩
  · obtain ⟨-, hw⟩ :=
      (advance_written (vgaWrite tabbedText (vgaClear blankVga)) 0x41).resolve_right fun hno =>
      hno.1 ⟨by decide, by decide, by decide⟩
    obtain ⟨l, hl, -⟩ := vgaPutc_only (vgaWrite tabbedText (vgaClear blankVga)) 0x41
    rw [hl, hw, hrow, hcol]
    simp
  · have hsplit : tabbedText = List.replicate 24 0x0a ++ List.replicate 9 0x09 ++ [0x09] := by decide
    have hkeeps := (h.putc _ 0x09 [] hsplit).col
    rw [← vgaWrite_concat, ← hsplit, hcol] at hkeeps
    exact absurd hkeeps (by decide)

end

end Ceblar
