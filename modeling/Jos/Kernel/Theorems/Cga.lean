import Jos.Kernel.Cga

-- The text screen is a window of a grid of characters with rows without end.

open Function

namespace Jos

variable {k k' : Crt} {c ch : Word} {w : BitVec 16} {n i row col : Nat} {cs : List Word}

theorem toNat_cols : (BitVec.ofNat 16 crtCols).toNat = 80 :=
  rfl

namespace Crt

-- The position is on the screen.
def OnScreen (k : Crt) : Prop :=
  k.pos.toNat < crtSize

def write (k : Crt) (w : BitVec 16) : Crt :=
  { k with buf := update k.buf k.pos.toNat w, pos := k.pos + 1#16 }

def newline (k : Crt) : Crt :=
  carriageReturn { k with pos := k.pos + BitVec.ofNat 16 crtCols }

def erase (k : Crt) (w : BitVec 16) : Crt :=
  { k with buf := update k.buf (k.pos - 1#16).toNat w, pos := k.pos - 1#16 }

theorem toNat_write (h : k.OnScreen) : (k.write w).pos.toNat = k.pos.toNat + 1 := by
  have h : k.pos.toNat < 2000 := h
  rw [write, BitVec.toNat_add]
  simp only [BitVec.toNat_ofNat]
  omega

theorem toNat_carriageReturn : k.carriageReturn.pos.toNat = k.pos.toNat / 80 * 80 := by
  have hm : (k.pos % BitVec.ofNat 16 crtCols).toNat = k.pos.toNat % 80 := by
    rw [BitVec.toNat_umod, toNat_cols]
  have hlt := k.pos.isLt
  rw [carriageReturn, BitVec.toNat_sub, hm]
  omega

theorem toNat_newline (h : k.OnScreen) : k.newline.pos.toNat = (k.pos.toNat / 80 + 1) * 80 := by
  have h : k.pos.toNat < 2000 := h
  rw [newline, toNat_carriageReturn]
  simp only [BitVec.toNat_add, toNat_cols]
  omega

theorem toNat_erase (h : k.OnScreen) (h₀ : k.pos > 0#16) : (k.erase w).pos.toNat = k.pos.toNat - 1 := by
  have h : k.pos.toNat < 2000 := h
  have h₀ : 0 < k.pos.toNat := h₀
  rw [erase, BitVec.toNat_sub]
  simp only [BitVec.toNat_ofNat]
  omega

theorem toNat_scroll : k.scroll.pos.toNat = if k.pos.toNat ≥ 2000 then k.pos.toNat - 80 else k.pos.toNat := by
  have hlt := k.pos.isLt
  rw [scroll]
  have hs : crtSize = 2000 := rfl
  rw [hs]
  split
  case isTrue =>
    simp only [BitVec.toNat_sub, toNat_cols]
    omega
  case isFalse => rfl

theorem onScreen_scroll (h : k.pos.toNat < 2080) : k.scroll.moveCursor.OnScreen := by
  change k.scroll.pos.toNat < 2000
  rw [toNat_scroll]
  split <;> omega

end Crt

section Cases

-- The character in the lowest byte decides what `cga_putc` does.
theorem cgaPutc_back (h : withAttribute c &&& 0xFF#32 = 0x08#32) (hk : k.OnScreen) :
    cgaPutc (n + 1) c k = .ok (if k.pos > 0#16 then
      (k.erase ((withAttribute c &&& ~~~0xFF#32 ||| 0x20#32).setWidth 16)).scroll.moveCursor else k.scroll.moveCursor) := by
  rw [cgaPutc, if_pos h]
  by_cases h₀ : k.pos > 0#16
  case pos =>
    have hlt : (k.pos - 1#16).toNat < crtSize := by
      have he := Crt.toNat_erase (w := 0#16) hk h₀
      have hk : k.pos.toNat < crtSize := hk
      exact Nat.lt_of_le_of_lt (Nat.le_of_eq he) (by omega)
    rw [if_pos h₀, if_pos h₀, Crt.store, if_pos hlt]
    rfl
  case neg =>
    rw [if_neg h₀, if_neg h₀]
    rfl

theorem cgaPutc_newline (h : withAttribute c &&& 0xFF#32 = 0x0A#32) :
    cgaPutc (n + 1) c k = .ok k.newline.scroll.moveCursor := by
  rw [cgaPutc, h, if_neg (by decide), if_pos rfl]
  rfl

theorem cgaPutc_return (h : withAttribute c &&& 0xFF#32 = 0x0D#32) :
    cgaPutc (n + 1) c k = .ok k.carriageReturn.scroll.moveCursor := by
  rw [cgaPutc, h, if_neg (by decide), if_neg (by decide), if_pos rfl]
  rfl

theorem cgaPutc_write (h₁ : withAttribute c &&& 0xFF#32 ≠ 0x08#32) (h₂ : withAttribute c &&& 0xFF#32 ≠ 0x0A#32)
    (h₃ : withAttribute c &&& 0xFF#32 ≠ 0x0D#32) (h₄ : withAttribute c &&& 0xFF#32 ≠ 0x09#32) (hk : k.OnScreen) :
    cgaPutc (n + 1) c k = .ok (k.write ((withAttribute c).setWidth 16)).scroll.moveCursor := by
  have hlt : k.pos.toNat < crtSize := hk
  rw [cgaPutc, if_neg h₁, if_neg h₂, if_neg h₃, if_neg h₄, Crt.store, if_pos hlt]
  rfl

namespace Crt

-- A space which goes to all of the devices.
def space (k : Crt) : Crt :=
  (((k.serialPutc 0x20#32).lptPutc 0x20#32).write 0x0720#16).scroll.moveCursor

theorem onScreen_write (h : k.OnScreen) : (k.write w).scroll.moveCursor.OnScreen := by
  apply onScreen_scroll
  have h₁ : k.pos.toNat < 2000 := h
  rw [toNat_write h]
  omega

theorem onScreen_space (h : k.OnScreen) : k.space.OnScreen := by
  apply onScreen_write
  exact h

theorem onScreen_stay (h : k.OnScreen) : k.scroll.moveCursor.OnScreen :=
  onScreen_scroll <| Nat.lt_of_lt_of_le h (by decide)

theorem onScreen_newline (h : k.OnScreen) : k.newline.scroll.moveCursor.OnScreen := by
  apply onScreen_scroll
  have h₁ : k.pos.toNat < 2000 := h
  rw [toNat_newline h]
  omega

theorem onScreen_return (h : k.OnScreen) : k.carriageReturn.scroll.moveCursor.OnScreen := by
  apply onScreen_stay
  have h₁ : k.pos.toNat < 2000 := h
  change k.carriageReturn.pos.toNat < 2000
  rw [toNat_carriageReturn]
  omega

theorem onScreen_erase (h : k.OnScreen) (h₀ : k.pos > 0#16) : (k.erase w).scroll.moveCursor.OnScreen := by
  apply onScreen_stay
  have h₁ : k.pos.toNat < 2000 := h
  change (k.erase w).pos.toNat < 2000
  rw [toNat_erase h h₀]
  omega

end Crt

theorem consPutcWith_space (hk : k.OnScreen) : consPutcWith (cgaPutc (n + 1)) 0x20#32 k = .ok k.space := by
  have hp : ((k.serialPutc 0x20#32).lptPutc 0x20#32).OnScreen := hk
  rw [consPutcWith, cgaPutc_write (by decide) (by decide) (by decide) (by decide) hp]
  rfl

theorem cgaPutc_tab (h : withAttribute c &&& 0xFF#32 = 0x09#32) (hk : k.OnScreen) :
    cgaPutc (n + 2) c k = .ok k.space.space.space.space.space.scroll.moveCursor := by
  have h₁ := Crt.onScreen_space hk
  have h₂ := Crt.onScreen_space h₁
  have h₃ := Crt.onScreen_space h₂
  have h₄ := Crt.onScreen_space h₃
  rw [cgaPutc, h, if_neg (by decide), if_neg (by decide), if_neg (by decide), if_pos rfl, consPutcWith_space hk]
  simp only [bind, Except.bind, consPutcWith_space h₁, consPutcWith_space h₂, consPutcWith_space h₃,
    consPutcWith_space h₄]
  rfl

end Cases

-- No character leaves the screen, and the calls of a tab for a space come to an end.
theorem cgaPutc_onScreen (hk : k.OnScreen) : ∃ k', cgaPutc (n + 2) c k = .ok k' ∧ k'.OnScreen := by
  by_cases h₁ : withAttribute c &&& 0xFF#32 = 0x08#32
  case pos =>
    rw [cgaPutc_back h₁ hk]
    by_cases h₀ : k.pos > 0#16
    case pos =>
      rw [if_pos h₀]
      exact ⟨_, rfl, Crt.onScreen_erase hk h₀⟩
    case neg =>
      rw [if_neg h₀]
      exact ⟨_, rfl, Crt.onScreen_stay hk⟩
  by_cases h₂ : withAttribute c &&& 0xFF#32 = 0x0A#32
  case pos => exact ⟨_, cgaPutc_newline h₂, Crt.onScreen_newline hk⟩
  by_cases h₃ : withAttribute c &&& 0xFF#32 = 0x0D#32
  case pos => exact ⟨_, cgaPutc_return h₃, Crt.onScreen_return hk⟩
  by_cases h₄ : withAttribute c &&& 0xFF#32 = 0x09#32
  case pos =>
    refine ⟨_, cgaPutc_tab h₄ hk, Crt.onScreen_stay ?_⟩
    iterate 5 apply Crt.onScreen_space
    exact hk
  case neg => exact ⟨_, cgaPutc_write h₁ h₂ h₃ h₄ hk, Crt.onScreen_write hk⟩

-- Rows without end, which the same characters are written on without scrolling. `lowest` is the lowest row that the
-- cursor has reached.
structure Grid where
  cell   : Nat → Nat → BitVec 16
  row    : Nat
  col    : Nat
  lowest : Nat

namespace Grid

variable {g : Grid} {r : Nat}

def blank : Grid where
  cell _ _ := 0x0720#16
  row      := 0
  col      := 0
  lowest   := 0

def moveTo (g : Grid) (row col : Nat) : Grid :=
  { g with row, col, lowest := max g.lowest row }

def write (g : Grid) (w : BitVec 16) : Grid :=
  { g with cell := fun r c => if r = g.row ∧ c = g.col then w else g.cell r c }

-- The cell which follows the cursor's one.
def advance (g : Grid) : Grid :=
  if g.col + 1 < crtCols then g.moveTo g.row (g.col + 1) else g.moveTo (g.row + 1) 0

def put (g : Grid) (w : BitVec 16) : Grid :=
  (g.write w).advance

def type (g : Grid) (c : Word) : Grid :=
  if c = 0x0A#32 then
    g.moveTo (g.row + 1) 0
  else if c = 0x0D#32 then
    g.moveTo g.row 0
  else if c = 0x09#32 then
    ((((g.put 0x0720#16).put 0x0720#16).put 0x0720#16).put 0x0720#16).put 0x0720#16
  else
    g.put ((0x0700#32 ||| c).setWidth 16)

-- The window's bottom and top row.
def bottom (g : Grid) : Nat :=
  max (crtRows - 1) g.lowest

def top (g : Grid) : Nat :=
  g.bottom - (crtRows - 1)

-- The cursor is in the lowest row it has reached, and there is nothing below it.
structure Fits (g : Grid) : Prop where
  col    : g.col < 80
  lowest : g.lowest = g.row
  below  : ∀ r c, g.row < r → g.cell r c = 0x0720#16

end Grid

-- What the screen shows is the window, with the cursor at the same place.
structure Displays (g : Grid) (k : Crt) : Prop where
  cells : ∀ i < crtSize, k.buf i = g.cell (g.top + i / crtCols) (i % crtCols)
  pos   : k.pos.toNat + g.top * crtCols = g.row * crtCols + g.col

section Window

variable {g g' : Grid} {r : Nat}

theorem Grid.Fits.top_eq (h : g.Fits) : g.top = g.row - 24 := by
  have hl := h.lowest
  simp only [Grid.top, Grid.bottom, crtRows]
  omega

theorem Displays.onScreen (h : Displays g k) (hf : g.Fits) : k.OnScreen := by
  have hp := h.pos
  have hc := hf.col
  have ht := hf.top_eq
  simp only [crtCols] at hp
  change k.pos.toNat < 2000
  omega

theorem Grid.Fits.write (h : g.Fits) : (g.write w).Fits where
  col    := h.col
  lowest := h.lowest
  below r c hr := by
    have hr : g.row < r := hr
    change (if r = g.row ∧ c = g.col then w else g.cell r c) = _
    rw [if_neg (by omega), h.below r c hr]

theorem Grid.Fits.moveTo (h : g.Fits) (hr : g.row ≤ row) (hc : col < 80) : (g.moveTo row col).Fits where
  col    := hc
  lowest := by
    have hl := h.lowest
    change max g.lowest row = row
    omega
  below r c hlt := h.below r c <| Nat.lt_of_le_of_lt hr hlt

-- Below the last row of the screen there is a blank one, so that scrolling follows the cursor.
theorem Displays.moveTo (hf : g.Fits) (hb : ∀ i < crtSize, k.buf i = g.cell (g.top + i / crtCols) (i % crtCols))
    (hr : g.row ≤ row) (hr' : row ≤ g.row + 1) (hc : col < 80)
    (hp : k.pos.toNat + g.top * crtCols = row * crtCols + col) : Displays (g.moveTo row col) k.scroll.moveCursor := by
  have ht := hf.top_eq
  have ht' : (g.moveTo row col).top = row - 24 := (hf.moveTo hr hc).top_eq
  simp only [crtCols] at hp
  constructor
  case cells =>
    intro i hi
    rw [ht']
    change k.scroll.buf i = g.cell _ _
    have hs : crtSize = 2000 := rfl
    rw [Crt.scroll]
    split
    case isTrue h =>
      -- The position is behind the last row, which is the one that the cursor has left.
      rw [hs] at h hi
      have hrow : row - 24 = g.top + 1 := by omega
      simp only [hs, crtCols]
      by_cases hl : i < 2000 - 80
      case pos =>
        have hd : g.top + (i + 80) / 80 = row - 24 + i / 80 := by omega
        rw [if_pos hl, hb (i + 80) (by omega)]
        simp only [crtCols]
        rw [hd, Nat.add_mod_right]
      case neg =>
        rw [if_neg hl, if_pos hi, hf.below]
        omega
    case isFalse h =>
      rw [hs] at h
      have hrow : row - 24 = g.top := by omega
      rw [hb i hi, hrow]
  case pos =>
    rw [ht']
    change k.scroll.pos.toNat + (row - 24) * 80 = row * 80 + col
    rw [Crt.toNat_scroll]
    split <;> omega

theorem Displays.write (hf : g.Fits) (h : Displays g k) :
    ∀ i < crtSize, (k.write w).buf i = (g.write w).cell ((g.write w).top + i / crtCols) (i % crtCols) := by
  intro i hi
  have hp := h.pos
  have hc := hf.col
  have hat : (g.top + i / crtCols = g.row ∧ i % crtCols = g.col) ↔ i = k.pos.toNat := by
    simp only [crtCols] at hp ⊢
    omega
  change update k.buf k.pos.toNat w i = if g.top + i / crtCols = g.row ∧ i % crtCols = g.col then w else g.cell _ _
  by_cases he : i = k.pos.toNat
  case pos => rw [if_pos <| hat.mpr he, he, update_self]
  case neg =>
    rw [update_of_ne he, if_neg <| mt hat.mp he]
    exact h.cells i hi

theorem Grid.Fits.put (h : g.Fits) : (g.put w).Fits := by
  rw [Grid.put, Grid.advance]
  split
  case isTrue hc => exact h.write.moveTo (Nat.le_refl _) hc
  case isFalse => exact h.write.moveTo (Nat.le_succ _) (by decide)

theorem Displays.put (hf : g.Fits) (h : Displays g k) : Displays (g.put w) (k.write w).scroll.moveCursor := by
  have hp := h.pos
  have hw := Crt.toNat_write (w := w) <| h.onScreen hf
  have hcol := hf.col
  have ht : (g.write w).top = g.top := rfl
  rw [Grid.put, Grid.advance]
  split
  case isTrue hc =>
    apply Displays.moveTo hf.write (h.write hf) (Nat.le_refl _) (Nat.le_succ _) hc
    rw [hw, ht]
    change _ = g.row * crtCols + (g.col + 1)
    omega
  case isFalse hc =>
    have hc : ¬g.col + 1 < 80 := hc
    apply Displays.moveTo hf.write (h.write hf) (Nat.le_succ _) (Nat.le_refl _) (by decide)
    rw [hw, ht]
    change _ = (g.row + 1) * crtCols + 0
    simp only [crtCols] at hp ⊢
    omega

theorem Displays.newline (hf : g.Fits) (h : Displays g k) :
    Displays (g.moveTo (g.row + 1) 0) k.newline.scroll.moveCursor := by
  have hp := h.pos
  have hcol := hf.col
  apply Displays.moveTo (k := k.newline) hf h.cells (Nat.le_succ _) (Nat.le_refl _) (by decide)
  rw [Crt.toNat_newline <| h.onScreen hf]
  simp only [crtCols] at hp ⊢
  omega

theorem Displays.carriageReturn (hf : g.Fits) (h : Displays g k) :
    Displays (g.moveTo g.row 0) k.carriageReturn.scroll.moveCursor := by
  have hp := h.pos
  have hcol := hf.col
  apply Displays.moveTo (k := k.carriageReturn) hf h.cells (Nat.le_refl _) (Nat.le_succ _) (by decide)
  rw [Crt.toNat_carriageReturn]
  simp only [crtCols] at hp ⊢
  omega

theorem Displays.space (hf : g.Fits) (h : Displays g k) : Displays (g.put 0x0720#16) k.space :=
  Displays.put (k := (k.serialPutc 0x20#32).lptPutc 0x20#32) hf ⟨h.cells, h.pos⟩

-- After a tab the screen needs no scrolling any more.
theorem Displays.stay (hf : g.Fits) (h : Displays g k) : Displays g k.scroll.moveCursor := by
  have hs : k.scroll = k := if_neg <| Nat.not_le_of_lt <| h.onScreen hf
  rw [hs]
  exact ⟨h.cells, h.pos⟩

end Window

-- The characters which the window is about.
def Text (c : Word) : Prop :=
  (0x20#32 ≤ c ∧ c ≤ 0x7E#32) ∨ c = 0x0A#32 ∨ c = 0x0D#32 ∨ c = 0x09#32

instance : Decidable (Text c) :=
  inferInstanceAs <| Decidable (_ ∨ _)

-- All of the characters, one after the other.
def cgaPuts (n : Nat) (cs : List Word) (k : Crt) : Except CrtError Crt :=
  cs.foldlM (fun k c => cgaPutc (n + 2) c k) k

theorem cgaPuts_cons : cgaPuts n (c :: cs) k = cgaPutc (n + 2) c k >>= cgaPuts n cs :=
  rfl

theorem Text.lt (h : Text c) : c < 0x100#32 := by
  rcases h with ⟨_, h⟩ | rfl | rfl | rfl
  case inl => bv_omega
  all_goals decide

theorem Text.byte (h : Text c) : c = (c.setWidth 8).setWidth 32 := by
  have hlt := h.lt
  bv_omega

theorem withAttribute_byte : ∀ b : BitVec 8, withAttribute (b.setWidth 32) = 0x0700#32 ||| b.setWidth 32 := by
  decide +kernel

theorem withAttribute_low : ∀ b : BitVec 8, withAttribute (b.setWidth 32) &&& 0xFF#32 = b.setWidth 32 := by
  decide +kernel

-- A character of the text has the same effect on the screen as on the grid.
theorem cgaPutc_displays {g : Grid} (ht : Text c) (hf : g.Fits) (h : Displays g k) :
    ∃ k', cgaPutc (n + 2) c k = .ok k' ∧ Displays (g.type c) k' ∧ (g.type c).Fits := by
  have hk := h.onScreen hf
  have hw : withAttribute c = 0x0700#32 ||| c := by
    rw [ht.byte]
    exact withAttribute_byte _
  have hl : withAttribute c &&& 0xFF#32 = c := by
    rw [ht.byte]
    exact withAttribute_low _
  rw [Grid.type]
  split
  case isTrue h₂ =>
    refine ⟨_, cgaPutc_newline (hl.trans h₂), h.newline hf, hf.moveTo (Nat.le_succ _) (by decide)⟩
  case isFalse h₂ =>
  split
  case isTrue h₃ =>
    refine ⟨_, cgaPutc_return (hl.trans h₃), h.carriageReturn hf, hf.moveTo (Nat.le_refl _) (by decide)⟩
  case isFalse h₃ =>
  split
  case isTrue h₄ =>
    have f₁ := hf.put (w := 0x0720#16)
    have f₂ := f₁.put (w := 0x0720#16)
    have f₃ := f₂.put (w := 0x0720#16)
    have f₄ := f₃.put (w := 0x0720#16)
    have f₅ := f₄.put (w := 0x0720#16)
    have hd := ((((h.space hf).space f₁).space f₂).space f₃).space f₄
    exact ⟨_, cgaPutc_tab (hl.trans h₄) hk, hd.stay f₅, f₅⟩
  case isFalse h₄ =>
    have h₁ : c ≠ 0x08#32 := by
      rintro rfl
      exact absurd ht (by decide)
    have hp := cgaPutc_write (n := n + 1) (by rwa [hl]) (by rwa [hl]) (by rwa [hl]) (by rwa [hl]) hk
    rw [hw] at hp
    exact ⟨_, hp, h.put hf, hf.put⟩

-- Starting from any position on the screen.
theorem cgaPuts_onScreen (hk : k.OnScreen) : ∃ k', cgaPuts n cs k = .ok k' ∧ k'.OnScreen := by
  induction cs generalizing k
  case nil => exact ⟨k, rfl, hk⟩
  case cons c cs hi =>
    have ⟨k₁, h₁, hk₁⟩ := cgaPutc_onScreen (c := c) (n := n) hk
    have ⟨k₂, h₂, hk₂⟩ := hi hk₁
    refine ⟨k₂, ?_, hk₂⟩
    rw [cgaPuts_cons, h₁]
    exact h₂

theorem cgaPuts_displays {g : Grid} (ht : ∀ c ∈ cs, Text c) (hf : g.Fits) (h : Displays g k) :
    ∃ k', cgaPuts n cs k = .ok k' ∧ Displays (cs.foldl Grid.type g) k' := by
  induction cs generalizing g k
  case nil => exact ⟨k, rfl, h⟩
  case cons c cs hi =>
    have ⟨k₁, h₁, hd₁, hf₁⟩ := cgaPutc_displays (n := n) (ht c List.mem_cons_self) hf h
    have ⟨k₂, h₂, hd₂⟩ := hi (fun c hc => ht c <| List.mem_cons_of_mem _ hc) hf₁ hd₁
    refine ⟨k₂, ?_, hd₂⟩
    rw [cgaPuts_cons, h₁]
    exact h₂

theorem Grid.blank_fits : Grid.blank.Fits where
  col         := by decide
  lowest      := rfl
  below _ _ _ := rfl

-- All of the stores are on the screen, where the position also stays. A text which is written to a blank screen is shown
-- as the window of the grid.
theorem cga_putc_window (n : Nat) (k : Crt) (hk : k.OnScreen) :
    (∀ cs, ∃ k', cgaPuts n cs k = .ok k' ∧ k'.OnScreen) ∧
    ((∀ i < crtSize, k.buf i = 0x0720#16) → k.pos = 0#16 → ∀ cs, (∀ c ∈ cs, Text c) →
      ∃ k', cgaPuts n cs k = .ok k' ∧ Displays (cs.foldl Grid.type Grid.blank) k') := by
  refine ⟨fun cs => cgaPuts_onScreen hk, fun hb hp cs ht => ?_⟩
  apply cgaPuts_displays ht Grid.blank_fits
  constructor
  case cells => exact hb
  case pos =>
    rw [hp]
    rfl

def Crt.blank : Crt where
  buf _ := 0x0720#16
  pos   := 0#16

theorem cga_putc_window_blank :
    ∃ k', cgaPuts 0 [0x61#32, 0x09#32, 0x0A#32] Crt.blank = .ok k' ∧
      Displays (((Grid.blank.type 0x61#32).type 0x09#32).type 0x0A#32) k' :=
  (cga_putc_window 0 .blank (Nat.zero_lt_succ 1999)).2 (fun _ _ => rfl) rfl [0x61#32, 0x09#32, 0x0A#32]
    (by simp [Text])

end Jos
