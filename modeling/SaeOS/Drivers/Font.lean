import Mathlib.Tactic.Common

/-!
# The console's font

`drivers/font.rs`. A glyph is a number of sixteen bytes, one for each row from the top, where the leftmost
pixel is the highest bit. Only the glyphs of `!` to `~` have pixels.
-/

namespace SaeOS.Gop

def fontWidth : ℕ := 8
def fontHeight : ℕ := 16

/-- The part of `FONT_8X16` that is not blank. -/
def printableGlyphs : List ℕ := [
  0x00000020202020200000200000000000, 0x00000030303000000000000000000000,
  0x0000001418183c283c28300000000000, 0x0000081c2a2a380c0a2a1c0800000000,
  0x000000392a2a3c070a12130000000000, 0x0000001c20221f2222221e0000000000,
  0x00000020202000000000000000000000, 0x00000010202020202020101000000000,
  0x00000080404040404040808000000000, 0x000000000000082a1c14000000000000,
  0x000000000008083e0808000000000000, 0x00000000000000000000408000000000,
  0x00000000000000600000000000000000, 0x00000000000000000000200000000000,
  0x00000020204040408080808000000000, 0x0000001c3622222222361c0000000000,
  0x00000018280808080808080000000000, 0x000000182404040810207c0000000000,
  0x00000038440418044444380000000000, 0x000000040c1414247e04040000000000,
  0x0000003c404058640444380000000000, 0x0000001c12223c2222221c0000000000,
  0x0000007c040808101020200000000000, 0x0000001c22221c2222221c0000000000,
  0x0000001c2222221e22241c0000000000, 0x00000000002000000000200000000000,
  0x00000000002000000000204000000000, 0x0000000000000c302018040000000000,
  0x0000000000003c003c00000000000000, 0x000000000000300c0418200000000000,
  0x00000018242404080800080000000000, 0x00000007181729292a2d100f00000000,
  0x000000081814243c2222420000000000, 0x0000003c2222243e22223c0000000000,
  0x0000000e1121202021111e0000000000, 0x0000003c2221212121223c0000000000,
  0x0000003e2020203c20203e0000000000, 0x0000003e2020203c2020200000000000,
  0x0000000e1321202721131d0000000000, 0x000000212121213f2121210000000000,
  0x00000020202020202020200000000000, 0x00000004040404042424180000000000,
  0x00000022242828382824220000000000, 0x000000202020202020203e0000000000,
  0x0000003131312a2a2a2c240000000000, 0x0000003232322a2a2a26260000000000,
  0x0000000e1120202020110e0000000000, 0x0000003c2222223c2020200000000000,
  0x0000000e1120202020110f0000000000, 0x0000003c2222223c2622220000000000,
  0x0000001c2220100e02221c0000000000, 0x0000003e080808080808080000000000,
  0x000000222222222222221c0000000000, 0x00000042222224141418080000000000,
  0x0000004626262a2a2919110000000000, 0x00000022241418181424220000000000,
  0x00000022221414080808080000000000, 0x0000003e0204080810203e0000000000,
  0x00003020202020202020203000000000, 0x00000080808040404040202000000000,
  0x0000c04040404040404040c000000000, 0x00000000001828282400000000000000,
  0x00000000000000000000007c00000000, 0x00000000200000000000000000000000,
  0x00000000001c240c34243c0000000000, 0x00000020203c222222223c0000000000,
  0x00000000001c222020221c0000000000, 0x00000002021e222222221e0000000000,
  0x00000000001c223e20221c0000000000, 0x00001020207020202020200000000000,
  0x00000000001e222222221e221c000000, 0x00000020203c32222222220000000000,
  0x00000020002020202020200000000000, 0x00000020002020202020202060000000,
  0x00000020202428302828240000000000, 0x00000020202020202020300000000000,
  0x00000000003b24242424240000000000, 0x00000000003c32222222220000000000,
  0x00000000001c222222221c0000000000, 0x00000000003c222222223c2020000000,
  0x00000000001e222222221e0202000000, 0x00000000003820202020200000000000,
  0x00000000003824300c243c0000000000, 0x00000020207020202020300000000000,
  0x000000000022222222261e0000000000, 0x00000000004444282828100000000000,
  0x00000000004c4d2d3533120000000000, 0x00000000009050206050900000000000,
  0x00000000004444282828101020000000, 0x00000000003c040810203c0000000000,
  0x00003020202020202020203000000000, 0x00002020202020202020202020000000,
  0x00006020202020202020206000000000, 0x00000000000000342c00000000000000]

/-- `FONT_8X16`. -/
def font8x16 (c : ℕ) : ℕ :=
  if c < 0x21 then 0 else printableGlyphs.getD (c - 0x21) 0

/-- A row of a glyph. -/
def glyphRow (c dy : ℕ) : UInt8 :=
  UInt8.ofNat (font8x16 c >>> (8 * (fontHeight - 1 - dy)))

/-- The space has no pixels. -/
theorem glyphRow_space (dy : ℕ) : glyphRow 0x20 dy = 0 := by
  have hblank : font8x16 0x20 = 0 := by decide
  rw [glyphRow, hblank, Nat.zero_shiftRight]
  rfl

/-- Of the printable characters only the opening bracket and the opening brace look the same. -/
theorem font8x16_eq_iff {c c' : ℕ} (hc : 0x20 ≤ c ∧ c ≤ 0x7e) (hc' : 0x20 ≤ c' ∧ c' ≤ 0x7e) :
    font8x16 c = font8x16 c' ↔ c = c' ∨ c = 0x5b ∧ c' = 0x7b ∨ c = 0x7b ∧ c' = 0x5b := by
  -- the first place of each glyph in the table
  have hplace : ∀ i < 95, (0 :: printableGlyphs).idxOf (font8x16 (0x20 + i)) =
      if i = 0x5b then 0x3b else i := by
    decide +kernel
  have hshared : font8x16 0x5b = font8x16 0x7b := by decide +kernel
  constructor
  · intro heq
    obtain ⟨i, rfl⟩ := Nat.exists_eq_add_of_le hc.1
    obtain ⟨j, rfl⟩ := Nat.exists_eq_add_of_le hc'.1
    have hi := hplace i (by omega)
    rw [heq, hplace j (by omega)] at hi
    split_ifs at hi <;> omega
  · rintro (rfl | ⟨rfl, rfl⟩ | ⟨rfl, rfl⟩)
    · rfl
    · exact hshared
    · exact hshared.symm

end SaeOS.Gop
