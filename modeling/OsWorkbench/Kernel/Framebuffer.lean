import OsWorkbench.Kernel.ScreenRefines

/-!
# `video.c`

The textures of the font, the sprites that `tty_render` sends for a cell, and what the video
controller makes of them. The pixels of the screen are one array, line by line.
-/

namespace OsWorkbench.Kernel

def textureW : Nat := 8

def textureH : Nat := 8

/-- The pixels that `texture_fill` stores; `bits` are the bytes of a character of the font. -/
def textureFill (top : Bool) (bits : Nat → UInt8) (fg bg index : Nat) : Nat :=
  let y := index / textureW
  let x := index % textureW
  let bitmask := if top then bits (y + textureH) else bits y
  if (bitmask.toNat >>> (7 - x)) &&& 1 ≠ 0 then fg else bg

/-- `fb_t`, with the pixels of the video memory. -/
structure Framebuffer where
  width : Nat
  height : Nat
  current : Nat
  textures : Nat → Nat → Nat
  pixels : Nat → Nat

/-- The character that `tty_render` draws for a cell, a block at the cursor. -/
def drawnChar (tty : TtyScreen) (place : Nat) : UInt8 :=
  if place = tty.cursor then 0xdb else (tty.buf place).ch

section Purpose

/-- The bit of a character of the font, by the column and the line in its cell. -/
def glyphBit (font : Nat → UInt8) (ch : UInt8) (x y : Nat) : Bool :=
  (((font (16 * ch.toNat + y)).toNat >>> (7 - x)) &&& 1) ≠ 0

/-- The colour of a pixel of a screen of text. -/
def pictureAt (font : Nat → UInt8) (tty : TtyScreen) (px py : Nat) : Nat :=
  let place := py / 16 * tty.columns + px / 8
  let cell := tty.buf place
  (if glyphBit font (drawnChar tty place) (px % 8) (py % 16) then cell.fg else cell.bg) % 0x1000000

end Purpose

section Video

variable {width height x y w h px py : Nat} {source : Nat → Nat}

end Video

section Font

variable {font : Nat → UInt8} {fg bg : Nat}

/-- The framebuffer holds the font. -/
def Lettered (font : Nat → UInt8) (fb : Framebuffer) : Prop :=
  ∀ ch : UInt8,
    fb.textures (ch.toNat * 2 + 1) =
        textureFill false (fun index => font (16 * ch.toNat + index)) defaultFg defaultBg ∧
      fb.textures (ch.toNat * 2 + 2) =
        textureFill true (fun index => font (16 * ch.toNat + index)) defaultFg defaultBg

end Font

section Cell

variable {font : Nat → UInt8} {tty : TtyScreen} {fb : Framebuffer} {display x y : Nat}

/-- A terminal whose text fits on the screen. -/
structure Fitting (tty : TtyScreen) (display : Nat) (fb : Framebuffer) : Prop where
  columns : tty.columns * 8 ≤ fb.width
  lines : tty.lines * 16 ≤ fb.height
  narrow : fb.width ≤ 0x10000
  flat : fb.height ≤ 0x10000
  size : tty.size = tty.columns * tty.lines
  display : display < 16
  dirty : ∀ place < tty.size, tty.dirty place = 1

/-- The pixel is in the cell. -/
def inCell (x y px py : Nat) : Prop := px / 8 = x ∧ py / 16 = y

instance (x y px py : Nat) : Decidable (inCell x y px py) :=
  inferInstanceAs (Decidable (_ ∧ _))

end Cell

end OsWorkbench.Kernel
