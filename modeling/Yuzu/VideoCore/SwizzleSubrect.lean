/-
  File:      Yuzu/VideoCore/SwizzleSubrect.lean
  Subject:   Rectangles of block-linear textures (`SwizzleSubrect` and `UnswizzleSubrect` of
             video_core/textures/decoders.cpp) against whole textures.
-/
import Yuzu.VideoCore.Swizzle

namespace Yuzu.VideoCore

open List

/-! ## 1. The code -/

/-- The loop over the slices of `SwizzleSubrectImpl`, with the lines that are left. -/
def sliceLoop {β : Type} (extentY : Nat) (copyLine : Nat → Nat → (Nat → β) → Nat → β) :
    Nat → Nat → Nat → (Nat → β) → Nat → β
  | 0, _, _, output => output
  | n + 1, slice, unprocessedLines, output =>
    let linesInY := min unprocessedLines extentY
    let output := (List.range linesInY).foldl (fun output line => copyLine slice line output) output
    if unprocessedLines - linesInY = 0 then output
    else sliceLoop extentY copyLine n (slice + 1) (unprocessedLines - linesInY) output

/-- `SwizzleSubrectImpl<TO_LINEAR, BYTES_PER_PIXEL>`. -/
def swizzleSubrectImpl {β : Type} (toLinear : Bool) (bytesPerPixel : Nat) (output input : Nat → β)
    (width height depth originX originY extentX numLines blockHeight blockDepth pitchLinear : Nat) :
    Nat → β :=
  let pitch := pitchLinear
  let stride := alignUpLog2 (u32 (width * bytesPerPixel)) gobSizeXShift
  let gobsInX := divCeilLog2 stride gobSizeXShift
  let blockSize := u32 (gobsInX <<< (gobSizeShift + blockHeight + blockDepth))
  let sliceSize := u32 (divCeilLog2 height (blockHeight + gobSizeYShift) * blockSize)
  let blockHeightMask := 1 <<< blockHeight - 1
  let blockDepthMask := 1 <<< blockDepth - 1
  let xShift := gobSizeShift + blockHeight + blockDepth
  let extentY := min numLines (u32 (height + 2 ^ 32 - originY))
  sliceLoop extentY (fun slice line output =>
    let z := slice
    let offsetZ := u32 (u32 ((z >>> blockDepth) * sliceSize) +
      u32 ((z &&& blockDepthMask) <<< (gobSizeShift + blockHeight)))
    let y := u32 (line + originY)
    let swizzledY := pdep swizzleYBits (BitVec.ofNat 32 y)
    let blockY := y >>> gobSizeYShift
    let offsetY := u32 (u32 ((blockY >>> blockHeight) * blockSize) +
      u32 ((blockY &&& blockHeightMask) <<< gobSizeShift))
    columnLoop bytesPerPixel (fun column swizzledX output =>
      let x := u32 (u32 (column + originX) * bytesPerPixel)
      let offsetX := u32 ((x >>> gobSizeXShift) <<< xShift)
      let baseSwizzledOffset := u32 (offsetZ + offsetY + offsetX)
      let swizzledOffset := u32 (baseSwizzledOffset + (swizzledX ||| swizzledY).toNat)
      let unswizzledOffset :=
        u32 (u32 (slice * pitch * height) + u32 (line * pitch) + u32 (column * bytesPerPixel))
      copyBytes output input (if toLinear then swizzledOffset else unswizzledOffset)
        (if toLinear then unswizzledOffset else swizzledOffset) bytesPerPixel)
      extentX 0 (pdep swizzleXBits (BitVec.ofNat 32 (u32 (originX * bytesPerPixel)))) output)
    depth 0 numLines output

/-- `SwizzleSubrect` and `UnswizzleSubrect`: the texel sizes that there is code for. -/
def convertSubrect {β : Type} (toLinear : Bool) (output input : Nat → β)
    (bytesPerPixel width height depth originX originY extentX extentY blockHeight blockDepth
      pitchLinear : Nat) : Option (Nat → β) :=
  if bytesPerPixel ∈ [1, 2, 3, 4, 6, 8, 12, 16] then
    some (swizzleSubrectImpl toLinear bytesPerPixel output input width height depth originX originY
      extentX extentY blockHeight blockDepth pitchLinear)
  else none

def swizzleSubrect {β : Type} (output input : Nat → β)
    (bytesPerPixel width height depth originX originY extentX extentY blockHeight blockDepth
      pitchLinear : Nat) : Option (Nat → β) :=
  convertSubrect true output input bytesPerPixel width height depth originX originY extentX extentY
    blockHeight blockDepth pitchLinear

def unswizzleSubrect {β : Type} (output input : Nat → β)
    (bytesPerPixel width height depth originX originY extentX extentY blockHeight blockDepth
      pitchLinear : Nat) : Option (Nat → β) :=
  convertSubrect false output input bytesPerPixel width height depth originX originY extentX extentY
    blockHeight blockDepth pitchLinear

/-! ## 2. The loops as copies -/

section Loops

variable {β : Type} {output input : Nat → β} {toLinear : Bool}
  {gobs rows bh bd bpp width height ox oy ex lines pitch x y : Nat}

theorem incrpdep_texel (hbpp : bpp ∈ [1, 2, 3, 4, 6, 8, 12, 16]) :
    incrpdep swizzleXBits (BitVec.ofNat 32 bpp) (pdep swizzleXBits (BitVec.ofNat 32 x)) =
      pdep swizzleXBits (BitVec.ofNat 32 (x + bpp)) := by
  have hstep : ∀ bpp ∈ [1, 2, 3, 4, 6, 8, 12, 16], ∀ x < 64,
      incrpdep swizzleXBits (BitVec.ofNat 32 bpp) (pdep swizzleXBits (BitVec.ofNat 32 x)) =
        pdep swizzleXBits (BitVec.ofNat 32 (x + bpp)) := by decide +kernel
  rw [pdep_x_mod, hstep bpp hbpp (x % 64) (Nat.mod_lt x (by decide)), pdep_x_mod, Nat.mod_add_mod,
    ← pdep_x_mod]

theorem columnLoop_texels {copy : Nat → BitVec 32 → (Nat → β) → Nat → β} {f : Nat → Nat × Nat}
    (hbpp : bpp ∈ [1, 2, 3, 4, 6, 8, 12, 16]) : ∀ {n column : Nat} {output : Nat → β},
    (∀ c, column ≤ c → c < column + n → ∀ output,
      copy c (pdep swizzleXBits (BitVec.ofNat 32 ((ox + c) * bpp))) output =
        copyBytes output input (f c).1 (f c).2 bpp) →
    columnLoop bpp copy n column (pdep swizzleXBits (BitVec.ofNat 32 ((ox + column) * bpp))) output =
      copyAll input bpp output ((List.range' column n).map f)
  | 0, _, _, _ => rfl
  | n + 1, column, output, hcopy => by
    rw [columnLoop, incrpdep_texel hbpp, ← Nat.succ_mul, range'_succ, map_cons,
      copyAll_cons, hcopy column le_rfl (by omega)]
    exact columnLoop_texels hbpp fun c hle hlt => hcopy c (by omega) (by omega)

/-- The two offsets of a byte of the rectangle, the destination first. -/
def rectCopy (toLinear : Bool) (gobs rows bh bd bpp pitch ox oy x line : Nat) : Nat × Nat :=
  if toLinear then (layoutOffset gobs rows bh bd (ox * bpp + x) (oy + line) 0, line * pitch + x)
  else (line * pitch + x, layoutOffset gobs rows bh bd (ox * bpp + x) (oy + line) 0)

/-- The copies of a rectangle, in the order of the loops. -/
def rectCopies (toLinear : Bool) (gobs rows bh bd bpp pitch ox oy ex lines : Nat) : List (Nat × Nat) :=
  (List.range lines).flatMap fun line => (List.range ex).map fun column =>
    rectCopy toLinear gobs rows bh bd bpp pitch ox oy (column * bpp) line

theorem mem_rectCopies {c : Nat × Nat} : c ∈ rectCopies toLinear gobs rows bh bd bpp pitch ox oy ex lines ↔
      ∃ line < lines, ∃ column < ex,
        rectCopy toLinear gobs rows bh bd bpp pitch ox oy (column * bpp) line = c := by
  simp only [rectCopies, mem_flatMap, mem_map, mem_range]

/-- **A rectangle**: it lies in the texture, the surface of the texture and the linear rectangle
have 32-bit offsets, and the lines of the linear rectangle do not overlap. -/
structure RectFits (bpp width height ox oy ex lines bh bd pitch : Nat) : Prop where
  texel : bpp ∈ [1, 2, 3, 4, 6, 8, 12, 16]
  right : ox + ex ≤ width
  bottom : oy + lines ≤ height
  size : ceilShift 1 bd * (ceilShift height (bh + 3) *
    (ceilShift (width * bpp) 6 * 2 ^ (9 + bh + bd))) < 2 ^ 32
  row : ex * bpp ≤ pitch
  linear : lines * pitch < 2 ^ 32

theorem ceilShift_mul_self {n k : Nat} : ceilShift (n * 2 ^ k) k = n := by
  have hpos := Nat.two_pow_pos k
  have heq : n * 2 ^ k + 2 ^ k - 1 = n * 2 ^ k + (2 ^ k - 1) := by omega
  rw [ceilShift, heq, Nat.add_comm, Nat.add_mul_div_right _ _ hpos,
    Nat.div_eq_of_lt (by omega), Nat.zero_add]

theorem RectFits.fits (h : RectFits bpp width height ox oy ex lines bh bd pitch) :
    Fits (ceilShift (width * bpp) 6) (ceilShift height (bh + 3)) bh bd (width * bpp) height 1
      (ceilShift (width * bpp) 6 * 2 ^ 6) where
  gobs_eq := ceilShift_mul_self.symm
  rows_eq := rfl
  pitch_le := le_ceilShift_mul
  size_lt := h.size

theorem sliceLoop_one {extentY : Nat} {copyLine : Nat → Nat → (Nat → β) → Nat → β}
    (h : lines ≤ extentY) : sliceLoop extentY copyLine 1 0 lines output =
      (List.range lines).foldl (fun output line => copyLine 0 line output) output := by
  rw [sliceLoop, Nat.min_eq_left h, Nat.sub_self]
  exact if_pos rfl

theorem RectFits.texel_pos (h : RectFits bpp width height ox oy ex lines bh bd pitch) : 0 < bpp := by
  have htexel := h.texel
  simp only [mem_cons, not_mem_nil, or_false] at htexel
  omega

theorem RectFits.column_lt {c : Nat} (h : RectFits bpp width height ox oy ex lines bh bd pitch)
    (hc : c < ex) : (ox + c) * bpp + bpp ≤ width * bpp := by
  have hright := h.right
  rw [← Nat.succ_mul]
  exact Nat.mul_le_mul_right bpp (by omega)

theorem RectFits.linear_lt {c line i : Nat}
    (h : RectFits bpp width height ox oy ex lines bh bd pitch) (hc : c < ex) (hl : line < lines)
    (hi : i < bpp) : line * pitch + (c * bpp + i) < lines * pitch ∧ c * bpp + i < pitch := by
  have hrow : c * bpp + i < pitch := by
    have hle : (c + 1) * bpp ≤ ex * bpp := Nat.mul_le_mul_right bpp hc
    have := h.row
    rw [Nat.succ_mul] at hle
    omega
  have hlines : (line + 1) * pitch ≤ lines * pitch := Nat.mul_le_mul_right pitch hl
  rw [Nat.succ_mul] at hlines
  omega

theorem RectFits.height_lt (h : RectFits bpp width height ox oy ex lines bh bd pitch)
    (hw : 0 < width) : height < 2 ^ 32 := by
  have hle := h.fits.linear_le
  have hlt := h.size
  have hrow : height ≤ height * (width * bpp) :=
    Nat.le_mul_of_pos_right _ (Nat.mul_pos hw h.texel_pos)
  omega

/-- Where there is a texel, the stride of the surface is computed as it is. -/
theorem RectFits.stride_eq (h : RectFits bpp width height ox oy ex lines bh bd pitch)
    (hh : 0 < height) : alignUpLog2 (u32 (width * bpp)) gobSizeXShift =
      ceilShift (width * bpp) 6 * 2 ^ 6 := by
  have hf := h.fits
  have hpitch : u32 (width * bpp) = width * bpp := Nat.mod_eq_of_lt (hf.pitch_lt hh (by decide))
  have hsum : width * bpp + (2 ^ 6 - 1) = width * bpp + 2 ^ 6 - 1 := by omega
  have hlt : ceilShift (width * bpp) 6 * 2 ^ 6 < 2 ^ 32 := by
    refine lt_of_le_of_lt ?_ hf.size_lt
    have hrows : 0 < ceilShift height (bh + 3) :=
      lt_of_le_of_lt (Nat.zero_le _) (div_lt_ceilShift hh)
    have hlayers : 0 < ceilShift 1 bd := lt_of_le_of_lt (Nat.zero_le _) (div_lt_ceilShift one_pos)
    calc ceilShift (width * bpp) 6 * 2 ^ 6 ≤ ceilShift (width * bpp) 6 * 2 ^ (9 + bh + bd) :=
          Nat.mul_le_mul_left _ (Nat.pow_le_pow_right (by decide) (by omega))
      _ ≤ ceilShift height (bh + 3) * (ceilShift (width * bpp) 6 * 2 ^ (9 + bh + bd)) :=
          Nat.le_mul_of_pos_left _ hrows
      _ ≤ _ := Nat.le_mul_of_pos_left _ hlayers
  rw [hpitch, alignUpLog2, gobSizeXShift, Nat.one_shiftLeft, Nat.mod_eq_of_lt
    (by have := hf.pitch_lt hh (by decide); omega), Nat.shiftRight_eq_div_pow, Nat.shiftLeft_eq,
    hsum]
  exact Nat.mod_eq_of_lt hlt

/-- **`SwizzleSubrectImpl` is the run of copies** of the texels of the rectangle. -/
theorem swizzleSubrectImpl_eq (toLinear : Bool) (h : RectFits bpp width height ox oy ex lines bh bd pitch) :
    swizzleSubrectImpl toLinear bpp output input width height 1 ox oy ex lines bh bd pitch =
      copyAll input bpp output (rectCopies toLinear (ceilShift (width * bpp) 6)
        (ceilShift height (bh + 3)) bh bd bpp pitch ox oy ex lines) := by
  have hf := h.fits
  have hbpp := h.texel_pos
  have hright := h.right
  have hbottom := h.bottom
  rw [swizzleSubrectImpl, rectCopies, copyAll_flatMap]
  rcases Nat.eq_zero_or_pos lines with rfl | hlines
  · rw [sliceLoop_one (Nat.zero_le _)]
    rfl
  rcases Nat.eq_zero_or_pos ex with rfl | hex
  · have hconst : ∀ n out, (List.range n).foldl (fun (out : Nat → β) _ => out) out = out :=
      fun n _ => foldl_fixed (List.range n)
    simp only [columnLoop, sliceLoop, hconst, ite_self, range_zero, map_nil, copyAll_nil]
  have hpitch : width * bpp < 2 ^ 32 := hf.pitch_lt (by omega) (by decide)
  have hwidth : width ≤ width * bpp := Nat.le_mul_of_pos_right _ hbpp
  have hheight := h.height_lt (by omega)
  have hstride := h.stride_eq (by omega)
  have hextent : min lines (u32 (height + 2 ^ 32 - oy)) = lines := by
    rw [u32]
    omega
  obtain ⟨hg, hb, hs⟩ := hf.sizes (by omega) (by omega) (by decide)
  rw [hextent, sliceLoop_one le_rfl, hstride, hg, hb, hs]
  refine foldl_ext _ _ _ fun out line hl => ?_
  rw [mem_range] at hl
  have horigin : u32 (ox * bpp) = (ox + 0) * bpp :=
    Nat.mod_eq_of_lt (lt_of_le_of_lt (Nat.mul_le_mul_right bpp (by omega)) hpitch)
  have hy : u32 (line + oy) = oy + line := by
    rw [u32]
    omega
  dsimp only
  rw [horigin, hy, range_eq_range', columnLoop_texels h.texel]
  intro c _ hc out
  have hcolumn : u32 (c + ox) = ox + c := by
    rw [u32]
    omega
  have hx := h.column_lt (by omega : c < ex)
  have hlinear : u32 (u32 (0 * pitch * height) + u32 (line * pitch) + u32 (c * bpp)) =
      line * pitch + c * bpp := by
    have hlt := (h.linear_lt (by omega : c < ex) hl hbpp).1
    have hlines := h.linear
    rw [Nat.zero_mul, Nat.zero_mul]
    unfold u32
    omega
  rw [hcolumn, hf.swizzled_eq (by omega) (by omega) (by decide), hlinear, rectCopy, Nat.add_mul]
  cases toLinear <;> rfl

/-! ## 3. Texels inside a sector and across two -/

theorem layoutOffset_mod {z : Nat} : layoutOffset gobs rows bh bd x y z % 32 = y % 2 * 16 + x % 16 := by
  rw [layoutOffset_radix]
  generalize y / 8 % 2 ^ bh + 2 ^ bh * (z % 2 ^ bd + 2 ^ bd * (x / 64 +
    gobs * (y / 8 / 2 ^ bh + rows * (z / 2 ^ bd)))) = high
  unfold makeSwizzleTable
  omega

theorem layoutOffset_sector {z i n : Nat} (hx : x % 16 + n ≤ 16) (hi : i < n) :
    layoutOffset gobs rows bh bd (x + i) y z = layoutOffset gobs rows bh bd x y z + i := by
  have h64 : (x + i) / 64 = x / 64 := by omega
  have htable : makeSwizzleTable y (x + i) = makeSwizzleTable y x + i := by
    unfold makeSwizzleTable
    omega
  rw [layoutOffset, layoutOffset, h64, htable]
  omega

theorem layoutOffset_straddle {z n : Nat} (hx : 16 < x % 16 + n) :
    16 - x % 16 < n ∧ layoutOffset gobs rows bh bd (x + (16 - x % 16)) y z ≠
      layoutOffset gobs rows bh bd x y z + (16 - x % 16) := by
  have hmod := @layoutOffset_mod gobs rows bh bd x y z
  have hmod' := @layoutOffset_mod gobs rows bh bd (x + (16 - x % 16)) y z
  constructor
  · omega
  · intro heq
    rw [heq] at hmod'
    omega

/-- **The texels of the rectangle lie in one sector of 16 bytes each.** -/
def InSectors (bpp ox ex : Nat) : Prop := ∀ column < ex, (ox * bpp + column * bpp) % 16 + bpp ≤ 16

theorem inSectors_of_dvd (hdvd : bpp ∣ 16) : InSectors bpp ox ex := by
  intro column _
  obtain ⟨m, hm⟩ := hdvd
  have hm0 : 0 < m := Nat.pos_of_ne_zero fun h0 => by
    rw [h0, Nat.mul_zero] at hm
    exact absurd hm (by decide)
  rw [← Nat.add_mul, hm, Nat.mul_comm _ bpp, Nat.mul_mod_mul_left, ← Nat.mul_succ]
  exact Nat.mul_le_mul_left bpp (Nat.mod_lt _ hm0)

/-! ## 4. What the copies of a rectangle do -/

theorem rectCopy_add {line i : Nat} (hx : (ox * bpp + x) % 16 + bpp ≤ 16) (hi : i < bpp) :
    rectCopy toLinear gobs rows bh bd bpp pitch ox oy (x + i) line =
      ((rectCopy toLinear gobs rows bh bd bpp pitch ox oy x line).1 + i,
        (rectCopy toLinear gobs rows bh bd bpp pitch ox oy x line).2 + i) := by
  cases toLinear <;> simp [rectCopy, ← Nat.add_assoc, layoutOffset_sector hx hi]

theorem row_byte (hbpp : 0 < bpp) (hx : x < ex * bpp) :
    x / bpp < ex ∧ x % bpp < bpp ∧ x / bpp * bpp + x % bpp = x :=
  ⟨(Nat.div_lt_iff_lt_mul hbpp).mpr hx, Nat.mod_lt x hbpp, by
    rw [Nat.mul_comm]
    exact Nat.div_add_mod x bpp⟩

theorem rect_covered {c : Nat × Nat} {j : Nat} (hin : InSectors bpp ox ex)
    (hc : c ∈ rectCopies toLinear gobs rows bh bd bpp pitch ox oy ex lines) (hle : c.1 ≤ j)
    (hlt : j < c.1 + bpp) : ∃ line < lines, ∃ x < ex * bpp,
      rectCopy toLinear gobs rows bh bd bpp pitch ox oy x line = (j, c.2 + (j - c.1)) := by
  obtain ⟨line, hline, column, hcolumn, hcopy⟩ := mem_rectCopies.mp hc
  have hi : j - c.1 < bpp := by omega
  refine ⟨line, hline, column * bpp + (j - c.1), ?_, ?_⟩
  · have hnext : (column + 1) * bpp ≤ ex * bpp := Nat.mul_le_mul_right bpp hcolumn
    rw [Nat.succ_mul] at hnext
    omega
  · rw [rectCopy_add (hin column hcolumn) hi, hcopy, Nat.add_sub_cancel' hle]

/-- The bytes of the rectangle have distinct places on either side. -/
theorem RectFits.rectCopy_inj {x' line line' : Nat}
    (h : RectFits bpp width height ox oy ex lines bh bd pitch) (hx : x < ex * bpp)
    (hx' : x' < ex * bpp) (hl : line < lines) (hl' : line' < lines)
    (heq : (rectCopy toLinear (ceilShift (width * bpp) 6) (ceilShift height (bh + 3)) bh bd bpp
        pitch ox oy x line).1 =
      (rectCopy toLinear (ceilShift (width * bpp) 6) (ceilShift height (bh + 3)) bh bd bpp
        pitch ox oy x' line').1) : x = x' ∧ line = line' := by
  have hf := h.fits
  have hbottom := h.bottom
  have hrow := h.row
  have hright : ox * bpp + ex * bpp ≤ width * bpp := by
    rw [← Nat.add_mul]
    exact Nat.mul_le_mul_right bpp h.right
  cases toLinear with
  | true =>
    obtain ⟨hxx, hyy, -⟩ := layoutOffset_inj (hf.x_lt (by omega)) (hf.x_lt (by omega))
      (hf.y_lt (by omega)) (hf.y_lt (by omega)) heq
    omega
  | false =>
    have heq : line * pitch + x = line' * pitch + x' := heq
    rw [Nat.add_comm, Nat.mul_comm, Nat.add_comm (line' * pitch), Nat.mul_comm line'] at heq
    exact radix_inj (by omega) (by omega) heq

/-- **Every byte of the rectangle is copied to its place**, where the texels lie in sectors. -/
theorem RectFits.copyAll_inside {line : Nat}
    (h : RectFits bpp width height ox oy ex lines bh bd pitch) (hin : InSectors bpp ox ex)
    (hx : x < ex * bpp) (hl : line < lines) :
    copyAll input bpp output (rectCopies toLinear (ceilShift (width * bpp) 6)
        (ceilShift height (bh + 3)) bh bd bpp pitch ox oy ex lines)
      (rectCopy toLinear (ceilShift (width * bpp) 6) (ceilShift height (bh + 3)) bh bd bpp pitch
        ox oy x line).1 =
    input (rectCopy toLinear (ceilShift (width * bpp) 6) (ceilShift height (bh + 3)) bh bd bpp pitch
        ox oy x line).2 := by
  refine Yuzu.copyAll_inside (fun c hc hle hlt => ?_) ?_
  · obtain ⟨line', hl', x', hx', heq⟩ := rect_covered hin hc hle hlt
    have hfst : (rectCopy toLinear (ceilShift (width * bpp) 6) (ceilShift height (bh + 3)) bh bd
          bpp pitch ox oy x' line').1 = (rectCopy toLinear (ceilShift (width * bpp) 6)
          (ceilShift height (bh + 3)) bh bd bpp pitch ox oy x line).1 := by rw [heq]
    obtain ⟨rfl, rfl⟩ := h.rectCopy_inj hx' hx hl' hl hfst
    exact congrArg input (congrArg Prod.snd heq).symm
  · obtain ⟨hcolumn, hi, hsplit⟩ := row_byte h.texel_pos hx
    refine ⟨_, mem_rectCopies.mpr ⟨line, hl, x / bpp, hcolumn, rfl⟩, ?_⟩
    have hadd := @rectCopy_add toLinear (ceilShift (width * bpp) 6) (ceilShift height (bh + 3)) bh
      bd bpp ox oy pitch _ line _ (hin (x / bpp) hcolumn) hi
    rw [hsplit] at hadd
    rw [hadd]
    dsimp only
    omega

theorem rect_outside {j : Nat} (hin : InSectors bpp ox ex) (hj : ∀ line < lines, ∀ x < ex * bpp,
      (rectCopy toLinear gobs rows bh bd bpp pitch ox oy x line).1 ≠ j) :
    copyAll input bpp output (rectCopies toLinear gobs rows bh bd bpp pitch ox oy ex lines) j =
      output j := by
  refine copyAll_outside fun c hc hcov => ?_
  obtain ⟨line, hl, x, hx, heq⟩ := rect_covered hin hc hcov.1 hcov.2
  exact hj line hl x hx (congrArg Prod.fst heq)

/-- **A texel across two sectors is torn**: the swizzled surface does not hold the first byte of
its second sector at the offset of that byte. -/
theorem RectFits.torn {column : Nat} {marked : Nat → β} {unmarked : β}
    (h : RectFits bpp width height ox oy ex lines bh bd pitch) (hlines : 0 < lines)
    (hc : column < ex) (hx : x = ox * bpp + column * bpp) (hstraddle : 16 < x % 16 + bpp)
    (hmarked : ∀ k, k ≠ column * bpp + (16 - x % 16) → marked k = unmarked)
    (houtput : ∀ k, output k = unmarked) :
    copyAll marked bpp output (rectCopies true (ceilShift (width * bpp) 6)
        (ceilShift height (bh + 3)) bh bd bpp pitch ox oy ex lines)
      (layoutOffset (ceilShift (width * bpp) 6) (ceilShift height (bh + 3)) bh bd
        (x + (16 - x % 16)) oy 0) = unmarked := by
  obtain ⟨hi, hne⟩ := @layoutOffset_straddle (ceilShift (width * bpp) 6)
    (ceilShift height (bh + 3)) bh bd x oy 0 _ hstraddle
  generalize layoutOffset (ceilShift (width * bpp) 6) (ceilShift height (bh + 3)) bh bd
    (x + (16 - x % 16)) oy 0 = j at hne ⊢
  by_cases hcov : ∃ c ∈ rectCopies true (ceilShift (width * bpp) 6) (ceilShift height (bh + 3)) bh
      bd bpp pitch ox oy ex lines, c.1 ≤ j ∧ j < c.1 + bpp
  · refine Yuzu.copyAll_inside (fun c hc' hle hlt => hmarked _ fun heq => ?_) hcov
    obtain ⟨line, hl, column', hcolumn', rfl⟩ := mem_rectCopies.mp hc'
    -- only the copy of the torn texel reads the marked byte, and it writes elsewhere
    simp only [rectCopy, if_true] at hle hlt heq
    have hrow := (h.linear_lt hc hlines hi).2
    have hbyte : j - layoutOffset (ceilShift (width * bpp) 6) (ceilShift height (bh + 3)) bh bd
        (ox * bpp + column' * bpp) (oy + line) 0 < bpp := by omega
    rw [Nat.add_assoc, Nat.add_comm, Nat.mul_comm line] at heq
    obtain ⟨hsum, rfl⟩ := @radix_inj _ _ _ 0 _ (h.linear_lt hcolumn' hl hbyte).2 hrow
      (by rw [heq, Nat.mul_zero, Nat.add_zero])
    have hcolumns : j - layoutOffset (ceilShift (width * bpp) 6) (ceilShift height (bh + 3)) bh bd
        (ox * bpp + column' * bpp) (oy + 0) 0 + bpp * column' = 16 - x % 16 + bpp * column := by
      rw [Nat.mul_comm bpp column', Nat.mul_comm bpp column]
      omega
    obtain ⟨hi', rfl⟩ := radix_inj hbyte hi hcolumns
    rw [← hx, Nat.add_zero oy] at hi' hle
    omega
  · rw [copyAll_outside fun c hc' hin => hcov ⟨c, hc', hin⟩, houtput]

/-! ## 5. Rectangles against whole textures -/

variable {sa : Nat} {whole : Nat → Option Nat}

/-- **Which byte of the linear texture `SwizzleTexture` puts at an offset of the surface**, where
the rows of the surface are padded to whole GOBs and no more. -/
theorem RectFits.whole_iff (h : RectFits bpp width height ox oy ex lines bh bd pitch)
    (hw : 1 ≤ width) (hh : 1 ≤ height)
    (hgobs : surfaceGobs bpp width sa = ceilShift (width * bpp) 6)
    (hwhole : swizzleTexture (fun _ => none) some bpp width height 1 bh bd sa = some whole) {j : Nat}
    (hx : x < width * bpp) (hy : y < height) :
    whole j = some (linearOffset (width * bpp) height x y 0) ↔
      j = layoutOffset (ceilShift (width * bpp) 6) (ceilShift height (bh + 3)) bh bd x y 0 := by
  have hsize : surfaceSize bpp width height 1 bh bd sa < 2 ^ 32 := by
    rw [surfaceSize, hgobs]
    exact h.size
  obtain ⟨k, w, hk, hrow, hf, hconvert⟩ :=
    convertTexture_eq true (fun _ => none) some hw hh one_pos hsize
  obtain rfl := Option.some.inj (hconvert.symm.trans hwhole)
  have hplace : ∀ x < width * bpp, ∀ y < height, ∀ z < 1, copyAll some (2 ^ k) (fun _ => none)
      (textureCopies true (surfaceGobs bpp width sa) (surfaceRows height bh) bh bd (2 ^ k) w height 1)
      (layoutOffset (surfaceGobs bpp width sa) (surfaceRows height bh) bh bd x y z) =
        some (linearOffset (width * bpp) height x y z) := by
    intro x hx y hy z hz
    rw [← hrow] at hx ⊢
    exact @Fits.copyAll_inside _ _ _ _ _ _ _ _ _ _ _ _ _ _ _ true hf hk hx hy hz
  rw [← hgobs]
  refine ⟨fun hj => ?_, fun hj => hj ▸ hplace x hx y hy 0 one_pos⟩
  by_contra hne
  by_cases hin : ∃ x' < w * 2 ^ k, ∃ y' < height, ∃ z' < 1, (texelCopy true
      (surfaceGobs bpp width sa) (surfaceRows height bh) bh bd (w * 2 ^ k) height x' y' z').1 = j
  · obtain ⟨x', hx', y', hy', z', hz', rfl⟩ := hin
    have hother := (hplace x' (hrow ▸ hx') y' hy' z' hz').symm.trans hj
    obtain ⟨rfl, rfl, rfl⟩ := linearOffset_inj (hrow ▸ hx') hx hy' hy (Option.some.inj hother)
    exact hne rfl
  · rw [@copyAll_outside_texture _ _ _ _ _ _ _ _ _ _ _ true _ hk fun x hx y hy z hz heq =>
      hin ⟨x, hx, y, hy, z, hz, heq⟩] at hj
    exact absurd hj (by simp)

end Loops

/-- **A rectangle agrees with its texture.** `whole` says which byte of the linear texture
`SwizzleTexture` puts at an offset. `SwizzleSubrect` puts every byte of the rectangle there and
writes nothing else, and `UnswizzleSubrect` brings the rectangle back. -/
def SubrectAgrees (bpp width height ox oy ex lines bh bd sa pitch : Nat) : Prop :=
  ∃ whole, swizzleTexture (fun _ => none) some bpp width height 1 bh bd sa = some whole ∧
    ∀ surface input linear : Nat → UInt8, ∃ swizzled unswizzled,
      swizzleSubrect surface input bpp width height 1 ox oy ex lines bh bd pitch = some swizzled ∧
      unswizzleSubrect linear swizzled bpp width height 1 ox oy ex lines bh bd pitch = some unswizzled ∧
      (∀ y < lines, ∀ x < ex * bpp, ∀ j,
        whole j = some (linearOffset (width * bpp) height (ox * bpp + x) (oy + y) 0) →
          swizzled j = input (y * pitch + x)) ∧
      (∀ j, (∀ y < lines, ∀ x < ex * bpp,
        whole j ≠ some (linearOffset (width * bpp) height (ox * bpp + x) (oy + y) 0)) →
          swizzled j = surface j) ∧
      ∀ y < lines, ∀ x < ex * bpp, unswizzled (y * pitch + x) = input (y * pitch + x)

section Agrees

variable {bpp width height ox oy ex lines bh bd sa pitch : Nat}

theorem RectFits.convertSubrect_eq {β : Type} {toLinear : Bool} {output input : Nat → β}
    (h : RectFits bpp width height ox oy ex lines bh bd pitch) :
    convertSubrect toLinear output input bpp width height 1 ox oy ex lines bh bd pitch =
      some (copyAll input bpp output (rectCopies toLinear (ceilShift (width * bpp) 6)
        (ceilShift height (bh + 3)) bh bd bpp pitch ox oy ex lines)) := by
  rw [convertSubrect, if_pos h.texel, swizzleSubrectImpl_eq toLinear h]

theorem RectFits.byte_lt {x : Nat} (h : RectFits bpp width height ox oy ex lines bh bd pitch)
    (hx : x < ex * bpp) : ox * bpp + x < width * bpp := by
  have hle := Nat.mul_le_mul_right bpp h.right
  rw [Nat.add_mul] at hle
  omega

/-- Only rectangles whose texels lie in sectors agree. -/
theorem SubrectAgrees.inSectors (hagrees : SubrectAgrees bpp width height ox oy ex lines bh bd sa pitch)
    (hw : 1 ≤ width) (hh : 1 ≤ height) (h : RectFits bpp width height ox oy ex lines bh bd pitch)
    (hgobs : surfaceGobs bpp width sa = ceilShift (width * bpp) 6) (hlines : 0 < lines) :
    InSectors bpp ox ex := by
  obtain ⟨whole, hwhole, hbytes⟩ := hagrees
  intro column hc
  by_contra hstraddle
  have hbottom := h.bottom
  have hi := (@layoutOffset_straddle 0 0 0 0 (ox * bpp + column * bpp) 0 0 bpp (by omega)).1
  have hx : column * bpp + (16 - (ox * bpp + column * bpp) % 16) < ex * bpp := by
    have hle := Nat.mul_le_mul_right bpp hc
    rw [Nat.succ_mul] at hle
    omega
  -- the first byte of the next sector is marked in the linear rectangle
  obtain ⟨swizzled, _, hswizzled, -, hplace, -⟩ := hbytes (fun _ => 0)
    (fun k => if k = column * bpp + (16 - (ox * bpp + column * bpp) % 16) then 1 else 0)
    (fun _ => 0)
  rw [swizzleSubrect, h.convertSubrect_eq] at hswizzled
  obtain rfl := Option.some.inj hswizzled
  have hone := hplace 0 hlines _ hx _ ((h.whole_iff hw hh hgobs hwhole (h.byte_lt hx) (by omega)).mpr rfl)
  rw [Nat.zero_mul, Nat.zero_add, if_pos rfl, ← Nat.add_assoc, Nat.add_zero oy,
    h.torn hlines hc rfl (by omega) (fun k hk => if_neg hk) fun _ => rfl] at hone
  exact absurd hone (by decide)

end Agrees

/-- **A rectangle agrees with its texture** exactly where it is empty or each of its texels lies
in one sector of 16 bytes. -/
theorem subrect_agrees_iff (bpp width height ox oy ex lines bh bd sa pitch : Nat)
    (hw : 1 ≤ width) (hh : 1 ≤ height) (h : RectFits bpp width height ox oy ex lines bh bd pitch)
    (hgobs : surfaceGobs bpp width sa = ceilShift (width * bpp) 6) :
    SubrectAgrees bpp width height ox oy ex lines bh bd sa pitch ↔
      lines = 0 ∨ ∀ column < ex, (ox * bpp + column * bpp) % 16 + bpp ≤ 16 := by
  have hbottom := h.bottom
  constructor
  · intro hagrees
    rcases Nat.eq_zero_or_pos lines with hzero | hlines
    · exact Or.inl hzero
    · exact Or.inr (hagrees.inSectors hw hh h hgobs hlines)
  · intro hcase
    have hsize : surfaceSize bpp width height 1 bh bd sa < 2 ^ 32 := by
      rw [surfaceSize, hgobs]
      exact h.size
    obtain ⟨_, _, -, -, -, hwhole⟩ := convertTexture_eq true (fun _ => none) some hw hh one_pos hsize
    refine ⟨_, hwhole, fun surface input linear =>
      ⟨_, _, h.convertSubrect_eq, h.convertSubrect_eq, ?_, ?_, ?_⟩⟩
    · intro y hy x hx j hj
      obtain rfl := (h.whole_iff hw hh hgobs hwhole (h.byte_lt hx) (by omega)).mp hj
      have hin : InSectors bpp ox ex := hcase.resolve_left (by omega)
      exact @RectFits.copyAll_inside _ _ _ true _ _ _ _ _ _ _ _ _ _ _ _ h hin hx hy
    · intro j hj
      rcases hcase with rfl | hin
      · rfl
      · refine rect_outside hin fun y hy x hx heq => hj y hy x hx ?_
        exact (h.whole_iff hw hh hgobs hwhole (h.byte_lt hx) (by omega)).mpr heq.symm
    · intro y hy x hx
      have hin : InSectors bpp ox ex := hcase.resolve_left (by omega)
      exact (@RectFits.copyAll_inside _ _ _ false _ _ _ _ _ _ _ _ _ _ _ _ h hin hx hy).trans
        (@RectFits.copyAll_inside _ _ _ true _ _ _ _ _ _ _ _ _ _ _ _ h hin hx hy)

/-- Texels of 4 bytes agree. -/
theorem subrect_agrees_words : SubrectAgrees 4 20 9 3 2 5 6 0 0 0 64 :=
  (subrect_agrees_iff 4 20 9 3 2 5 6 0 0 0 64 (by decide) (by decide)
    ⟨by decide, by decide, by decide, by decide, by decide, by decide⟩ (by decide)).mpr
    (Or.inr (inSectors_of_dvd (by decide)))

/-- Two texels of 12 bytes: the second lies across two sectors. -/
theorem subrect_torn_texel : ¬ SubrectAgrees 12 2 1 0 0 2 1 0 0 0 24 := fun hagrees =>
  absurd (hagrees.inSectors (by decide) (by decide)
    ⟨by decide, by decide, by decide, by decide, by decide, by decide⟩ (by decide) (by decide)
    1 (by decide)) (by decide)

end Yuzu.VideoCore
