/-
  File:      Yuzu/VideoCore/Swizzle.lean
  Subject:   Block-linear textures (video_core/textures/decoders.h, decoders.cpp).

  A linear texture is cut into blocks of GOBs of 64 by 8 bytes; inside a GOB the bits of the
  coordinates are interleaved. The code keeps the interleaved x by a masked addition and copies
  whole texels. 32-bit arithmetic is written out with `u32`.

  * `pdep_or_eq`, `incrpdep_eq` -- the interleaving is the table of `MakeSwizzleTable`;
  * `layoutOffset_inj`, `layoutOffset_lt` -- the block layout is a mixed radix system;
  * `swizzleImpl_eq` -- the loops are a run of copies between linear and swizzled offsets;
  * `swizzle_round_trip` -- swizzling places every byte, and unswizzling brings it back.
-/
import Mathlib.Data.BitVec
import Mathlib.Data.List.Range
import Yuzu.Lib.Copies
import Yuzu.Lib.Word

namespace Yuzu.VideoCore

open List BitVec

/-! ## 1. The code -/

/-- The value of a 32-bit unsigned expression. -/
def u32 (n : Nat) : Nat := n % 2 ^ 32

def gobSizeXShift : Nat := 6
def gobSizeYShift : Nat := 3
def gobSizeShift : Nat := 9
def swizzleXBits : BitVec 32 := 0b100101111
def swizzleYBits : BitVec 32 := 0b011010000

/-- An entry of `MakeSwizzleTable`. -/
def makeSwizzleTable (y x : Nat) : Nat :=
  ((x % 64) / 32) * 256 + ((y % 8) / 2) * 64 + ((x % 32) / 16) * 32 + (y % 2) * 16 + (x % 16)

/-- `Common::DivCeilLog2`. -/
def divCeilLog2 (value alignmentLog2 : Nat) : Nat :=
  u32 (value + 1 <<< alignmentLog2 - 1) >>> alignmentLog2

/-- `Common::AlignUpLog2`, in 64 bits and cut to 32. -/
def alignUpLog2 (value alignLog2 : Nat) : Nat :=
  u32 (((value + (1 <<< alignLog2 - 1)) % 2 ^ 64) >>> alignLog2 <<< alignLog2)

/-- The loop of `pdep`; a mask has at most 32 bits. -/
def pdepLoop : Nat → BitVec 32 → BitVec 32 → BitVec 32 → BitVec 32 → BitVec 32
  | 0, _, _, _, result => result
  | fuel + 1, value, bit, m, result =>
    if m = 0 then result
    else pdepLoop fuel value (bit + bit) (m &&& (m - 1))
      (if value &&& bit ≠ 0 then result ||| (m &&& (~~~m + 1)) else result)

def pdep (mask value : BitVec 32) : BitVec 32 := pdepLoop 32 value 1 mask 0

def incrpdep (mask incrAmount value : BitVec 32) : BitVec 32 :=
  ((value ||| ~~~mask) + pdep mask incrAmount) &&& mask

/-- The innermost loop, over the columns that are left, with the interleaved x. -/
def columnLoop {β : Type} (bytesPerPixel : Nat) (copy : Nat → BitVec 32 → (Nat → β) → Nat → β) :
    Nat → Nat → BitVec 32 → (Nat → β) → Nat → β
  | 0, _, _, output => output
  | n + 1, column, swizzledX, output =>
    columnLoop bytesPerPixel copy n (column + 1)
      (incrpdep swizzleXBits (BitVec.ofNat 32 bytesPerPixel) swizzledX)
      (copy column swizzledX output)

/-- `SwizzleImpl<TO_LINEAR, BYTES_PER_PIXEL>`. -/
def swizzleImpl {β : Type} (toLinear : Bool) (bytesPerPixel : Nat) (output input : Nat → β)
    (width height depth blockHeight blockDepth stride : Nat) : Nat → β :=
  let pitch := u32 (width * bytesPerPixel)
  let gobsInX := divCeilLog2 stride gobSizeXShift
  let blockSize := u32 (gobsInX <<< (gobSizeShift + blockHeight + blockDepth))
  let sliceSize := u32 (divCeilLog2 height (blockHeight + gobSizeYShift) * blockSize)
  let blockHeightMask := 1 <<< blockHeight - 1
  let blockDepthMask := 1 <<< blockDepth - 1
  let xShift := gobSizeShift + blockHeight + blockDepth
  (List.range depth).foldl (fun output slice =>
    let z := slice
    let offsetZ := u32 (u32 ((z >>> blockDepth) * sliceSize) +
      u32 ((z &&& blockDepthMask) <<< (gobSizeShift + blockHeight)))
    (List.range height).foldl (fun output line =>
      let y := line
      let swizzledY := pdep swizzleYBits (BitVec.ofNat 32 y)
      let blockY := y >>> gobSizeYShift
      let offsetY := u32 (u32 ((blockY >>> blockHeight) * blockSize) +
        u32 ((blockY &&& blockHeightMask) <<< gobSizeShift))
      columnLoop bytesPerPixel (fun column swizzledX output =>
        let x := u32 (column * bytesPerPixel)
        let offsetX := u32 ((x >>> gobSizeXShift) <<< xShift)
        let baseSwizzledOffset := u32 (offsetZ + offsetY + offsetX)
        let swizzledOffset := u32 (baseSwizzledOffset + (swizzledX ||| swizzledY).toNat)
        let unswizzledOffset :=
          u32 (u32 (slice * pitch * height) + u32 (line * pitch) + u32 (column * bytesPerPixel))
        copyBytes output input (if toLinear then swizzledOffset else unswizzledOffset)
          (if toLinear then unswizzledOffset else swizzledOffset) bytesPerPixel)
        width 0 (pdep swizzleXBits 0) output) output) output

/-- `Swizzle<TO_LINEAR>`: the texel sizes that there is code for. -/
def swizzle {β : Type} (toLinear : Bool) (output input : Nat → β)
    (bytesPerPixel width height depth blockHeight blockDepth stride : Nat) :
    Option (Nat → β) :=
  if bytesPerPixel ∈ [1, 2, 3, 4, 6, 8, 12, 16] then
    some (swizzleImpl toLinear bytesPerPixel output input width height depth blockHeight blockDepth stride)
  else none

/-- `SwizzleTexture` and `UnswizzleTexture`: rows of the largest texels that divide them. -/
def convertTexture {β : Type} (toLinear : Bool) (output input : Nat → β)
    (bytesPerPixel width height depth blockHeight blockDepth strideAlignment : Nat) :
    Option (Nat → β) :=
  let stride := u32 (alignUpLog2 width strideAlignment * bytesPerPixel)
  let newBpp := min 4 (countrZero 32 (u32 (width * bytesPerPixel)))
  swizzle toLinear output input (1 <<< newBpp) (u32 (width * bytesPerPixel) >>> newBpp) height depth
    blockHeight blockDepth stride

def unswizzleTexture {β : Type} (output input : Nat → β)
    (bytesPerPixel width height depth blockHeight blockDepth strideAlignment : Nat) :
    Option (Nat → β) :=
  convertTexture false output input bytesPerPixel width height depth blockHeight blockDepth strideAlignment

def swizzleTexture {β : Type} (output input : Nat → β)
    (bytesPerPixel width height depth blockHeight blockDepth strideAlignment : Nat) :
    Option (Nat → β) :=
  convertTexture true output input bytesPerPixel width height depth blockHeight blockDepth strideAlignment

/-! ## 2. Interleaved coordinates -/

theorem pdepLoop_congr {v v' : BitVec 32} : ∀ {fuel : Nat} {bit m r : BitVec 32} (n : Nat),
    (∀ i < n, v &&& (fun b : BitVec 32 => b + b)^[i] bit = v' &&& (fun b : BitVec 32 => b + b)^[i] bit) →
    (fun m : BitVec 32 => m &&& (m - 1))^[n] m = 0 →
    pdepLoop fuel v bit m r = pdepLoop fuel v' bit m r
  | 0, _, _, _, _, _, _ => rfl
  | fuel + 1, bit, m, r, n, hv, hm => by
    rw [pdepLoop, pdepLoop]
    by_cases h0 : m = 0
    · rw [if_pos h0, if_pos h0]
    · cases n with
      | zero => exact absurd hm h0
      | succ n =>
        have hbit : v &&& bit = v' &&& bit := hv 0 (Nat.succ_pos n)
        rw [if_neg h0, if_neg h0, hbit]
        exact pdepLoop_congr n (fun i hi => hv (i + 1) (Nat.succ_lt_succ hi)) hm

theorem pdep_and {mask low v : BitVec 32} (n : Nat)
    (hlow : ∀ i < n, low &&& (fun b : BitVec 32 => b + b)^[i] 1 = (fun b : BitVec 32 => b + b)^[i] 1)
    (hmask : (fun m : BitVec 32 => m &&& (m - 1))^[n] mask = 0) :
    pdep mask (v &&& low) = pdep mask v :=
  pdepLoop_congr n (fun i hi => by rw [BitVec.and_assoc, hlow i hi]) hmask

theorem ofNat_and {x k : Nat} (hk : k < 32) :
    BitVec.ofNat 32 x &&& BitVec.ofNat 32 (2 ^ k - 1) = BitVec.ofNat 32 (x % 2 ^ k) := by
  have hlt : 2 ^ k < 2 ^ 32 := Nat.pow_lt_pow_right (by decide) hk
  have hdvd : 2 ^ k ∣ 2 ^ 32 := Nat.pow_dvd_pow 2 (le_of_lt hk)
  apply eq_of_toNat_eq
  rw [toNat_and, toNat_ofNat, toNat_ofNat, toNat_ofNat,
    Nat.mod_eq_of_lt (a := 2 ^ k - 1) (by omega), Nat.and_two_pow_sub_one_eq_mod,
    Nat.mod_mod_of_dvd x hdvd,
    Nat.mod_eq_of_lt (lt_trans (Nat.mod_lt x (Nat.two_pow_pos k)) hlt)]

theorem pdep_x_mod {x : Nat} : pdep swizzleXBits (BitVec.ofNat 32 x) =
    pdep swizzleXBits (BitVec.ofNat 32 (x % 64)) := by
  rw [← @pdep_and _ 63 _ 6 (by decide) (by decide)]
  exact congrArg _ (ofNat_and (k := 6) (by decide))

theorem pdep_y_mod {y : Nat} : pdep swizzleYBits (BitVec.ofNat 32 y) =
    pdep swizzleYBits (BitVec.ofNat 32 (y % 8)) := by
  rw [← @pdep_and _ 7 _ 3 (by decide) (by decide)]
  exact congrArg _ (ofNat_and (k := 3) (by decide))

/-- **The interleaved coordinates are the table** of `MakeSwizzleTable`. -/
theorem pdep_or_eq {x y : Nat} : (pdep swizzleXBits (BitVec.ofNat 32 x) |||
    pdep swizzleYBits (BitVec.ofNat 32 y)).toNat = makeSwizzleTable y x := by
  have htable : ∀ x < 64, ∀ y < 8, (pdep swizzleXBits (BitVec.ofNat 32 x) |||
      pdep swizzleYBits (BitVec.ofNat 32 y)).toNat = makeSwizzleTable y x := by decide +kernel
  rw [pdep_x_mod, pdep_y_mod, htable (x % 64) (Nat.mod_lt x (by decide)) (y % 8) (Nat.mod_lt y (by decide))]
  simp only [makeSwizzleTable, Nat.mod_mod, Nat.mod_mod_of_dvd x (show 32 ∣ 64 by decide),
    Nat.mod_mod_of_dvd x (show 16 ∣ 64 by decide), Nat.mod_mod_of_dvd y (show 2 ∣ 8 by decide)]

/-- **The masked addition** steps the interleaved x by one texel. -/
theorem incrpdep_eq {x k : Nat} (hk : k ≤ 4) (hx : 2 ^ k ∣ x) :
    incrpdep swizzleXBits (BitVec.ofNat 32 (2 ^ k)) (pdep swizzleXBits (BitVec.ofNat 32 x)) =
      pdep swizzleXBits (BitVec.ofNat 32 (x + 2 ^ k)) := by
  have hstep : ∀ k < 5, ∀ x < 64, x % 2 ^ k = 0 →
      incrpdep swizzleXBits (BitVec.ofNat 32 (2 ^ k)) (pdep swizzleXBits (BitVec.ofNat 32 x)) =
        pdep swizzleXBits (BitVec.ofNat 32 (x + 2 ^ k)) := by decide +kernel
  have hdvd : 2 ^ k ∣ 64 := Nat.pow_dvd_pow 2 (n := 6) (by omega)
  have hmod : x % 64 % 2 ^ k = 0 := by
    rw [Nat.mod_mod_of_dvd x hdvd]
    exact Nat.mod_eq_zero_of_dvd hx
  rw [pdep_x_mod, hstep k (by omega) (x % 64) (Nat.mod_lt x (by decide)) hmod, pdep_x_mod,
    Nat.mod_add_mod, ← pdep_x_mod]

/-! ## 3. The block layout -/

/-- **The offset of a byte**: GOBs of 512 bytes, `2 ^ bh` of them in a column of a block, `2 ^ bd`
slices in a block, `gobs` blocks in a row, `rows` rows in a layer of blocks. -/
def layoutOffset (gobs rows bh bd x y z : Nat) : Nat :=
  z / 2 ^ bd * (rows * (gobs * 2 ^ (9 + bh + bd))) + z % 2 ^ bd * 2 ^ (9 + bh) +
    (y / 8 / 2 ^ bh * (gobs * 2 ^ (9 + bh + bd)) + y / 8 % 2 ^ bh * 2 ^ 9) +
    x / 64 * 2 ^ (9 + bh + bd) + makeSwizzleTable y x

/-- The quotient by a power of two, rounded up. -/
def ceilShift (n k : Nat) : Nat := (n + 2 ^ k - 1) / 2 ^ k

variable {gobs rows bh bd x y z x' y' z' k : Nat}

theorem makeSwizzleTable_lt : makeSwizzleTable y x < 2 ^ 9 := by
  unfold makeSwizzleTable
  omega

theorem layoutOffset_radix : layoutOffset gobs rows bh bd x y z = makeSwizzleTable y x +
    2 ^ 9 * (y / 8 % 2 ^ bh + 2 ^ bh * (z % 2 ^ bd + 2 ^ bd * (x / 64 +
      gobs * (y / 8 / 2 ^ bh + rows * (z / 2 ^ bd))))) := by
  rw [layoutOffset, Nat.pow_add, Nat.pow_add]
  ring

theorem radix_inj {a b a' b' m : Nat} (ha : a < m) (ha' : a' < m) (h : a + m * b = a' + m * b') :
    a = a' ∧ b = b' := by
  have hmod : (a + m * b) % m = (a' + m * b') % m := by rw [h]
  have hdiv : (a + m * b) / m = (a' + m * b') / m := by rw [h]
  have hm : 0 < m := by omega
  rw [Nat.add_mul_mod_self_left, Nat.add_mul_mod_self_left, Nat.mod_eq_of_lt ha,
    Nat.mod_eq_of_lt ha'] at hmod
  rw [Nat.add_mul_div_left _ _ hm, Nat.add_mul_div_left _ _ hm, Nat.div_eq_of_lt ha,
    Nat.div_eq_of_lt ha', Nat.zero_add, Nat.zero_add] at hdiv
  exact ⟨hmod, hdiv⟩

theorem makeSwizzleTable_inj (h : makeSwizzleTable y x = makeSwizzleTable y' x') :
    x % 64 = x' % 64 ∧ y % 8 = y' % 8 := by
  have hradix (y x : Nat) : makeSwizzleTable y x =
      x % 16 + 16 * (y % 2 + 2 * (x % 32 / 16 + 2 * (y % 8 / 2 + 4 * (x % 64 / 32)))) := by
    rw [makeSwizzleTable]
    ring
  rw [hradix, hradix] at h
  obtain ⟨hx, h⟩ := radix_inj (Nat.mod_lt _ (by decide)) (Nat.mod_lt _ (by decide)) h
  obtain ⟨hy, h⟩ := radix_inj (Nat.mod_lt _ (by decide)) (Nat.mod_lt _ (by decide)) h
  obtain ⟨hx', h⟩ := radix_inj (by omega) (by omega) h
  obtain ⟨hy', hx''⟩ := radix_inj (by omega) (by omega) h
  have hxsplit (x : Nat) : x % 64 = x % 16 + 16 * (x % 32 / 16) + 32 * (x % 64 / 32) := by omega
  have hysplit (y : Nat) : y % 8 = y % 2 + 2 * (y % 8 / 2) := by omega
  exact ⟨by rw [hxsplit x, hxsplit x', hx, hx', hx''], by rw [hysplit y, hysplit y', hy, hy']⟩

theorem radix_lt {a b m n : Nat} (ha : a < m) (hb : b < n) : a + m * b < m * n :=
  calc a + m * b < m + m * b := Nat.add_lt_add_right ha _
    _ = m * (b + 1) := by ring
    _ ≤ m * n := Nat.mul_le_mul_left m hb

/-- **Distinct bytes have distinct offsets.** -/
theorem layoutOffset_inj (hx : x / 64 < gobs) (hx' : x' / 64 < gobs) (hy : y / 8 / 2 ^ bh < rows)
    (hy' : y' / 8 / 2 ^ bh < rows)
    (h : layoutOffset gobs rows bh bd x y z = layoutOffset gobs rows bh bd x' y' z') :
    x = x' ∧ y = y' ∧ z = z' := by
  have hbh := Nat.two_pow_pos bh
  have hbd := Nat.two_pow_pos bd
  rw [layoutOffset_radix, layoutOffset_radix] at h
  obtain ⟨htable, h⟩ := radix_inj makeSwizzleTable_lt makeSwizzleTable_lt h
  obtain ⟨hylow, h⟩ := radix_inj (Nat.mod_lt _ hbh) (Nat.mod_lt _ hbh) h
  obtain ⟨hzlow, h⟩ := radix_inj (Nat.mod_lt _ hbd) (Nat.mod_lt _ hbd) h
  obtain ⟨hxhigh, h⟩ := radix_inj hx hx' h
  obtain ⟨hyhigh, hzhigh⟩ := radix_inj hy hy' h
  obtain ⟨hxlow, hylow'⟩ := makeSwizzleTable_inj htable
  have hblock : y / 8 = y' / 8 := by
    rw [← Nat.div_add_mod (y / 8) (2 ^ bh), ← Nat.div_add_mod (y' / 8) (2 ^ bh), hyhigh, hylow]
  refine ⟨by omega, by omega, ?_⟩
  rw [← Nat.div_add_mod z (2 ^ bd), ← Nat.div_add_mod z' (2 ^ bd), hzhigh, hzlow]

/-- **Offsets stay below the size of the surface.** -/
theorem layoutOffset_lt {layers : Nat} (hx : x / 64 < gobs) (hy : y / 8 / 2 ^ bh < rows)
    (hz : z / 2 ^ bd < layers) : layoutOffset gobs rows bh bd x y z <
      layers * (rows * (gobs * 2 ^ (9 + bh + bd))) := by
  have hsize : layers * (rows * (gobs * 2 ^ (9 + bh + bd))) =
      2 ^ 9 * (2 ^ bh * (2 ^ bd * (gobs * (rows * layers)))) := by
    rw [Nat.pow_add, Nat.pow_add]
    ring
  rw [layoutOffset_radix, hsize]
  exact radix_lt makeSwizzleTable_lt (radix_lt (Nat.mod_lt _ (Nat.two_pow_pos bh))
    (radix_lt (Nat.mod_lt _ (Nat.two_pow_pos bd)) (radix_lt hx (radix_lt hy hz))))

theorem layoutOffset_add {i : Nat} (hk : k ≤ 4) (hx : 2 ^ k ∣ x) (hi : i < 2 ^ k) :
    layoutOffset gobs rows bh bd (x + i) y z = layoutOffset gobs rows bh bd x y z + i := by
  have h16 : (x + i) / 16 = x / 16 ∧ (x + i) % 16 = x % 16 + i := by
    obtain ⟨c, rfl⟩ := hx
    rcases (by omega : k = 0 ∨ k = 1 ∨ k = 2 ∨ k = 3 ∨ k = 4) with rfl | rfl | rfl | rfl | rfl <;>
      constructor <;> omega
  have h64 : (x + i) / 64 = x / 64 := by omega
  have htable : makeSwizzleTable y (x + i) = makeSwizzleTable y x + i := by
    unfold makeSwizzleTable
    omega
  rw [layoutOffset, layoutOffset, h64, htable]
  omega

theorem div_lt_ceilShift {n i : Nat} (h : i < n) : i / 2 ^ k < ceilShift n k := by
  have hpos := Nat.two_pow_pos k
  rw [ceilShift, Nat.div_lt_iff_lt_mul hpos]
  have hdiv := Nat.div_add_mod (n + 2 ^ k - 1) (2 ^ k)
  have hmod := Nat.mod_lt (n + 2 ^ k - 1) hpos
  rw [Nat.mul_comm] at hdiv
  omega

theorem le_ceilShift_mul {n : Nat} : n ≤ ceilShift n k * 2 ^ k := by
  cases n with
  | zero => exact Nat.zero_le _
  | succ n =>
    exact (Nat.div_lt_iff_lt_mul (Nat.two_pow_pos k)).mp (div_lt_ceilShift (Nat.lt_succ_self n))

/-! ## 4. The loops as copies -/

section Loops

variable {β : Type} {output input : Nat → β} {width height depth stride : Nat}

/-- The offset of a byte in the linear texture. -/
def linearOffset (pitch height x y z : Nat) : Nat := (z * height + y) * pitch + x

/-- The two offsets of a texel, the destination first. -/
def texelCopy (toLinear : Bool) (gobs rows bh bd pitch height x y z : Nat) : Nat × Nat :=
  if toLinear then (layoutOffset gobs rows bh bd x y z, linearOffset pitch height x y z)
  else (linearOffset pitch height x y z, layoutOffset gobs rows bh bd x y z)

/-- The copies of a texture, in the order of the loops. -/
def textureCopies (toLinear : Bool) (gobs rows bh bd bpp width height depth : Nat) : List (Nat × Nat) :=
  (List.range depth).flatMap fun z => (List.range height).flatMap fun y =>
    (List.range width).map fun column =>
      texelCopy toLinear gobs rows bh bd (width * bpp) height (column * bpp) y z

theorem columnLoop_eq {copy : Nat → BitVec 32 → (Nat → β) → Nat → β} {f : Nat → Nat × Nat}
    (hk : k ≤ 4) : ∀ {n column : Nat} {output : Nat → β},
    (∀ c, column ≤ c → c < column + n → ∀ output,
      copy c (pdep swizzleXBits (BitVec.ofNat 32 (c * 2 ^ k))) output =
        copyBytes output input (f c).1 (f c).2 (2 ^ k)) →
    columnLoop (2 ^ k) copy n column (pdep swizzleXBits (BitVec.ofNat 32 (column * 2 ^ k))) output =
      copyAll input (2 ^ k) output ((List.range' column n).map f)
  | 0, _, _, _ => rfl
  | n + 1, column, output, hcopy => by
    rw [columnLoop, incrpdep_eq hk (Nat.dvd_mul_left _ _), ← Nat.succ_mul, range'_succ,
      map_cons, copyAll_cons, hcopy column le_rfl (by omega),
      columnLoop_eq hk fun c hle hlt => hcopy c (by omega) (by omega)]

theorem linearOffset_lt {pitch : Nat} (hx : x < pitch) (hy : y < height) (hz : z < depth) :
    linearOffset pitch height x y z < depth * (height * pitch) := by
  have hyz : y + height * z < height * depth := radix_lt hy hz
  have hxyz := radix_lt hx hyz
  rw [linearOffset]
  calc (z * height + y) * pitch + x = x + pitch * (y + height * z) := by ring
    _ < pitch * (height * depth) := hxyz
    _ = depth * (height * pitch) := by ring

/-- The size of the surface is a 32-bit number. -/
structure Fits (gobs rows bh bd pitch height depth stride : Nat) : Prop where
  gobs_eq : gobs = ceilShift stride 6
  rows_eq : rows = ceilShift height (bh + 3)
  pitch_le : pitch ≤ stride
  size_lt : ceilShift depth bd * (rows * (gobs * 2 ^ (9 + bh + bd))) < 2 ^ 32

namespace Fits

variable {pitch : Nat} (hf : Fits gobs rows bh bd pitch height depth stride)

include hf

theorem x_lt (hx : x < pitch) : x / 64 < gobs := by
  rw [hf.gobs_eq]
  exact div_lt_ceilShift (k := 6) (lt_of_lt_of_le hx hf.pitch_le)

theorem y_lt (hy : y < height) : y / 8 / 2 ^ bh < rows := by
  have h8 : (8 : Nat) = 2 ^ 3 := rfl
  rw [hf.rows_eq, h8, Nat.div_div_eq_div_mul, ← Nat.pow_add, Nat.add_comm 3 bh]
  exact div_lt_ceilShift hy

theorem layout_lt (hx : x < pitch) (hy : y < height) (hz : z < depth) : layoutOffset gobs rows bh bd x y z <
      ceilShift depth bd * (rows * (gobs * 2 ^ (9 + bh + bd))) :=
  layoutOffset_lt (hf.x_lt hx) (hf.y_lt hy) (div_lt_ceilShift hz)

theorem linear_le : depth * (height * pitch) ≤
    ceilShift depth bd * (rows * (gobs * 2 ^ (9 + bh + bd))) := by
  have hx : pitch ≤ gobs * 2 ^ 6 := by
    rw [hf.gobs_eq]
    exact le_trans hf.pitch_le le_ceilShift_mul
  have hy : height ≤ rows * 2 ^ (bh + 3) := by
    rw [hf.rows_eq]
    exact le_ceilShift_mul
  have hz : depth ≤ ceilShift depth bd * 2 ^ bd := le_ceilShift_mul
  calc depth * (height * pitch) ≤ ceilShift depth bd * 2 ^ bd * (rows * 2 ^ (bh + 3) * (gobs * 2 ^ 6)) :=
        Nat.mul_le_mul hz (Nat.mul_le_mul hy hx)
    _ = ceilShift depth bd * (rows * (gobs * 2 ^ (9 + bh + bd))) := by
        rw [Nat.pow_add, Nat.pow_add, Nat.pow_add]
        ring

theorem pitch_lt (hy : 0 < height) (hz : 0 < depth) : pitch < 2 ^ 32 := by
  refine lt_of_le_of_lt (le_trans ?_ hf.linear_le) hf.size_lt
  rw [← Nat.mul_assoc]
  exact Nat.le_mul_of_pos_left _ (Nat.mul_pos hz hy)

/-- Where there is a texel, the sizes that the code computes are the sizes. -/
theorem sizes (hx : 0 < pitch) (hy : 0 < height) (hz : 0 < depth) :
    divCeilLog2 stride gobSizeXShift = gobs ∧
    u32 (gobs <<< (gobSizeShift + bh + bd)) = gobs * 2 ^ (9 + bh + bd) ∧
    u32 (divCeilLog2 height (bh + gobSizeYShift) * (gobs * 2 ^ (9 + bh + bd))) =
      rows * (gobs * 2 ^ (9 + bh + bd)) := by
  have hsize := hf.size_lt
  have hgobs : 0 < gobs := lt_of_le_of_lt (Nat.zero_le _) (hf.x_lt hx)
  have hrows : 0 < rows := lt_of_le_of_lt (Nat.zero_le _) (hf.y_lt hy)
  have hlayers : 0 < ceilShift depth bd :=
    lt_of_le_of_lt (Nat.zero_le _) (div_lt_ceilShift hz)
  have hslice : rows * (gobs * 2 ^ (9 + bh + bd)) < 2 ^ 32 :=
    lt_of_le_of_lt (Nat.le_mul_of_pos_left _ hlayers) hsize
  have hblock : gobs * 2 ^ (9 + bh + bd) < 2 ^ 32 :=
    lt_of_le_of_lt (Nat.le_mul_of_pos_left _ hrows) hslice
  -- the sums that are rounded up stay below the size of the surface, too
  have hstride : gobs * 2 ^ 9 ≤ gobs * 2 ^ (9 + bh + bd) :=
    Nat.mul_le_mul_left _ (Nat.pow_le_pow_right (by decide) (by omega))
  have hheight : rows * 2 ^ (bh + 3) * 64 ≤ rows * (gobs * 2 ^ (9 + bh + bd)) := by
    calc rows * 2 ^ (bh + 3) * 64 = rows * (2 ^ (9 + bh)) := by
          rw [Nat.pow_add, Nat.pow_add]
          ring
      _ ≤ rows * (gobs * 2 ^ (9 + bh + bd)) :=
          Nat.mul_le_mul_left _ (le_trans (Nat.pow_le_pow_right (by decide) (by omega))
            (Nat.le_mul_of_pos_left _ hgobs))
  have hs : stride ≤ gobs * 2 ^ 6 := by
    rw [hf.gobs_eq]
    exact le_ceilShift_mul
  have hh : height ≤ rows * 2 ^ (bh + 3) := by
    rw [hf.rows_eq]
    exact le_ceilShift_mul
  have hpow : 2 ^ (bh + 3) ≤ rows * 2 ^ (bh + 3) := Nat.le_mul_of_pos_left _ hrows
  refine ⟨?_, ?_, ?_⟩
  · rw [divCeilLog2, u32, Nat.one_shiftLeft, Nat.mod_eq_of_lt (by unfold gobSizeXShift; omega),
      Nat.shiftRight_eq_div_pow, hf.gobs_eq]
    rfl
  · rw [Nat.shiftLeft_eq, u32]
    exact Nat.mod_eq_of_lt hblock
  · have hdiv : divCeilLog2 height (bh + gobSizeYShift) = rows := by
      rw [divCeilLog2, u32, Nat.one_shiftLeft, Nat.mod_eq_of_lt (by unfold gobSizeYShift; omega),
        Nat.shiftRight_eq_div_pow, hf.rows_eq]
      rfl
    rw [hdiv, u32]
    exact Nat.mod_eq_of_lt hslice

theorem swizzled_eq (hx : x < pitch) (hy : y < height) (hz : z < depth) :
    u32 (u32 (u32 (u32 ((z >>> bd) * (rows * (gobs * 2 ^ (9 + bh + bd)))) +
        u32 ((z &&& (1 <<< bd - 1)) <<< (gobSizeShift + bh))) +
      u32 (u32 ((y >>> gobSizeYShift >>> bh) * (gobs * 2 ^ (9 + bh + bd))) +
        u32 ((y >>> gobSizeYShift &&& (1 <<< bh - 1)) <<< gobSizeShift)) +
      u32 ((u32 x >>> gobSizeXShift) <<< (gobSizeShift + bh + bd))) +
      (pdep swizzleXBits (BitVec.ofNat 32 x) ||| pdep swizzleYBits (BitVec.ofNat 32 y)).toNat) =
    layoutOffset gobs rows bh bd x y z := by
  have hlt := lt_trans (hf.layout_lt hx hy hz) hf.size_lt
  have hx32 : u32 x = x := Nat.mod_eq_of_lt (lt_trans hx (hf.pitch_lt (by omega) (by omega)))
  rw [pdep_or_eq, hx32]
  simp only [Nat.one_shiftLeft, Nat.and_two_pow_sub_one_eq_mod]
  simp only [Nat.shiftRight_eq_div_pow, Nat.shiftLeft_eq, gobSizeShift, gobSizeXShift, gobSizeYShift]
  rw [layoutOffset] at hlt ⊢
  have h64 : (2 : Nat) ^ 6 = 64 := rfl
  have h8 : (2 : Nat) ^ 3 = 8 := rfl
  rw [h64, h8]
  unfold u32
  omega

theorem linear_eq (hx : x < pitch) (hy : y < height) (hz : z < depth) :
    u32 (u32 (z * u32 pitch * height) + u32 (y * u32 pitch) + u32 x) = linearOffset pitch height x y z := by
  have hlt := lt_of_lt_of_le (linearOffset_lt hx hy hz) (le_trans hf.linear_le (le_of_lt hf.size_lt))
  have hpitch : u32 pitch = pitch := Nat.mod_eq_of_lt (hf.pitch_lt (by omega) (by omega))
  have hsum : linearOffset pitch height x y z = z * pitch * height + y * pitch + x := by
    rw [linearOffset]
    ring
  rw [hsum] at hlt ⊢
  rw [hpitch]
  unfold u32
  omega

end Fits

/-- **`SwizzleImpl` is the run of copies** between the two offsets of every texel. -/
theorem swizzleImpl_eq (toLinear : Bool) (hk : k ≤ 4)
    (hf : Fits gobs rows bh bd (width * 2 ^ k) height depth stride) :
    swizzleImpl toLinear (2 ^ k) output input width height depth bh bd stride = copyAll input (2 ^ k) output
        (textureCopies toLinear gobs rows bh bd (2 ^ k) width height depth) := by
  rw [swizzleImpl, textureCopies, copyAll_flatMap]
  refine foldl_ext _ _ _ fun out z hz => ?_
  rw [copyAll_flatMap]
  refine foldl_ext _ _ _ fun out y hy => ?_
  rw [mem_range] at hz hy
  have hzero : (0 : BitVec 32) = BitVec.ofNat 32 (0 * 2 ^ k) := by
    rw [Nat.zero_mul]
    rfl
  rw [hzero, range_eq_range', columnLoop_eq hk]
  intro c _ hc out
  have hx : c * 2 ^ k < width * 2 ^ k :=
    Nat.mul_lt_mul_of_pos_right (by omega) (Nat.two_pow_pos k)
  obtain ⟨hg, hb, hs⟩ := hf.sizes (by omega) (by omega) (by omega)
  rw [hg, hb, hs]
  dsimp only
  rw [hf.swizzled_eq hx hy hz, hf.linear_eq hx hy hz]
  cases toLinear <;> rfl

/-! ## 5. What the copies do to every byte -/

variable {pitch : Nat} {toLinear : Bool}

theorem texelCopy_add {i : Nat} (hk : k ≤ 4) (hx : 2 ^ k ∣ x) (hi : i < 2 ^ k) :
    texelCopy toLinear gobs rows bh bd pitch height (x + i) y z =
      ((texelCopy toLinear gobs rows bh bd pitch height x y z).1 + i,
        (texelCopy toLinear gobs rows bh bd pitch height x y z).2 + i) := by
  cases toLinear <;> simp [texelCopy, layoutOffset_add hk hx hi, linearOffset, Nat.add_assoc]

theorem linearOffset_inj (hx : x < pitch) (hx' : x' < pitch) (hy : y < height) (hy' : y' < height)
    (h : linearOffset pitch height x y z = linearOffset pitch height x' y' z') :
    x = x' ∧ y = y' ∧ z = z' := by
  have hradix : ∀ x y z, linearOffset pitch height x y z = x + pitch * (y + height * z) :=
    fun x y z => by
      rw [linearOffset]
      ring
  rw [hradix, hradix] at h
  obtain ⟨hxx, h⟩ := radix_inj hx hx' h
  obtain ⟨hyy, hzz⟩ := radix_inj hy hy' h
  exact ⟨hxx, hyy, hzz⟩

theorem exists_linearOffset {j : Nat} (hj : j < depth * (height * pitch)) :
    ∃ x y z, x < pitch ∧ y < height ∧ z < depth ∧ linearOffset pitch height x y z = j := by
  have hpos : 0 < height * pitch := Nat.pos_of_ne_zero fun h0 => by
    rw [h0, Nat.mul_zero] at hj
    omega
  have hp : 0 < pitch := Nat.pos_of_mul_pos_left hpos
  have hh : 0 < height := Nat.pos_of_mul_pos_right hpos
  refine ⟨j % pitch, j / pitch % height, j / pitch / height, Nat.mod_lt _ hp, Nat.mod_lt _ hh, ?_, ?_⟩
  · rw [Nat.div_div_eq_div_mul, Nat.div_lt_iff_lt_mul (Nat.mul_pos hp hh), Nat.mul_comm pitch]
    exact hj
  · rw [linearOffset, Nat.mul_comm (j / pitch / height), Nat.div_add_mod, Nat.mul_comm, Nat.div_add_mod]

theorem Fits.texelCopy_inj (hf : Fits gobs rows bh bd pitch height depth stride) (hx : x < pitch)
    (hx' : x' < pitch) (hy : y < height) (hy' : y' < height)
    (h : (texelCopy toLinear gobs rows bh bd pitch height x y z).1 =
      (texelCopy toLinear gobs rows bh bd pitch height x' y' z').1) :
    x = x' ∧ y = y' ∧ z = z' := by
  cases toLinear with
  | false => exact linearOffset_inj hx hx' hy hy' h
  | true => exact layoutOffset_inj (hf.x_lt hx) (hf.x_lt hx') (hf.y_lt hy) (hf.y_lt hy') h

theorem mem_textureCopies {bpp : Nat} {c : Nat × Nat} :
    c ∈ textureCopies toLinear gobs rows bh bd bpp width height depth ↔
      ∃ z < depth, ∃ y < height, ∃ column < width,
        texelCopy toLinear gobs rows bh bd (width * bpp) height (column * bpp) y z = c := by
  simp only [textureCopies, mem_flatMap, mem_map, mem_range]

theorem covered {c : Nat × Nat} {j : Nat} (hk : k ≤ 4)
    (hc : c ∈ textureCopies toLinear gobs rows bh bd (2 ^ k) width height depth) (hle : c.1 ≤ j)
    (hlt : j < c.1 + 2 ^ k) : ∃ x < width * 2 ^ k, ∃ y < height, ∃ z < depth,
      texelCopy toLinear gobs rows bh bd (width * 2 ^ k) height x y z = (j, c.2 + (j - c.1)) := by
  obtain ⟨z, hz, y, hy, column, hcol, hcopy⟩ := mem_textureCopies.mp hc
  have hi : j - c.1 < 2 ^ k := by omega
  refine ⟨column * 2 ^ k + (j - c.1), ?_, y, hy, z, hz, ?_⟩
  · have hlt := radix_lt hi hcol
    rwa [Nat.mul_comm column, Nat.mul_comm width, Nat.add_comm]
  · rw [texelCopy_add hk (Nat.dvd_mul_left _ _) hi, hcopy, Nat.add_sub_cancel' hle]

/-- **Every byte of the texture is copied to its place.** -/
theorem Fits.copyAll_inside (hf : Fits gobs rows bh bd (width * 2 ^ k) height depth stride)
    (hk : k ≤ 4) (hx : x < width * 2 ^ k) (hy : y < height) (hz : z < depth) :
    copyAll input (2 ^ k) output (textureCopies toLinear gobs rows bh bd (2 ^ k) width height depth)
      (texelCopy toLinear gobs rows bh bd (width * 2 ^ k) height x y z).1 =
    input (texelCopy toLinear gobs rows bh bd (width * 2 ^ k) height x y z).2 := by
  have hpos := Nat.two_pow_pos k
  refine Yuzu.copyAll_inside (fun c hc hle hlt => ?_) ?_
  · obtain ⟨x', hx', y', hy', z', hz', heq⟩ := covered hk hc hle hlt
    have hfst : (texelCopy toLinear gobs rows bh bd (width * 2 ^ k) height x' y' z').1 =
        (texelCopy toLinear gobs rows bh bd (width * 2 ^ k) height x y z).1 := by rw [heq]
    obtain ⟨rfl, rfl, rfl⟩ := hf.texelCopy_inj hx' hx hy' hy hfst
    exact congrArg input (congrArg Prod.snd heq).symm
  · have hmod : x % 2 ^ k < 2 ^ k := Nat.mod_lt x hpos
    have hsplit : x / 2 ^ k * 2 ^ k + x % 2 ^ k = x := by
      rw [Nat.mul_comm]
      exact Nat.div_add_mod x (2 ^ k)
    have hcol : x / 2 ^ k < width := (Nat.div_lt_iff_lt_mul hpos).mpr hx
    refine ⟨_, mem_textureCopies.mpr ⟨z, hz, y, hy, x / 2 ^ k, hcol, rfl⟩, ?_⟩
    have hadd := @texelCopy_add gobs rows bh bd _ y z _ height (width * 2 ^ k) toLinear _ hk
        (Nat.dvd_mul_left (2 ^ k) (x / 2 ^ k)) hmod
    rw [hsplit] at hadd
    rw [hadd]
    dsimp only
    omega

theorem copyAll_outside_texture {j : Nat} (hk : k ≤ 4) (hj : ∀ x < width * 2 ^ k, ∀ y < height, ∀ z < depth,
      (texelCopy toLinear gobs rows bh bd (width * 2 ^ k) height x y z).1 ≠ j) :
    copyAll input (2 ^ k) output (textureCopies toLinear gobs rows bh bd (2 ^ k) width height depth)
      j = output j := by
  refine copyAll_outside fun c hc hin => ?_
  obtain ⟨x, hx, y, hy, z, hz, heq⟩ := covered hk hc hin.1 hin.2
  exact hj x hx y hy z hz (congrArg Prod.fst heq)

/-! ## 6. Textures -/

/-- The bytes in a row of the surface. -/
def surfaceStride (bytesPerPixel width strideAlignment : Nat) : Nat :=
  ceilShift width strideAlignment * 2 ^ strideAlignment * bytesPerPixel

/-- The GOBs in a row of the surface. -/
def surfaceGobs (bytesPerPixel width strideAlignment : Nat) : Nat :=
  ceilShift (surfaceStride bytesPerPixel width strideAlignment) 6

/-- The rows of blocks of the surface. -/
def surfaceRows (height blockHeight : Nat) : Nat := ceilShift height (blockHeight + 3)

/-- **The size of the aligned surface.** -/
def surfaceSize (bytesPerPixel width height depth blockHeight blockDepth strideAlignment : Nat) :
    Nat :=
  ceilShift depth blockDepth * (surfaceRows height blockHeight *
    (surfaceGobs bytesPerPixel width strideAlignment * 2 ^ (9 + blockHeight + blockDepth)))

/-- **Where a byte of the texture lies in the surface.** -/
def surfaceOffset (bytesPerPixel width height blockHeight blockDepth strideAlignment x y z : Nat) :
    Nat :=
  layoutOffset (surfaceGobs bytesPerPixel width strideAlignment) (surfaceRows height blockHeight)
    blockHeight blockDepth x y z

section Texture

variable {bpp sa : Nat}

/-- Where the surface has less than `2 ^ 32` bytes, its stride is computed as it is. -/
theorem stride_eq (hw : 0 < width) (hh : 0 < height) (hd : 0 < depth)
    (hsize : surfaceSize bpp width height depth bh bd sa < 2 ^ 32) :
    u32 (alignUpLog2 width sa * bpp) = surfaceStride bpp width sa ∧
      surfaceStride bpp width sa < 2 ^ 32 := by
  have hle : surfaceStride bpp width sa ≤ surfaceSize bpp width height depth bh bd sa := by
    have hlayers : 0 < ceilShift depth bd := lt_of_le_of_lt (Nat.zero_le _) (div_lt_ceilShift hd)
    have hrows : 0 < surfaceRows height bh := lt_of_le_of_lt (Nat.zero_le _) (div_lt_ceilShift hh)
    calc surfaceStride bpp width sa ≤ surfaceGobs bpp width sa * 2 ^ 6 := le_ceilShift_mul
      _ ≤ surfaceGobs bpp width sa * 2 ^ (9 + bh + bd) :=
          Nat.mul_le_mul_left _ (Nat.pow_le_pow_right (by decide) (by omega))
      _ ≤ surfaceRows height bh * (surfaceGobs bpp width sa * 2 ^ (9 + bh + bd)) :=
          Nat.le_mul_of_pos_left _ hrows
      _ ≤ surfaceSize bpp width height depth bh bd sa := Nat.le_mul_of_pos_left _ hlayers
  have hlt := lt_of_le_of_lt hle hsize
  refine ⟨?_, hlt⟩
  rcases Nat.eq_zero_or_pos bpp with rfl | hbpp
  · rfl
  · have halign : ceilShift width sa * 2 ^ sa < 2 ^ 32 :=
      lt_of_le_of_lt (Nat.le_mul_of_pos_right _ hbpp) hlt
    have hpow : 2 ^ sa ≤ ceilShift width sa * 2 ^ sa :=
      Nat.le_mul_of_pos_left _ (lt_of_le_of_lt (Nat.zero_le _) (div_lt_ceilShift hw))
    have hwidth : width ≤ ceilShift width sa * 2 ^ sa := le_ceilShift_mul
    have hup : alignUpLog2 width sa = ceilShift width sa * 2 ^ sa := by
      have hpos := Nat.two_pow_pos sa
      have hsum : width + (2 ^ sa - 1) = width + 2 ^ sa - 1 := by omega
      rw [alignUpLog2, Nat.one_shiftLeft, Nat.mod_eq_of_lt (by omega), Nat.shiftRight_eq_div_pow,
        Nat.shiftLeft_eq, hsum, u32]
      exact Nat.mod_eq_of_lt halign
    rw [hup, u32]
    exact Nat.mod_eq_of_lt hlt

/-- **A texture is converted by a run of copies** of texels of up to 16 bytes. -/
theorem convertTexture_eq (toLinear : Bool) (output input : Nat → β) (hw : 0 < width)
    (hh : 0 < height) (hd : 0 < depth)
    (hsize : surfaceSize bpp width height depth bh bd sa < 2 ^ 32) :
    ∃ k w, k ≤ 4 ∧ w * 2 ^ k = width * bpp ∧
      Fits (surfaceGobs bpp width sa) (surfaceRows height bh) bh bd (w * 2 ^ k) height depth
        (surfaceStride bpp width sa) ∧
      convertTexture toLinear output input bpp width height depth bh bd sa =
        some (copyAll input (2 ^ k) output (textureCopies toLinear (surfaceGobs bpp width sa)
          (surfaceRows height bh) bh bd (2 ^ k) w height depth)) := by
  obtain ⟨hstride, hlt⟩ := stride_eq hw hh hd hsize
  have hpitch : width * bpp ≤ surfaceStride bpp width sa :=
    Nat.mul_le_mul_right bpp le_ceilShift_mul
  have hu : u32 (width * bpp) = width * bpp := Nat.mod_eq_of_lt (lt_of_le_of_lt hpitch hlt)
  have hk : min 4 (countrZero 32 (width * bpp)) ≤ 4 := Nat.min_le_left _ _
  have hdvd : 2 ^ min 4 (countrZero 32 (width * bpp)) ∣ width * bpp :=
    Nat.dvd_trans (Nat.pow_dvd_pow 2 (Nat.min_le_right _ _)) (two_pow_countrZero_dvd 32 _)
  have hrow : width * bpp / 2 ^ min 4 (countrZero 32 (width * bpp)) *
      2 ^ min 4 (countrZero 32 (width * bpp)) = width * bpp := Nat.div_mul_cancel hdvd
  have hfits : Fits (surfaceGobs bpp width sa) (surfaceRows height bh) bh bd
      (width * bpp / 2 ^ min 4 (countrZero 32 (width * bpp)) *
        2 ^ min 4 (countrZero 32 (width * bpp))) height depth (surfaceStride bpp width sa) :=
    ⟨rfl, rfl, by rw [hrow]; exact hpitch, hsize⟩
  refine ⟨_, _, hk, hrow, hfits, ?_⟩
  rw [convertTexture, hu, hstride, Nat.one_shiftLeft, Nat.shiftRight_eq_div_pow, swizzle,
    swizzleImpl_eq toLinear hk hfits, if_pos]
  generalize min 4 (countrZero 32 (width * bpp)) = k at hk
  rcases (by omega : k = 0 ∨ k = 1 ∨ k = 2 ∨ k = 3 ∨ k = 4) with rfl | rfl | rfl | rfl | rfl <;>
    decide

end Texture

end Loops

/-- **Block-linear textures.** For a surface of less than `2 ^ 32` bytes swizzling puts every byte
at its offset and touches nothing else, the offsets of distinct bytes are distinct and inside the
surface, and unswizzling brings the linear texture back. -/
theorem swizzle_round_trip {β : Type} (bpp width height depth bh bd sa : Nat)
    (hw : 1 ≤ width) (hh : 1 ≤ height) (hd : 1 ≤ depth)
    (hsize : surfaceSize bpp width height depth bh bd sa < 2 ^ 32) (surface linear input : Nat → β) :
    ∃ swizzled, swizzleTexture surface input bpp width height depth bh bd sa = some swizzled ∧
      (∀ x < width * bpp, ∀ y < height, ∀ z < depth,
        swizzled (surfaceOffset bpp width height bh bd sa x y z) =
          input (linearOffset (width * bpp) height x y z) ∧
        surfaceOffset bpp width height bh bd sa x y z < surfaceSize bpp width height depth bh bd sa) ∧
      (∀ x < width * bpp, ∀ y < height, ∀ z < depth, ∀ x' < width * bpp, ∀ y' < height, ∀ z' < depth,
        surfaceOffset bpp width height bh bd sa x y z =
          surfaceOffset bpp width height bh bd sa x' y' z' → x = x' ∧ y = y' ∧ z = z') ∧
      (∀ j, (∀ x < width * bpp, ∀ y < height, ∀ z < depth,
        surfaceOffset bpp width height bh bd sa x y z ≠ j) → swizzled j = surface j) ∧
      ∃ unswizzled, unswizzleTexture linear swizzled bpp width height depth bh bd sa = some unswizzled ∧
        ∀ j, unswizzled j = if j < depth * (height * (width * bpp)) then input j else linear j := by
  obtain ⟨k, w, hk, hrow, hf, hswizzle⟩ := convertTexture_eq true surface input hw hh hd hsize
  refine ⟨_, hswizzle, ?_, ?_, ?_, ?_⟩
  · intro x hx y hy z hz
    rw [← hrow] at hx ⊢
    exact ⟨@Fits.copyAll_inside _ _ _ _ _ _ _ _ _ _ _ _ _ _ _ true hf hk hx hy hz, hf.layout_lt hx hy hz⟩
  · intro x hx y hy z hz x' hx' y' hy' z' hz' h
    rw [← hrow] at hx hx'
    exact layoutOffset_inj (hf.x_lt hx) (hf.x_lt hx') (hf.y_lt hy) (hf.y_lt hy') h
  · intro j hj
    rw [← hrow] at hj
    exact @copyAll_outside_texture _ _ _ _ _ _ _ _ _ _ _ true _ hk hj
  · generalize hS : copyAll input (2 ^ k) surface (textureCopies true (surfaceGobs bpp width sa)
      (surfaceRows height bh) bh bd (2 ^ k) w height depth) = swizzled
    obtain ⟨k', w', hk', hrow', hf', hunswizzle⟩ :=
      convertTexture_eq false linear swizzled hw hh hd hsize
    refine ⟨_, hunswizzle, fun j => ?_⟩
    split
    · rename_i hj
      obtain ⟨x, y, z, hx, hy, hz, rfl⟩ := exists_linearOffset hj
      have hplace := @Fits.copyAll_inside _ _ _ _ _ _ _ _ _ surface input _ _ _ _ true hf hk
          (hrow ▸ hx) hy hz
      have hback := @Fits.copyAll_inside _ _ _ _ _ _ _ _ _ linear swizzled _ _ _ _ false hf'
          hk' (hrow' ▸ hx) hy hz
      rw [hrow'] at hback
      rw [hS, hrow] at hplace
      exact hback.trans hplace
    · rename_i hj
      refine @copyAll_outside_texture _ _ _ _ _ _ _ _ _ _ _ false _ hk' fun x hx y hy z hz heq => hj ?_
      rw [← heq, ← hrow']
      exact linearOffset_lt hx hy hz

/-- A texture of 5 by 3 texels of 3 bytes. -/
theorem swizzle_round_trip_small : ∃ swizzled : Nat → Nat,
    swizzleTexture (fun _ => 0) (fun j => j) 3 5 3 2 1 0 0 = some swizzled ∧
      swizzled (surfaceOffset 3 5 3 1 0 0 14 2 1) = 89 := by
  obtain ⟨swizzled, hs, hplace, -⟩ := swizzle_round_trip 3 5 3 2 1 0 0 (by decide) (by decide)
    (by decide) (by decide) (fun _ => 0) (fun _ => 0) (fun j => j)
  exact ⟨swizzled, hs, (hplace 14 (by decide) 2 (by decide) 1 (by decide)).1⟩

end Yuzu.VideoCore
