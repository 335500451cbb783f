/-
This file embeds how a picture is shrunk: each sample of a plane becomes the
mean of a block of the source's samples.

The loop nest adds up the samples of one row of blocks line by line. The state
of every loop before each of its steps is known, as the sums over the lines and
samples already seen, so that each loop is run by the rule for such loops. Sums
are of 32 bits and partial, as are the slices of rows.
-/

import Throcc.Fitting
import Throcc.Fragment
import Throcc.Tables
import Mathlib.Algebra.BigOperators.Group.Finset.Basic

namespace Throcc

/-- A picture in NV12: a full-resolution Y plane, then interleaved half-resolution U and V. -/
structure VideoFrame where
  width : Nat
  height : Nat
  y : List UInt8
  uv : List UInt8
  timestamp : UInt32
deriving DecidableEq, Repr

/-- A black picture. -/
def VideoFrame.blank (width height : Nat) : VideoFrame where
  width
  height
  y := List.replicate (width * height) 0
  uv := List.replicate (width * Fitter.halfUp height) 128
  timestamp := 0

namespace Shrinking

/-- `slice.get(start..start + len)`. -/
def slice {α : Type} (items : List α) (start len : Nat) : Option (List α) :=
  if start + len ≤ items.length then some ((items.drop start).take len) else none

/-- A sum of bytes as `u32`s that must not overflow. -/
def sumU32 (block : List UInt8) : Option Nat :=
  block.foldlM (fun total value => addU32 total value.toNat) 0

/-- Adds the samples of a block to the sum of each channel. -/
def addBlock (channels : Nat) (sum : List Nat) (block : List UInt8) : Option (List Nat) :=
  match sum with
  | [total] => do
    let added ← sumU32 block
    let total ← addU32 total added
    some [total]
  | sum =>
    (chunksExact channels block).foldlM
      (fun sum sample => zipUpdate (fun total value => addU32 total value.toNat) sum sample) sum

/-- Adds one line of samples to the sums of its blocks. -/
def addLine (channels factor : Nat) (sums : List Nat) (source : List UInt8) : Option (List Nat) := do
  let blocks := chunksExact (factor * channels) source
  let added ← zipUpdate (addBlock channels) (chunksExact channels sums) blocks
  some (added.flatten ++ sums.drop (sums.length / channels * channels))

/-- The sums of one row of blocks. A line that reaches past the plane is left out. -/
def rowSums (src : List UInt8) (stride channels factor columns row : Nat) : Option (List Nat) :=
  (List.range factor).foldlM
    (fun sums line =>
      match slice src ((row * factor + line) * stride) (columns * factor * channels) with
      | none => some sums
      | some source => addLine channels factor sums source)
    (List.replicate (columns * channels) 0)

/-- Averages `factor`×`factor` blocks of samples of `channels` interleaved bytes from rows
`stride` bytes apart into `columns`×`rows` samples, packed in rows as wide as `src`'s. -/
def shrinkPlane (src : List UInt8) (stride channels factor : Nat) (out : List UInt8)
    (columns rows : Nat) : Option (List UInt8) :=
  let outStride := out.length / max rows 1
  (List.range rows).foldlM
    (fun out row => do
      let sums ← rowSums src stride channels factor columns row
      let area := factor * factor % 2 ^ 32
      let start := row * outStride
      let target ← slice out start (columns * channels)
      let target ← zipUpdate
        (fun _ sum => if area = 0 then none else some (UInt8.ofNat (sum / area))) target sums
      some (out.take start ++ target ++ out.drop (start + columns * channels)))
    out

/-- The factor, clamped to the picture. -/
def clampFactor (size : Nat × Nat) (factor : Nat) : Nat :=
  max 1 (min factor (max (min size.1 size.2 / 2) 1))

/-- An NV12 picture of `size` given as its (plane, stride) pairs, shrunk `factor` times. -/
def shrunkNv12 (y uv : List UInt8 × Nat) (size : Nat × Nat) (factor : Nat) : Option VideoFrame := do
  let factor := clampFactor size factor
  let width := max (floorEven (size.1 / factor)) 2
  let height := max (floorEven (size.2 / factor)) 2
  let out := VideoFrame.blank width height
  let luma ← shrinkPlane y.1 y.2 1 factor out.y width height
  let chroma ← shrinkPlane uv.1 uv.2 2 factor out.uv (width / 2) (height / 2)
  some { out with y := luma, uv := chroma }

/-! ### Sums -/

/-- The largest factor whose block of bytes sums within 32 bits whatever they are. -/
def maxFactor : Nat := 4104

theorem addU32_of_le {left right : Nat} (small : left + right ≤ u32Max) :
    addU32 left right = some (left + right) := if_pos small

/-- A sum over a range of bytes grows with the range. -/
theorem sum_bytes_le (count : Nat) (value : Nat → UInt8) :
    ∑ index ∈ Finset.range count, (value index).toNat ≤ 255 * count := by
  induction count with
  | zero => rfl
  | succ count inductionHypothesis =>
    have byte := (value count).toNat_lt
    rw [Finset.sum_range_succ]
    omega

theorem sumU32_tabulate {count : Nat} (value : Nat → UInt8) (small : 255 * count ≤ u32Max) :
    sumU32 (tabulate count value) = some (∑ index ∈ Finset.range count, (value index).toNat) := by
  refine foldlM_tabulate (fun index => ∑ inner ∈ Finset.range index, (value inner).toNat) rfl
    fun index within => ?_
  have bounded := sum_bytes_le (index + 1) value
  rw [Finset.sum_range_succ] at bounded ⊢
  exact addU32_of_le (by omega)

theorem addBlock_several {channels : Nat} {sum : List Nat} (several : 2 ≤ sum.length)
    (block : List UInt8) : addBlock channels sum block = (chunksExact channels block).foldlM
      (fun sum sample => zipUpdate (fun total value => addU32 total value.toNat) sum sample) sum := by
  rcases sum with _ | ⟨first, _ | ⟨second, rest⟩⟩
  · cases several
  · exact absurd (show 2 ≤ 1 from several) (by decide)
  · rfl

/-- A block's samples are added channel by channel, whichever branch does it. -/
theorem addBlock_tabulate {channels factor bound : Nat} (positive : 0 < channels)
    {total : Nat → Nat} {value : Nat → UInt8} (totals : ∀ channel < channels, total channel ≤ bound)
    (small : bound + 255 * factor ≤ u32Max) :
    addBlock channels (tabulate channels total) (tabulate (factor * channels) value) =
      some (tabulate channels fun channel => total channel +
        ∑ index ∈ Finset.range factor, (value (index * channels + channel)).toNat) := by
  by_cases single : channels = 1
  · subst single
    have spelled : tabulate (factor * 1) value = tabulate factor fun index => value (index * 1 + 0) := by
      rw [Nat.mul_one]
      exact tabulate_congr fun index _ => by rw [Nat.mul_one, Nat.add_zero]
    have low := totals 0 Nat.one_pos
    have added := sum_bytes_le factor fun index => value (index * 1 + 0)
    rw [spelled]
    show (sumU32 _ >>= fun added => addU32 (total 0) added >>= fun total => some [total]) = _
    rw [sumU32_tabulate _ (by omega), Option.bind_eq_bind, Option.bind_some,
      addU32_of_le (by omega)]
    rfl
  · have several : addBlock channels (tabulate channels total) (tabulate (factor * channels) value) =
        (chunksExact channels (tabulate (factor * channels) value)).foldlM
          (fun sum sample => zipUpdate (fun total value => addU32 total value.toNat) sum sample)
          (tabulate channels total) := by
      exact addBlock_several (by rw [length_tabulate]; omega) _
    rw [several, chunksExact_tabulate positive]
    refine foldlM_tabulate (fun index => tabulate channels fun channel => total channel +
      ∑ inner ∈ Finset.range index, (value (inner * channels + channel)).toNat)
      rfl fun index within => zipUpdate_tabulate fun channel among => ?_
    have low := totals channel among
    have bounded := sum_bytes_le (index + 1) fun inner => value (inner * channels + channel)
    rw [Finset.sum_range_succ] at bounded ⊢
    rw [addU32_of_le (by omega), Nat.add_assoc]

/-! ### Planes -/

/-- The sum of one channel over some lines of a block. -/
def blockSum (src : List UInt8) (stride channels factor row column channel lines : Nat) : Nat :=
  ∑ line ∈ Finset.range lines, ∑ index ∈ Finset.range factor,
    (src.getD ((row * factor + line) * stride + (column * factor + index) * channels + channel)
      0).toNat

theorem blockSum_le (src : List UInt8) (stride channels factor row column channel lines : Nat) :
    blockSum src stride channels factor row column channel lines ≤ 255 * factor * lines := by
  induction lines with
  | zero => rfl
  | succ lines inductionHypothesis =>
    have line := sum_bytes_le factor fun index => src.getD
      ((row * factor + lines) * stride + (column * factor + index) * channels + channel) 0
    unfold blockSum at inductionHypothesis ⊢
    rw [Finset.sum_range_succ, Nat.mul_succ]
    omega

/-- A slice within a list tabulates the elements from its start on. -/
theorem slice_tabulate {α : Type} {items : List α} {start len : Nat} (default : α)
    (within : start + len ≤ items.length) :
    slice items start len = some (tabulate len fun index => items.getD (start + index) default) := by
  obtain ⟨rest, length⟩ := Nat.exists_eq_add_of_le within
  rw [slice, if_pos within]
  have whole : items = tabulate (start + (len + rest)) fun index => items.getD index default := by
    rw [← Nat.add_assoc, ← length]
    exact eq_tabulate items default
  rw [whole, drop_tabulate, take_tabulate, ← whole]

/-- The sums of one line are added to those of the lines before it. -/
theorem addLine_tabulate {channels factor columns bound : Nat} (positive : 0 < channels)
    (factorPositive : 0 < factor) {total : Nat → Nat} {value : Nat → UInt8}
    (totals : ∀ index < columns * channels, total index ≤ bound)
    (small : bound + 255 * factor ≤ u32Max) :
    addLine channels factor (tabulate (columns * channels) total)
        (tabulate (columns * factor * channels) value) =
      some (tabulate (columns * channels) fun index => total index +
        ∑ inner ∈ Finset.range factor,
          (value ((index / channels * factor + inner) * channels + index % channels)).toNat) := by
  have remainder : (tabulate (columns * channels) total).drop
      ((tabulate (columns * channels) total).length / channels * channels) = [] := by
    rw [length_tabulate, Nat.mul_div_cancel _ positive]
    exact List.drop_of_length_le (Nat.le_of_eq (length_tabulate ..))
  have blocks : zipUpdate (addBlock channels)
      (tabulate columns fun column => tabulate channels fun channel =>
        total (column * channels + channel))
      (tabulate columns fun column => tabulate (factor * channels) fun index =>
        value (column * (factor * channels) + index)) =
      some (tabulate columns fun column => tabulate channels fun channel =>
        total (column * channels + channel) + ∑ inner ∈ Finset.range factor,
          (value (column * (factor * channels) + (inner * channels + channel))).toNat) := by
    refine zipUpdate_tabulate fun column among => addBlock_tabulate positive
      (fun channel within => totals _ ?_) small
    calc column * channels + channel < column * channels + channels :=
          Nat.add_lt_add_left within _
      _ = (column + 1) * channels := (Nat.succ_mul ..).symm
      _ ≤ columns * channels := Nat.mul_le_mul_right _ among
  rw [addLine, remainder, chunksExact_tabulate positive, Nat.mul_assoc,
    chunksExact_tabulate (Nat.mul_pos factorPositive positive), blocks]
  simp only [Option.bind_eq_bind, Option.bind_some, List.append_nil]
  rw [← flatten_tabulate]
  refine congrArg (fun rows => some (List.flatten rows)) (tabulate_congr fun column among => ?_)
  refine tabulate_congr fun channel within => ?_
  have column' : (column * channels + channel) / channels = column := by
    rw [Nat.mul_comm, Nat.mul_add_div positive, Nat.div_eq_of_lt within, Nat.add_zero]
  have channel' : (column * channels + channel) % channels = channel := by
    rw [Nat.mul_comm, Nat.mul_add_mod, Nat.mod_eq_of_lt within]
  rw [column', channel']
  refine congrArg _ (Finset.sum_congr rfl fun inner _ => ?_)
  rw [Nat.add_mul, Nat.mul_assoc, Nat.add_assoc]

theorem range_eq_tabulate (count : Nat) : List.range count = tabulate count fun index => index :=
  (List.map_id _).symm

/-- The lines of the blocks of one row of blocks lie in the plane. -/
def LinesFit (src : List UInt8) (stride channels factor columns row : Nat) : Prop :=
  ∀ line < factor, (row * factor + line) * stride + columns * factor * channels ≤ src.length

theorem rowSums_tabulate {src : List UInt8} {stride channels factor columns row : Nat}
    (positive : 0 < channels) (factorPositive : 0 < factor) (small : factor ≤ maxFactor)
    (fits : LinesFit src stride channels factor columns row) :
    rowSums src stride channels factor columns row =
      some (tabulate (columns * channels) fun index =>
        blockSum src stride channels factor row (index / channels) (index % channels) factor) := by
  rw [rowSums, range_eq_tabulate]
  refine foldlM_tabulate (fun lines => tabulate (columns * channels) fun index =>
    blockSum src stride channels factor row (index / channels) (index % channels) lines)
    (replicate_eq_tabulate ..) fun line within => ?_
  have sums : 255 * factor * line + 255 * factor ≤ u32Max :=
    calc 255 * factor * line + 255 * factor = 255 * factor * (line + 1) := (Nat.mul_succ ..).symm
      _ ≤ 255 * maxFactor * maxFactor :=
        Nat.mul_le_mul (Nat.mul_le_mul_left _ small) (Nat.succ_le_of_lt within |>.trans small)
      _ ≤ u32Max := by decide
  rw [slice_tabulate 0 (fits line within)]
  dsimp only
  rw [addLine_tabulate positive factorPositive (fun index _ => blockSum_le ..) sums]
  refine congrArg some (tabulate_congr fun index _ => ?_)
  rw [blockSum, blockSum, Finset.sum_range_succ]
  refine congrArg _ (Finset.sum_congr rfl fun inner _ => ?_)
  rw [Nat.add_assoc]

/-- The mean of a block, rounded down. -/
def blockMean (src : List UInt8) (stride channels factor row column channel : Nat) : Nat :=
  blockSum src stride channels factor row column channel factor / (factor * factor)

theorem shrinkPlane_tabulate {src out : List UInt8} {stride channels factor columns rows : Nat}
    (positive : 0 < channels) (factorPositive : 0 < factor) (small : factor ≤ maxFactor)
    (some_rows : 0 < rows) (length : out.length = rows * (columns * channels))
    (fits : ∀ row < rows, LinesFit src stride channels factor columns row) :
    shrinkPlane src stride channels factor out columns rows =
      some (tabulate (rows * (columns * channels)) fun index =>
        UInt8.ofNat (blockMean src stride channels factor (index / (columns * channels))
          (index % (columns * channels) / channels) (index % (columns * channels) % channels))) := by
  generalize wide : columns * channels = width at *
  generalize means : (fun index => UInt8.ofNat (blockMean src stride channels factor
    (index / width) (index % width / channels) (index % width % channels))) = mean
  have outStride : out.length / max rows 1 = width := by
    rw [Nat.max_eq_left some_rows, length, Nat.mul_div_cancel_left _ some_rows]
  have area : factor * factor % 2 ^ 32 = factor * factor := Nat.mod_eq_of_lt
    ((Nat.mul_le_mul small small).trans_lt (by decide))
  have positiveArea : factor * factor ≠ 0 := Nat.pos_iff_ne_zero.mp
    (Nat.mul_pos factorPositive factorPositive)
  have done : tabulate (rows * width) mean = tabulate (rows * width) mean ++ out.drop (rows * width) := by
    rw [List.drop_of_length_le (Nat.le_of_eq length), List.append_nil]
  rw [done, shrinkPlane, range_eq_tabulate, outStride, area]
  refine foldlM_tabulate (fun row => tabulate (row * width) mean ++ out.drop (row * width))
    (by rw [Nat.zero_mul]; rfl) fun row within => ?_
  have later : row * width + width ≤ rows * width := by
    rw [← Nat.succ_mul]
    exact Nat.mul_le_mul_right _ within
  have whole : (tabulate (row * width) mean ++ out.drop (row * width)).length = rows * width := by
    rw [List.length_append, length_tabulate, List.length_drop, length]
    omega
  have targets : slice (tabulate (row * width) mean ++ out.drop (row * width)) (row * width) width =
      some (tabulate width fun index => (tabulate (row * width) mean ++
        out.drop (row * width)).getD (row * width + index) 0) :=
    slice_tabulate 0 (whole ▸ later)
  have pixels : zipUpdate (fun _ sum => if factor * factor = 0 then none
        else some (UInt8.ofNat (sum / (factor * factor))))
      (tabulate width fun index => (tabulate (row * width) mean ++
        out.drop (row * width)).getD (row * width + index) 0)
      (tabulate width fun index =>
        blockSum src stride channels factor row (index / channels) (index % channels) factor) =
      some (tabulate width fun index => mean (row * width + index)) := by
    refine zipUpdate_tabulate fun index among => ?_
    rw [if_neg positiveArea, ← means]
    dsimp only
    rw [Nat.mul_comm row, Nat.mul_add_div (Nat.zero_lt_of_lt among), Nat.div_eq_of_lt among,
      Nat.add_zero, Nat.mul_add_mod, Nat.mod_eq_of_lt among]
    rfl
  simp only [rowSums_tabulate positive factorPositive small (fits row within), wide, targets,
    pixels, Option.bind_eq_bind, Option.bind_some]
  rw [List.take_left' (length_tabulate ..), ← tabulate_add, ← Nat.succ_mul]
  refine congrArg (fun rest => some (_ ++ rest)) ?_
  rw [List.drop_append, length_tabulate, List.drop_drop, List.drop_of_length_le
    (by rw [length_tabulate]; exact Nat.mul_le_mul_right _ (Nat.le_succ _)), List.nil_append]
  exact congrArg (out.drop ·) (by rw [Nat.succ_mul]; omega)

/-! ### Pictures -/

/-- An NV12 picture of at least two by two whose planes hold the rows of their sizes. -/
structure Nv12 where
  y : List UInt8
  yStride : Nat
  uv : List UInt8
  uvStride : Nat
  width : Nat
  height : Nat
  atLeastTwo : 2 ≤ width ∧ 2 ≤ height
  strides : width ≤ yStride ∧ width ≤ uvStride
  holdsLuma : (height - 1) * yStride + width ≤ y.length
  holdsChroma : (Fitter.halfUp height - 1) * uvStride + width ≤ uv.length

namespace Nv12

def lumaAt (picture : Nv12) (row column : Nat) : Nat :=
  (picture.y.getD (row * picture.yStride + column) 0).toNat

/-- The U sample, channel 0, or the V sample, channel 1, of a chroma row and column. -/
def chromaAt (picture : Nv12) (channel row column : Nat) : Nat :=
  (picture.uv.getD (row * picture.uvStride + column * 2 + channel) 0).toNat

end Nv12

/-- The mean, rounded down, of the block of samples at a row and column of blocks. -/
def meanOf (sample : Nat → Nat → Nat) (factor row column : Nat) : Nat :=
  (∑ line ∈ Finset.range factor, ∑ index ∈ Finset.range factor,
    sample (row * factor + line) (column * factor + index)) / (factor * factor)

/-- A picture of even size whose samples are the means of the source's blocks, each block of
the samples of one channel and inside the source. -/
structure Means (picture : Nv12) (factor : Nat) (out : VideoFrame) : Prop where
  even : 2 ∣ out.width ∧ 2 ∣ out.height
  size : out.width = floorEven (picture.width / factor) ∧
    out.height = floorEven (picture.height / factor) ∧ 2 ≤ out.width ∧ 2 ≤ out.height
  planes : out.y.length = out.width * out.height ∧ out.uv.length = out.width * (out.height / 2)
  luma : ∀ row < out.height, ∀ column < out.width,
    out.y[row * out.width + column]?.map UInt8.toNat = some (meanOf picture.lumaAt factor row column)
  chroma : ∀ channel < 2, ∀ row < out.height / 2, ∀ column < out.width / 2,
    out.uv[row * out.width + column * 2 + channel]?.map UInt8.toNat =
      some (meanOf (picture.chromaAt channel) factor row column)
  lumaInside : ∀ row < out.height, ∀ column < out.width, ∀ line < factor, ∀ index < factor,
    column * factor + index < picture.width ∧
      (row * factor + line) * picture.yStride + (column * factor + index) < picture.y.length
  chromaInside : ∀ row < out.height / 2, ∀ column < out.width / 2, ∀ line < factor,
    ∀ index < factor, (column * factor + index) * 2 + 1 < picture.width ∧
      (row * factor + line) * picture.uvStride + (column * factor + index) * 2 + 1 <
        picture.uv.length

/-- A block of a row of blocks that fit in a length ends within it. -/
theorem block_lt {blocks factor length block index : Nat} (fit : blocks * factor ≤ length)
    (among : block < blocks) (within : index < factor) : block * factor + index < length :=
  calc block * factor + index < block * factor + factor := Nat.add_lt_add_left within _
    _ = (block + 1) * factor := (Nat.succ_mul ..).symm
    _ ≤ blocks * factor := Nat.mul_le_mul_right _ among
    _ ≤ length := fit

theorem blockMean_lt {src : List UInt8} {stride channels factor row column channel : Nat}
    (positive : 0 < factor) : blockMean src stride channels factor row column channel < 256 := by
  refine Nat.div_lt_of_lt_mul (Nat.lt_of_le_of_lt (blockSum_le ..) ?_)
  rw [Nat.mul_assoc, Nat.mul_comm]
  exact Nat.mul_lt_mul_of_pos_left (by decide) (Nat.mul_pos positive positive)

/-- A sample of a shrunk plane, by its row, column and channel. -/
theorem getElem?_shrunk {src : List UInt8} {stride channels factor columns rows : Nat}
    (positive : 0 < factor) {row column channel : Nat} (among : row < rows)
    (within : column < columns) (one : channel < channels) :
    (tabulate (rows * (columns * channels)) fun index =>
      UInt8.ofNat (blockMean src stride channels factor (index / (columns * channels))
        (index % (columns * channels) / channels)
        (index % (columns * channels) % channels)))[row * (columns * channels) +
          (column * channels + channel)]?.map UInt8.toNat =
      some (blockMean src stride channels factor row column channel) := by
  have inner : column * channels + channel < columns * channels := block_lt le_rfl within one
  have outer := block_lt (le_refl (rows * (columns * channels))) among inner
  have positive' : 0 < columns * channels := Nat.zero_lt_of_lt inner
  rw [getElem?_tabulate _ outer]
  have row' : (row * (columns * channels) + (column * channels + channel)) / (columns * channels) =
      row := by
    rw [Nat.mul_comm row, Nat.mul_add_div positive', Nat.div_eq_of_lt inner, Nat.add_zero]
  have rest : (row * (columns * channels) + (column * channels + channel)) % (columns * channels) =
      column * channels + channel := by
    rw [Nat.mul_comm row, Nat.mul_add_mod, Nat.mod_eq_of_lt inner]
  have column' : (column * channels + channel) / channels = column := by
    rw [Nat.mul_comm, Nat.mul_add_div (Nat.zero_lt_of_lt one), Nat.div_eq_of_lt one, Nat.add_zero]
  have channel' : (column * channels + channel) % channels = channel := by
    rw [Nat.mul_comm, Nat.mul_add_mod, Nat.mod_eq_of_lt one]
  rw [row', rest, column', channel']
  exact congrArg some (UInt8.toNat_ofNat_of_lt' (blockMean_lt positive))

/-- A side shrunk by a factor that goes into it twice: even, at least 2, and its blocks fit. -/
theorem shrunkSide {side factor : Nat} (positive : 0 < factor) (twice : 2 * factor ≤ side) :
    max (floorEven (side / factor)) 2 = floorEven (side / factor) ∧
      2 ∣ floorEven (side / factor) ∧ 2 ≤ floorEven (side / factor) ∧
      floorEven (side / factor) * factor ≤ side := by
  have two : 2 ≤ side / factor := (Nat.le_div_iff_mul_le positive).mpr twice
  have even := Fitter.two_dvd_floorEven (side / factor)
  have atLeast : 2 ≤ floorEven (side / factor) := by
    unfold floorEven
    omega
  exact ⟨Nat.max_eq_left atLeast, even, atLeast,
    (Nat.mul_le_mul_right _ (Fitter.floorEven_le _)).trans (Nat.div_mul_le_self ..)⟩

theorem clampFactor_spec {size : Nat × Nat} (atLeastTwo : 2 ≤ size.1 ∧ 2 ≤ size.2)
    (factor : Nat) : 0 < clampFactor size factor ∧ 2 * clampFactor size factor ≤ size.1 ∧
      2 * clampFactor size factor ≤ size.2 := by
  unfold clampFactor
  omega

/-- A line of a plane that holds its rows ends within the plane. -/
theorem line_le {bytes stride width rows row len : Nat} (holds : (rows - 1) * stride + width ≤ bytes)
    (among : row < rows) (short : len ≤ width) : row * stride + len ≤ bytes :=
  calc row * stride + len ≤ (rows - 1) * stride + width :=
        Nat.add_le_add (Nat.mul_le_mul_right _ (Nat.le_sub_one_of_lt among)) short
    _ ≤ bytes := holds

theorem blockMean_luma (picture : Nv12) (factor row column : Nat) :
    blockMean picture.y picture.yStride 1 factor row column 0 =
      meanOf picture.lumaAt factor row column := by
  simp only [blockMean, blockSum, meanOf, Nv12.lumaAt, Nat.mul_one, Nat.add_zero]

theorem blockMean_chroma (picture : Nv12) (factor row column channel : Nat) :
    blockMean picture.uv picture.uvStride 2 factor row column channel =
      meanOf (picture.chromaAt channel) factor row column := rfl

/-- The lines of the luma blocks lie in the luma plane. -/
theorem luma_linesFit (picture : Nv12) {factor width height : Nat}
    (wide : width * factor ≤ picture.width) (tall : height * factor ≤ picture.height) :
    ∀ row < height, LinesFit picture.y picture.yStride 1 factor width row := by
  intro row among line within
  exact line_le picture.holdsLuma (block_lt tall among within) (Nat.mul_one _ ▸ wide)

/-- The lines of the chroma blocks lie in the chroma plane. -/
theorem chroma_linesFit (picture : Nv12) {factor columns rows : Nat}
    (wide : 2 * columns * factor ≤ picture.width) (tall : 2 * rows * factor ≤ picture.height) :
    ∀ row < rows, LinesFit picture.uv picture.uvStride 2 factor columns row := by
  intro row among line within
  have half : rows * factor ≤ Fitter.halfUp picture.height := by
    rw [Nat.mul_assoc] at tall
    unfold Fitter.halfUp
    omega
  refine line_le picture.holdsChroma (block_lt half among within) ?_
  rw [Nat.mul_comm, ← Nat.mul_assoc]
  exact wide

/-- Every picture of at least two by two is shrunk to the means of its blocks, by any factor
whose blocks sum within 32 bits once it is clamped to the picture. -/
theorem shrunkNv12_means (picture : Nv12) (factor : Nat)
    (small : clampFactor (picture.width, picture.height) factor ≤ maxFactor) :
    ∃ out, shrunkNv12 (picture.y, picture.yStride) (picture.uv, picture.uvStride)
        (picture.width, picture.height) factor = some out ∧
      Means picture (clampFactor (picture.width, picture.height) factor) out := by
  obtain ⟨positive, twiceWide, twiceTall⟩ :=
    @clampFactor_spec (picture.width, picture.height) picture.atLeastTwo factor
  unfold shrunkNv12
  generalize clampFactor (picture.width, picture.height) factor = factor at *
  obtain ⟨width, ⟨columns, evenWidth⟩, twoColumns, wide⟩ := shrunkSide positive twiceWide
  obtain ⟨height, ⟨rows, evenHeight⟩, twoRows, tall⟩ := shrunkSide positive twiceTall
  dsimp only at width height evenWidth evenHeight twoColumns twoRows wide tall ⊢
  rw [evenWidth] at twoColumns wide
  rw [evenHeight] at twoRows tall
  have halfColumns : 2 * columns / 2 = columns := Nat.mul_div_cancel_left _ (by decide)
  have halfRows : 2 * rows / 2 = rows := Nat.mul_div_cancel_left _ (by decide)
  have halfUpRows : Fitter.halfUp (2 * rows) = rows := by
    unfold Fitter.halfUp
    omega
  have lumaLength : (VideoFrame.blank (2 * columns) (2 * rows)).y.length =
      2 * rows * (2 * columns * 1) := by
    rw [VideoFrame.blank, List.length_replicate, Nat.mul_one, Nat.mul_comm]
  have chromaLength : (VideoFrame.blank (2 * columns) (2 * rows)).uv.length =
      rows * (columns * 2) := by
    rw [VideoFrame.blank, List.length_replicate, halfUpRows, Nat.mul_comm, Nat.mul_comm 2]
  rw [width, height, evenWidth, evenHeight, halfColumns, halfRows,
    shrinkPlane_tabulate Nat.one_pos positive small (by omega) lumaLength
      (luma_linesFit picture wide tall),
    shrinkPlane_tabulate Nat.two_pos positive small (by omega) chromaLength
      (chroma_linesFit picture wide tall)]
  refine ⟨_, rfl, ?_⟩
  refine ⟨⟨⟨columns, rfl⟩, ⟨rows, rfl⟩⟩, ⟨evenWidth.symm, evenHeight.symm, twoColumns, twoRows⟩,
    ⟨?_, ?_⟩, fun row among column within => ?_, fun channel one row among column within => ?_,
    fun row among column within line inLine index inIndex => ?_,
    fun row among column within line inLine index inIndex => ?_⟩
  · show (tabulate _ _).length = _
    rw [length_tabulate, Nat.mul_one, Nat.mul_comm]
    rfl
  · show (tabulate _ _).length = _
    rw [length_tabulate]
    show _ = 2 * columns * (2 * rows / 2)
    rw [halfRows, Nat.mul_comm, Nat.mul_comm 2]
  · replace among : row < 2 * rows := among
    replace within : column < 2 * columns := within
    have index : row * (2 * columns) + column = row * (2 * columns * 1) + (column * 1 + 0) := by
      rw [Nat.mul_one, Nat.mul_one, Nat.add_zero]
    show (tabulate _ _)[row * (2 * columns) + column]?.map UInt8.toNat = _
    rw [index, getElem?_shrunk positive among within Nat.one_pos, blockMean_luma]
  · replace among : row < rows := halfRows ▸ among
    replace within : column < columns := halfColumns ▸ within
    have index : row * (2 * columns) + column * 2 + channel =
        row * (columns * 2) + (column * 2 + channel) := by
      rw [Nat.mul_comm 2, Nat.add_assoc]
    show (tabulate _ _)[row * (2 * columns) + column * 2 + channel]?.map UInt8.toNat = _
    rw [index, getElem?_shrunk positive among within one, blockMean_chroma]
  · have inColumn := block_lt wide within inIndex
    exact ⟨inColumn, line_le picture.holdsLuma (block_lt tall among inLine) inColumn⟩
  · have inColumn : (column * factor + index) * 2 + 1 < picture.width := by
      have block := block_lt le_rfl (halfColumns ▸ within) inIndex
      rw [Nat.mul_assoc] at wide
      omega
    have inRow : row * factor + line < Fitter.halfUp picture.height := by
      have block := block_lt le_rfl (halfRows ▸ among) inLine
      rw [Nat.mul_assoc] at tall
      unfold Fitter.halfUp
      omega
    exact ⟨inColumn, line_le picture.holdsChroma inRow inColumn⟩

/-- A picture of 5 by 4 in rows of 6 bytes. -/
def oddPicture : Nv12 where
  y := List.replicate 23 40
  yStride := 6
  uv := List.replicate 12 90
  uvStride := 6
  width := 5
  height := 4
  atLeastTwo := by decide
  strides := by decide
  holdsLuma := by decide
  holdsChroma := by decide

theorem shrunkNv12_means_odd : ∃ out,
    shrunkNv12 (List.replicate 23 40, 6) (List.replicate 12 90, 6) (5, 4) 9 = some out ∧
      Means oddPicture 2 out :=
  shrunkNv12_means oddPicture 9 (by decide)

example : (shrunkNv12
    ([44, 40, 200, 200, 40, 40, 200, 200, 40, 40, 200, 200, 40, 40, 200, 200], 4)
    ([100, 150, 101, 150, 100, 150, 102, 153], 4) (4, 4) 2).map
      (fun out => (out.y, out.uv)) = some ([41, 200, 40, 200], [100, 150]) := by decide

end Shrinking

end Throcc
