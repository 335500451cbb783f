/-
This file embeds how a picture is fitted into the frame an encoder takes: the
size it is scaled to, the rectangle it covers, the part of each plane that
rectangle is, and the rows that are written there.

The rows are written without a check, so that everything rests on the numbers.
Products and differences of `usize`s are partial here: nothing comes out of one
that overflows or underflows.
-/

import Throcc.Proto
import Mathlib.Tactic.Ring

namespace Throcc

/-- A product of `usize`s that must not overflow. -/
def mulUsize (left right : Nat) : Option Nat :=
  if left * right < 2 ^ 64 then some (left * right) else none

/-- A difference of `usize`s that must not underflow. -/
def subUsize (left right : Nat) : Option Nat := if right ≤ left then some (left - right) else none

/-- `v & !1`. -/
def floorEven (v : Nat) : Nat := v - v % 2

/-- The largest even size with the aspect ratio of `source` that fits in `bound`. -/
def fitWithin (source bound : Nat × Nat) : Option (Nat × Nat) := do
  let (sw, sh) := (max source.1 1, max source.2 1)
  let (bw, bh) := bound
  let wide ← mulUsize sw bh
  let tall ← mulUsize bw sh
  let (width, height) ←
    if wide > tall then (mulUsize sh bw).map fun product => (bw, product / sw)
    else (mulUsize sw bh).map fun product => (product / sh, bh)
  let even := fun v => max (floorEven v) 2
  some (min (even width) (floorEven bw), min (even height) (floorEven bh))

namespace Fitter

/-- How an encoder takes its pictures. -/
inductive Input where
  | nv12
  | yuv420p
deriving DecidableEq, Repr

structure Rectangle where
  x : Nat
  y : Nat
  width : Nat
  height : Nat
deriving DecidableEq, Repr

/-- The largest rectangle with the aspect ratio of `source`, centred in `target`, all even. -/
def fitted (source target : Nat × Nat) : Option Rectangle := do
  let (width, height) ← fitWithin source target
  let x := floorEven ((← subUsize target.1 width) / 2)
  let y := floorEven ((← subUsize target.2 height) / 2)
  some { x, y, width, height }

/-- A frame's plane, and where a fitted rectangle lies in it, in bytes and rows. -/
structure PlaneArea where
  plane : Nat
  /-- The plane's value for full-range black. -/
  black : UInt8
  rowBytes : Nat
  rows : Nat
  x : Nat
  y : Nat
  width : Nat
  height : Nat
deriving DecidableEq, Repr

/-- `usize::div_ceil(2)`. -/
def halfUp (v : Nat) : Nat := (v + 1) / 2

/-- Each plane of a frame with the part `rectangle` covers. -/
def planeAreas (frame : Nat × Nat) (input : Input) (rectangle : Rectangle) : List PlaneArea :=
  let luma : PlaneArea :=
    { plane := 0, black := 0, rowBytes := frame.1, rows := frame.2, x := rectangle.x,
      y := rectangle.y, width := rectangle.width, height := rectangle.height }
  let chroma := fun plane rowBytes x width =>
    ({ plane, black := 128, rowBytes, rows := halfUp frame.2, x, y := rectangle.y / 2, width,
       height := rectangle.height / 2 } : PlaneArea)
  match input with
  | .nv12 => [luma, chroma 1 (halfUp frame.1 * 2) rectangle.x rectangle.width]
  | .yuv420p =>
    let half := halfUp frame.1
    [luma, chroma 1 half (rectangle.x / 2) (rectangle.width / 2),
      chroma 2 half (rectangle.x / 2) (rectangle.width / 2)]

/-- One row of a plane as `Fitter::fit` writes it, from the rows of the scaled picture's plane:
black, or the row of the picture between what is left of it and what is right of it. -/
def PlaneArea.line (area : PlaneArea) (scaled : List (List UInt8)) (row : Nat) :
    Option (List UInt8) :=
  if area.y ≤ row ∧ row < area.y + area.height then do
    let picture ← scaled[row - area.y]?
    let right := area.x + area.width
    let rest ← subUsize area.rowBytes right
    if area.width ≤ picture.length then
      some (List.replicate area.x area.black ++ picture.take area.width ++
        List.replicate rest area.black)
    else none
  else some (List.replicate area.rowBytes area.black)

/-- The rows of each plane that `Fitter::fit` writes. -/
def fit (frame : Nat × Nat) (input : Input) (rectangle : Rectangle)
    (scaled : Nat → List (List UInt8)) : Option (List (List (List UInt8))) :=
  (planeAreas frame input rectangle).mapM fun area =>
    (List.range area.rows).mapM fun row => area.line (scaled area.plane) row

/-! ### The rectangle -/

/-- A side that is less than 2 below the exact length `other * own / across`, or is 2. -/
def NearExact (side other own across : Nat) : Prop :=
  (side * across ≤ other * own ∧ other * own < (side + 2) * across) ∨ side = 2

/-- A rectangle of even numbers inside the target that has the source's proportions: one side is
the target's rounded down, the other near the exact length. A side of 0 counts as 1. -/
structure Rectangle.Fits (rectangle : Rectangle) (source target : Nat × Nat) : Prop where
  even : 2 ∣ rectangle.x ∧ 2 ∣ rectangle.y ∧ 2 ∣ rectangle.width ∧ 2 ∣ rectangle.height
  inside : rectangle.x + rectangle.width ≤ target.1 ∧ rectangle.y + rectangle.height ≤ target.2
  proportional :
    (rectangle.width = floorEven target.1 ∧
      NearExact rectangle.height target.1 (max source.2 1) (max source.1 1)) ∨
    (rectangle.height = floorEven target.2 ∧
      NearExact rectangle.width target.2 (max source.1 1) (max source.2 1))

theorem two_dvd_floorEven (v : Nat) : 2 ∣ floorEven v := by
  unfold floorEven
  omega

theorem floorEven_le (v : Nat) : floorEven v ≤ v := Nat.sub_le ..

theorem min_floorEven_self (v : Nat) : min (max (floorEven v) 2) (floorEven v) = floorEven v := by
  omega

theorem two_dvd_side (v bound : Nat) : 2 ∣ min (max (floorEven v) 2) (floorEven bound) := by
  have := two_dvd_floorEven v
  have := two_dvd_floorEven bound
  omega

/-- A side rounded to even and cut to its bound is near the exact length it is the floor of. -/
theorem nearExact_side {other own across bound : Nat} (positive : 0 < across)
    (within : other * own ≤ bound * across) :
    NearExact (min (max (floorEven (other * own / across)) 2) (floorEven bound)) other own
      across := by
  unfold NearExact
  have below := Nat.div_mul_le_self (other * own) across
  have above := Nat.lt_mul_div_succ (other * own) positive
  have le : other * own / across ≤ bound := Nat.div_le_of_le_mul (within.trans_eq (Nat.mul_comm ..))
  generalize other * own / across = exact at *
  generalize other * own = product at *
  rw [Nat.mul_comm] at above
  have cut : min (max (floorEven exact) 2) (floorEven bound) = 2 ∨
      (min (max (floorEven exact) 2) (floorEven bound) ≤ exact ∧
        exact + 1 ≤ min (max (floorEven exact) 2) (floorEven bound) + 2) := by
    unfold floorEven
    omega
  rcases cut with two | ⟨low, high⟩
  · exact .inr two
  · exact .inl ⟨(Nat.mul_le_mul_right across low).trans below,
      above.trans_le (Nat.mul_le_mul_right across high)⟩

theorem subUsize_of_le {left right : Nat} (le : right ≤ left) :
    subUsize left right = some (left - right) := if_pos le

theorem mulUsize_of_lt {left right : Nat} (small : left * right < 2 ^ 64) :
    mulUsize left right = some (left * right) := if_pos small

/-- The sizes of a source and a target are `usize`s with products in range. -/
def InRange (source target : Nat × Nat) : Prop :=
  source.1 * target.2 < 2 ^ 64 ∧ target.1 * source.2 < 2 ^ 64 ∧ target.1 < 2 ^ 64 ∧
    target.2 < 2 ^ 64

/-- The side of a picture with both sides of its target's proportions, or smaller. -/
structure FittedSize (source target : Nat × Nat) (width height : Nat) : Prop where
  even : 2 ∣ width ∧ 2 ∣ height
  inside : width ≤ target.1 ∧ height ≤ target.2
  proportional :
    (width = floorEven target.1 ∧
      NearExact height target.1 (max source.2 1) (max source.1 1)) ∨
    (height = floorEven target.2 ∧
      NearExact width target.2 (max source.1 1) (max source.2 1))

theorem max_one_mul_lt {side bound : Nat} (product : side * bound < 2 ^ 64)
    (small : bound < 2 ^ 64) : max side 1 * bound < 2 ^ 64 := by
  rcases Nat.eq_zero_or_pos side with rfl | positive
  · exact (Nat.one_mul bound).symm ▸ small
  · rwa [Nat.max_eq_left positive]

theorem fitWithin_spec {source target : Nat × Nat} (inRange : InRange source target) :
    ∃ width height, fitWithin source target = some (width, height) ∧
      FittedSize source target width height := by
  obtain ⟨bw, bh⟩ := target
  obtain ⟨wide, tall, widthFits, heightFits⟩ := inRange
  have wide : max source.1 1 * bh < 2 ^ 64 := max_one_mul_lt wide heightFits
  have tall : max source.2 1 * bw < 2 ^ 64 :=
    max_one_mul_lt (Nat.mul_comm .. ▸ tall) widthFits
  have tall' : bw * max source.2 1 < 2 ^ 64 := Nat.mul_comm .. ▸ tall
  have sw : 0 < max source.1 1 := Nat.lt_of_lt_of_le Nat.one_pos (Nat.le_max_right ..)
  have sh : 0 < max source.2 1 := Nat.lt_of_lt_of_le Nat.one_pos (Nat.le_max_right ..)
  have evens : ∀ width height, 2 ∣ min (max (floorEven width) 2) (floorEven bw) ∧
      2 ∣ min (max (floorEven height) 2) (floorEven bh) :=
    fun width height => ⟨two_dvd_side width bw, two_dvd_side height bh⟩
  have insides : ∀ width height, min (max (floorEven width) 2) (floorEven bw) ≤ bw ∧
      min (max (floorEven height) 2) (floorEven bh) ≤ bh :=
    fun width height => ⟨(Nat.min_le_right ..).trans (floorEven_le bw),
      (Nat.min_le_right ..).trans (floorEven_le bh)⟩
  simp only [fitWithin, mulUsize_of_lt wide, mulUsize_of_lt tall, mulUsize_of_lt tall',
    Option.bind_eq_bind, Option.bind_some, Option.map_some]
  by_cases wider : max source.1 1 * bh > bw * max source.2 1
  · rw [if_pos wider]
    refine ⟨_, _, rfl, evens .., insides .., .inl ⟨min_floorEven_self bw, ?_⟩⟩
    rw [Nat.mul_comm (max source.2 1)]
    exact nearExact_side sw (wider.le.trans_eq (Nat.mul_comm ..))
  · rw [if_neg wider]
    refine ⟨_, _, rfl, evens .., insides .., .inr ⟨min_floorEven_self bh, ?_⟩⟩
    rw [Nat.mul_comm (max source.1 1)]
    refine nearExact_side sh ?_
    rw [Nat.mul_comm bh]
    exact Nat.le_of_not_lt wider

/-- What `fitted` computes, it computes without leaving the range, and it fits. -/
theorem fitted_spec {source target : Nat × Nat} (inRange : InRange source target) :
    ∃ rectangle, fitted source target = some rectangle ∧ rectangle.Fits source target := by
  obtain ⟨width, height, computed, even, inside, proportional⟩ := fitWithin_spec inRange
  simp only [fitted, computed, subUsize_of_le inside.1, subUsize_of_le inside.2,
    Option.bind_eq_bind, Option.bind_some]
  have x := floorEven_le ((target.1 - width) / 2)
  have y := floorEven_le ((target.2 - height) / 2)
  exact ⟨_, rfl, ⟨two_dvd_floorEven _, two_dvd_floorEven _, even⟩,
    ⟨by dsimp only; omega, by dsimp only; omega⟩, proportional⟩

/-! ### The planes -/

/-- The bytes of a row and the rows of one plane of a picture. -/
def planeSize (input : Input) (plane : Nat) (size : Nat × Nat) : Nat × Nat :=
  if plane = 0 then size
  else if input = .nv12 then (halfUp size.1 * 2, halfUp size.2)
  else (halfUp size.1, halfUp size.2)

def planes : Input → List Nat
  | .nv12 => [0, 1]
  | .yuv420p => [0, 1, 2]

/-- The bytes of a row of one plane that show the pixels of a column. -/
def columnBytes (input : Input) (plane column : Nat) : List Nat :=
  if plane = 0 then [column]
  else if input = .nv12 then [2 * (column / 2), 2 * (column / 2) + 1]
  else [column / 2]

/-- The row of one plane that shows the pixels of a row. -/
def planeRow (plane row : Nat) : Nat := if plane = 0 then row else row / 2

def Rectangle.Covers (rectangle : Rectangle) (column row : Nat) : Prop :=
  (rectangle.x ≤ column ∧ column < rectangle.x + rectangle.width) ∧
    rectangle.y ≤ row ∧ row < rectangle.y + rectangle.height

def PlaneArea.Covers (area : PlaneArea) (byte row : Nat) : Prop :=
  (area.x ≤ byte ∧ byte < area.x + area.width) ∧ area.y ≤ row ∧ row < area.y + area.height

/-- An area of a plane of a frame: the plane's own size, a part inside it of the size of the
scaled picture's plane, and the bytes of the pixels that the rectangle covers. -/
structure PlaneArea.Lies (area : PlaneArea) (frame : Nat × Nat) (input : Input)
    (rectangle : Rectangle) : Prop where
  size : (area.rowBytes, area.rows) = planeSize input area.plane frame
  inside : area.x + area.width ≤ area.rowBytes ∧ area.y + area.height ≤ area.rows
  scaled : (area.width, area.height) =
    planeSize input area.plane (rectangle.width, rectangle.height)
  region : ∀ column row, ∀ byte ∈ columnBytes input area.plane column,
    area.Covers byte (planeRow area.plane row) ↔ rectangle.Covers column row

theorem planeAreas_planes (frame : Nat × Nat) (input : Input) (rectangle : Rectangle) :
    (planeAreas frame input rectangle).map PlaneArea.plane = planes input := by
  cases input <;> rfl

theorem luma_lies {frame : Nat × Nat} {input : Input} {rectangle : Rectangle}
    (inside : rectangle.x + rectangle.width ≤ frame.1 ∧
      rectangle.y + rectangle.height ≤ frame.2) :
    PlaneArea.Lies ⟨0, 0, frame.1, frame.2, rectangle.x, rectangle.y, rectangle.width,
      rectangle.height⟩ frame input rectangle where
  size := rfl
  inside := inside
  scaled := rfl
  region column row byte shows := by
    rw [List.mem_singleton.mp shows]
    rfl

theorem planeAreas_lies {frame : Nat × Nat} {input : Input} {rectangle : Rectangle}
    (even : 2 ∣ rectangle.x ∧ 2 ∣ rectangle.y ∧ 2 ∣ rectangle.width ∧ 2 ∣ rectangle.height)
    (inside : rectangle.x + rectangle.width ≤ frame.1 ∧
      rectangle.y + rectangle.height ≤ frame.2) :
    ∀ area ∈ planeAreas frame input rectangle, area.Lies frame input rectangle := by
  intro area member
  cases input with
  | nv12 =>
    rcases List.mem_pair.mp member with rfl | rfl
    · exact luma_lies inside
    · refine ⟨rfl, ?_, ?_, fun column row byte shows => ?_⟩
      · dsimp only [halfUp]
        omega
      · simp only [planeSize, halfUp, Prod.mk.injEq, one_ne_zero, ↓reduceIte]
        omega
      · replace shows : byte = 2 * (column / 2) ∨ byte = 2 * (column / 2) + 1 :=
          List.mem_pair.mp shows
        simp only [PlaneArea.Covers, Rectangle.Covers, planeRow, one_ne_zero, ↓reduceIte]
        omega
  | yuv420p =>
    have chroma : ∀ plane ≠ 0, PlaneArea.Lies ⟨plane, 128, halfUp frame.1, halfUp frame.2,
        rectangle.x / 2, rectangle.y / 2, rectangle.width / 2, rectangle.height / 2⟩ frame
        .yuv420p rectangle := by
      intro plane other
      refine ⟨?_, ?_, ?_, fun column row byte shows => ?_⟩
      · simp only [planeSize, other, reduceCtorEq, ↓reduceIte]
      · dsimp only [halfUp]
        omega
      · simp only [planeSize, halfUp, other, Prod.mk.injEq, reduceCtorEq, ↓reduceIte]
        omega
      · simp only [columnBytes, other, reduceCtorEq, ↓reduceIte, List.mem_singleton] at shows
        simp only [PlaneArea.Covers, Rectangle.Covers, planeRow, other, ↓reduceIte]
        omega
    simp only [planeAreas, List.mem_cons, List.not_mem_nil, or_false] at member
    rcases member with rfl | rfl | rfl
    · exact luma_lies inside
    · exact chroma 1 (by decide)
    · exact chroma 2 (by decide)

/-! ### The rows -/

/-- A picture with the rows and at least the bytes of each plane of its size. -/
def HoldsPlanes (picture : Nat → List (List UInt8)) (input : Input) (size : Nat × Nat) : Prop :=
  ∀ plane ∈ planes input, (picture plane).length = (planeSize input plane size).2 ∧
    ∀ line ∈ picture plane, (planeSize input plane size).1 ≤ line.length

theorem PlaneArea.line_length {area : PlaneArea} {scaled : List (List UInt8)} {row : Nat}
    (inside : area.x + area.width ≤ area.rowBytes) (rows : scaled.length = area.height)
    (bytes : ∀ line ∈ scaled, area.width ≤ line.length) :
    ∃ line, area.line scaled row = some line ∧ line.length = area.rowBytes := by
  unfold line
  split
  · have within : row - area.y < scaled.length := by omega
    have enough := bytes _ (List.getElem_mem within)
    rw [List.getElem?_eq_getElem within]
    simp only [Option.bind_eq_bind, Option.bind_some, subUsize_of_le inside, if_pos enough]
    refine ⟨_, rfl, ?_⟩
    rw [List.length_append, List.length_append, List.length_replicate, List.length_replicate,
      List.length_take_of_le enough]
    omega
  · exact ⟨_, rfl, List.length_replicate⟩

theorem mapM_of_total {α β : Type} {f : α → Option β} {good : α → β → Prop} {items : List α}
    (total : ∀ item ∈ items, ∃ image, f item = some image ∧ good item image) :
    ∃ images, items.mapM f = some images ∧ List.Forall₂ good items images := by
  induction items with
  | nil => exact ⟨[], rfl, .nil⟩
  | cons item rest inductionHypothesis =>
    obtain ⟨image, found, fine⟩ := total item List.mem_cons_self
    obtain ⟨images, mapped, others⟩ :=
      inductionHypothesis fun item member => total item (List.mem_cons_of_mem _ member)
    exact ⟨image :: images, by rw [List.mapM_cons, found, mapped]; rfl, .cons fine others⟩

theorem forall_mem_of_forall₂ {α β : Type} {good : β → Prop} {items : List α} {images : List β}
    (pairs : List.Forall₂ (fun _ image => good image) items images) :
    ∀ image ∈ images, good image := by
  induction pairs with
  | nil => exact fun image member => absurd member List.not_mem_nil
  | cons fine _ inductionHypothesis => exact List.forall_mem_cons.mpr ⟨fine, inductionHypothesis⟩

/-- Every row of every plane is written, with as many bytes as the plane's rows have. -/
theorem fit_spec {frame : Nat × Nat} {input : Input} {rectangle : Rectangle}
    {scaled : Nat → List (List UInt8)}
    (lies : ∀ area ∈ planeAreas frame input rectangle, area.Lies frame input rectangle)
    (holds : HoldsPlanes scaled input (rectangle.width, rectangle.height)) :
    ∃ written, fit frame input rectangle scaled = some written ∧
      List.Forall₂ (fun plane lines => lines.length = (planeSize input plane frame).2 ∧
        ∀ line ∈ lines, line.length = (planeSize input plane frame).1) (planes input) written := by
  rw [← planeAreas_planes frame input rectangle]
  simp only [List.forall₂_map_left_iff]
  refine mapM_of_total fun area member => ?_
  obtain ⟨size, inside, covered, _⟩ := lies area member
  obtain ⟨rows, bytes⟩ := holds area.plane
    (planeAreas_planes frame input rectangle ▸ List.mem_map_of_mem member)
  rw [← covered] at rows bytes
  have eachRow : ∀ row ∈ List.range area.rows, ∃ line,
      area.line (scaled area.plane) row = some line ∧ line.length = area.rowBytes :=
    fun row _ => PlaneArea.line_length inside.1 rows bytes
  obtain ⟨lines, mapped, lengths⟩ := mapM_of_total eachRow
  refine ⟨lines, mapped, ?_, fun line among => ?_⟩
  · rw [← lengths.length_eq, List.length_range, ← size]
  · rw [forall_mem_of_forall₂ lengths line among, ← size]

/-- Whatever the sizes, what `fitted` computes stays in range and fits; each area of a frame of
the target size lies in its plane, over the same pixels; and every row of every plane is
written whole. -/
theorem fitted_inside (source target : Nat × Nat) (input : Input) (inRange : InRange source target) :
    ∃ rectangle, fitted source target = some rectangle ∧ rectangle.Fits source target ∧
      (planeAreas target input rectangle).map PlaneArea.plane = planes input ∧
      (∀ area ∈ planeAreas target input rectangle, area.Lies target input rectangle) ∧
      ∀ scaled, HoldsPlanes scaled input (rectangle.width, rectangle.height) →
        ∃ written, fit target input rectangle scaled = some written ∧
          List.Forall₂ (fun plane lines => lines.length = (planeSize input plane target).2 ∧
            ∀ line ∈ lines, line.length = (planeSize input plane target).1)
            (planes input) written := by
  obtain ⟨rectangle, computed, fits⟩ := fitted_spec inRange
  have lies := @planeAreas_lies _ input _ fits.even fits.inside
  exact ⟨rectangle, computed, fits, planeAreas_planes .., lies, fun _ => fit_spec lies⟩

theorem fitted_inside_small :
    ∃ rectangle, fitted (4, 2) (3, 3) = some rectangle ∧
      ∃ written, fit (3, 3) .nv12 rectangle
        (fun plane => if plane = 0 then [[1, 2], [3, 4]] else [[5, 6]]) = some written := by
  obtain ⟨rectangle, computed, _, _, _, writes⟩ :=
    fitted_inside (4, 2) (3, 3) .nv12 ⟨by decide, by decide, by decide, by decide⟩
  obtain rfl : ⟨0, 0, 2, 2⟩ = rectangle :=
    Option.some.inj ((by decide : some ⟨0, 0, 2, 2⟩ = fitted (4, 2) (3, 3)).trans computed)
  obtain ⟨written, done, _⟩ := writes
    (fun plane => if plane = 0 then [[1, 2], [3, 4]] else [[5, 6]]) (by unfold HoldsPlanes; decide)
  exact ⟨_, computed, written, done⟩

end Fitter

end Throcc
