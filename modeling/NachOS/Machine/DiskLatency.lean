import NachOS.Machine.Hardware
import Mathlib.Data.Int.ModEq
import Mathlib.Order.Bounds.Defs

/-!
# The latency of the disk

`TimeToSeek`, `ModuloDiff` and `ComputeLatency` of `disk.cc`. The disk moves its head by one track
in `SeekTime` ticks and rotates by one sector in `RotationTime` ticks; a request is done when its
sector has passed the head.
-/

namespace NachOS

/-- `RotationTime` of `stats.h`. -/
def rotationTime : ℤ := 500

/-- `SeekTime`. -/
def seekTime : ℤ := 500

/-- `SectorsPerTrack` of `disk.h`. -/
def sectorsPerTrack : ℤ := 32

/-- `NumTracks`. -/
def numTracks : ℤ := 32

theorem rotationTime_eq : rotationTime = 500 := rfl
theorem seekTime_eq : seekTime = 500 := rfl
theorem sectorsPerTrack_eq : sectorsPerTrack = 32 := rfl
theorem numTracks_eq : numTracks = 32 := rfl

/-- What the latency of a request depends on: of `Disk` the last sector and when its track began to
be read into the buffer, and `stats->totalTicks`. -/
structure DiskHead where
  lastSector : ℤ
  bufferInit : ℤ
  totalTicks : ℤ

namespace DiskHead

/-- `TimeToSeek`: what it returns and what it stores in `*rotation`. -/
def timeToSeek (d : DiskHead) (newSector : ℤ) : ℤ × ℤ :=
  let newTrack := newSector.tdiv sectorsPerTrack
  let oldTrack := d.lastSector.tdiv sectorsPerTrack
  let seek := toInt ((newTrack - oldTrack).natAbs * seekTime)
  let overTime := (toInt (d.totalTicks + seek)).tmod rotationTime
  (seek, if overTime > 0 then rotationTime - overTime else 0)

/-- `ModuloDiff`. -/
def moduloDiff (toSector fromSector : ℤ) : ℤ :=
  let toOffset := toSector.tmod sectorsPerTrack
  let fromOffset := fromSector.tmod sectorsPerTrack
  ((toOffset - fromOffset) + sectorsPerTrack).tmod sectorsPerTrack

/-- `timeAfter` of `ComputeLatency`. -/
def timeAfter (d : DiskHead) (newSector : ℤ) : ℤ :=
  toInt (toInt (d.totalTicks + (d.timeToSeek newSector).1) + (d.timeToSeek newSector).2)

/-- "check if track buffer applies". -/
def BufferApplies (d : DiskHead) (newSector : ℤ) (writing : Bool) : Prop :=
  writing = false ∧ (d.timeToSeek newSector).1 = 0 ∧
    (toInt (d.timeAfter newSector - d.bufferInit)).tdiv rotationTime >
      moduloDiff newSector (d.bufferInit.tdiv rotationTime)

instance (d : DiskHead) (newSector : ℤ) (writing : Bool) :
    Decidable (d.BufferApplies newSector writing) :=
  inferInstanceAs (Decidable (_ ∧ _ ∧ _))

/-- `ComputeLatency`. -/
def computeLatency (d : DiskHead) (newSector : ℤ) (writing : Bool) : ℤ :=
  if d.BufferApplies newSector writing then rotationTime
  else
    let rotation := (d.timeToSeek newSector).2 +
      moduloDiff newSector ((d.timeAfter newSector).tdiv rotationTime) * rotationTime
    toInt ((d.timeToSeek newSector).1 + rotation + rotationTime)

/-- A number of a sector: one of `NumSectors`. -/
def IsSector (sector : ℤ) : Prop := 0 ≤ sector ∧ sector < sectorsPerTrack * numTracks

/-! ## Seek, rounding and distance -/

/-- The next sector boundary. -/
def boundary (t : ℤ) : ℤ := t + (-t) % rotationTime

/-- The time that the head moves from track to track. -/
def seekTicks (d : DiskHead) (newSector : ℤ) : ℤ :=
  (newSector / sectorsPerTrack - d.lastSector / sectorsPerTrack).natAbs * seekTime

/-- A request for a sector at a time, for which the clock stays in the range of an `int`. -/
structure Request (d : DiskHead) (newSector : ℤ) : Prop where
  last_isSector : IsSector d.lastSector
  new_isSector : IsSector newSector
  bufferInit : 0 ≤ d.bufferInit
  totalTicks : 0 ≤ d.totalTicks
  inRange : boundary (d.totalTicks + d.seekTicks newSector) < 2 ^ 31

section Latency

variable {d : DiskHead} {newSector : ℤ}

/-- `boundary` is the first multiple of `RotationTime` that is not before `t`. -/
theorem boundary_spec (t : ℤ) :
    t ≤ boundary t ∧ boundary t < t + rotationTime ∧ boundary t % rotationTime = 0 := by
  unfold boundary
  rw [rotationTime_eq]
  omega

/-- A seek passes at most 31 tracks. -/
theorem Request.seekTicks_bounds (h : d.Request newSector) :
    0 ≤ d.seekTicks newSector ∧ d.seekTicks newSector ≤ 31 * 500 := by
  have hlast := h.last_isSector
  have hnew := h.new_isSector
  unfold IsSector at hlast hnew
  rw [sectorsPerTrack_eq, numTracks_eq] at hlast hnew
  rw [seekTicks, sectorsPerTrack_eq, seekTime_eq]
  omega

/-- `TimeToSeek` takes the ticks of a seek to the new track, for every sector of the disk. -/
theorem Request.seek_eq (h : d.Request newSector) :
    (d.timeToSeek newSector).1 = d.seekTicks newSector := by
  have hbounds := h.seekTicks_bounds
  have hseek : (newSector.tdiv sectorsPerTrack - d.lastSector.tdiv sectorsPerTrack).natAbs *
      seekTime = d.seekTicks newSector := by
    rw [Int.tdiv_eq_ediv_of_nonneg h.new_isSector.1, Int.tdiv_eq_ediv_of_nonneg h.last_isSector.1]
    rfl
  rw [timeToSeek]
  dsimp only
  rw [hseek, toInt_of_range (by omega) (by omega)]

/-- The head waits for the next sector boundary. -/
theorem Request.rotation_eq (h : d.Request newSector) :
    (d.timeToSeek newSector).2 = boundary (d.totalTicks + d.seekTicks newSector) -
      (d.totalTicks + d.seekTicks newSector) := by
  have hbounds := h.seekTicks_bounds
  have hticks := h.totalTicks
  have hrange := h.inRange
  have hboundary := boundary_spec (d.totalTicks + d.seekTicks newSector)
  have hseek := h.seek_eq
  rw [timeToSeek] at hseek ⊢
  dsimp only at hseek ⊢
  rw [hseek, toInt_of_range (by omega) (by omega), Int.tmod_eq_emod_of_nonneg (by omega)]
  unfold boundary
  rw [rotationTime_eq]
  split_ifs with hover
  · omega
  · omega

/-- `ComputeLatency` waits for the sector boundary after the seek. -/
theorem Request.timeAfter_eq (h : d.Request newSector) :
    d.timeAfter newSector = boundary (d.totalTicks + d.seekTicks newSector) := by
  have hbounds := h.seekTicks_bounds
  have hticks := h.totalTicks
  have hrange := h.inRange
  have hboundary := boundary_spec (d.totalTicks + d.seekTicks newSector)
  have hsought : toInt (d.totalTicks + d.seekTicks newSector) =
      d.totalTicks + d.seekTicks newSector := toInt_of_range (by omega) (by omega)
  rw [timeAfter, h.seek_eq, h.rotation_eq, hsought, toInt_of_range (by omega) (by omega)]
  omega

/-- `ModuloDiff` is the distance around the track. -/
theorem moduloDiff_eq {toSector fromSector : ℤ} (hto : 0 ≤ toSector) (hfrom : 0 ≤ fromSector) :
    moduloDiff toSector fromSector = (toSector - fromSector) % sectorsPerTrack := by
  rw [moduloDiff, Int.tmod_eq_emod_of_nonneg hto, Int.tmod_eq_emod_of_nonneg hfrom, sectorsPerTrack_eq,
    Int.tmod_eq_emod_of_nonneg (by omega)]
  omega

/-- The sector boundary after the seek is the start of one sector; the target has passed the head
when the sectors up to it have, and it itself. -/
theorem Request.computeLatency_eq (h : d.Request newSector) {writing : Bool}
    (hbuffer : ¬ d.BufferApplies newSector writing) :
    d.totalTicks + d.computeLatency newSector writing =
      boundary (d.totalTicks + d.seekTicks newSector) + ((newSector -
        boundary (d.totalTicks + d.seekTicks newSector) / rotationTime) % sectorsPerTrack + 1) *
          rotationTime := by
  have hbounds := h.seekTicks_bounds
  have hticks := h.totalTicks
  have hboundary := boundary_spec (d.totalTicks + d.seekTicks newSector)
  rw [rotationTime_eq] at hboundary
  rw [computeLatency, if_neg hbuffer]
  dsimp only
  rw [h.seek_eq, h.rotation_eq, h.timeAfter_eq, Int.tdiv_eq_ediv_of_nonneg (by omega),
    moduloDiff_eq h.new_isSector.1 (by rw [rotationTime_eq]; omega), rotationTime_eq,
    sectorsPerTrack_eq, toInt_of_range (by omega) (by omega)]
  omega

/-- Every request takes time, as `Schedule` asserts. -/
theorem Request.computeLatency_pos (h : d.Request newSector) (writing : Bool) :
    0 < d.computeLatency newSector writing := by
  by_cases hbuffer : d.BufferApplies newSector writing
  · rw [computeLatency, if_pos hbuffer, rotationTime_eq]
    decide
  · have heq := h.computeLatency_eq hbuffer
    have hbounds := h.seekTicks_bounds
    have hboundary := boundary_spec (d.totalTicks + d.seekTicks newSector)
    rw [rotationTime_eq, sectorsPerTrack_eq] at heq
    omega

end Latency

/-- Every request takes some time. If it is not served from the track buffer it is done as soon as
the head has moved to the track and has then passed the whole sector. -/
theorem latency_isLeast (d : DiskHead) (newSector : ℤ) (writing : Bool)
    (h : d.Request newSector) :
    0 < d.computeLatency newSector writing ∧
    (¬ d.BufferApplies newSector writing →
      IsLeast {T : ℤ | rotationTime ∣ T ∧
          T / rotationTime - 1 ≡ newSector [ZMOD sectorsPerTrack] ∧
          d.totalTicks + d.seekTicks newSector ≤ T - rotationTime}
        (d.totalTicks + d.computeLatency newSector writing)) := by
  refine ⟨h.computeLatency_pos writing, fun hbuffer => ?_⟩
  have hboundary := boundary_spec (d.totalTicks + d.seekTicks newSector)
  rw [h.computeLatency_eq hbuffer]
  rw [rotationTime_eq] at hboundary ⊢
  rw [sectorsPerTrack_eq]
  constructor
  · -- the request is done when the head is at the end of the sector
    refine ⟨?_, ?_, ?_⟩
    · omega
    · unfold Int.ModEq
      omega
    · omega
  · -- a later boundary is a whole number of sectors later
    intro T hT
    obtain ⟨hdvd, hsector, hseek⟩ := hT
    unfold Int.ModEq at hsector
    omega

/-- A read on the fourth track, from the first one and in the middle of a sector: the head moves for
`1500` ticks, and the sector has passed it at `19000`. -/
theorem latency_isLeast_across :
    0 < computeLatency ⟨5, 0, 1234⟩ 101 false ∧
      IsLeast {T : ℤ | rotationTime ∣ T ∧ T / rotationTime - 1 ≡ 101 [ZMOD sectorsPerTrack] ∧
          1234 + 1500 ≤ T - rotationTime} 19000 := by
  have hstart : boundary (1234 + seekTicks ⟨5, 0, 1234⟩ 101) = 3000 := by decide
  have hrequest : Request ⟨5, 0, 1234⟩ 101 :=
    ⟨⟨by decide, by decide⟩, ⟨by decide, by decide⟩, by decide, by decide, by rw [hstart]; decide⟩
  exact ⟨(latency_isLeast ⟨5, 0, 1234⟩ 101 false hrequest).1,
    (latency_isLeast ⟨5, 0, 1234⟩ 101 false hrequest).2 (by decide)⟩

end DiskHead
end NachOS
