import Mathlib.Order.Bounds.Basic
import Nachos.Filesys.FileHeader
import Nachos.Machine.Interrupt

/-!
# The timing of the disk

`Disk::TimeToSeek`, `ModuloDiff`, `ComputeLatency` and `UpdateLast` of `machine/disk.cc`, with the track
buffer, and `ReadRequest` and `WriteRequest` up to the copy of the sector.  Ticks are integers: they are
taken to stay below 2^31.

* `timeToSeek_spec` — when the head is at a sector boundary.
* `computeLatency_least` — the transfer starts the first time the sector comes by.
* `disk_latency` — the latency with and without the track buffer, and the interrupt of a request.
-/

set_option autoImplicit false

namespace Nachos

def SectorsPerTrack : Int := 32
def SeekTime : Int := 500
def RotationTime : Int := 500

/-- `class Disk`, without the file of the host. -/
structure DiskDevice where
  active : Bool
  lastSector : Int
  bufferInit : Int

namespace DiskDevice

/-- `Disk::Disk`. -/
def init : DiskDevice := ⟨false, 0, 0⟩

/-- `Disk::TimeToSeek`: the time, and `*rotation`. -/
def timeToSeek (d : DiskDevice) (totalTicks newSector : Int) : Int × Int :=
  let newTrack := newSector.tdiv SectorsPerTrack
  let oldTrack := d.lastSector.tdiv SectorsPerTrack
  let seek := (newTrack - oldTrack).natAbs * SeekTime
  let overTicks := (totalTicks + seek).tmod RotationTime
  (seek, if overTicks > 0 then RotationTime - overTicks else 0)

/-- `Disk::ModuloDiff`. -/
def moduloDiff (toSector fromSector : Int) : Int :=
  let toOffset := toSector.tmod SectorsPerTrack
  let fromOffset := fromSector.tmod SectorsPerTrack
  ((toOffset - fromOffset) + SectorsPerTrack).tmod SectorsPerTrack

/-- The test whether the track buffer applies; `seek` and `timeAfter` are those of `ComputeLatency`. -/
def buffered (d : DiskDevice) (newSector : Int) (writing : Bool) (seek timeAfter : Int) : Bool :=
  !writing && decide (seek = 0) &&
    decide ((timeAfter - d.bufferInit).tdiv RotationTime > moduloDiff newSector (d.bufferInit.tdiv RotationTime))

/-- `Disk::ComputeLatency`. -/
def computeLatency (d : DiskDevice) (totalTicks newSector : Int) (writing : Bool) : Int :=
  let (seek, rotation) := d.timeToSeek totalTicks newSector
  let timeAfter := totalTicks + seek + rotation
  if d.buffered newSector writing seek timeAfter then RotationTime
  else
    let rotation := rotation + moduloDiff newSector (timeAfter.tdiv RotationTime) * RotationTime
    seek + rotation + RotationTime

/-- `Disk::UpdateLast`. -/
def updateLast (d : DiskDevice) (totalTicks newSector : Int) : DiskDevice :=
  let (seek, rotate) := d.timeToSeek totalTicks newSector
  { d with
    bufferInit := if seek ≠ 0 then totalTicks + seek + rotate else d.bufferInit
    lastSector := newSector }

/-- `Disk::ReadRequest` and `Disk::WriteRequest`; `handler` is `DiskDone`, and `arg` is `this`. -/
def request {η κ : Type} (d : DiskDevice) (writing : Bool) (s : Interrupt η κ) (handler : η) (arg sectorNumber : Int) :
    Option (DiskDevice × Interrupt η κ) := do
  let ticks := d.computeLatency s.stats.totalTicks sectorNumber writing
  if d.active then none
  else if ¬ (0 ≤ sectorNumber ∧ sectorNumber < NumSectors) then none
  else
    let d := updateLast { d with active := true } s.stats.totalTicks sectorNumber
    let s ← s.schedule ⟨handler, arg, ticks, .diskInt⟩
    some (d, s)

/-- The sector of the last request is one. -/
def Valid (d : DiskDevice) : Prop := 0 ≤ d.lastSector ∧ d.lastSector < NumSectors

variable {d : DiskDevice} {totalTicks newSector : Int}

/-- The time of the seek, one `SeekTime` for every track. -/
def seekTime (d : DiskDevice) (newSector : Int) : Int :=
  (newSector / SectorsPerTrack - d.lastSector / SectorsPerTrack).natAbs * SeekTime

theorem seekTime_nonneg : 0 ≤ d.seekTime newSector := by
  unfold seekTime SeekTime
  omega

/-- The head is at a sector boundary after the seek and the rest of a sector. -/
theorem timeToSeek_spec (ht : 0 ≤ totalTicks) (hd : d.Valid) (hs : 0 ≤ newSector) :
    ∃ rotation, d.timeToSeek totalTicks newSector = (d.seekTime newSector, rotation) ∧
      0 ≤ rotation ∧ rotation < RotationTime ∧ (totalTicks + d.seekTime newSector + rotation) % RotationTime = 0 := by
  have hseek : 0 ≤ d.seekTime newSector := seekTime_nonneg
  unfold timeToSeek
  dsimp only
  rw [Int.tdiv_eq_ediv_of_nonneg hs, Int.tdiv_eq_ediv_of_nonneg hd.1]
  change ∃ rotation, (d.seekTime newSector, if (totalTicks + d.seekTime newSector).tmod RotationTime > 0 then
    RotationTime - (totalTicks + d.seekTime newSector).tmod RotationTime else 0) = _ ∧ _
  rw [Int.tmod_eq_emod_of_nonneg (by omega)]
  refine ⟨_, rfl, ?_⟩
  unfold RotationTime
  split
  · omega
  · omega

theorem moduloDiff_eq {toSector fromSector : Int} (ht : 0 ≤ toSector) (hf : 0 ≤ fromSector) :
    moduloDiff toSector fromSector = (toSector - fromSector) % SectorsPerTrack := by
  unfold moduloDiff SectorsPerTrack
  rw [Int.tmod_eq_emod_of_nonneg ht, Int.tmod_eq_emod_of_nonneg hf]
  dsimp only
  rw [Int.tmod_eq_emod_of_nonneg (by omega)]
  omega

/-- The starts of the sector at which the head can be from `earliest` on. -/
def starts (earliest newSector : Int) : Set Int :=
  {start | RotationTime ∣ start ∧ earliest ≤ start ∧ start / RotationTime % SectorsPerTrack = newSector % SectorsPerTrack}

/-- The test for the track buffer, as `ComputeLatency` makes it. -/
def Buffered (d : DiskDevice) (totalTicks newSector : Int) (writing : Bool) : Prop :=
  d.buffered newSector writing (d.timeToSeek totalTicks newSector).1
    (totalTicks + (d.timeToSeek totalTicks newSector).1 + (d.timeToSeek totalTicks newSector).2) = true

instance (d : DiskDevice) (totalTicks newSector : Int) (writing : Bool) :
    Decidable (d.Buffered totalTicks newSector writing) := inferInstanceAs (Decidable (_ = true))

theorem computeLatency_buffered {writing : Bool} (h : d.Buffered totalTicks newSector writing) :
    d.computeLatency totalTicks newSector writing = RotationTime := if_pos h

/-- **Without the track buffer the transfer starts the first time the sector comes by** after the seek. -/
theorem computeLatency_least {writing : Bool} (ht : 0 ≤ totalTicks) (hd : d.Valid) (hs : 0 ≤ newSector)
    (h : ¬ d.Buffered totalTicks newSector writing) :
    IsLeast (starts (totalTicks + d.seekTime newSector) newSector)
      (totalTicks + d.computeLatency totalTicks newSector writing - RotationTime) := by
  have hseek : 0 ≤ d.seekTime newSector := seekTime_nonneg
  obtain ⟨rotation, htime, hrot, hlt, hboundary⟩ := timeToSeek_spec ht hd hs
  have hlatency : d.computeLatency totalTicks newSector writing =
      d.seekTime newSector + (rotation + moduloDiff newSector
        ((totalTicks + d.seekTime newSector + rotation).tdiv RotationTime) * RotationTime) + RotationTime := by
    unfold Buffered at h
    unfold computeLatency
    rw [htime] at h ⊢
    exact if_neg h
  rw [Int.tdiv_eq_ediv_of_nonneg (by omega), moduloDiff_eq hs (by unfold RotationTime; omega)] at hlatency
  rw [hlatency]
  generalize d.seekTime newSector = seek at *
  unfold starts
  unfold RotationTime SectorsPerTrack at *
  constructor
  · refine ⟨by omega, by omega, by omega⟩
  · rintro start ⟨hdvd, hle, hsector⟩
    omega

/-- With it the latency is not longer than the latency without it. -/
theorem rotationTime_le_computeLatency (ht : 0 ≤ totalTicks) (hd : d.Valid) (hs : 0 ≤ newSector) (writing : Bool) :
    RotationTime ≤ d.computeLatency totalTicks newSector writing := by
  by_cases h : d.Buffered totalTicks newSector writing
  · rw [computeLatency_buffered h]
  · obtain ⟨⟨-, hle, -⟩, -⟩ := computeLatency_least ht hd hs h
    have hseek : 0 ≤ d.seekTime newSector := seekTime_nonneg
    omega

/-- A write does not use the track buffer. -/
theorem not_buffered_write : ¬ d.Buffered totalTicks newSector true := by
  unfold Buffered buffered
  simp

theorem request_some {η κ : Type} {writing : Bool} {s : Interrupt η κ} {handler : η} {arg : Int}
    (hpos : 0 < d.computeLatency s.stats.totalTicks newSector writing)
    (hs : 0 ≤ newSector ∧ newSector < NumSectors) (hactive : d.active = false) :
    ∃ d' s', d.request writing s handler arg newSector = some (d', s') := by
  have hsched : ∃ u, s.schedule ⟨handler, arg, d.computeLatency s.stats.totalTicks newSector writing, .diskInt⟩ =
      some u := ⟨_, if_pos hpos⟩
  obtain ⟨u, hu⟩ := hsched
  unfold request
  rw [if_neg (by rw [hactive]; exact Bool.false_ne_true), if_neg (not_not.mpr hs), hu]
  exact ⟨_, _, rfl⟩

/-- A request leaves the disk with a valid last sector, so every disk has one. -/
theorem request_valid {η κ : Type} {writing : Bool} {s s' : Interrupt η κ} {handler : η} {arg : Int}
    {d' : DiskDevice} (h : d.request writing s handler arg newSector = some (d', s')) : d'.Valid := by
  unfold request at h
  dsimp only at h
  split at h
  · cases h
  · split at h
    · cases h
    · rename_i hsector
      obtain ⟨u, -, hu⟩ := Option.bind_eq_some_iff.1 h
      cases hu
      exact not_not.mp hsector

/-- A request that is taken: the disk was idle, and the interrupt is scheduled. -/
theorem request_eq {η κ : Type} {writing : Bool} {s s' : Interrupt η κ} {handler : η} {arg : Int}
    {d' : DiskDevice} (h : d.request writing s handler arg newSector = some (d', s')) :
    d.active = false ∧ d'.active = true ∧
      s.schedule ⟨handler, arg, d.computeLatency s.stats.totalTicks newSector writing, .diskInt⟩ = some s' := by
  unfold request at h
  dsimp only at h
  split at h
  · cases h
  · rename_i hactive
    split at h
    · cases h
    · obtain ⟨u, hsched, hu⟩ := Option.bind_eq_some_iff.1 h
      cases hu
      exact ⟨by simpa using hactive, rfl, hsched⟩

/-- A request that fails an assertion. -/
theorem request_none {η κ : Type} {writing : Bool} {s : Interrupt η κ} {handler : η} {arg : Int}
    (h : d.active = true ∨ ¬ (0 ≤ newSector ∧ newSector < NumSectors)) :
    d.request writing s handler arg newSector = none := by
  unfold request
  dsimp only
  rcases h with hactive | hsector
  · rw [if_pos hactive]
  · rw [if_pos hsector, ite_self]

theorem init_valid : init.Valid := ⟨le_refl _, by decide⟩

end DiskDevice

open DiskDevice in
/-- **Disk latency is the exact rotational schedule**: without the track buffer the transfer starts at the
least sector boundary after the seek that is the start of the sector, with it the latency is that of the
transfer, and the interrupt of a request can always be scheduled. -/
theorem disk_latency {d : DiskDevice} {totalTicks newSector : Int} (ht : 0 ≤ totalTicks) (hd : d.Valid)
    (hs : 0 ≤ newSector ∧ newSector < NumSectors) (writing : Bool) :
    (¬ d.Buffered totalTicks newSector writing →
      IsLeast (starts (totalTicks + d.seekTime newSector) newSector)
        (totalTicks + d.computeLatency totalTicks newSector writing - RotationTime)) ∧
    (d.Buffered totalTicks newSector writing →
      d.computeLatency totalTicks newSector writing = RotationTime ∧
      ¬ d.Buffered totalTicks newSector true ∧ RotationTime ≤ d.computeLatency totalTicks newSector true) ∧
    0 < d.computeLatency totalTicks newSector writing ∧
    ∀ {η κ : Type} (s : Interrupt η κ) (handler : η) (arg : Int), s.stats.totalTicks = totalTicks →
      d.active = false → ∃ d' s', d.request writing s handler arg newSector = some (d', s') := by
  have hle := rotationTime_le_computeLatency ht hd hs.1
  have hpos : 0 < d.computeLatency totalTicks newSector writing := lt_of_lt_of_le (by decide) (hle writing)
  refine ⟨computeLatency_least ht hd hs.1, ?_, hpos, ?_⟩
  · intro hbuf
    exact ⟨computeLatency_buffered hbuf, not_buffered_write, hle true⟩
  · intro η κ s handler arg hticks hactive
    subst hticks
    exact request_some hpos hs hactive

open DiskDevice in
/-- A read of sector 33 at time 1250, the head being over track 0. -/
theorem disk_latency_33 : IsLeast (starts (1250 + init.seekTime 33) 33) (1250 + init.computeLatency 1250 33 false - 500) :=
  (disk_latency (by decide) init_valid (by decide) false).1 (by decide)

end Nachos
