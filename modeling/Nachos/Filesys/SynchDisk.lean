import Nachos.Filesys.Stub
import Nachos.Machine.Devices
import Nachos.Machine.Disk
import Nachos.Threads.Synch

/-!
# The synchronous disk

`class Disk` of `machine/disk.cc` on its UNIX file, and `SynchDisk` of `filesys/synchdisk.cc` over it,
on the interrupt simulator.  Any number of threads call `ReadSector` and `WriteSector`; `Lock::Acquire`
and `Release` of `threads/synch.cc` do nothing, so that the calls may overlap.  The other devices and
the rest of the kernel are any handlers `H` and any state `ρ` that leave the disk alone.

`log` is history: the requests, in the order in which the disk took them.

* `contents_overwrite`, `transfer_serves` — a request does to the UNIX file what `readSector` and
  `writeSector` do to an array of sectors.
* `step_inv` — one step of any thread, device or handler.
* `synchDisk_serves` — every run.
-/

set_option autoImplicit false

namespace Nachos

open Transition

def MagicNumber : Word := 0x456789ab
def MagicSize : Nat := 4
def DiskSize : Nat := MagicSize + NumSectors * SectorSize

namespace DiskFile

/-- The bytes of an `int` in a file. -/
def intBytes (w : Word) : List Byte := (List.range 4).map (Bytes.byte w)

/-- `Disk::Disk`: the file that is there, or a new one; `none` is a failed `ASSERT`. -/
def openDisk : Option (List Byte) → Option (List Byte)
  | some file =>
    if file.length < MagicSize then none
    else if Bytes.wordAt (fun a => file.getD a 0) 0 = MagicNumber then some file
    else none
  | none =>
    let file := Stub.overwrite [] 0 (intBytes MagicNumber)
    some (Stub.overwrite file (DiskSize - 4) (intBytes 0))

/-- The array of sectors in a file. -/
def contents (file : List Byte) : Disk := fun a => file.getD (MagicSize + a) 0

/-- A file that holds a whole disk. -/
structure Proper (file : List Byte) : Prop where
  size : DiskSize ≤ file.length
  magic : openDisk (some file) = some file

variable {file : List Byte}

/-- What a file holds after `write`; a gap before it is filled with zeros. -/
theorem getD_overwrite (c l : List Byte) (p a : Nat) :
    (Stub.overwrite c p l).getD a 0 = if p ≤ a ∧ a < p + l.length then l.getD (a - p) 0 else c.getD a 0 := by
  unfold Stub.overwrite
  split
  · rename_i hl
    subst hl
    rw [if_neg (by simp only [List.length_nil]; omega)]
  · have hp : ((c ++ List.replicate (p - c.length) 0).take p).length = p := by
      rw [List.length_take, List.length_append, List.length_replicate]
      omega
    rw [List.append_assoc, List.getD_eq_getElem?_getD]
    rcases Nat.lt_or_ge a p with hlt | hge
    · rw [List.getElem?_append_left (by omega), List.getElem?_take_of_lt hlt, if_neg (by omega),
        List.getD_eq_getElem?_getD]
      rcases Nat.lt_or_ge a c.length with hc | hc
      · rw [List.getElem?_append_left hc]
      · rw [List.getElem?_append_right hc, List.getElem?_replicate_of_lt (by omega), List.getElem?_eq_none hc]
        rfl
    · rw [List.getElem?_append_right (by omega), hp]
      rcases Nat.lt_or_ge a (p + l.length) with hin | hout
      · rw [List.getElem?_append_left (by omega), if_pos ⟨hge, hin⟩, ← List.getD_eq_getElem?_getD]
      · rw [List.getElem?_append_right (by omega), List.getElem?_drop, if_neg (by omega),
          show p + l.length + (a - p - l.length) = a by omega, ← List.getD_eq_getElem?_getD]

/-- Where a sector is in the file. -/
theorem sector_inside (hp : Proper file) {n : Nat} (hn : n < NumSectors) :
    SectorSize * n + MagicSize + SectorSize ≤ file.length := by
  have hsize := hp.size
  unfold DiskSize at hsize
  simp only [NumSectors, SectorSize, MagicSize] at *
  omega

/-- A sector that is written, in the array of sectors. -/
theorem contents_overwrite (n : Nat) {l : List Byte} (hl : l.length = SectorSize) (a : Nat) :
    contents (Stub.overwrite file (SectorSize * n + MagicSize) l) a =
      if n * SectorSize ≤ a ∧ a < n * SectorSize + SectorSize then l.getD (a - n * SectorSize) 0
      else contents file a := by
  unfold contents
  rw [getD_overwrite, hl]
  by_cases h : n * SectorSize ≤ a ∧ a < n * SectorSize + SectorSize
  · rw [if_pos h, if_pos (by rw [Nat.mul_comm SectorSize n]; omega)]
    congr 1
    rw [Nat.mul_comm SectorSize n]
    omega
  · rw [if_neg h, if_neg (by rw [Nat.mul_comm SectorSize n]; omega)]

theorem openDisk_magic : openDisk (some file) = some file ↔
    MagicSize ≤ file.length ∧ Bytes.wordAt (fun a => file.getD a 0) 0 = MagicNumber := by
  unfold openDisk
  dsimp only
  split
  · rename_i h
    constructor
    · intro hx; cases hx
    · intro hx; omega
  · rename_i h
    split
    · rename_i hm
      exact ⟨fun _ => ⟨by omega, hm⟩, fun _ => rfl⟩
    · rename_i hm
      constructor
      · intro hx; cases hx
      · exact fun hx => absurd hx.2 hm

/-- A write behind the magic number. -/
theorem magic_overwrite {c l : List Byte} {p : Nat} (hp : MagicSize ≤ p) :
    Bytes.wordAt (fun a => (Stub.overwrite c p l).getD a 0) 0 = Bytes.wordAt (fun a => c.getD a 0) 0 := by
  apply Bytes.wordAt_congr
  intro k hk
  rw [getD_overwrite, if_neg]
  simp only [MagicSize] at hp
  omega

/-- A sector that is written leaves the disk whole, and the magic number in its place. -/
theorem Proper.overwrite (hp : Proper file) {n : Nat} (hn : n < NumSectors) {l : List Byte}
    (hl : l.length = SectorSize) : Proper (Stub.overwrite file (SectorSize * n + MagicSize) l) := by
  have hin := sector_inside hp hn
  obtain ⟨hlen, hmagic⟩ := openDisk_magic.1 hp.magic
  have hne : l ≠ [] := by
    rintro rfl
    cases hl
  have hlength : (Stub.overwrite file (SectorSize * n + MagicSize) l).length = file.length := by
    rw [Stub.length_overwrite hne]
    omega
  exact ⟨by rw [hlength]; exact hp.size, openDisk_magic.2 ⟨by rw [hlength]; exact hlen,
    (magic_overwrite (Nat.le_add_left _ _)).trans hmagic⟩⟩

/-- The disk that `Disk::Disk` makes. -/
theorem openDisk_new : ∃ file, openDisk none = some file ∧ Proper file := by
  have hsize : (Stub.overwrite (Stub.overwrite [] 0 (intBytes MagicNumber)) (DiskSize - 4) (intBytes 0)).length =
      DiskSize := by
    rw [Stub.length_overwrite (by decide), Stub.length_overwrite (by decide)]
    decide
  refine ⟨_, rfl, hsize.ge, openDisk_magic.2 ⟨by rw [hsize]; decide, ?_⟩⟩
  exact (magic_overwrite (by decide)).trans (by decide)

end DiskFile

/-- A call of `SynchDisk::ReadSector` or `WriteSector`, with `&data[off]`. -/
inductive DiskCall where
  | readSector (sectorNumber : Word) (data : Buffer) (off : Nat)
  | writeSector (sectorNumber : Word) (data : Buffer) (off : Nat)

namespace DiskCall

def sectorNumber : DiskCall → Word
  | readSector n _ _ => n
  | writeSector n _ _ => n

def writing : DiskCall → Bool
  | readSector _ _ _ => false
  | writeSector _ _ _ => true

end DiskCall

/-- A request that was served: a read with the buffer that came of it. -/
inductive DiskAccess where
  | read (sectorNumber : Word) (data : Buffer) (off : Nat) (result : Buffer)
  | write (sectorNumber : Word) (data : Buffer) (off : Nat)

/-- `log` are the answers of an array of sectors that holds `disk`, and then `disk'`. -/
def Serves : Disk → List DiskAccess → Disk → Prop
  | disk, [], disk' => disk' = disk
  | disk, .read n data off result :: log, disk' => readSector disk n data off = some result ∧ Serves disk log disk'
  | disk, .write n data off :: log, disk' => ∃ d, writeSector disk n data off = some d ∧ Serves d log disk'

/-- `class SynchDisk` and `class Disk`.  `inP` are the threads between their request and the return
of `semaphore->P()`. -/
structure SynchDisk where
  file : List Byte
  disk : DiskDevice
  semaphore : Semaphore
  inP : Tid → Bool
  log : List DiskAccess

inductive DiskEvent (η κ : Type) where
  /-- a thread calls `ReadSector` or `WriteSector`, and makes its request -/
  | call (t : Tid) (c : DiskCall)
  /-- one turn of the loop of `semaphore->P()` -/
  | wait (t : Tid)
  | machine (e : Interrupt.Event η κ)

namespace SynchDisk

open DiskFile

/-- `SynchDisk::SynchDisk`, on a file that `Disk::Disk` accepts. -/
def start (file : List Byte) : SynchDisk := ⟨file, DiskDevice.init, ⟨0, []⟩, fun _ => false, []⟩

/-- `Lseek`, and `Read` or `WriteFile`, of `ReadRequest` and `WriteRequest`; `none` if the file is too
short. -/
def transfer (file : List Byte) : DiskCall → Option (List Byte × DiskAccess)
  | .readSector n data off =>
    let l := (file.drop (SectorSize * n.toNat + MagicSize)).take SectorSize
    if l.length = SectorSize then some (file, .read n data off (Bytes.blit data off l)) else none
  | .writeSector n data off =>
    let l := (List.range SectorSize).map (fun i => data (off + i))
    some (Stub.overwrite file (SectorSize * n.toNat + MagicSize) l, .write n data off)

/-- `Disk::HandleInterrupt`, with `SynchDisk::RequestDone`. -/
def requestDone (d : SynchDisk) : SynchDisk :=
  { d with disk := { d.disk with active := false }, semaphore := d.semaphore.v.1 }

/-- One turn of the loop of `semaphore->P()`; a thread on the queue is asleep. -/
def wait (d : SynchDisk) (t : Tid) : Option SynchDisk :=
  if d.inP t = false ∨ t ∈ d.semaphore.queue then none
  else
    match d.semaphore.p t with
    | (sem, true) => some { d with semaphore := sem, inP := Function.update d.inP t false }
    | (sem, false) => some { d with semaphore := sem }

variable {η ρ : Type}

/-- `ReadSector` and `WriteSector`, up to `semaphore->P()`; `diskDone` is the handler `DiskDone`. -/
def call (diskDone : η) (s : Interrupt η (SynchDisk × ρ)) (t : Tid) (c : DiskCall) :
    Option (Interrupt η (SynchDisk × ρ)) := do
  let d := s.kernel.1
  let (disk, s) ← d.disk.request c.writing s diskDone 0 c.sectorNumber.toInt
  let (file, access) ← transfer d.file c
  some { s with kernel := (⟨file, disk, d.semaphore, Function.update d.inP t true, d.log ++ [access]⟩, s.kernel.2) }

def step (H : Handlers η (SynchDisk × ρ)) (diskDone : η) (s : Interrupt η (SynchDisk × ρ)) :
    DiskEvent η (SynchDisk × ρ) → Option (Interrupt η (SynchDisk × ρ))
  | .call t c => if s.kernel.1.inP t || s.halted then none else call diskDone s t c
  | .wait t => (wait s.kernel.1 t).map (fun d => { s with kernel := (d, s.kernel.2) })
  | .machine e => Interrupt.step H s e

def system (H : Handlers η (SynchDisk × ρ)) (diskDone : η) (file : List Byte) :
    System (Interrupt η (SynchDisk × ρ)) (DiskEvent η (SynchDisk × ρ)) where
  init := fun s => ∃ r, s = Interrupt.init (start file, r)
  step := step H diskDone

/-- The handler of the disk, and the others. -/
structure DiskHandlers (H : Handlers η (SynchDisk × ρ)) (diskDone : η) : Prop where
  done : ∀ arg time k, H.call diskDone arg time k = ((k.1.requestDone, k.2), [], false)
  other : ∀ h arg time k, h ≠ diskDone →
    (H.call h arg time k).1.1 = k.1 ∧ ∀ r ∈ (H.call h arg time k).2.1, r.handler ≠ diskDone

/-- The threads and the other devices do not touch the disk. -/
def Elsewhere (diskDone : η) (s : Interrupt η (SynchDisk × ρ)) : DiskEvent η (SynchDisk × ρ) → Prop
  | .machine (.schedule r) => r.handler ≠ diskDone
  | .machine (.compute k) => k.1 = s.kernel.1
  | _ => True

/-! ## The requests, on an array of sectors -/

theorem serves_append {disk disk' : Disk} {log : List DiskAccess} {a : DiskAccess} {d : Disk}
    (h : Serves disk log d) (ha : Serves d [a] disk') : Serves disk (log ++ [a]) disk' := by
  induction log generalizing disk with
  | nil =>
    cases h
    exact ha
  | cons b log ih =>
    cases b with
    | read n data off result => exact ⟨h.1, ih h.2⟩
    | write n data off =>
      obtain ⟨e, he, hrest⟩ := h
      exact ⟨e, he, ih hrest⟩

variable {file : List Byte}

/-- What `Read` finds in a sector. -/
theorem blit_sector (hp : Proper file) {n : Nat} (hn : n < NumSectors) (data : Buffer) (off : Nat) :
    Bytes.blit data off ((file.drop (SectorSize * n + MagicSize)).take SectorSize) =
      Bytes.copy (contents file) (n * SectorSize) data off SectorSize := by
  have hin := sector_inside hp hn
  funext a
  rw [Bytes.blit_apply, Bytes.copy]
  by_cases h : off ≤ a ∧ a < off + SectorSize
  · rw [if_pos h.1, if_pos h, List.getD_eq_getElem?_getD, List.getElem?_take_of_lt (by omega), List.getElem?_drop,
      contents, List.getD_eq_getElem?_getD,
      show MagicSize + (n * SectorSize + (a - off)) = SectorSize * n + MagicSize + (a - off) by
        rw [Nat.mul_comm]; omega,
      List.getElem?_eq_getElem (by omega), Option.getD_some, Option.getD_some]
  · rw [if_neg h]
    split
    · rw [List.getD_eq_getElem?_getD, List.getElem?_eq_none, Option.getD_none]
      rw [List.length_take]
      omega
    · rfl

/-- **A request** does to the UNIX file what `readSector` and `writeSector` do to the array of sectors. -/
theorem transfer_serves (hp : Proper file) {c : DiskCall} (hn : c.sectorNumber.toNat < NumSectors) :
    ∃ file' access, transfer file c = some (file', access) ∧ Proper file' ∧
      Serves (contents file) [access] (contents file') := by
  cases c with
  | readSector n data off =>
    have hn' : n.toNat < NumSectors := hn
    have hin := sector_inside hp hn'
    have hlen : ((file.drop (SectorSize * n.toNat + MagicSize)).take SectorSize).length = SectorSize := by
      rw [List.length_take, List.length_drop]
      omega
    refine ⟨file, _, if_pos hlen, hp, ?_, rfl⟩
    rw [blit_sector hp hn', readSector, if_pos hn']
  | writeSector n data off =>
    have hn' : n.toNat < NumSectors := hn
    have hlen : ((List.range SectorSize).map (fun i => data (off + i))).length = SectorSize := by
      rw [List.length_map, List.length_range]
    refine ⟨_, _, rfl, hp.overwrite hn' hlen, _, if_pos hn', ?_⟩
    funext a
    rw [contents_overwrite n.toNat hlen, Bytes.copy]
    split
    · rename_i h
      rw [List.getD_eq_getElem?_getD, List.getElem?_map, List.getElem?_range (by omega)]
      rfl
    · rfl

/-! ## The semaphore -/

/-- `units` are the requests that are done and that no thread has taken note of, `W` are the threads
in `semaphore->P()`. -/
structure Waits (d : SynchDisk) (units : Nat) (W : Finset Tid) : Prop where
  value : d.semaphore.value = BitVec.ofNat 32 units
  inside : ∀ t, t ∈ W ↔ d.inP t = true
  balance : units + d.disk.active.toNat = W.card
  nodup : d.semaphore.queue.Nodup
  queued : ∀ t ∈ d.semaphore.queue, t ∈ W
  calls : W.card ≤ d.log.length
  woken : d.log.length < 2 ^ 32 → d.semaphore.queue ≠ [] → units ≤ (W.filter (· ∉ d.semaphore.queue)).card

variable {d d' : SynchDisk} {units : Nat} {W : Finset Tid} {t : Tid}

/-- `RequestDone` for a request that was under way. -/
theorem Waits.done (h : Waits d units W) (hbusy : d.disk.active = true) : Waits d.requestDone (units + 1) W := by
  have hbalance := h.balance
  rw [hbusy, Bool.toNat_true] at hbalance
  have hvalue : d.requestDone.semaphore.value = BitVec.ofNat 32 (units + 1) := by
    show d.semaphore.v.1.value = _
    rw [Semaphore.v_value, h.value, BitVec.ofNat_add]
    rfl
  cases hq : d.semaphore.queue with
  | nil =>
    have hqueue : d.requestDone.semaphore.queue = [] := by
      show d.semaphore.v.1.queue = _
      rw [Semaphore.v, hq]
    refine ⟨hvalue, h.inside, hbalance, ?_, ?_, h.calls, ?_⟩
    · rw [hqueue]
      exact List.nodup_nil
    · rw [hqueue]
      simp
    · exact fun _ hne => absurd hqueue hne
  | cons u q =>
    have hqueue : d.requestDone.semaphore.queue = q := by
      show d.semaphore.v.1.queue = _
      rw [Semaphore.v, hq]
    have hnd := h.nodup
    rw [hq] at hnd
    obtain ⟨huq, hnd'⟩ := List.nodup_cons.1 hnd
    have huW : u ∈ W := h.queued u (by rw [hq]; exact List.mem_cons_self)
    refine ⟨hvalue, h.inside, hbalance, by rw [hqueue]; exact hnd', ?_, h.calls, ?_⟩
    · intro t ht
      rw [hqueue] at ht
      exact h.queued t (by rw [hq]; exact List.mem_cons_of_mem u ht)
    · intro hlog _
      have hwoken := h.woken hlog (by rw [hq]; exact List.cons_ne_nil u q)
      have hsplit : W.filter (· ∉ q) = insert u (W.filter (· ∉ u :: q)) := by
        ext t
        by_cases htu : t = u
        · simp [htu, huW, huq]
        · simp [htu]
      rw [hqueue, hsplit, Finset.card_insert_of_notMem (by simp)]
      rw [hq] at hwoken
      omega

/-- A turn of the loop of `P`. -/
theorem Waits.wait (h : Waits d units W) (hw : SynchDisk.wait d t = some d') :
    (∃ units' W', Waits d' units' W') ∧ d'.file = d.file ∧ d'.disk = d.disk ∧ d'.log = d.log := by
  unfold SynchDisk.wait at hw
  split at hw
  · cases hw
  · rename_i hcan
    obtain ⟨hin, hqueue⟩ := not_or.1 hcan
    have htW : t ∈ W := (h.inside t).2 (by simpa using hin)
    by_cases hz : d.semaphore.value = 0
    · rw [Semaphore.p_zero hz] at hw
      cases hw
      refine ⟨⟨units, W, h.value, h.inside, h.balance, ?_, ?_, h.calls, ?_⟩, rfl, rfl, rfl⟩
      · exact List.nodup_append.2 ⟨h.nodup, List.nodup_singleton t, by simpa using fun x hx (he : x = t) => hqueue (he ▸ hx)⟩
      · intro u hu
        rcases List.mem_append.1 hu with hu | hu
        · exact h.queued u hu
        · rw [List.mem_singleton.1 hu]
          exact htW
      · intro hlog _
        have hlog' : d.log.length < 2 ^ 32 := hlog
        have hcalls := h.calls
        have hbalance := h.balance
        have hvalue := h.value
        rw [hz] at hvalue
        have hzero := congrArg BitVec.toNat hvalue
        rw [BitVec.toNat_ofNat, Nat.mod_eq_of_lt (by omega)] at hzero
        have : units = 0 := hzero.symm
        omega
    · rw [Semaphore.p_pos hz] at hw
      cases hw
      have hpos : 0 < units := by
        rcases Nat.eq_zero_or_pos units with h0 | h0
        · rw [h.value, h0] at hz
          exact absurd rfl hz
        · exact h0
      have hcard : (W.erase t).card = W.card - 1 := Finset.card_erase_of_mem htW
      refine ⟨⟨units - 1, W.erase t, ?_, ?_, ?_, h.nodup, ?_, ?_, ?_⟩, rfl, rfl, rfl⟩
      · show d.semaphore.value - 1 = _
        rw [h.value]
        have hone : units = units - 1 + 1 := by omega
        rw [hone, BitVec.ofNat_add, Nat.add_sub_cancel]
        exact BitVec.add_sub_cancel _ _
      · intro u
        rcases eq_or_ne u t with rfl | hne
        · simp
        · simp [hne, h.inside u]
      · have hbalance := h.balance
        rw [hcard]
        show units - 1 + d.disk.active.toNat = _
        omega
      · intro u hu
        refine Finset.mem_erase.2 ⟨?_, h.queued u hu⟩
        rintro rfl
        exact hqueue hu
      · rw [hcard]
        exact (Nat.sub_le _ _).trans h.calls
      · intro hlog hne
        have hwoken := h.woken hlog hne
        have hfilter : (W.erase t).filter (· ∉ d.semaphore.queue) = (W.filter (· ∉ d.semaphore.queue)).erase t :=
          Finset.filter_erase _ _ _
        show units - 1 ≤ ((W.erase t).filter (· ∉ d.semaphore.queue)).card
        rw [hfilter, Finset.card_erase_of_mem (Finset.mem_filter.2 ⟨htW, by simpa using hqueue⟩)]
        omega

/-- A request. -/
theorem Waits.request (h : Waits d units W) (ht : d.inP t = false) (hidle : d.disk.active = false)
    {file : List Byte} {disk : DiskDevice} {a : DiskAccess} (hbusy : disk.active = true) :
    Waits ⟨file, disk, d.semaphore, Function.update d.inP t true, d.log ++ [a]⟩ units (insert t W) := by
  have htW : t ∉ W := by
    rw [h.inside, ht]
    exact Bool.false_ne_true
  have hcard := Finset.card_insert_of_notMem htW
  refine ⟨h.value, ?_, ?_, h.nodup, fun u hu => Finset.mem_insert_of_mem (h.queued u hu), ?_, ?_⟩
  · intro u
    rcases eq_or_ne u t with rfl | hne
    · simp
    · simp [hne, h.inside u]
  · have hbalance := h.balance
    rw [hidle, Bool.toNat_false] at hbalance
    rw [hcard, ← hbalance]
    simp [hbusy]
  · have hcalls := h.calls
    simp only [List.length_append, List.length_singleton]
    omega
  · intro hlog hne
    simp only [List.length_append, List.length_singleton] at hlog
    exact (h.woken (by omega) hne).trans
      (Finset.card_le_card (Finset.filter_subset_filter _ (Finset.subset_insert t W)))

/-! ## The invariant -/

variable {η ρ : Type} {diskDone : η} {s s' : Interrupt η (SynchDisk × ρ)} {c : DiskCall}

/-- The sector is one. -/
theorem sectorNumber_iff : (0 ≤ c.sectorNumber.toInt ∧ c.sectorNumber.toInt < NumSectors) ↔
    c.sectorNumber.toNat < NumSectors := by
  have hlt := c.sectorNumber.isLt
  rw [BitVec.toInt_eq_toNat_cond]
  simp only [NumSectors]
  split
  · omega
  · omega

theorem call_none (h : s.kernel.1.disk.active = true ∨ NumSectors ≤ c.sectorNumber.toNat) :
    call diskDone s t c = none := by
  have hreq : s.kernel.1.disk.request c.writing s diskDone 0 c.sectorNumber.toInt = none := by
    apply DiskDevice.request_none
    rw [sectorNumber_iff, Nat.not_lt]
    exact h
  unfold call
  dsimp only
  rw [hreq]
  rfl

variable [DecidableEq η]

/-- The disk, and what is pending: one interrupt while a request is under way. -/
structure DiskInv (diskDone : η) (file : List Byte) (d : SynchDisk) (l : List (PendingInterrupt η)) : Prop where
  proper : Proper d.file
  serves : Serves (contents file) d.log (contents d.file)
  valid : d.disk.Valid
  pending : l.countP (fun p => p.handler = diskDone) = d.disk.active.toNat
  types : ∀ p ∈ l, p.handler = diskDone → p.type = .diskInt
  waits : ∃ units W, Waits d units W

variable {H : Handlers η (SynchDisk × ρ)}

theorem diskInv_kept (hH : DiskHandlers H diskDone) :
    Interrupt.Maintained H (fun k l => DiskInv diskDone file k.1 l) := by
  constructor
  · intro k l l' hperm hi
    exact ⟨hi.proper, hi.serves, hi.valid, (hperm.countP_eq _).symm.trans hi.pending,
      fun p hp => hi.types p (hperm.mem_iff.2 hp), hi.waits⟩
  · intro k p l time new hi hnew
    have hpending := hi.pending
    rw [List.countP_cons] at hpending
    have htypes : ∀ q ∈ l, q.handler = diskDone → q.type = .diskInt :=
      fun q hq => hi.types q (List.mem_cons_of_mem p hq)
    by_cases hp : p.handler = diskDone
    · rw [hp, hH.done] at hnew ⊢
      obtain rfl : new = [] := List.map_eq_nil_iff.1 hnew
      rw [if_pos (by simpa using hp)] at hpending
      have hbusy : k.1.disk.active = true := by
        cases hactive : k.1.disk.active with
        | true => rfl
        | false =>
          rw [hactive, Bool.toNat_false] at hpending
          omega
      rw [hbusy, Bool.toNat_true] at hpending
      obtain ⟨units, W, hw⟩ := hi.waits
      refine ⟨hi.proper, hi.serves, hi.valid, ?_, htypes, units + 1, W, hw.done hbusy⟩
      show l.countP _ = 0
      omega
    · obtain ⟨hk, hothers⟩ := hH.other p.handler p.arg time k hp
      have hnone : ∀ q ∈ new, q.handler ≠ diskDone := by
        intro q hq
        have hmem := List.mem_map_of_mem (f := fun q : PendingInterrupt η => (q.handler, q.arg, q.when, q.type)) hq
        rw [hnew] at hmem
        obtain ⟨r, hr, heq⟩ := List.mem_map.1 hmem
        rw [Prod.mk.injEq] at heq
        rw [← heq.1]
        exact hothers r hr
      rw [if_neg (by simpa using hp)] at hpending
      show DiskInv diskDone file (H.call p.handler p.arg time k).1.1 (new ++ l)
      rw [hk]
      refine ⟨hi.proper, hi.serves, hi.valid, ?_, ?_, hi.waits⟩
      · rw [List.countP_append, List.countP_eq_zero.2 (by simpa using hnone)]
        simpa using hpending
      · intro q hq hqd
        rcases List.mem_append.1 hq with hq | hq
        · exact absurd hqd (hnone q hq)
        · exact htypes q hq hqd

/-- The invariant of the system. -/
structure Inv (diskDone : η) (file : List Byte) (s : Interrupt η (SynchDisk × ρ)) : Prop where
  good : Interrupt.Good s
  ticks : 0 ≤ s.stats.totalTicks
  disk : DiskInv diskDone file s.kernel.1 s.items

/-- **A request** to an idle disk is served at once, and its interrupt is scheduled. -/
theorem call_some (hi : Inv diskDone file s) (ht : s.kernel.1.inP t = false)
    (hidle : s.kernel.1.disk.active = false) (hn : c.sectorNumber.toNat < NumSectors) :
    ∃ s', call diskDone s t c = some s' ∧ Inv diskDone file s' ∧ s'.kernel.1.disk.active = true ∧
      s'.kernel.1.inP = Function.update s.kernel.1.inP t true ∧ s'.halted = s.halted := by
  have hsector := sectorNumber_iff.2 hn
  have hpos : 0 < s.kernel.1.disk.computeLatency s.stats.totalTicks c.sectorNumber.toInt c.writing :=
    lt_of_lt_of_le (by decide)
      (DiskDevice.rotationTime_le_computeLatency hi.ticks hi.disk.valid hsector.1 c.writing)
  obtain ⟨disk, u, hreq⟩ : ∃ d' u, s.kernel.1.disk.request c.writing s diskDone 0 c.sectorNumber.toInt = some (d', u) :=
    DiskDevice.request_some hpos hsector hidle
  obtain ⟨file', access, htransfer, hproper, hserves⟩ := transfer_serves hi.disk.proper hn
  obtain ⟨-, hbusy, hsched⟩ := DiskDevice.request_eq hreq
  obtain ⟨hitems, hkernel, hstats⟩ := Interrupt.schedule_items hsched
  have hadds := (Interrupt.Adds.refl s).schedule hsched
  have htimed := hadds.timed hi.good.toTimed
  have hcall : call diskDone s t c = some { u with
      kernel := (⟨file', disk, s.kernel.1.semaphore, Function.update s.kernel.1.inP t true,
        s.kernel.1.log ++ [access]⟩, u.kernel.2) } := by
    unfold call
    dsimp only
    rw [hreq, Option.bind_eq_bind, Option.bind_some]
    dsimp only
    rw [htransfer]
    rfl
  obtain ⟨units, W, hw⟩ := hi.disk.waits
  refine ⟨_, hcall, ⟨⟨⟨htimed.sorted, htimed.whens, htimed.ticks⟩, ?_, ?_⟩, ?_, ?_⟩, hbusy, rfl, hadds.halted⟩
  · show u.halted = false → u.status ≠ .idleMode
    rw [hadds.halted, hadds.status]
    exact hi.good.awake
  · show ∀ old ∈ u.suspended, old ≠ .idleMode
    rw [hadds.suspended]
    exact hi.good.olds
  · show 0 ≤ u.stats.totalTicks
    rw [hstats]
    exact hi.ticks
  · have hpending := hi.disk.pending
    rw [hidle, Bool.toNat_false] at hpending
    refine ⟨hproper, serves_append hi.disk.serves hserves, DiskDevice.request_valid hreq, ?_, ?_, units,
      insert t W, hw.request ht hidle hbusy⟩
    · show u.items.countP _ = disk.active.toNat
      rw [hitems.countP_eq, List.countP_cons, hpending, hbusy]
      simp
    · intro p hp hd
      rcases List.mem_cons.1 (hitems.mem_iff.1 hp) with rfl | hp
      · rfl
      · exact hi.disk.types p hp hd

/-- **One step** of a thread, a device or a handler keeps the invariant. -/
theorem step_inv (hH : DiskHandlers H diskDone) {e : DiskEvent η (SynchDisk × ρ)} (hi : Inv diskDone file s)
    (helse : Elsewhere diskDone s e) (he : step H diskDone s e = some s') : Inv diskDone file s' := by
  cases e with
  | call t c =>
    simp only [step] at he
    split at he
    · cases he
    · rename_i hcan
      obtain ⟨ht, -⟩ : s.kernel.1.inP t = false ∧ s.halted = false := by simpa using hcan
      by_cases hbad : s.kernel.1.disk.active = true ∨ NumSectors ≤ c.sectorNumber.toNat
      · rw [call_none hbad] at he
        cases he
      · obtain ⟨hidle, hn⟩ := not_or.1 hbad
        obtain ⟨u, hu, hinv, -⟩ := call_some (c := c) hi ht (by simpa using hidle) (Nat.lt_of_not_le hn)
        rw [hu] at he
        cases he
        exact hinv
  | wait t =>
    obtain ⟨d, hd, rfl⟩ := Option.map_eq_some_iff.1 he
    obtain ⟨units, W, hw⟩ := hi.disk.waits
    obtain ⟨hwaits, hfile, hdisk, hlog⟩ := hw.wait hd
    have hg := hi.good
    refine ⟨⟨⟨hg.sorted, hg.whens, hg.ticks⟩, hg.awake, hg.olds⟩, hi.ticks, ?_⟩
    show DiskInv diskDone file d s.items
    obtain ⟨h1, h2, h3, h4, h5, -⟩ := hi.disk
    rw [← hfile] at h1
    rw [← hlog, ← hfile] at h2
    rw [← hdisk] at h3 h4
    exact ⟨h1, h2, h3, h4, h5, hwaits⟩
  | machine e =>
    obtain ⟨hgood, hticks⟩ := Interrupt.step_good he hi.good
    refine ⟨hgood, hi.ticks.trans hticks, ?_⟩
    refine Interrupt.step_kept (diskInv_kept hH) ⟨?_, ?_⟩ he hi.disk
    · rintro r p rfl hhandler htype hd
      have hne : p.handler ≠ diskDone := by
        rw [hhandler]
        exact helse
      refine ⟨hd.proper, hd.serves, hd.valid, ?_, ?_, hd.waits⟩
      · rw [List.countP_cons, if_neg (by simpa using hne), Nat.add_zero]
        exact hd.pending
      · intro q hq hqd
        rcases List.mem_cons.1 hq with rfl | hq
        · exact absurd hqd hne
        · exact hd.types q hq hqd
    · rintro k rfl hd
      have hk : k.1 = s.kernel.1 := helse
      rw [hk]
      exact hd

theorem init_inv (hproper : Proper file) (r : ρ) : Inv diskDone file (Interrupt.init (start file, r)) := by
  refine ⟨⟨⟨List.Pairwise.nil, by simp [Interrupt.init], rfl⟩, by simp [Interrupt.init], by simp [Interrupt.init]⟩,
    le_refl _, hproper, rfl, DiskDevice.init_valid, rfl, by simp [Interrupt.items, Interrupt.init], 0, ∅, ?_⟩
  refine ⟨rfl, by simp [Interrupt.init, start], rfl, List.nodup_nil, by simp [Interrupt.init, start], le_refl _, ?_⟩
  exact fun _ hne => absurd rfl hne

theorem reachable_inv (hH : DiskHandlers H diskDone) (hproper : Proper file)
    (h : (system H diskDone file).ReachableBy (Elsewhere diskDone) s) : Inv diskDone file s := by
  refine System.ReachableBy.invariant (I := Inv diskDone file) ?_ ?_ h
  · rintro s ⟨r, rfl⟩
    exact init_inv hproper r
  · exact fun s e s' _ hi helse he => step_inv hH hi helse he

/-- The interrupt of a request that is under way. -/
theorem DiskInv.exists_pending {d : SynchDisk} {l : List (PendingInterrupt η)} (h : DiskInv diskDone file d l)
    (hbusy : d.disk.active = true) : ∃ p ∈ l, p.handler = diskDone ∧ p.type = .diskInt := by
  have hpending := h.pending
  rw [hbusy, Bool.toNat_true] at hpending
  obtain ⟨p, hp, hd⟩ := List.countP_pos_iff.1 (show 0 < l.countP (fun p => p.handler = diskDone) by omega)
  have hdone : p.handler = diskDone := by simpa using hd
  exact ⟨p, hp, hdone, h.types p hp hdone⟩

/-- `Idle` does not halt the machine while the interrupt of a disk request is pending. -/
theorem idle_halted (hi : Inv diskDone file s) (hbusy : s.kernel.1.disk.active = true) {fuel : Nat}
    (h : Interrupt.idle H fuel s = some s') : s'.halted = s.halted := by
  have hpending := hi.disk.pending
  rw [hbusy, Bool.toNat_true] at hpending
  rcases Interrupt.idle_halts h hi.good.toTimed with hsame | hnil | ⟨p, hp, htimer⟩
  · exact hsame
  · rw [hnil] at hpending
    cases hpending
  · -- the only interrupt that is pending is that of the disk
    rw [hp] at hpending
    have hd : p.handler = diskDone := by
      by_contra hne
      rw [List.countP_cons, if_neg (by simpa using hne)] at hpending
      cases hpending
    have hdisk := hi.disk.types p (by rw [hp]; exact List.mem_cons_self) hd
    rw [htimer] at hdisk
    cases hdisk

/-- **The synchronous disk is an array of sectors**, in every run: any number of threads, calls that
overlap, other devices.  The requests that the disk takes are answered as by an array of sectors, one
after the other, and a new `Disk` can be opened on the file at any time.  A call fails exactly when a
request is under way or there is no such sector, so never when no other call is; and if all the threads
in a call are asleep, then the interrupt is pending and `Idle` does not halt the machine. -/
theorem synchDisk_serves (hH : DiskHandlers H diskDone) (hproper : Proper file)
    (h : (system H diskDone file).ReachableBy (Elsewhere diskDone) s) :
    Proper s.kernel.1.file ∧ Serves (contents file) s.kernel.1.log (contents s.kernel.1.file) ∧
    (∀ t c, s.halted = false → s.kernel.1.inP t = false →
      (step H diskDone s (.call t c) = none ↔
        s.kernel.1.disk.active = true ∨ NumSectors ≤ c.sectorNumber.toNat)) ∧
    ((∀ t, s.kernel.1.inP t = false) → s.kernel.1.disk.active = false) ∧
    (s.kernel.1.log.length < 2 ^ 32 → (∃ t, s.kernel.1.inP t = true) →
      (∀ t, s.kernel.1.inP t = true → t ∈ s.kernel.1.semaphore.queue) →
      s.kernel.1.disk.active = true ∧ (∃ p ∈ s.items, p.handler = diskDone ∧ p.type = .diskInt) ∧
        ∀ fuel s', s.halted = false → step H diskDone s (.machine (.idle fuel)) = some s' → s'.halted = false) := by
  have hi := reachable_inv hH hproper h
  obtain ⟨units, W, hw⟩ := hi.disk.waits
  refine ⟨hi.disk.proper, hi.disk.serves, ?_, ?_, ?_⟩
  · intro t c hrun ht
    have hstep : step H diskDone s (.call t c) = call diskDone s t c := by
      simp only [step, ht, hrun, Bool.or_self, Bool.false_eq_true, if_false]
    rw [hstep]
    constructor
    · intro hnone
      by_contra hgood
      obtain ⟨hidle, hn⟩ := not_or.1 hgood
      obtain ⟨u, hu, -⟩ := call_some (c := c) hi ht (by simpa using hidle) (Nat.lt_of_not_le hn)
      rw [hnone] at hu
      cases hu
    · exact fun hbad => call_none hbad
  · intro hnone
    have hempty : W = ∅ := by
      apply Finset.eq_empty_of_forall_notMem
      intro t ht
      have hin := (hw.inside t).1 ht
      rw [hnone t] at hin
      cases hin
    have hbalance := hw.balance
    rw [hempty, Finset.card_empty] at hbalance
    cases hactive : s.kernel.1.disk.active with
    | false => rfl
    | true =>
      rw [hactive, Bool.toNat_true] at hbalance
      omega
  · rintro hlog ⟨t, ht⟩ hasleep
    have hbusy : s.kernel.1.disk.active = true := by
      -- nobody is awake to take note of a request that is done
      have hwoken := hw.woken hlog (List.ne_nil_of_mem (hasleep t ht))
      have hnobody : W.filter (· ∉ s.kernel.1.semaphore.queue) = ∅ := by
        apply Finset.filter_false_of_mem
        intro u hu
        exact not_not.2 (hasleep u ((hw.inside u).1 hu))
      rw [hnobody, Finset.card_empty] at hwoken
      have hcard := Finset.card_pos.2 ⟨t, (hw.inside t).2 ht⟩
      have hbalance := hw.balance
      cases hactive : s.kernel.1.disk.active with
      | true => rfl
      | false =>
        rw [hactive, Bool.toNat_false] at hbalance
        omega
    refine ⟨hbusy, hi.disk.exists_pending hbusy, ?_⟩
    intro fuel s' hrun hidle
    simp only [step, Interrupt.step, hrun, Bool.false_eq_true, if_false] at hidle
    rw [idle_halted hi hbusy hidle, hrun]

/-- The handler of a machine with a disk alone. -/
def diskAlone : Handlers Unit (SynchDisk × Unit) where
  call := fun _ _ _ k => ((k.1.requestDone, k.2), [], false)
  fromNow_pos := fun _ _ _ _ r hr => by cases hr

theorem diskAlone_handlers : DiskHandlers diskAlone () :=
  ⟨fun _ _ _ => rfl, fun _ _ _ _ hne => absurd rfl hne⟩

/-- On a new disk, thread 2 calls while thread 1 is reading sector 3: `ASSERT(!active)` fails. -/
theorem synchDisk_serves_overlap : ∃ file s, openDisk none = some file ∧
    (system diskAlone () file).ReachableBy (Elsewhere ()) s ∧ s.kernel.1.inP 1 = true ∧
    step diskAlone () s (.call 2 (.readSector 4 (fun _ => 0) 0)) = none := by
  obtain ⟨file, hfile, hproper⟩ := openDisk_new
  have hinit : Inv () file (Interrupt.init (start file, ())) := init_inv hproper ()
  obtain ⟨s, hs, -, hbusy, hin, hrun⟩ :=
    call_some (c := .readSector 3 (fun _ => 0) 0) (t := 1) hinit rfl rfl (by decide)
  have hreach : (system diskAlone () file).ReachableBy (Elsewhere ()) s :=
    .step (.init ⟨(), rfl⟩) (e := .call 1 (.readSector 3 (fun _ => 0) 0)) trivial hs
  refine ⟨file, s, hfile, hreach, by rw [hin]; rfl, ?_⟩
  have hcalls := (synchDisk_serves diskAlone_handlers hproper hreach).2.2.1
  exact (hcalls 2 (.readSector 4 (fun _ => 0) 0) hrun (by rw [hin]; rfl)).2 (.inl hbusy)

end SynchDisk

end Nachos
