import Nachos.Filesys.Accounting

/-!
# Open handles

A formatted disk, and any sequence of `Create`, `Remove`, `OpenFile::OpenFile` on the header sector
of a file, `ReadAt` and `WriteAt` through the files that are open.  An `OpenFile` keeps the header
that it read when it was opened, and `Remove` does not look for open files.  `removed` is a history
variable: the file of the handle has been removed since.

* `writeAt_frame` — a write changes the sectors of the header that the handle keeps.
* `step_inv` — while the file has not been removed, that is the header of the file.
* `write_damages_no_other` — every run that does not write through a handle whose file is gone.
-/

set_option autoImplicit false

namespace Nachos

namespace OpenFile

open Bytes (Overlay)

/-- A request that stays inside of `dataSectors` and of the buffer: nothing is to be done, or the
position is not negative and no sum overflows. -/
def Proper (h : FileHeader) (numBytes position : Word) : Prop :=
  numBytes.sle 0 = true ∨ h.numBytes.sle position = true ∨
    (0 ≤ position.toInt ∧ position.toInt + numBytes.toInt < 2 ^ 31)

variable {h : FileHeader} {ss : List Nat} {n p : Word}

/-- A proper request is empty, or one that the specifications of `ReadAt` and `WriteAt` cover. -/
theorem Proper.cases (hp : Proper h n p) (hc : h.Covers ss) :
    (n.sle 0 || h.numBytes.sle p) = true ∨
      ∃ n' p' : Nat, n = BitVec.ofNat 32 n' ∧ p = BitVec.ofNat 32 p' ∧ 0 < n' ∧ p' < h.numBytes.toNat ∧
        p' + n' < 2 ^ 31 := by
  cases hcheck : n.sle 0 || h.numBytes.sle p with
  | true => exact .inl rfl
  | false =>
    right
    rw [Bool.or_eq_false_iff] at hcheck
    obtain ⟨hn, hlt⟩ := hcheck
    obtain hn' | hlt' | ⟨hpos, hsum⟩ := hp
    · rw [hn] at hn'
      cases hn'
    · rw [hlt] at hlt'
      cases hlt'
    · have hlen := covers_numBytes hc
      have hnum : h.numBytes.toInt = h.numBytes.toNat := BitVec.toInt_eq_toNat_of_lt (by omega)
      have h0 : (0 : Word).toInt = 0 := by decide
      rw [BitVec.sle_eq_decide, decide_eq_false_iff_not, h0] at hn
      rw [BitVec.sle_eq_decide, decide_eq_false_iff_not, hnum] at hlt
      refine ⟨n.toInt.toNat, p.toInt.toNat, ?_, ?_, by omega, by omega, by omega⟩
      · apply BitVec.eq_of_toInt_eq
        rw [CInt.toInt_ofNat (by omega)]
        omega
      · apply BitVec.eq_of_toInt_eq
        rw [CInt.toInt_ofNat (by omega)]
        omega

theorem readAt_ne_none (hc : h.Covers ss) (hp : Proper h n p) (disk : Disk) (junk into : Buffer) (off : Nat) :
    readAt disk h junk into off n p ≠ none := by
  obtain hnone | ⟨n', p', rfl, rfl, hn, hlt, hsum⟩ := hp.cases hc
  · have hempty : readAt disk h junk into off n p = some (0, into) := if_pos hnone
    rw [hempty]
    exact Option.some_ne_none _
  · obtain ⟨into', hread, -⟩ := readAt_spec hc disk junk into off hn hlt hsum
    rw [hread]
    exact Option.some_ne_none _

/-- **`ReadAt`** reads the sectors of the header only. -/
theorem readAt_frame (hc : h.Covers ss) {disk disk' : Disk} (hd : ∀ a, a / SectorSize ∈ ss → disk' a = disk a)
    (hp : Proper h n p) (junk into : Buffer) (off : Nat) :
    readAt disk' h junk into off n p = readAt disk h junk into off n p := by
  obtain hnone | ⟨n', p', rfl, rfl, hn, hlt, hsum⟩ := hp.cases hc
  · have hempty : ∀ disk, readAt disk h junk into off n p = some (0, into) := fun _ => if_pos hnone
    rw [hempty, hempty]
  · obtain ⟨into1, hread1, hover1⟩ := readAt_spec hc disk junk into off hn hlt hsum
    obtain ⟨into2, hread2, hover2⟩ := readAt_spec hc disk' junk into off hn hlt hsum
    have hview : view ss disk' = view ss disk := funext (Paged.view_frame (by decide) hd)
    rw [hview] at hover2
    have hinto : into2 = into1 := by
      funext a
      by_cases ha : a ∈ Set.Ico off (off + min n' (h.numBytes.toNat - p'))
      · exact Option.some.inj ((hover2.inside a ha).trans (hover1.inside a ha).symm)
      · exact Option.some.inj ((hover2.outside a ha).trans (hover1.outside a ha).symm)
    rw [hread1, hread2, hinto]

/-- **`WriteAt`** changes the sectors of the header only. -/
theorem writeAt_frame (hc : h.Covers ss) (hnd : ss.Nodup) (hp : Proper h n p) (disk : Disk)
    (junk : Nat → Buffer) (src : Buffer) :
    ∃ r disk', writeAt disk h junk src n p = some (r, disk') ∧
      ∀ a, a / SectorSize ∉ ss → disk' a = disk a := by
  obtain hnone | ⟨n', p', rfl, rfl, hn, hlt, hsum⟩ := hp.cases hc
  · exact ⟨0, disk, if_pos hnone, fun _ _ => rfl⟩
  · obtain ⟨disk', hwrite, -, -, hframe⟩ := writeAt_spec hc hnd disk junk src hn hlt hsum
    exact ⟨_, disk', hwrite, hframe⟩

end OpenFile

namespace FileSystem

open Transition

/-- `sector` is the header sector of an existing file. -/
def IsFile (fs : FileSystem) (sector : Word) : Prop :=
  ∃ junk table, fs.fetchDirectory junk = some table ∧
    ∃ i < NumDirEntries, Directory.inUse table i = true ∧ Directory.sector table i = sector

/-- An `OpenFile` object, the sector it was opened on, and whether its file has been removed since. -/
structure Handle where
  file : OpenFile
  sector : Word
  removed : Bool

/-- The file system and the objects that are open, by their address. -/
structure Session where
  fs : FileSystem
  handles : Nat → Option Handle

/-- The calls. -/
inductive FileCall where
  | create (junk : Nat → Buffer) (name : List Byte) (initialSize : Word)
  | remove (junk : Nat → Buffer) (name : List Byte)
  | openFile (id : Nat) (sector type : Word)
  | closeFile (id : Nat)
  | readAt (id : Nat) (junk into : Buffer) (off : Nat) (numBytes position : Word)
  | writeAt (id : Nat) (junk : Nat → Buffer) (src : Buffer) (numBytes position : Word)

namespace Session

/-- The file with its header in `sector` is gone; the objects that are open on it stay as they are. -/
def markRemoved (handles : Nat → Option Handle) (sector : Word) : Nat → Option Handle :=
  fun id => (handles id).map (fun hd => if hd.sector = sector then { hd with removed := true } else hd)

/-- One call; `none` is a failed `ASSERT`, an index outside of `dataSectors`, or an object that is not
open. -/
def step (st : Session) : FileCall → Option Session
  | .create junk name initialSize =>
    (st.fs.create junk name initialSize).map (fun r => { st with fs := r.2 })
  | .remove junk name =>
    (st.fs.fetchDirectory junk).bind (fun directory =>
      (st.fs.remove junk name).map (fun r =>
        ⟨r.2, markRemoved st.handles (Directory.find directory name)⟩))
  | .openFile id sector type =>
    if (st.handles id).isSome then none
    else
      (OpenFile.openSector st.fs.disk sector type).map (fun file =>
        { st with handles := Function.update st.handles id (some ⟨file, sector, false⟩) })
  | .closeFile id => some { st with handles := Function.update st.handles id none }
  | .readAt id junk into off numBytes position =>
    (st.handles id).bind (fun hd =>
      (OpenFile.readAt st.fs.disk hd.file.hdr junk into off numBytes position).map (fun _ => st))
  | .writeAt id junk src numBytes position =>
    (st.handles id).bind (fun hd =>
      (OpenFile.writeAt st.fs.disk hd.file.hdr junk src numBytes position).map (fun r =>
        { st with fs := { st.fs with disk := r.2 } }))

/-- Formatted disks with nothing open, and the calls on them. -/
def system : System Session FileCall where
  init := fun st => (∃ disk junk, format disk junk = some st.fs) ∧ st.handles = fun _ => none
  step := step

/-- The calls that are made: the sizes of `InRange`, objects opened at a new address on the header
sector of a file, proper requests on objects that are open. -/
def Valid (st : Session) : FileCall → Prop
  | .create _ _ initialSize => 0 ≤ initialSize.toInt ∧ initialSize.toInt ≤ MaxFileSize
  | .remove _ _ => True
  | .openFile id sector _ => st.handles id = none ∧ st.fs.IsFile sector
  | .closeFile _ => True
  | .readAt id _ _ _ numBytes position =>
    ∃ hd, st.handles id = some hd ∧ OpenFile.Proper hd.file.hdr numBytes position
  | .writeAt id _ _ numBytes position =>
    ∃ hd, st.handles id = some hd ∧ OpenFile.Proper hd.file.hdr numBytes position

/-- No write to a file that has been removed. -/
def Current (st : Session) : FileCall → Prop
  | .writeAt id _ _ _ _ => ∀ hd, st.handles id = some hd → hd.removed = false
  | _ => True

/-- The file with its header in `sector` is not the one that `hd` was opened on. -/
def Other (hd : Handle) (sector : Word) : Prop := hd.removed = true ∨ sector ≠ hd.sector

/-- What a write through `hd` leaves as it was: the stored free map and directory, the headers of the
system files and of every file, and what can be read of every other file. -/
structure Undamaged (hd : Handle) (fs fs' : FileSystem) : Prop where
  freeMap : ∀ junk, fs'.fetchFreeMap junk = fs.fetchFreeMap junk
  directory : ∀ junk, fs'.fetchDirectory junk = fs.fetchDirectory junk
  headers : ∀ sector, sector = FreeMapSector ∨ sector = DirectorySector ∨ fs.IsFile sector →
    FileHeader.fetchFrom fs'.disk sector = FileHeader.fetchFrom fs.disk sector
  files : ∀ sector, fs.IsFile sector → Other hd sector → ∀ h,
    FileHeader.fetchFrom fs.disk sector = some h → ∀ junk into off numBytes position,
      OpenFile.Proper h numBytes position →
        OpenFile.readAt fs'.disk h junk into off numBytes position =
          OpenFile.readAt fs.disk h junk into off numBytes position

end Session

/-! ## Writing to a file -/

variable {fs : FileSystem} {freeMap : BitMap} {table : Buffer} {owned : Nat → List Nat}
  {owner : Nat → Option Nat}

/-- The header of directory entry `i`. -/
def entryHeader (fs : FileSystem) (table : Buffer) (i : Nat) : FileHeader :=
  FileHeader.onDisk fs.disk (Directory.sector table i).toNat

namespace Consistent

theorem exists_entry (h : Consistent fs freeMap table owned owner) {sector : Word} (hf : fs.IsFile sector) :
    ∃ i < NumDirEntries, Directory.inUse table i = true ∧ Directory.sector table i = sector := by
  obtain ⟨junk, t, ht, i, hi, hu, hs⟩ := hf
  obtain ⟨t', ht', hagree⟩ := fetchDirectory_eq h.layout h.storesTable junk
  rw [ht] at ht'
  cases ht'
  have hsame := sameEntry_of_agree hagree hi
  exact ⟨i, hi, hsame.inUse_eq.symm.trans hu, hsame.sector_eq.symm.trans hs⟩

theorem data_mem (h : Consistent fs freeMap table owned owner) {i s : Nat} (hi : i < NumDirEntries)
    (hu : Directory.inUse table i = true) (hs : s ∈ (entryHeader fs table i).sectors) : s ∈ owned i := by
  rw [h.used i hi hu]
  exact List.mem_cons_of_mem _ hs

theorem nodup_data (h : Consistent fs freeMap table owned owner) {i : Nat} (hi : i < NumDirEntries)
    (hu : Directory.inUse table i = true) : (entryHeader fs table i).sectors.Nodup := by
  have hnd := h.homed.nodup i
  rw [h.used i hi hu] at hnd
  exact (List.nodup_cons.1 hnd).2

theorem system_mem (h : Consistent fs freeMap table owned owner) {u : Nat} (hu : u = 0 ∨ u = 1) :
    u ∈ owned NumDirEntries := by
  rw [h.system, systemSectors]
  rcases hu with rfl | rfl
  · simp
  · simp

theorem fetch_entry (h : Consistent fs freeMap table owned owner) {i : Nat} (hi : i < NumDirEntries)
    (hu : Directory.inUse table i = true) :
    FileHeader.fetchFrom fs.disk (Directory.sector table i) = some (entryHeader fs table i) := by
  have hlt := h.lt (h.sector_mem hi hu)
  have hword : Directory.sector table i = BitVec.ofNat 32 (Directory.sector table i).toNat := by simp
  rw [hword, FileHeader.fetchFrom_eq fs.disk hlt]
  rfl

/-- No header is in a data sector of a file. -/
theorem header_not_data (h : Consistent fs freeMap table owned owner) {i : Nat} (hi : i < NumDirEntries)
    (hu : Directory.inUse table i = true) {u : Nat}
    (hheader : (u = 0 ∨ u = 1) ∨ ∃ j < NumDirEntries, Directory.inUse table j = true ∧
      (Directory.sector table j).toNat = u) : u ∉ (entryHeader fs table i).sectors := by
  intro hmem
  rcases hheader with h01 | ⟨j, hj, huj, rfl⟩
  · exact h.ne_of_mem (Nat.ne_of_lt hi) (h.data_mem hi hu hmem) (h.system_mem h01) rfl
  · rcases eq_or_ne i j with rfl | hij
    · have hnd := h.homed.nodup i
      rw [h.used i hi hu] at hnd
      exact (List.nodup_cons.1 hnd).1 hmem
    · exact h.ne_of_mem hij (h.data_mem hi hu hmem) (h.sector_mem hj huj) rfl

section Write

variable {i : Nat} {disk : Disk}

theorem header_written (h : Consistent fs freeMap table owned owner) (hi : i < NumDirEntries)
    (hu : Directory.inUse table i = true)
    (hd : ∀ a, a / SectorSize ∉ (entryHeader fs table i).sectors → disk a = fs.disk a) {u : Nat}
    (hheader : (u = 0 ∨ u = 1) ∨ ∃ j < NumDirEntries, Directory.inUse table j = true ∧
      (Directory.sector table j).toNat = u) :
    FileHeader.onDisk disk u = FileHeader.onDisk fs.disk u :=
  onDisk_frame hd (h.header_not_data hi hu hheader)

/-- The sectors of another owner are not written. -/
theorem other_written (h : Consistent fs freeMap table owned owner) (hi : i < NumDirEntries)
    (hu : Directory.inUse table i = true)
    (hd : ∀ a, a / SectorSize ∉ (entryHeader fs table i).sectors → disk a = fs.disk a) {j : Nat}
    (hij : i ≠ j) {a : Nat} (ha : a / SectorSize ∈ owned j) : disk a = fs.disk a := by
  apply hd
  intro hmem
  exact h.ne_of_mem hij (h.data_mem hi hu hmem) ha rfl

/-- **Writing to a file** keeps the disk consistent, with the same map, directory and owners. -/
theorem writeData (h : Consistent fs freeMap table owned owner) (hi : i < NumDirEntries)
    (hu : Directory.inUse table i = true)
    (hd : ∀ a, a / SectorSize ∉ (entryHeader fs table i).sectors → disk a = fs.disk a) :
    Consistent { fs with disk := disk } freeMap table owned owner := by
  have hentry : ∀ j < NumDirEntries, Directory.inUse table j = true →
      FileHeader.onDisk disk (Directory.sector table j).toNat =
        FileHeader.onDisk fs.disk (Directory.sector table j).toNat :=
    fun j hj huj => h.header_written hi hu hd (.inr ⟨j, hj, huj, rfl⟩)
  refine ⟨h.layout.setDisk disk, ?_, ?_, ?_, ?_, h.homed, h.system, ?_, h.unused, h.beyond, ?_, h.bits,
    h.names⟩
  · exact (h.header_written hi hu hd (.inl (.inl rfl))).trans h.mapOnDisk
  · exact (h.header_written hi hu hd (.inl (.inr rfl))).trans h.dirOnDisk
  · apply h.storesMap.frame
    intro a ha
    exact h.other_written hi hu hd (Nat.ne_of_lt hi) (h.map_mem ha)
  · apply h.storesTable.frame
    intro a ha
    exact h.other_written hi hu hd (Nat.ne_of_lt hi) (h.dir_mem ha)
  · intro j hj huj
    rw [h.used j hj huj, fileSectors, fileSectors, hentry j hj huj]
  · intro j hj huj
    rw [hentry j hj huj]
    exact h.numSectors j hj huj

end Write

end Consistent

/-! ## Runs -/

namespace Session

/-- The disk is consistent, every header covers its bytes, and a handle whose file has not been removed
keeps the header of that file. -/
structure Sound (st : Session) (freeMap : BitMap) (table : Buffer) (owned : Nat → List Nat)
    (owner : Nat → Option Nat) : Prop where
  disk : Consistent st.fs freeMap table owned owner
  covers : ∀ i < NumDirEntries, Directory.inUse table i = true →
    (entryHeader st.fs table i).Covers (entryHeader st.fs table i).sectors
  cached : ∀ id hd, st.handles id = some hd → hd.file.hdr.Covers hd.file.hdr.sectors
  current : ∀ id hd, st.handles id = some hd → hd.removed = false →
    ∃ i < NumDirEntries, Directory.inUse table i = true ∧ Directory.sector table i = hd.sector ∧
      hd.file.hdr = entryHeader st.fs table i

/-- The invariant. -/
def Inv (st : Session) : Prop := ∃ freeMap table owned owner, st.Sound freeMap table owned owner

variable {st st' : Session}

/-- One entry changes: the files of the other entries, and the handles on them, are as before. -/
theorem Sound.sameFiles (h : st.Sound freeMap table owned owner) {fs' : FileSystem} {freeMap' : BitMap}
    {table' : Buffer} {owned' : Nat → List Nat} {owner' : Nat → Option Nat} {i : Nat}
    (hc : Consistent fs' freeMap' table' owned' owner') (hsame : SameFiles st.fs fs' table table' i)
    (hnew : i < NumDirEntries → Directory.inUse table' i = true →
      (entryHeader fs' table' i).Covers (entryHeader fs' table' i).sectors)
    {handles : Nat → Option Handle}
    (hcached : ∀ id hd, handles id = some hd → hd.file.hdr.Covers hd.file.hdr.sectors)
    (hcurrent : ∀ id hd, handles id = some hd → hd.removed = false → st.handles id = some hd ∧
      (Directory.inUse table i = true → hd.sector ≠ Directory.sector table i)) :
    Sound ⟨fs', handles⟩ freeMap' table' owned' owner' := by
  have hheader : ∀ j < NumDirEntries, j ≠ i → Directory.inUse table j = true →
      entryHeader fs' table' j = entryHeader st.fs table j := by
    intro j hj hji hu
    rw [entryHeader, entryHeader, (hsame.entries j hj hji).sector_eq]
    exact hsame.headers j hj hji hu
  refine ⟨hc, ?_, hcached, ?_⟩
  · intro j hj hu
    rcases eq_or_ne j i with rfl | hji
    · exact hnew hj hu
    · rw [(hsame.entries j hj hji).inUse_eq] at hu
      rw [hheader j hj hji hu]
      exact h.covers j hj hu
  · intro id hd hid hrem
    obtain ⟨hold, hne⟩ := hcurrent id hd hid hrem
    obtain ⟨j, hj, hu, hs, hhdr⟩ := h.current id hd hold hrem
    have hji : j ≠ i := by
      rintro rfl
      exact hne hu hs.symm
    have hentry := hsame.entries j hj hji
    refine ⟨j, hj, hentry.inUse_eq.trans hu, hentry.sector_eq.trans hs, ?_⟩
    rw [hheader j hj hji hu]
    exact hhdr

theorem create_inv (h : st.Inv) (junk : Nat → Buffer) (name : List Byte) {size : Nat}
    (hsize : size ≤ MaxFileSize) :
    ∃ st', st.step (.create junk name (BitVec.ofNat 32 size)) = some st' ∧ st'.Inv := by
  obtain ⟨freeMap, table, owned, owner, hs⟩ := h
  obtain ⟨success, fs', hcreate, hcase⟩ := create_spec hs.disk junk name hsize
  refine ⟨{ st with fs := fs' }, by rw [step, hcreate, Option.map_some], ?_⟩
  rcases hcase with rfl | ⟨freeMap', table', owned', owner', i, hc, hfree, hsame, hcov⟩
  · exact ⟨_, _, _, _, hs⟩
  · refine ⟨_, _, _, _, hs.sameFiles hc hsame (fun _ _ => hcov) hs.cached ?_⟩
    intro id hd hid _
    refine ⟨hid, ?_⟩
    intro hu
    rw [hfree] at hu
    cases hu

theorem markRemoved_some {handles : Nat → Option Handle} {sector : Word} {id : Nat} {hd : Handle}
    (h : markRemoved handles sector id = some hd) :
    ∃ old, handles id = some old ∧ hd.file = old.file ∧
      (hd.removed = false → hd = old ∧ hd.sector ≠ sector) := by
  obtain ⟨old, hold, rfl⟩ := Option.map_eq_some_iff.1 h
  refine ⟨old, hold, ?_⟩
  by_cases hs : old.sector = sector
  · rw [if_pos hs]
    exact ⟨rfl, fun hrem => Bool.noConfusion hrem⟩
  · rw [if_neg hs]
    exact ⟨rfl, fun _ => ⟨rfl, hs⟩⟩

theorem remove_inv (h : st.Inv) (junk : Nat → Buffer) (name : List Byte) :
    ∃ st', st.step (.remove junk name) = some st' ∧ st'.Inv := by
  obtain ⟨freeMap, table, owned, owner, hs⟩ := h
  obtain ⟨t, ht, -⟩ := fetchDirectory_eq hs.disk.layout hs.disk.storesTable junk
  obtain ⟨success, fs', hremove, hcase⟩ := remove_spec hs.disk junk name
  refine ⟨⟨fs', markRemoved st.handles (Directory.find t name)⟩, ?_, ?_⟩
  · rw [step, ht, Option.bind_some, hremove, Option.map_some]
  have hcached : ∀ id hd, markRemoved st.handles (Directory.find t name) id = some hd →
      hd.file.hdr.Covers hd.file.hdr.sectors := by
    intro id hd hid
    obtain ⟨old, hold, hfile, -⟩ := markRemoved_some hid
    rw [hfile]
    exact hs.cached id old hold
  rcases hcase with rfl | ⟨freeMap', table', owned', owner', i, hc, hfind, hfree, hsame⟩
  · refine ⟨freeMap, table, owned, owner, hs.disk, hs.covers, hcached, ?_⟩
    intro id hd hid hrem
    obtain ⟨old, hold, -, hkeep⟩ := markRemoved_some hid
    obtain ⟨rfl, -⟩ := hkeep hrem
    exact hs.current id hd hold hrem
  · refine ⟨_, _, _, _, hs.sameFiles hc hsame ?_ hcached ?_⟩
    · intro _ hu
      rw [hfree] at hu
      cases hu
    · intro id hd hid hrem
      obtain ⟨old, hold, -, hkeep⟩ := markRemoved_some hid
      obtain ⟨rfl, hne⟩ := hkeep hrem
      rw [hfind t ht] at hne
      exact ⟨hold, fun _ => hne⟩

theorem open_inv (h : st.Inv) {id : Nat} {sector : Word} (type : Word) (hid : st.handles id = none)
    (hfile : st.fs.IsFile sector) :
    ∃ st', st.step (.openFile id sector type) = some st' ∧ st'.Inv := by
  obtain ⟨freeMap, table, owned, owner, hs⟩ := h
  obtain ⟨i, hi, hu, rfl⟩ := hs.disk.exists_entry hfile
  have hopen : OpenFile.openSector st.fs.disk (Directory.sector table i) type =
      some ⟨entryHeader st.fs table i, 0, type⟩ := by
    rw [OpenFile.openSector, hs.disk.fetch_entry hi hu, Option.map_some]
  have hold : ∀ (new : Handle) id' hd, Function.update st.handles id (some new) id' = some hd →
      hd = new ∨ st.handles id' = some hd := by
    intro new id' hd hid'
    rcases eq_or_ne id' id with rfl | hne
    · rw [Function.update_self, Option.some.injEq] at hid'
      exact .inl hid'.symm
    · rw [Function.update_of_ne hne] at hid'
      exact .inr hid'
  refine ⟨⟨st.fs, Function.update st.handles id
    (some ⟨⟨entryHeader st.fs table i, 0, type⟩, Directory.sector table i, false⟩)⟩, ?_, freeMap, table,
    owned, owner, hs.disk, hs.covers, ?_, ?_⟩
  · rw [step, hid, Option.isSome_none, if_neg (by decide), hopen, Option.map_some]
  · intro id' hd hid'
    obtain rfl | hid' := hold _ id' hd hid'
    · exact hs.covers i hi hu
    · exact hs.cached id' hd hid'
  · intro id' hd hid' hrem
    obtain rfl | hid' := hold _ id' hd hid'
    · exact ⟨i, hi, hu, rfl, rfl⟩
    · exact hs.current id' hd hid' hrem

theorem close_inv (h : st.Inv) (id : Nat) : ∃ st', st.step (.closeFile id) = some st' ∧ st'.Inv := by
  obtain ⟨freeMap, table, owned, owner, hs⟩ := h
  have hopen : ∀ id' hd, Function.update st.handles id none id' = some hd → st.handles id' = some hd := by
    intro id' hd hid'
    rcases eq_or_ne id' id with rfl | hne
    · rw [Function.update_self] at hid'
      cases hid'
    · rwa [Function.update_of_ne hne] at hid'
  refine ⟨_, rfl, freeMap, table, owned, owner, hs.disk, hs.covers, ?_, ?_⟩
  · exact fun id' hd hid' => hs.cached id' hd (hopen id' hd hid')
  · exact fun id' hd hid' => hs.current id' hd (hopen id' hd hid')

theorem read_inv (h : st.Inv) {id : Nat} {hd : Handle} (hid : st.handles id = some hd) (junk into : Buffer)
    (off : Nat) {numBytes position : Word} (hp : OpenFile.Proper hd.file.hdr numBytes position) :
    ∃ st', st.step (.readAt id junk into off numBytes position) = some st' ∧ st'.Inv := by
  have hinv := h
  obtain ⟨freeMap, table, owned, owner, hs⟩ := h
  obtain ⟨r, hr⟩ := Option.ne_none_iff_exists'.1
    (OpenFile.readAt_ne_none (hs.cached id hd hid) hp st.fs.disk junk into off)
  refine ⟨st, ?_, hinv⟩
  rw [step, hid, Option.bind_some, hr, Option.map_some]

/-- **A write through a handle whose file has not been removed** leaves everything else as it was. -/
theorem write_inv (h : st.Inv) {id : Nat} {hd : Handle} (hid : st.handles id = some hd)
    (hrem : hd.removed = false) (junk : Nat → Buffer) (src : Buffer) {numBytes position : Word}
    (hp : OpenFile.Proper hd.file.hdr numBytes position) :
    ∃ st', st.step (.writeAt id junk src numBytes position) = some st' ∧ st'.Inv ∧
      Undamaged hd st.fs st'.fs := by
  obtain ⟨freeMap, table, owned, owner, hs⟩ := h
  obtain ⟨i, hi, hu, hsec, hhdr⟩ := hs.current id hd hid hrem
  obtain ⟨r, disk, hwrite, hframe⟩ := OpenFile.writeAt_frame (hs.cached id hd hid)
    (by rw [hhdr]; exact hs.disk.nodup_data hi hu) hp st.fs.disk junk src
  rw [hhdr] at hframe
  have hc := hs.disk.writeData hi hu hframe
  have hheader : ∀ j < NumDirEntries, Directory.inUse table j = true →
      entryHeader { st.fs with disk := disk } table j = entryHeader st.fs table j :=
    fun j hj huj => hs.disk.header_written hi hu hframe (.inr ⟨j, hj, huj, rfl⟩)
  refine ⟨{ st with fs := { st.fs with disk := disk } }, ?_, ?_, ?_, ?_, ?_, ?_⟩
  · rw [step, hid, Option.bind_some, hwrite, Option.map_some]
  · refine ⟨freeMap, table, owned, owner, hc, ?_, hs.cached, ?_⟩
    · intro j hj huj
      rw [hheader j hj huj]
      exact hs.covers j hj huj
    · intro id' hd' hid' hrem'
      obtain ⟨j, hj, huj, hsj, hhj⟩ := hs.current id' hd' hid' hrem'
      exact ⟨j, hj, huj, hsj, hhj.trans (hheader j hj huj).symm⟩
  · intro junk'
    rw [fetchFreeMap_eq hc.layout hc.storesMap, fetchFreeMap_eq hs.disk.layout hs.disk.storesMap]
  · intro junk'
    have hproper : OpenFile.Proper st.fs.directoryFile.hdr
        (BitVec.ofNat 32 (NumDirEntries * DirectoryEntrySize)) 0 := .inr (.inr ⟨by decide, by decide⟩)
    have hread := OpenFile.readAt_frame hs.disk.layout.dirHdr
      (fun a ha => hs.disk.other_written hi hu hframe (Nat.ne_of_lt hi) (hs.disk.dir_mem ha)) hproper
      (junk' 1) (Directory.init (junk' 0)) 0
    rw [fetchDirectory, fetchDirectory, Directory.fetchFrom, Directory.fetchFrom, hread]
  · intro sector hsector
    have h01 : ∀ u, u = 0 ∨ u = 1 → FileHeader.fetchFrom disk (BitVec.ofNat 32 u) =
        FileHeader.fetchFrom st.fs.disk (BitVec.ofNat 32 u) := by
      intro u hu01
      have hlt : u < NumSectors := hs.disk.lt (hs.disk.system_mem hu01)
      rw [FileHeader.fetchFrom_eq _ hlt, FileHeader.fetchFrom_eq _ hlt,
        hs.disk.header_written hi hu hframe (.inl hu01)]
    rcases hsector with rfl | rfl | hfile
    · exact h01 0 (.inl rfl)
    · exact h01 1 (.inr rfl)
    · obtain ⟨j, hj, huj, rfl⟩ := hs.disk.exists_entry hfile
      rw [hs.disk.fetch_entry hj huj, ← hheader j hj huj]
      exact hc.fetch_entry hj huj
  · intro sector hfile hother h hfetch junk' into off n p hproper
    obtain ⟨j, hj, huj, rfl⟩ := hs.disk.exists_entry hfile
    have hij : i ≠ j := by
      rintro rfl
      rcases hother with hgone | hne
      · rw [hrem] at hgone
        cases hgone
      · exact hne hsec
    rw [hs.disk.fetch_entry hj huj, Option.some.injEq] at hfetch
    subst hfetch
    refine OpenFile.readAt_frame (hs.covers j hj huj) ?_ hproper junk' into off
    intro a ha
    exact hs.disk.other_written hi hu hframe hij (hs.disk.data_mem hj huj ha)

/-- **Every call** that is made, other than a write to a file that has been removed, succeeds and keeps
the invariant. -/
theorem step_inv (h : st.Inv) {e : FileCall} (hv : st.Valid e) (hcur : st.Current e) :
    ∃ st', st.step e = some st' ∧ st'.Inv := by
  cases e with
  | create junk name size =>
    obtain ⟨n, hn, rfl⟩ := exists_ofNat_of_inRange hv.1 hv.2
    exact create_inv h junk name hn
  | remove junk name => exact remove_inv h junk name
  | openFile id sector type => exact open_inv h type hv.1 hv.2
  | closeFile id => exact close_inv h id
  | readAt id junk into off numBytes position =>
    obtain ⟨hd, hid, hp⟩ := hv
    exact read_inv h hid junk into off hp
  | writeAt id junk src numBytes position =>
    obtain ⟨hd, hid, hp⟩ := hv
    obtain ⟨st', hstep, hinv, -⟩ := write_inv h hid (hcur hd hid) junk src hp
    exact ⟨st', hstep, hinv⟩

theorem init_inv (h : system.init st) : st.Inv := by
  obtain ⟨⟨disk, junk, hf⟩, hnone⟩ := h
  obtain ⟨fs, hf', freeMap, table, owned, owner, hc, hunused⟩ := format_spec disk junk
  rw [hf, Option.some.injEq] at hf'
  rw [← hf'] at hc
  refine ⟨freeMap, table, owned, owner, hc, ?_, ?_, ?_⟩
  · intro i hi hu
    rw [hunused i hi] at hu
    cases hu
  · intro id hd hid
    rw [hnone] at hid
    cases hid
  · intro id hd hid
    rw [hnone] at hid
    cases hid

theorem reachable_inv (h : system.ReachableBy (fun st e => st.Valid e ∧ st.Current e) st) : st.Inv := by
  refine System.ReachableBy.invariant (I := Inv) (fun _ h0 => init_inv h0) ?_ h
  intro st e st' _ hinv hok he
  obtain ⟨st1, hstep, hinv'⟩ := step_inv hinv hok.1 hok.2
  have he' : st.step e = some st' := he
  rw [he', Option.some.injEq] at hstep
  rw [hstep]
  exact hinv'

/-- **Writing to one file damages no other**, in every run that does not write to a file that has been
removed: no call of it fails, and a write through a handle leaves the stored free map and directory,
every header and what can be read of every other file as they were. -/
theorem write_damages_no_other {st : Session}
    (h : system.ReachableBy (fun st e => st.Valid e ∧ st.Current e) st) :
    (∀ e, st.Valid e → st.Current e → st.step e ≠ none) ∧
    ∀ id junk src numBytes position, st.Valid (.writeAt id junk src numBytes position) →
      st.Current (.writeAt id junk src numBytes position) → ∀ hd st', st.handles id = some hd →
        st.step (.writeAt id junk src numBytes position) = some st' → Undamaged hd st.fs st'.fs := by
  have hinv := reachable_inv h
  constructor
  · intro e hv hcur
    obtain ⟨st', hstep, -⟩ := step_inv hinv hv hcur
    rw [hstep]
    exact Option.some_ne_none st'
  · intro id junk src numBytes position hv hcur hd st' hid hstep
    obtain ⟨hd', hid', hp⟩ := hv
    rw [hid, Option.some.injEq] at hid'
    rw [← hid'] at hp
    obtain ⟨st1, hstep1, -, hund⟩ := write_inv hinv hid (hcur hd hid) junk src hp
    rw [hstep, Option.some.injEq] at hstep1
    rw [hstep1]
    exact hund

/-! ## A file that is removed while it is open -/

/-- Memory that holds zeros. -/
def zeros : Nat → Buffer := fun _ _ => 0

/-- `f` is created, opened and removed, `g` created, and a byte written to `f`: the sectors of `f` are
those of `g`. -/
theorem staleRun_eval : (do
      let fs0 ← format (fun _ => 0) zeros
      let created ← fs0.create zeros [102] 128
      let table1 ← created.2.fetchDirectory zeros
      let file ← OpenFile.openSector created.2.disk 8 0
      let removed ← created.2.remove zeros [102]
      let again ← removed.2.create zeros [103] 128
      let table3 ← again.2.fetchDirectory zeros
      let hdr ← FileHeader.fetchFrom again.2.disk 8
      let before ← OpenFile.readAt again.2.disk hdr (zeros 0) (zeros 0) 0 1 0
      let written ← OpenFile.writeAt again.2.disk file.hdr zeros (fun _ => 1) 1 0
      let after ← OpenFile.readAt written.2 hdr (zeros 0) (zeros 0) 0 1 0
      some ([Directory.inUse table1 0, Directory.inUse table3 0],
        [Directory.sector table1 0, Directory.find table1 [102], Directory.sector table3 0],
        [before.2 0, after.2 0])) = some ([true, true], [8, 8, 8], [0, 1]) := by
  decide +kernel

/-- The calls of that run, one by one. -/
theorem staleRun : ∃ fs0 success fs1 table1 file gone fs2 again fs3 table3 hdr before written after,
    format (fun _ => 0) zeros = some fs0 ∧ fs0.create zeros [102] 128 = some (success, fs1) ∧
      fs1.fetchDirectory zeros = some table1 ∧ OpenFile.openSector fs1.disk 8 0 = some file ∧
      fs1.remove zeros [102] = some (gone, fs2) ∧ fs2.create zeros [103] 128 = some (again, fs3) ∧
      fs3.fetchDirectory zeros = some table3 ∧ FileHeader.fetchFrom fs3.disk 8 = some hdr ∧
      OpenFile.readAt fs3.disk hdr (zeros 0) (zeros 0) 0 1 0 = some before ∧
      OpenFile.writeAt fs3.disk file.hdr zeros (fun _ => 1) 1 0 = some written ∧
      OpenFile.readAt written.2 hdr (zeros 0) (zeros 0) 0 1 0 = some after ∧
      (Directory.inUse table1 0 = true ∧ Directory.inUse table3 0 = true) ∧
      (Directory.sector table1 0 = 8 ∧ Directory.find table1 [102] = 8 ∧ Directory.sector table3 0 = 8) ∧
      before.2 0 = 0 ∧ after.2 0 = 1 := by
  have heval := staleRun_eval
  simp only [Option.bind_eq_bind, Option.bind_eq_some_iff, Option.some.injEq, Prod.mk.injEq, List.cons.injEq,
    and_true] at heval
  obtain ⟨fs0, hformat, ⟨success, fs1⟩, hcreate, table1, hfetch, file, hopen, ⟨gone, fs2⟩, hremove, ⟨again, fs3⟩,
    hcreate3, table3, hfetch3, hdr, hhdr, before, hbefore, written, hwrite, after, hafter, huse, hsectors,
    hbytes⟩ := heval
  exact ⟨fs0, success, fs1, table1, file, gone, fs2, again, fs3, table3, hdr, before, written, after, hformat,
    hcreate, hfetch, hopen, hremove, hcreate3, hfetch3, hhdr, hbefore, hwrite, hafter, huse, hsectors, hbytes⟩

/-- One file is open: the one with its header in sector 8. -/
def opened (fs : FileSystem) (file : OpenFile) : Session :=
  ⟨fs, Function.update (fun _ => none) 0 (some ⟨file, 8, false⟩)⟩

theorem opened_reachable {fs0 fs1 : FileSystem} {success : Bool} {table1 : Buffer} {file : OpenFile}
    (hformat : format (fun _ => 0) zeros = some fs0) (hcreate : fs0.create zeros [102] 128 = some (success, fs1))
    (hfetch : fs1.fetchDirectory zeros = some table1) (hopen : OpenFile.openSector fs1.disk 8 0 = some file)
    (hu : Directory.inUse table1 0 = true) (hs : Directory.sector table1 0 = 8) :
    system.ReachableBy (fun st e => st.Valid e ∧ st.Current e) (opened fs1 file) := by
  have h0 : system.ReachableBy (fun st e => st.Valid e ∧ st.Current e) ⟨fs0, fun _ => none⟩ :=
    .init ⟨⟨_, _, hformat⟩, rfl⟩
  have h1 : system.ReachableBy (fun st e => st.Valid e ∧ st.Current e) ⟨fs1, fun _ => none⟩ := by
    refine .step h0 (e := .create zeros [102] 128) ⟨⟨by decide, by decide⟩, trivial⟩ ?_
    simp only [system, step, hcreate, Option.map_some]
  refine .step h1 (e := .openFile 0 8 0) ⟨⟨rfl, zeros, table1, hfetch, 0, by decide, hu, hs⟩, trivial⟩ ?_
  simp only [system, step, opened, hopen, Option.map_some, Option.isSome_none, Bool.false_eq_true, if_false]

/-- `f` is open, and no file has been removed yet. -/
theorem write_damages_no_other_opened : ∃ st hd st',
    system.ReachableBy (fun st e => st.Valid e ∧ st.Current e) st ∧ st.handles 0 = some hd ∧
      st.step (.writeAt 0 zeros (fun _ => 1) 1 0) = some st' ∧ Undamaged hd st.fs st'.fs := by
  obtain ⟨fs0, success, fs1, table1, file, -, -, -, -, -, -, -, -, -, hformat, hcreate, hfetch, hopen, -, -, -, -,
    -, -, -, ⟨hu, -⟩, ⟨hs, -, -⟩, -⟩ := staleRun
  have hreach := opened_reachable hformat hcreate hfetch hopen hu hs
  have hhandle : (opened fs1 file).handles 0 = some ⟨file, 8, false⟩ := rfl
  have hvalid : (opened fs1 file).Valid (.writeAt 0 zeros (fun _ => 1) 1 0) :=
    ⟨_, hhandle, .inr (.inr ⟨by decide, by decide⟩)⟩
  have hcurrent : (opened fs1 file).Current (.writeAt 0 zeros (fun _ => 1) 1 0) := by
    intro hd hid
    rw [hhandle, Option.some.injEq] at hid
    rw [← hid]
  obtain ⟨hsucceeds, hwrites⟩ := write_damages_no_other hreach
  obtain ⟨st', hstep⟩ := Option.ne_none_iff_exists'.1 (hsucceeds _ hvalid hcurrent)
  exact ⟨_, _, st', hreach, hhandle, hstep, hwrites _ _ _ _ _ hvalid hcurrent _ st' hhandle hstep⟩

/-- A file that is removed while it is open: the write changes `g`. -/
theorem staleRun_damages : ¬ ∀ st, system.ReachableBy (fun st e => st.Valid e) st →
    ∀ id junk src numBytes position, st.Valid (.writeAt id junk src numBytes position) → ∀ hd st',
      st.handles id = some hd → st.step (.writeAt id junk src numBytes position) = some st' →
        Undamaged hd st.fs st'.fs := by
  intro hall
  obtain ⟨fs0, success, fs1, table1, file, gone, fs2, again, fs3, table3, hdr, before, written, after, hformat,
    hcreate, hfetch, hopen, hremove, hcreate3, hfetch3, hhdr, hbefore, hwrite, hafter, ⟨hu, hu3⟩,
    ⟨hs, hfind, hs3⟩, hbefore0, hafter0⟩ := staleRun
  have hopened : system.ReachableBy (fun st e => st.Valid e) (opened fs1 file) :=
    (opened_reachable hformat hcreate hfetch hopen hu hs).weaken (fun _ _ hok => hok.1)
  have hremoved : system.ReachableBy (fun st e => st.Valid e)
      ⟨fs2, markRemoved (opened fs1 file).handles 8⟩ := by
    refine .step hopened (e := .remove zeros [102]) trivial ?_
    have hfetch' : (opened fs1 file).fs.fetchDirectory zeros = some table1 := hfetch
    have hremove' : (opened fs1 file).fs.remove zeros [102] = some (gone, fs2) := hremove
    simp only [system, step, hfetch', hfind, hremove', Option.map_some, Option.bind_some]
  have hcreated : system.ReachableBy (fun st e => st.Valid e)
      ⟨fs3, markRemoved (opened fs1 file).handles 8⟩ := by
    refine .step hremoved (e := .create zeros [103] 128) ⟨by decide, by decide⟩ ?_
    simp only [system, step, hcreate3, Option.map_some]
  have hstale : markRemoved (opened fs1 file).handles 8 0 = some ⟨file, 8, true⟩ := rfl
  have hund := hall _ hcreated 0 zeros (fun _ => 1) 1 0 ⟨_, hstale, .inr (.inr ⟨by decide, by decide⟩)⟩ _
    ⟨{ fs3 with disk := written.2 }, markRemoved (opened fs1 file).handles 8⟩ hstale
    (by simp only [step, hstale, hwrite, Option.map_some, Option.bind_some])
  have hread := hund.files 8 ⟨zeros, table3, hfetch3, 0, by decide, hu3, hs3⟩ (.inl rfl) hdr hhdr (zeros 0)
    (zeros 0) 0 1 0 (.inr (.inr ⟨by decide, by decide⟩))
  simp only [hafter, hbefore, Option.some.injEq] at hread
  rw [hread, hbefore0] at hafter0
  exact absurd hafter0 (by decide)

end Session

end FileSystem

end Nachos
