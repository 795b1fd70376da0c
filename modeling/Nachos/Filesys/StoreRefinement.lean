import Nachos.Lib.Refinement
import Nachos.Filesys.FileStore

/-!
# The file system refines the store

A session `Represents` a store if its disk is consistent, the files of its directory are those of the
store, and each open object is at the position, and on the header of the file, of its cursor.  The
counters of the store are the free directory entries and the free sectors.

* `create`, `remove`, `openFound`, `read`, `write`, ... — one call.
* `respond_simulates` — the session simulates the store.
* `file_store` — every run from a formatted disk.
-/

set_option autoImplicit false

namespace Nachos

namespace FileSystem

open CString Refinement

/-! ## Representation -/

/-- The name in directory entry `i`. -/
def entryKey (table : Buffer) (i : Nat) : List Byte := str (Directory.name table i) 0 FileNameMaxLen

/-- The directory entries that are free. -/
def freeEntries (table : Buffer) : Finset Nat :=
  (Finset.range NumDirEntries).filter (fun i => Directory.inUse table i = false)

/-- The object `hd` is open on the file that `c` names, or on one that has been removed. -/
structure Shows (fs : FileSystem) (table : Buffer) (hd : Handle) (c : Cursor) : Prop where
  position : c.position = hd.file.seekPosition
  gone : hd.removed = true → c.file = none
  file : hd.removed = false → ∃ i < NumDirEntries, Directory.inUse table i = true ∧
    Directory.sector table i = hd.sector ∧ hd.file.hdr = entryHeader fs table i ∧
    c.file = some (entryKey table i)

/-- The session holds the files and the open files of the store. -/
structure Represents (st : Session) (a : Store) (freeMap : BitMap) (table : Buffer) (owned : Nat → List Nat)
    (owner : Nat → Option Nat) : Prop where
  sound : st.Sound freeMap table owned owner
  exact : ∀ i < NumDirEntries, Directory.inUse table i = true →
    (entryHeader st.fs table i).sectors.length = divRoundUp (entryHeader st.fs table i).numBytes.toNat SectorSize
  files : ∀ k c, a.files k = some c ↔ ∃ i < NumDirEntries, Directory.inUse table i = true ∧
    entryKey table i = k ∧ bytesOf st.fs.disk (entryHeader st.fs table i) = c
  cursors : ∀ id, (st.handles id = none ∧ a.cursors id = none) ∨
    ∃ hd c, st.handles id = some hd ∧ a.cursors id = some c ∧ Shows st.fs table hd c
  entries : a.entries = (freeEntries table).card
  room : a.room = freeMap.numClear

/-- The session stands for the store. -/
def Represented (st : Session) (a : Store) : Prop :=
  ∃ freeMap table owned owner, Represents st a freeMap table owned owner

variable {fs fs' : FileSystem} {freeMap freeMap' : BitMap} {table table' : Buffer} {owned owned' : Nat → List Nat}
  {owner owner' : Nat → Option Nat} {st : Session} {a : Store}

theorem matches_iff_key {t : Buffer} {name : List Byte} {i : Nat} :
    Directory.Matches t name i ↔ Directory.inUse t i = true ∧ entryKey t i = key name :=
  and_congr_right' (strncmp_iff_str _ _ _ _)

theorem entryKey_same {t t' : Buffer} {i : Nat} (h : Directory.SameEntry t t' i) : entryKey t' i = entryKey t i := by
  apply str_congr
  intro j hj
  rw [Nat.zero_add]
  exact h.name_eq hj

theorem mem_freeEntries {t : Buffer} {i : Nat} :
    i ∈ freeEntries t ↔ i < NumDirEntries ∧ Directory.inUse t i = false := by
  rw [freeEntries, Finset.mem_filter, Finset.mem_range]

/-- One entry is filled, the others are as before. -/
theorem freeEntries_erase {i : Nat} (hu : Directory.inUse table' i = true)
    (hsame : ∀ j < NumDirEntries, j ≠ i → Directory.SameEntry table table' j) :
    freeEntries table' = (freeEntries table).erase i := by
  ext j
  rw [Finset.mem_erase, mem_freeEntries, mem_freeEntries]
  rcases eq_or_ne j i with rfl | hji
  · simp [hu]
  · constructor
    · rintro ⟨hj, hfree⟩
      exact ⟨hji, hj, by rw [← (hsame j hj hji).inUse_eq]; exact hfree⟩
    · rintro ⟨-, hj, hfree⟩
      exact ⟨hj, by rw [(hsame j hj hji).inUse_eq]; exact hfree⟩

/-- One entry is freed, the others are as before. -/
theorem freeEntries_insert {i : Nat} (hi : i < NumDirEntries) (hu : Directory.inUse table' i = false)
    (hsame : ∀ j < NumDirEntries, j ≠ i → Directory.SameEntry table table' j) :
    freeEntries table' = insert i (freeEntries table) := by
  ext j
  rw [Finset.mem_insert, mem_freeEntries, mem_freeEntries]
  rcases eq_or_ne j i with rfl | hji
  · simp [hu, hi]
  · constructor
    · rintro ⟨hj, hfree⟩
      exact .inr ⟨hj, by rw [← (hsame j hj hji).inUse_eq]; exact hfree⟩
    · rintro (rfl | ⟨hj, hfree⟩)
      · exact absurd rfl hji
      · exact ⟨hj, by rw [(hsame j hj hji).inUse_eq]; exact hfree⟩

namespace Consistent

/-- Two files have different names. -/
theorem entryKey_inj (h : Consistent fs freeMap table owned owner) {i j : Nat} (hi : i < NumDirEntries)
    (hj : j < NumDirEntries) (hui : Directory.inUse table i = true) (huj : Directory.inUse table j = true)
    (hkey : entryKey table i = entryKey table j) : i = j := by
  by_contra hij
  have hdiff := h.names i hi j hj hij hui huj
  rw [(strncmp_iff_str _ _ _ _).2 hkey] at hdiff
  cases hdiff

/-- Two files have their headers in different sectors. -/
theorem sector_inj (h : Consistent fs freeMap table owned owner) {i j : Nat} (hi : i < NumDirEntries)
    (hj : j < NumDirEntries) (hui : Directory.inUse table i = true) (huj : Directory.inUse table j = true)
    (hsec : Directory.sector table i = Directory.sector table j) : i = j := by
  by_contra hij
  exact h.ne_of_mem hij (h.sector_mem hi hui) (h.sector_mem hj huj) (by rw [hsec])

/-- A file whose sectors are not written holds what it held. -/
theorem bytes_kept (h : Consistent fs freeMap table owned owner) {j : Nat} (hj : j < NumDirEntries)
    (hu : Directory.inUse table j = true) {disk : Disk}
    (hd : ∀ a, owner (a / SectorSize) = some j → disk a = fs.disk a) :
    FileHeader.onDisk disk (Directory.sector table j).toNat = entryHeader fs table j ∧
      bytesOf disk (entryHeader fs table j) = bytesOf fs.disk (entryHeader fs table j) := by
  constructor
  · apply FileHeader.onDisk_congr
    intro a ha
    apply hd
    rw [ha]
    exact (h.homed.mem _ _).1 (h.sector_mem hj hu)
  · apply bytesOf_frame
    intro a ha
    exact hd a ((h.homed.mem _ _).1 (h.data_mem hj hu ha))

end Consistent

namespace Represents

theorem consistent (h : Represents st a freeMap table owned owner) : Consistent st.fs freeMap table owned owner :=
  h.sound.disk

/-- A name that no file has. -/
theorem files_eq_none_iff (h : Represents st a freeMap table owned owner) {name : List Byte} :
    a.files (key name) = none ↔ ∀ i < NumDirEntries, ¬ Directory.Matches table name i := by
  rw [Option.eq_none_iff_forall_ne_some]
  constructor
  · intro hnone i hi hmatch
    obtain ⟨hu, hkey⟩ := matches_iff_key.1 hmatch
    exact hnone _ ((h.files _ _).2 ⟨i, hi, hu, hkey, rfl⟩)
  · intro hno c hc
    obtain ⟨i, hi, hu, hkey, -⟩ := (h.files _ _).1 hc
    exact hno i hi (matches_iff_key.2 ⟨hu, hkey⟩)

theorem room_iff (h : Represents st a freeMap table owned owner) {name : List Byte} {size : Nat} :
    a.Room (key name) size ↔ CanCreate freeMap table name size := by
  refine and_congr h.files_eq_none_iff (and_congr ?_ ?_)
  · rw [h.entries, Finset.card_pos]
    constructor
    · rintro ⟨i, hi⟩
      exact ⟨i, mem_freeEntries.1 hi⟩
    · rintro ⟨i, hi⟩
      exact ⟨i, mem_freeEntries.2 hi⟩
  · rw [h.room, sectorsFor]

end Represents

/-! ## Creating and removing -/

/-- Directory entry `i` changes, and no sector of a file. -/
structure Changes (fs fs' : FileSystem) (owner : Nat → Option Nat) (table table' : Buffer) (i : Nat) : Prop where
  entries : ∀ j < NumDirEntries, j ≠ i → Directory.SameEntry table table' j
  disk : ∀ x, owner (x / SectorSize) ≠ none → owner (x / SectorSize) ≠ some NumDirEntries → fs'.disk x = fs.disk x

/-- Another entry names the same file, which holds the same bytes. -/
theorem Consistent.entry_kept (h : Consistent fs freeMap table owned owner) {i j : Nat}
    (hch : Changes fs fs' owner table table' i) (hj : j < NumDirEntries) (hji : j ≠ i)
    (hu : Directory.inUse table j = true) :
    entryHeader fs' table' j = entryHeader fs table j ∧
      bytesOf fs'.disk (entryHeader fs' table' j) = bytesOf fs.disk (entryHeader fs table j) := by
  have hdisk : ∀ x, owner (x / SectorSize) = some j → fs'.disk x = fs.disk x := by
    intro x hx
    apply hch.disk
    · rw [hx]
      exact Option.some_ne_none j
    · rw [hx]
      exact fun heq => Nat.ne_of_lt hj (Option.some.inj heq)
  obtain ⟨hhdr, hbytes⟩ := h.bytes_kept hj hu hdisk
  have hentry : entryHeader fs' table' j = entryHeader fs table j := by
    rw [entryHeader, (hch.entries j hj hji).sector_eq]
    exact hhdr
  exact ⟨hentry, by rw [hentry]; exact hbytes⟩

/-- The header sectors of the other files are not written. -/
theorem Consistent.sameFiles (h : Consistent fs freeMap table owned owner) {i : Nat}
    (hch : Changes fs fs' owner table table' i) : SameFiles fs fs' table table' i := by
  refine ⟨hch.entries, ?_⟩
  intro j hj hji hu
  have hentry := (h.entry_kept hch hj hji hu).1
  rw [entryHeader, (hch.entries j hj hji).sector_eq] at hentry
  exact hentry

namespace Represents

variable {fs' : FileSystem} {i : Nat}

/-- An object on a file of another entry is open on the same file. -/
theorem shows_kept (h : Represents st a freeMap table owned owner) (hch : Changes st.fs fs' owner table table' i)
    {hd : Handle} {c : Cursor} (hshows : Shows st.fs table hd c)
    (hne : hd.removed = false → Directory.inUse table i = true → Directory.sector table i ≠ hd.sector) :
    Shows fs' table' hd c := by
  refine ⟨hshows.position, hshows.gone, ?_⟩
  intro hrem
  obtain ⟨j, hj, hu, hsec, hhdr, hfile⟩ := hshows.file hrem
  have hji : j ≠ i := by
    rintro rfl
    exact hne hrem hu hsec
  have hentry := hch.entries j hj hji
  refine ⟨j, hj, hentry.inUse_eq.trans hu, hentry.sector_eq.trans hsec, ?_, ?_⟩
  · rw [(h.consistent.entry_kept hch hj hji hu).1]
    exact hhdr
  · rw [entryKey_same hentry]
    exact hfile

/-- The files of the other entries are as before. -/
theorem files_kept (h : Represents st a freeMap table owned owner) (hch : Changes st.fs fs' owner table table' i)
    {j : Nat} (hj : j < NumDirEntries) (hji : j ≠ i) (k c : List Byte) :
    (Directory.inUse table' j = true ∧ entryKey table' j = k ∧ bytesOf fs'.disk (entryHeader fs' table' j) = c) ↔
    (Directory.inUse table j = true ∧ entryKey table j = k ∧
      bytesOf st.fs.disk (entryHeader st.fs table j) = c) := by
  rw [(hch.entries j hj hji).inUse_eq, entryKey_same (hch.entries j hj hji)]
  refine and_congr_right fun hu => ?_
  rw [(h.consistent.entry_kept hch hj hji hu).2]

theorem exact_kept (h : Represents st a freeMap table owned owner) (hch : Changes st.fs fs' owner table table' i)
    (hnew : i < NumDirEntries → Directory.inUse table' i = true → (entryHeader fs' table' i).sectors.length =
      divRoundUp (entryHeader fs' table' i).numBytes.toNat SectorSize) {j : Nat} (hj : j < NumDirEntries)
    (hu : Directory.inUse table' j = true) :
    (entryHeader fs' table' j).sectors.length = divRoundUp (entryHeader fs' table' j).numBytes.toNat SectorSize := by
  rcases eq_or_ne j i with rfl | hji
  · exact hnew hj hu
  · rw [(hch.entries j hj hji).inUse_eq] at hu
    rw [(h.consistent.entry_kept hch hj hji hu).1]
    exact h.exact j hj hu

/-- The files with a new one, in entry `i`. -/
theorem files_added (h : Represents st a freeMap table owned owner) (hch : Changes st.fs fs' owner table table' i)
    {name : List Byte} (hi : i < NumDirEntries) (hfree : Directory.inUse table i = false)
    (hfresh : ∀ j < NumDirEntries, ¬ Directory.Matches table name j) (hnew : Directory.Matches table' name i)
    (k c : List Byte) :
    Function.update a.files (key name) (some (bytesOf fs'.disk (entryHeader fs' table' i))) k = some c ↔
      ∃ j < NumDirEntries, Directory.inUse table' j = true ∧ entryKey table' j = k ∧
        bytesOf fs'.disk (entryHeader fs' table' j) = c := by
  obtain ⟨huse, hkey⟩ := matches_iff_key.1 hnew
  rcases eq_or_ne k (key name) with rfl | hk
  · rw [Function.update_self, Option.some.injEq]
    constructor
    · rintro rfl
      exact ⟨i, hi, huse, hkey, rfl⟩
    · rintro ⟨j, hj, hfile⟩
      rcases eq_or_ne j i with rfl | hji
      · exact hfile.2.2
      · obtain ⟨hu, hjkey, -⟩ := (h.files_kept hch hj hji _ _).1 hfile
        exact absurd (matches_iff_key.2 ⟨hu, hjkey⟩) (hfresh j hj)
  · rw [Function.update_of_ne hk, h.files]
    refine exists_congr fun j => and_congr_right fun hj => ?_
    rcases eq_or_ne j i with rfl | hji
    · refine iff_of_false ?_ ?_
      · rintro ⟨hu, -⟩
        rw [hfree] at hu
        cases hu
      · rintro ⟨-, hjkey, -⟩
        exact hk (hjkey.symm.trans hkey)
    · exact (h.files_kept hch hj hji k c).symm

/-- The files without that of entry `i`. -/
theorem files_dropped (h : Represents st a freeMap table owned owner) (hch : Changes st.fs fs' owner table table' i)
    {name : List Byte} (hi : i < NumDirEntries) (hold : Directory.Matches table name i)
    (hfree : Directory.inUse table' i = false) (k c : List Byte) :
    Function.update a.files (key name) none k = some c ↔
      ∃ j < NumDirEntries, Directory.inUse table' j = true ∧ entryKey table' j = k ∧
        bytesOf fs'.disk (entryHeader fs' table' j) = c := by
  obtain ⟨huse, hkey⟩ := matches_iff_key.1 hold
  have hother : ∀ j, Directory.inUse table' j = true → j ≠ i := by
    rintro j hu rfl
    rw [hfree] at hu
    cases hu
  rcases eq_or_ne k (key name) with rfl | hk
  · rw [Function.update_self]
    refine iff_of_false (Option.some_ne_none c).symm ?_
    rintro ⟨j, hj, hfile⟩
    obtain ⟨hu, hjkey, -⟩ := (h.files_kept hch hj (hother j hfile.1) _ _).1 hfile
    exact hother j hfile.1 (h.consistent.entryKey_inj hj hi hu huse (hjkey.trans hkey.symm))
  · rw [Function.update_of_ne hk, h.files]
    refine exists_congr fun j => and_congr_right fun hj => ?_
    rcases eq_or_ne j i with rfl | hji
    · refine iff_of_false ?_ (fun hfile => hother j hfile.1 rfl)
      rintro ⟨-, hjkey, -⟩
      exact hk (hjkey.symm.trans hkey)
    · exact (h.files_kept hch hj hji k c).symm

/-- `Create` adds a file of that name and length, or there is no room. -/
theorem create (h : Represents st a freeMap table owned owner) (junk : Nat → Buffer) (name : List Byte) {size : Nat}
    (hsize : size ≤ MaxFileSize) :
    ∃ r st' a', st.respond (.create junk name (BitVec.ofNat 32 size)) = some (r, st') ∧
      a.Step (.create junk name (BitVec.ofNat 32 size)) r a' ∧ Represented st' a' := by
  have hs := h.sound
  have hmax : MaxFileSize = 3840 := rfl
  have h1024 : NumSectors = 1024 := rfl
  have hnat : (BitVec.ofNat 32 size).toNat = size := CInt.toNat_ofNat (by omega)
  rcases create_cases hs.disk junk name hsize with
    ⟨hno, hcreate⟩ | ⟨hroom, fs', freeMap', table', owned', owner', i, s, hdr, hcreate, hc, hadds⟩
  · refine ⟨.status false, st, a, by rw [Session.respond, hcreate, Option.map_some], .notCreated ?_,
      freeMap, table, owned, owner, h⟩
    rw [hnat, h.room_iff]
    exact hno
  · obtain ⟨freeMap'', hmap, hcount, hdisk⟩ := create_writes hs.disk hsize hcreate
    have hch : Changes st.fs fs' owner table table' i := ⟨hadds.same.entries, hdisk⟩
    have hstored := fetchFreeMap_eq hc.layout hmap (fun _ _ => 0)
    rw [fetchFreeMap_eq hc.layout hc.storesMap, Option.some.injEq] at hstored
    rw [← hstored] at hcount
    have hlt := (hadds.taken.free s List.mem_cons_self).1
    rw [hs.disk.storesMap.numBits] at hlt
    have hnew : entryHeader fs' table' i = hdr := by
      rw [entryHeader, hadds.sector, CInt.toNat_ofNat (by omega)]
      exact hadds.onDisk
    have hbytes : hdr.numBytes.toNat = size := by rw [hadds.numBytes]; exact hnat
    have hsectors : hdr.sectors.length = divRoundUp size SectorSize := by
      have htaken := hadds.taken.numClear
      rw [List.length_cons] at htaken
      omega
    refine ⟨.status true, { st with fs := fs' }, _, by rw [Session.respond, hcreate, Option.map_some],
      .created (c := bytesOf fs'.disk (entryHeader fs' table' i)) ?_ ?_, freeMap', table', owned', owner', ?_, ?_,
      h.files_added hch hadds.lt hadds.free hroom.1 hadds.new, ?_, ?_, ?_⟩
    · rw [hnat]
      exact h.room_iff.2 hroom
    · rw [length_bytesOf, hnew, hbytes, hnat]
    · refine hs.sameFiles hc hadds.same (fun _ _ => by rw [hnew]; exact hadds.covers) hs.cached ?_
      intro id hd hid _
      refine ⟨hid, ?_⟩
      rw [hadds.free]
      exact fun hu => Bool.noConfusion hu
    · intro j hj hu
      refine h.exact_kept hch ?_ hj hu
      intro _ _
      rw [hnew, hbytes]
      exact hsectors
    · intro id
      refine (h.cursors id).imp_right ?_
      rintro ⟨hd, c, hid, hcur, hshows⟩
      refine ⟨hd, c, hid, hcur, h.shows_kept hch hshows ?_⟩
      rw [hadds.free]
      exact fun _ hu => Bool.noConfusion hu
    · rw [freeEntries_erase (matches_iff_key.1 hadds.new).1 hch.entries,
        Finset.card_erase_of_mem (mem_freeEntries.2 ⟨hadds.lt, hadds.free⟩), ← h.entries]
    · show a.room - sectorsFor _ = _
      rw [hnat, h.room, sectorsFor]
      omega

end Represents

namespace Represents

/-- Objects on the file that `Remove` removes show one that is gone; the others are as before. -/
theorem cursors_dropped (h : Represents st a freeMap table owned owner) {i : Nat}
    (hch : Changes st.fs fs' owner table table' i) {name : List Byte} (hi : i < NumDirEntries)
    (hold : Directory.Matches table name i) (id : Nat) :
    (Session.markRemoved st.handles (Directory.sector table i) id = none ∧ Store.forget a.cursors (key name) id = none) ∨
    ∃ hd c, Session.markRemoved st.handles (Directory.sector table i) id = some hd ∧
      Store.forget a.cursors (key name) id = some c ∧ Shows fs' table' hd c := by
  obtain ⟨huse, hkey⟩ := matches_iff_key.1 hold
  rcases h.cursors id with ⟨hid, hcur⟩ | ⟨hd, c, hid, hcur, hshows⟩
  · refine .inl ⟨?_, ?_⟩
    · rw [Session.markRemoved, hid, Option.map_none]
    · rw [Store.forget, hcur, Option.map_none]
  · refine .inr ⟨_, _, by rw [Session.markRemoved, hid, Option.map_some], by rw [Store.forget, hcur, Option.map_some], ?_⟩
    by_cases hsec : hd.sector = Directory.sector table i
    · rw [if_pos hsec]
      refine ⟨?_, ?_, fun hrem => Bool.noConfusion hrem⟩
      · split
        · exact hshows.position
        · exact hshows.position
      · intro _
        split
        · rfl
        · rename_i hne
          -- an object on that sector whose file is there would name it
          cases hrem : hd.removed with
          | true => exact hshows.gone hrem
          | false =>
            obtain ⟨j, hj, hu, hjsec, -, hfile⟩ := hshows.file hrem
            have hji := h.consistent.sector_inj hj hi hu huse (hjsec.trans hsec)
            rw [hfile, hji, hkey] at hne
            exact absurd rfl hne
    · rw [if_neg hsec, if_neg]
      · exact h.shows_kept hch hshows (fun _ _ heq => hsec heq.symm)
      · intro hfile
        cases hrem : hd.removed with
        | true =>
          rw [hshows.gone hrem] at hfile
          cases hfile
        | false =>
          obtain ⟨j, hj, hu, hjsec, -, hjfile⟩ := hshows.file hrem
          rw [hjfile, Option.some.injEq, ← hkey] at hfile
          have hji := h.consistent.entryKey_inj hj hi hu huse hfile
          rw [hji] at hjsec
          exact hsec hjsec.symm

/-- Looking a name up in the directory. -/
theorem find_name (h : Represents st a freeMap table owned owner) (junk : Nat → Buffer) (name : List Byte) :
    ∃ t, st.fs.fetchDirectory junk = some t ∧
      ((a.files (key name) = none ∧ Directory.find t name = -1) ∨
        ∃ i < NumDirEntries, Directory.Matches table name i ∧ Directory.find t name = Directory.sector table i) := by
  have hs := h.sound
  obtain ⟨t, ht, hagree⟩ := fetchDirectory_eq hs.disk.layout hs.disk.storesTable junk
  have hentry : ∀ j < NumDirEntries, Directory.SameEntry table t j := fun j hj => sameEntry_of_agree hagree hj
  refine ⟨t, ht, ?_⟩
  cases hidx : Directory.findIndex t name with
  | none =>
    refine .inl ⟨h.files_eq_none_iff.2 ?_, by rw [Directory.find, hidx]⟩
    intro i hi
    rw [← (hentry i hi).matches_iff]
    exact Directory.findIndex_eq_none_iff.1 hidx i hi
  | some i =>
    obtain ⟨hi, hmatch⟩ := Directory.findIndex_some hidx
    refine .inr ⟨i, hi, (hentry i hi).matches_iff.1 hmatch, ?_⟩
    rw [Directory.find, hidx]
    exact (hentry i hi).sector_eq

/-- `Remove` removes the file of that name, or there is none. -/
theorem remove (h : Represents st a freeMap table owned owner) (junk : Nat → Buffer) (name : List Byte) :
    ∃ r st' a', st.respond (.remove junk name) = some (r, st') ∧ a.Step (.remove junk name) r a' ∧
      Represented st' a' := by
  have hs := h.sound
  obtain ⟨t, ht, hfound⟩ := h.find_name junk name
  rcases remove_writes hs.disk junk name with
    ⟨hno, hremove⟩ | ⟨i, hi, fs', freeMap', table', hold, hremove, hmap, hcount, htable, hfree, hsame, hdisk⟩
  · refine ⟨.status false, st, a, ?_, .notRemoved (h.files_eq_none_iff.2 hno), freeMap, table, owned, owner, h⟩
    rw [Session.respond, ht, Option.bind_some, hremove, Option.map_some]
    rfl
  · have hch : Changes st.fs fs' owner table table' i := ⟨hsame, fun x _ hx => hdisk x hx⟩
    obtain ⟨huse, hkey⟩ := matches_iff_key.1 hold
    -- the disk after the call is consistent, with the map and the directory that were stored
    obtain ⟨success, fs1, hremove1, freeMap1, table1, owned', owner', hc1⟩ := remove_consistent hs.disk junk name
    rw [hremove, Option.some.injEq, Prod.mk.injEq] at hremove1
    obtain ⟨-, rfl⟩ := hremove1
    have hstored := fetchFreeMap_eq hc1.layout hmap (fun _ _ => 0)
    rw [fetchFreeMap_eq hc1.layout hc1.storesMap, Option.some.injEq] at hstored
    subst hstored
    have hc : Consistent fs' freeMap1 table' owned' owner' := by
      apply hc1.congr_table
      intro k hk
      have hbyte := htable k hk
      rw [hc1.storesTable k hk, Option.some.injEq] at hbyte
      exact hbyte.symm
    have hfind : Directory.find t name = Directory.sector table i := by
      rcases hfound with ⟨hnone, -⟩ | ⟨j, hj, hmatch, hfind⟩
      · exact absurd hold (h.files_eq_none_iff.1 hnone i hi)
      · obtain ⟨hu, hjkey⟩ := matches_iff_key.1 hmatch
        rw [hfind, hs.disk.entryKey_inj hj hi hu huse (hjkey.trans hkey.symm)]
    have hlen : (owned i).length = sectorsFor (bytesOf st.fs.disk (entryHeader st.fs table i)).length := by
      rw [hs.disk.used i hi huse, fileSectors, List.length_cons, length_bytesOf, sectorsFor, ← h.exact i hi huse,
        Nat.add_comm]
      rfl
    refine ⟨.status true, ⟨fs', Session.markRemoved st.handles (Directory.sector table i)⟩, _, ?_,
      .removed ((h.files _ _).2 ⟨i, hi, huse, hkey, rfl⟩), freeMap1, table', owned', owner', ?_, ?_,
      h.files_dropped hch hi hold hfree, h.cursors_dropped hch hi hold, ?_, ?_⟩
    · rw [Session.respond, ht, Option.bind_some, hremove, Option.map_some, hfind]
      rfl
    · refine hs.sameFiles hc (hs.disk.sameFiles hch) ?_ ?_ ?_
      · intro _ hu
        rw [hfree] at hu
        cases hu
      · intro id hd hid
        obtain ⟨old, hold', hfile, -⟩ := Session.markRemoved_some hid
        rw [hfile]
        exact hs.cached id old hold'
      · intro id hd hid hrem
        obtain ⟨old, hold', -, hkeep⟩ := Session.markRemoved_some hid
        obtain ⟨rfl, hne⟩ := hkeep hrem
        exact ⟨hold', fun _ => hne⟩
    · intro j hj hu
      refine h.exact_kept hch ?_ hj hu
      intro _ hui
      rw [hfree] at hui
      cases hui
    · rw [freeEntries_insert hi hfree hsame, Finset.card_insert_of_notMem, ← h.entries]
      rw [mem_freeEntries, huse]
      exact fun hmem => Bool.noConfusion hmem.2
    · show a.room + sectorsFor _ = _
      rw [hcount, hlen, h.room]

end Represents

/-! ## Open files -/

namespace Represents

/-- An object at `id` that shows `c`. -/
theorem setHandle (h : Represents st a freeMap table owned owner) (id : Nat) {hd : Handle} {c : Cursor}
    (hcov : hd.file.hdr.Covers hd.file.hdr.sectors) (hshows : Shows st.fs table hd c) :
    Represents { st with handles := Function.update st.handles id (some hd) }
      { a with cursors := Function.update a.cursors id (some c) } freeMap table owned owner := by
  have hs := h.sound
  refine ⟨⟨hs.disk, hs.covers, ?_, ?_⟩, h.exact, h.files, ?_, h.entries, h.room⟩
  · intro id' hd' hid'
    simp only at hid'
    rcases eq_or_ne id' id with rfl | hne
    · rw [Function.update_self, Option.some.injEq] at hid'
      rw [← hid']
      exact hcov
    · rw [Function.update_of_ne hne] at hid'
      exact hs.cached id' hd' hid'
  · intro id' hd' hid' hrem
    simp only at hid'
    rcases eq_or_ne id' id with rfl | hne
    · rw [Function.update_self, Option.some.injEq] at hid'
      rw [← hid'] at hrem ⊢
      obtain ⟨i, hi, hu, hsec, hhdr, -⟩ := hshows.file hrem
      exact ⟨i, hi, hu, hsec, hhdr⟩
    · rw [Function.update_of_ne hne] at hid'
      exact hs.current id' hd' hid' hrem
  · intro id'
    rcases eq_or_ne id' id with rfl | hne
    · exact .inr ⟨hd, c, Function.update_self _ _ _, Function.update_self _ _ _, hshows⟩
    · simp only [Function.update_of_ne hne]
      exact h.cursors id'

/-- An object that is open shows a cursor. -/
theorem exists_cursor (h : Represents st a freeMap table owned owner) {id : Nat} {hd : Handle}
    (hid : st.handles id = some hd) : ∃ c, a.cursors id = some c ∧ Shows st.fs table hd c := by
  rcases h.cursors id with ⟨hnone, -⟩ | ⟨hd', c, hid', hcur, hshows⟩
  · rw [hid] at hnone
    cases hnone
  · rw [hid, Option.some.injEq] at hid'
    rw [← hid'] at hshows
    exact ⟨c, hcur, hshows⟩

/-- The file of an object that is open, if it is there. -/
theorem exists_file (h : Represents st a freeMap table owned owner) {hd : Handle} {c : Cursor}
    (hshows : Shows st.fs table hd c) (hrem : hd.removed = false) :
    ∃ i < NumDirEntries, Directory.inUse table i = true ∧ hd.file.hdr = entryHeader st.fs table i ∧
      c = ⟨some (entryKey table i), hd.file.seekPosition⟩ ∧
      a.files (entryKey table i) = some (bytesOf st.fs.disk hd.file.hdr) := by
  obtain ⟨i, hi, hu, -, hhdr, hfile⟩ := hshows.file hrem
  refine ⟨i, hi, hu, hhdr, ?_, (h.files _ _).2 ⟨i, hi, hu, rfl, by rw [hhdr]⟩⟩
  obtain ⟨file, position⟩ := c
  rw [show file = some (entryKey table i) from hfile, show position = hd.file.seekPosition from hshows.position]

theorem openFound (h : Represents st a freeMap table owned owner) (junk : Nat → Buffer) (name : List Byte) {id : Nat}
    (type : Word) (hid : st.handles id = none) :
    ∃ r st' a', st.respond (.openFound junk name id type) = some (r, st') ∧ a.Step (.openFound junk name id type) r a' ∧
      Represented st' a' := by
  obtain ⟨t, ht, ⟨hnone, hfind⟩ | ⟨i, hi, hmatch, hfind⟩⟩ := h.find_name junk name
  · refine ⟨.status false, st, a, ?_, .notOpened hnone, freeMap, table, owned, owner, h⟩
    have hopen : Session.openFound st.fs junk name type = some none := by
      simp only [Session.openFound, ht, hfind, Option.bind_eq_bind, Option.bind_some]
      rfl
    rw [Session.respond, hid, hopen]
    rfl
  · obtain ⟨hu, hkey⟩ := matches_iff_key.1 hmatch
    have hlt := h.consistent.lt (h.consistent.sector_mem hi hu)
    have hpos : (Directory.sector table i).slt 0 = false := by
      have h1024 : NumSectors = 1024 := rfl
      rw [BitVec.slt_eq_decide, decide_eq_false_iff_not, BitVec.toInt_eq_toNat_of_lt (by omega)]
      exact Int.not_lt.2 (Int.natCast_nonneg _)
    have hopen : Session.openFound st.fs junk name type =
        some (some ⟨⟨entryHeader st.fs table i, 0, type⟩, Directory.sector table i, false⟩) := by
      simp only [Session.openFound, ht, hfind, hpos, OpenFile.openSector, h.consistent.fetch_entry hi hu,
        Option.bind_eq_bind, Option.bind_some, Option.map_some, Bool.false_eq_true, if_false]
    have hshows : Shows st.fs table ⟨⟨entryHeader st.fs table i, 0, type⟩, Directory.sector table i, false⟩
        ⟨some (key name), 0⟩ := by
      refine ⟨rfl, ?_, fun _ => ⟨i, hi, hu, rfl, rfl, by rw [hkey]⟩⟩
      intro hrem
      cases hrem
    refine ⟨.status true, _, _, ?_, .opened ((h.files _ _).2 ⟨i, hi, hu, hkey, rfl⟩), freeMap, table, owned, owner,
      h.setHandle id (h.sound.covers i hi hu) hshows⟩
    rw [Session.respond, hid, hopen]
    rfl

theorem close (h : Represents st a freeMap table owned owner) (id : Nat) :
    Represents { st with handles := Function.update st.handles id none }
      { a with cursors := Function.update a.cursors id none } freeMap table owned owner := by
  have hs := h.sound
  have hopen : ∀ id' hd, Function.update st.handles id none id' = some hd → st.handles id' = some hd := by
    intro id' hd hid'
    rcases eq_or_ne id' id with rfl | hne
    · rw [Function.update_self] at hid'
      cases hid'
    · rwa [Function.update_of_ne hne] at hid'
  refine ⟨⟨hs.disk, hs.covers, fun id' hd hid' => hs.cached id' hd (hopen id' hd hid'),
    fun id' hd hid' => hs.current id' hd (hopen id' hd hid')⟩, h.exact, h.files, ?_, h.entries, h.room⟩
  intro id'
  rcases eq_or_ne id' id with rfl | hne
  · exact .inl ⟨Function.update_self _ _ _, Function.update_self _ _ _⟩
  · simp only [Function.update_of_ne hne]
    exact h.cursors id'

/-- An object at another position in its file. -/
theorem setPosition (h : Represents st a freeMap table owned owner) {id : Nat} {hd : Handle} {c : Cursor}
    (hid : st.handles id = some hd) (hshows : Shows st.fs table hd c) (position : Word) :
    Represents { st with handles := st.setFile id hd { hd.file with seekPosition := position } }
      { a with cursors := Function.update a.cursors id (some { c with position := position }) } freeMap table owned
      owner :=
  h.setHandle id (h.sound.cached id hd hid) ⟨rfl, hshows.gone, hshows.file⟩

theorem seek (h : Represents st a freeMap table owned owner) {id : Nat} (position : Word)
    (hid : st.handles id ≠ none) :
    ∃ r st' a', st.respond (.seek id position) = some (r, st') ∧ a.Step (.seek id position) r a' ∧
      Represented st' a' := by
  obtain ⟨hd, hid⟩ := Option.ne_none_iff_exists'.1 hid
  obtain ⟨c, hcur, hshows⟩ := h.exists_cursor hid
  exact ⟨.done, _, _, by rw [Session.respond, hid, Option.map_some]; rfl, .sought hcur, freeMap, table, owned, owner,
    h.setPosition hid hshows position⟩

end Represents

/-! ## Reading and writing -/

namespace Represents

/-- Writing to the file of an object changes the bytes of that file. -/
theorem writeFile (h : Represents st a freeMap table owned owner) {i : Nat} (hi : i < NumDirEntries)
    (hu : Directory.inUse table i = true) {disk : Disk}
    (hframe : ∀ x, x / SectorSize ∉ (entryHeader st.fs table i).sectors → disk x = st.fs.disk x) :
    Represents { st with fs := { st.fs with disk := disk } }
      { a with
        files := Function.update a.files (entryKey table i)
          (some (bytesOf disk (entryHeader st.fs table i))) } freeMap table owned owner := by
  have hs := h.sound
  have hheader : ∀ j < NumDirEntries, Directory.inUse table j = true →
      entryHeader { st.fs with disk := disk } table j = entryHeader st.fs table j :=
    fun j hj huj => hs.disk.header_written hi hu hframe (.inr ⟨j, hj, huj, rfl⟩)
  refine ⟨⟨hs.disk.writeData hi hu hframe, ?_, hs.cached, ?_⟩, ?_, ?_, ?_, h.entries, h.room⟩
  · intro j hj huj
    rw [hheader j hj huj]
    exact hs.covers j hj huj
  · intro id hd hid hrem
    obtain ⟨j, hj, huj, hsec, hhdr⟩ := hs.current id hd hid hrem
    exact ⟨j, hj, huj, hsec, hhdr.trans (hheader j hj huj).symm⟩
  · intro j hj huj
    rw [hheader j hj huj]
    exact h.exact j hj huj
  · intro k c
    show Function.update a.files _ _ k = some c ↔ _
    rcases eq_or_ne k (entryKey table i) with rfl | hk
    · rw [Function.update_self, Option.some.injEq]
      constructor
      · rintro rfl
        exact ⟨i, hi, hu, rfl, by rw [hheader i hi hu]⟩
      · rintro ⟨j, hj, huj, hkey, hc⟩
        rw [hs.disk.entryKey_inj hj hi huj hu hkey, hheader i hi hu] at hc
        exact hc
    · rw [Function.update_of_ne hk, h.files]
      refine exists_congr fun j => and_congr_right fun hj => and_congr_right fun huj => and_congr_right fun hkey => ?_
      have hij : i ≠ j := by
        rintro rfl
        exact hk hkey.symm
      rw [hheader j hj huj, (bytesOf_frame fun x hx =>
        hs.disk.other_written hi hu hframe hij (hs.disk.data_mem hj huj hx) :
        bytesOf disk (entryHeader st.fs table j) = bytesOf st.fs.disk (entryHeader st.fs table j))]
  · intro id
    refine (h.cursors id).imp_right ?_
    rintro ⟨hd, c, hid, hcur, hshows⟩
    refine ⟨hd, c, hid, hcur, hshows.position, hshows.gone, ?_⟩
    intro hrem
    obtain ⟨j, hj, huj, hsec, hhdr, hfile⟩ := hshows.file hrem
    exact ⟨j, hj, huj, hsec, hhdr.trans (hheader j hj huj).symm, hfile⟩

theorem read (h : Represents st a freeMap table owned owner) {id : Nat} {hd : Handle} (junk into : Buffer) (off : Nat)
    {numBytes : Word} (hid : st.handles id = some hd)
    (hp : OpenFile.Proper hd.file.hdr numBytes hd.file.seekPosition) :
    ∃ r st' a', st.respond (.read id junk into off numBytes) = some (r, st') ∧
      a.Step (.read id junk into off numBytes) r a' ∧ Represented st' a' := by
  have hcov := h.sound.cached id hd hid
  obtain ⟨c, hcur, hshows⟩ := h.exists_cursor hid
  obtain ⟨⟨n, into'⟩, hread⟩ :=
    Option.ne_none_iff_exists'.1 (OpenFile.readAt_ne_none hcov hp st.fs.disk junk into off)
  have hstep : st.respond (.read id junk into off numBytes) = some (.data n into',
      { st with handles := st.setFile id hd { hd.file with seekPosition := hd.file.seekPosition + n } }) := by
    rw [Session.respond, hid, Option.bind_some, OpenFile.read, hread]
    rfl
  refine ⟨_, _, _, hstep, ?_, freeMap, table, owned, owner,
    h.setPosition hid hshows (hd.file.seekPosition + n)⟩
  cases hrem : hd.removed with
  | false =>
    obtain ⟨i, hi, hu, hhdr, rfl, hfile⟩ := h.exists_file hshows hrem
    rw [readAt_window hcov hp, Option.some.injEq, Prod.mk.injEq] at hread
    obtain ⟨rfl, rfl⟩ := hread
    exact .read hcur hfile
  | true =>
    obtain ⟨file, position⟩ := c
    obtain rfl : file = none := hshows.gone hrem
    obtain rfl : position = hd.file.seekPosition := hshows.position
    exact .readGone hcur

theorem readAt (h : Represents st a freeMap table owned owner) {id : Nat} {hd : Handle} (junk into : Buffer)
    (off : Nat) {numBytes position : Word} (hid : st.handles id = some hd)
    (hp : OpenFile.Proper hd.file.hdr numBytes position) :
    ∃ r st' a', st.respond (.readAt id junk into off numBytes position) = some (r, st') ∧
      a.Step (.readAt id junk into off numBytes position) r a' ∧ Represented st' a' := by
  have hcov := h.sound.cached id hd hid
  obtain ⟨c, hcur, hshows⟩ := h.exists_cursor hid
  obtain ⟨⟨n, into'⟩, hread⟩ :=
    Option.ne_none_iff_exists'.1 (OpenFile.readAt_ne_none hcov hp st.fs.disk junk into off)
  have hstep : st.respond (.readAt id junk into off numBytes position) = some (.data n into', st) := by
    rw [Session.respond, hid, Option.bind_some, hread, Option.map_some]
  refine ⟨_, _, a, hstep, ?_, freeMap, table, owned, owner, h⟩
  cases hrem : hd.removed with
  | false =>
    obtain ⟨i, hi, hu, hhdr, rfl, hfile⟩ := h.exists_file hshows hrem
    rw [readAt_window hcov hp, Option.some.injEq, Prod.mk.injEq] at hread
    obtain ⟨rfl, rfl⟩ := hread
    exact .readAt hcur hfile
  | true =>
    obtain ⟨file, position⟩ := c
    obtain rfl : file = none := hshows.gone hrem
    exact .readAtGone hcur

/-- A proper write through an object whose file is there. -/
theorem written (h : Represents st a freeMap table owned owner) {id : Nat} {hd : Handle} (junk : Nat → Buffer)
    (src : Buffer) {numBytes position : Word} (hid : st.handles id = some hd) (hrem : hd.removed = false)
    (hp : OpenFile.Proper hd.file.hdr numBytes position) :
    ∃ k c disk', a.cursors id = some ⟨some k, hd.file.seekPosition⟩ ∧ a.files k = some c ∧
      OpenFile.writeAt st.fs.disk hd.file.hdr junk src numBytes position =
        some (BitVec.ofNat 32 (window c numBytes position).length, disk') ∧
      Represents { st with fs := { st.fs with disk := disk' } }
        { a with
          files := Function.update a.files k
            (some (splice c (taken src (window c numBytes position).length) position)) } freeMap table owned
        owner := by
  obtain ⟨c, hcur, hshows⟩ := h.exists_cursor hid
  obtain ⟨i, hi, hu, hhdr, rfl, hfile⟩ := h.exists_file hshows hrem
  obtain ⟨disk', hwrite, hbytes, hframe⟩ := writeAt_splice (h.sound.cached id hd hid)
    (by rw [hhdr]; exact h.consistent.nodup_data hi hu) hp st.fs.disk junk src
  refine ⟨_, _, disk', hcur, hfile, hwrite, ?_⟩
  rw [hhdr] at hframe
  rw [← hbytes, hhdr]
  exact h.writeFile hi hu hframe

theorem write (h : Represents st a freeMap table owned owner) {id : Nat} {hd : Handle} (junk : Nat → Buffer)
    (src : Buffer) {numBytes : Word} (hid : st.handles id = some hd) (hrem : hd.removed = false)
    (hp : OpenFile.Proper hd.file.hdr numBytes hd.file.seekPosition) :
    ∃ r st' a', st.respond (.write id junk src numBytes) = some (r, st') ∧
      a.Step (.write id junk src numBytes) r a' ∧ Represented st' a' := by
  obtain ⟨k, c, disk', hcur, hfile, hwrite, h'⟩ := h.written junk src hid hrem hp
  obtain ⟨c', hcur', hshows⟩ := h'.exists_cursor hid
  rw [show a.cursors id = some c' from hcur', Option.some.injEq] at hcur
  subst hcur
  refine ⟨_, _, _, ?_, .wrote hcur' hfile, freeMap, table, owned, owner, h'.setPosition hid hshows _⟩
  rw [Session.respond, hid, Option.bind_some, OpenFile.write, hwrite]
  rfl

theorem writeAt (h : Represents st a freeMap table owned owner) {id : Nat} {hd : Handle} (junk : Nat → Buffer)
    (src : Buffer) {numBytes position : Word} (hid : st.handles id = some hd) (hrem : hd.removed = false)
    (hp : OpenFile.Proper hd.file.hdr numBytes position) :
    ∃ r st' a', st.respond (.writeAt id junk src numBytes position) = some (r, st') ∧
      a.Step (.writeAt id junk src numBytes position) r a' ∧ Represented st' a' := by
  obtain ⟨k, c, disk', hcur, hfile, hwrite, h'⟩ := h.written junk src hid hrem hp
  refine ⟨_, _, _, ?_, .wroteAt hcur hfile, freeMap, table, owned, owner, h'⟩
  rw [Session.respond, hid, Option.bind_some, hwrite, Option.map_some]

theorem reboot (h : Represents st a freeMap table owned owner) :
    ∃ r st' a', st.respond .reboot = some (r, st') ∧ a.Step .reboot r a' ∧ Represented st' a' := by
  have hs := h.sound
  obtain ⟨fs', hmount, hdisk, hc⟩ := mount_spec hs.disk
  have hheader : ∀ i, entryHeader fs' table i = entryHeader st.fs table i := by
    intro i
    rw [entryHeader, entryHeader, hdisk]
  refine ⟨.done, ⟨fs', fun _ => none⟩, _, by rw [Session.respond, hmount, Option.map_some], .rebooted, freeMap, table,
    owned, owner, ⟨hc, ?_, ?_, ?_⟩, ?_, ?_, fun _ => .inl ⟨rfl, rfl⟩, h.entries, h.room⟩
  · intro i hi hu
    rw [hheader i]
    exact hs.covers i hi hu
  · intro id hd hid
    cases hid
  · intro id hd hid
    cases hid
  · intro i hi hu
    rw [hheader i]
    exact h.exact i hi hu
  · intro k c
    simp only [hheader, hdisk]
    exact h.files k c

end Represents

/-! ## Runs -/

/-- **One call** is answered as the store answers it. -/
theorem respond_simulates : Simulates Session.respond Session.MayCall Store.Step Represented := by
  rintro st a e ⟨freeMap, table, owned, owner, h⟩ hok
  cases e with
  | create junk name initialSize =>
    obtain ⟨n, hn, rfl⟩ := exists_ofNat_of_inRange hok.1 hok.2
    exact h.create junk name hn
  | remove junk name => exact h.remove junk name
  | openFound junk name id type => exact h.openFound junk name type hok
  | close id => exact ⟨_, _, _, rfl, .closed, freeMap, table, owned, owner, h.close id⟩
  | seek id position => exact h.seek position hok
  | read id junk into off numBytes =>
    obtain ⟨hd, hid, hp⟩ := hok
    exact h.read junk into off hid hp
  | write id junk src numBytes =>
    obtain ⟨hd, hid, hrem, hp⟩ := hok
    exact h.write junk src hid hrem hp
  | readAt id junk into off numBytes position =>
    obtain ⟨hd, hid, hp⟩ := hok
    exact h.readAt junk into off hid hp
  | writeAt id junk src numBytes position =>
    obtain ⟨hd, hid, hrem, hp⟩ := hok
    exact h.writeAt junk src hid hrem hp
  | reboot => exact h.reboot

/-- The free sectors and the used ones. -/
theorem Consistent.numClear_used (h : Consistent fs freeMap table owned owner) :
    freeMap.numClear + (usedSectors fs.disk table).length = NumSectors := by
  have hset : freeMap.clearSet = Finset.range NumSectors \ (usedSectors fs.disk table).toFinset := by
    ext s
    rw [BitMap.mem_clearSet, h.storesMap.numBits, Finset.mem_sdiff, Finset.mem_range, List.mem_toFinset]
    refine and_congr_right fun hs => ?_
    rw [← h.mem_usedSectors hs, Bool.not_eq_true]
  have hsub : (usedSectors fs.disk table).toFinset ⊆ Finset.range NumSectors := by
    intro s hs
    exact Finset.mem_range.2 (h.lt_of_mem_usedSectors (List.mem_toFinset.1 hs))
  have hcard := Finset.card_sdiff_add_card_eq_card hsub
  rw [← hset, ← BitMap.numClear_eq_card, List.toFinset_card_of_nodup h.nodup_usedSectors, Finset.card_range] at hcard
  exact hcard

/-- A formatted disk with nothing open. -/
theorem format_represented {disk : Disk} {junk : Nat → Buffer} (hf : format disk junk = some fs) :
    Represented ⟨fs, fun _ => none⟩ Store.empty := by
  obtain ⟨fs', hf', freeMap, table, owned, owner, hc, hunused⟩ := format_spec disk junk
  rw [hf, Option.some.injEq] at hf'
  subst hf'
  have hno : ∀ i < NumDirEntries, Directory.inUse table i ≠ true := by
    intro i hi
    rw [hunused i hi]
    exact Bool.false_ne_true
  refine ⟨freeMap, table, owned, owner, ⟨hc, fun i hi hu => absurd hu (hno i hi), ?_, ?_⟩,
    fun i hi hu => absurd hu (hno i hi), ?_, fun _ => .inl ⟨rfl, rfl⟩, ?_, ?_⟩
  · intro id hd hid
    cases hid
  · intro id hd hid
    cases hid
  · intro k c
    refine iff_of_false (Option.some_ne_none c).symm ?_
    rintro ⟨i, hi, hu, -⟩
    exact hno i hi hu
  · have hall : freeEntries table = Finset.range NumDirEntries := Finset.filter_true_of_mem (fun i hi =>
      hunused i (Finset.mem_range.1 hi))
    rw [hall, Finset.card_range]
    rfl
  · obtain ⟨hmap, hdir⟩ := format_headers hf
    have hentries : (List.range NumDirEntries).flatMap (entrySectors fs.disk table) = [] := by
      rw [List.flatMap_eq_nil_iff]
      intro i hi
      rw [entrySectors, if_neg (hno i (List.mem_range.1 hi))]
    have hused := hc.numClear_used
    rw [usedSectors, hc.mapOnDisk, hc.dirOnDisk, hentries, List.append_nil, List.length_append, List.length_append,
      hmap, hdir] at hused
    have h1024 : NumSectors = 1024 := rfl
    show 1016 = freeMap.numClear
    simp only [List.length_cons, List.length_nil] at hused
    omega

/-- **The file system is a store of named files**, over every run from a formatted disk of the calls that may be
made, with Nachos started again at any point: it answers as the store does, and no call fails. -/
theorem file_store {disk : Disk} {junk : Nat → Buffer} {fs : FileSystem} (hf : format disk junk = some fs)
    {es : List (StoreCall × Reply)} {st : Session}
    (h : Trace Session.respond Session.MayCall ⟨fs, fun _ => none⟩ es st) :
    ∃ a, Allows Store.Step Store.empty es a ∧ Represented st a ∧
      ∀ e, st.MayCall e → st.respond e ≠ none := by
  obtain ⟨a, hallows, hrep⟩ := respond_simulates.trace (format_represented hf) h
  exact ⟨a, hallows, hrep, fun e hok => respond_simulates.progress hrep hok⟩

/-- What was read. -/
def Reply.bytes (n : Nat) : Reply → List Byte
  | .data _ into => (List.range n).map into
  | _ => []

/-- `f` is created, opened and written to; Nachos is started again, `f` opened, and read. -/
theorem storeRun_eval : (do
      let fs ← format (fun _ => 0) Session.zeros
      let created ← Session.respond ⟨fs, fun _ => none⟩ (.create Session.zeros [102] 128)
      let opened ← created.2.respond (.openFound Session.zeros [102] 0 0)
      let written ← opened.2.respond (.writeAt 0 Session.zeros (fun _ => 7) 3 100)
      let booted ← written.2.respond .reboot
      let again ← booted.2.respond (.openFound Session.zeros [102] 0 0)
      let read ← again.2.respond (.readAt 0 (Session.zeros 0) (Session.zeros 0) 0 8 99)
      some ([created.2.handles 0, booted.2.handles 0].map (·.isNone),
        [opened.2.handles 0, again.2.handles 0].map (fun hd => hd.map (·.removed)), read.1.bytes 5)) =
      some ([true, true], [some false, some false], [0, 7, 7, 7, 0]) := by
  decide +kernel

/-- The calls of that run: what was written before Nachos was started again is read. -/
theorem file_store_rebooted : ∃ fs es call st a, format (fun _ => 0) Session.zeros = some fs ∧
    Trace Session.respond Session.MayCall ⟨fs, fun _ => none⟩ (es ++ [call]) st ∧
    call.2.bytes 5 = [0, 7, 7, 7, 0] ∧ Allows Store.Step Store.empty (es ++ [call]) a ∧ Represented st a := by
  have heval := storeRun_eval
  simp only [Option.bind_eq_bind, Option.bind_eq_some_iff, Option.some.injEq, Prod.mk.injEq, List.map_cons,
    List.map_nil, List.cons.injEq, and_true] at heval
  obtain ⟨fs, hf, ⟨r1, st1⟩, h1, ⟨r2, st2⟩, h2, ⟨r3, st3⟩, h3, ⟨r4, st4⟩, h4, ⟨r5, st5⟩, h5, ⟨r6, st6⟩, h6,
    ⟨hnone1, hnone4⟩, ⟨hopen2, hopen5⟩, hbytes⟩ := heval
  obtain ⟨hd2, hid2, hrem2⟩ := Option.map_eq_some_iff.1 hopen2
  obtain ⟨hd5, hid5, -⟩ := Option.map_eq_some_iff.1 hopen5
  have hproper : ∀ h, OpenFile.Proper h 3 100 := fun _ => .inr (.inr ⟨by decide, by decide⟩)
  have hproper' : ∀ h, OpenFile.Proper h 8 99 := fun _ => .inr (.inr ⟨by decide, by decide⟩)
  have m1 : Session.MayCall ⟨fs, fun _ => none⟩ (.create Session.zeros [102] 128) := ⟨by decide, by decide⟩
  have m2 : st1.MayCall (.openFound Session.zeros [102] 0 0) := Option.isNone_iff_eq_none.1 hnone1
  have m3 : st2.MayCall (.writeAt 0 Session.zeros (fun _ => 7) 3 100) := ⟨hd2, hid2, hrem2, hproper _⟩
  have m4 : st3.MayCall .reboot := trivial
  have m5 : st4.MayCall (.openFound Session.zeros [102] 0 0) := Option.isNone_iff_eq_none.1 hnone4
  have m6 : st5.MayCall (.readAt 0 (Session.zeros 0) (Session.zeros 0) 0 8 99) := ⟨hd5, hid5, hproper' _⟩
  have t6 := (((((Trace.nil.snoc m1 h1).snoc m2 h2).snoc m3 h3).snoc m4 h4).snoc m5 h5).snoc m6 h6
  obtain ⟨a, hallows, hrep, -⟩ := file_store hf t6
  exact ⟨fs, _, _, st6, a, hf, t6, hbytes, hallows, hrep⟩

end FileSystem

end Nachos
